import NaustJmap.ObjectDB.Changes

/-!
# What a Callback Can Stage

The operations of `Update` run on one store, as they do while the lease holds.
`StagingStep` says once what one operation can do to the staged records; everything proved
about a whole callback goes through `Callback.exec_induct`, which lifts a property kept by every
staging step to any program of operations.
-/

namespace NaustJmap.ObjectDB

open Library

/-! ## The record an update sees -/

/-- The record as the update sees it: staged changes first, then committed state. -/
def Update.view (s : Store) (u : Update) (k : RecKey) : Option Object :=
  match u.staged[k]? with
  | some st => st.new
  | none => s.objs[k]?

/-- The staged record a write starts from; `quiet` is what a first write would make it. -/
def Update.base (s : Store) (u : Update) (k : RecKey) (quiet : Bool) : StagedRecord :=
  u.staged[k]?.getD { old := s.objs[k]?, quiet := quiet }

def StagedRecord.write (st : StagedRecord) (new : Option Object) (quiet : Bool) : StagedRecord where
  old := st.old
  new := new
  created := st.created
  quiet := quiet

def Update.CacheOk (s : Store) (u : Update) : Prop :=
  ∀ (k : RecKey) (obj : Object), u.read[k]? = some obj → s.objs[k]? = some obj

def WriteOp.target : WriteOp → Option RecKey
  | .put typeName id _ => some ⟨typeName, id⟩
  | .putInternal typeName id _ => some ⟨typeName, id⟩
  | .destroy typeName id => some ⟨typeName, id⟩
  | _ => none

/-- One staging step on the store `s`. -/
inductive StagingStep (db : DB) (draw : ℕ → JmapId) (s : Store) (u : Update) :
    List WriteOp → Map RecKey StagedRecord → ℕ → Prop where
  /-- Nothing is staged: a read, a failed write, a state bump or a tag. -/
  | same {ops : List WriteOp} (h : ∀ op ∈ ops, op.target = none) :
      StagingStep db draw s u ops u.staged u.createSeq
  | create {typeName : String} {t : TypeDesc} {obj : Object}
      (ht : db.types[typeName]? = some t) (hid : obj[("id" : String)]? = none)
      (hkinds : checkKinds db.scan t obj none = .ok ()) :
      StagingStep db draw s u []
        (u.staged.insert ⟨typeName, draw u.createSeq⟩
          { new := some (obj.insert "id" (quoteId (draw u.createSeq))), created := true })
        (u.createSeq + 1)
  | put {k : RecKey} {t : TypeDesc} {cur obj : Object}
      (ht : db.types[k.typeName]? = some t) (hid : objectId db.scan obj = some k.id)
      (hview : u.view s k = some cur) (hkinds : checkKinds db.scan t obj (some cur) = .ok ()) :
      StagingStep db draw s u [.put k.typeName k.id obj]
        (u.staged.insert k ((u.base s k false).write (some obj) false)) u.createSeq
  | putInternal {k : RecKey} {t : TypeDesc} {cur obj : Object}
      (ht : db.types[k.typeName]? = some t) (hid : objectId db.scan obj = some k.id)
      (hview : u.view s k = some cur) (hkinds : checkKinds db.scan t obj (some cur) = .ok ())
      (hidden : ∀ name ∈ diffProps cur obj, t.hides name) :
      StagingStep db draw s u [.putInternal k.typeName k.id obj]
        (u.staged.insert k ((u.base s k true).write (some obj) (u.base s k true).quiet))
        u.createSeq
  | destroy {k : RecKey} {t : TypeDesc} {cur : Object}
      (ht : db.types[k.typeName]? = some t) (hview : u.view s k = some cur) :
      StagingStep db draw s u [.destroy k.typeName k.id]
        (u.staged.insert k ((u.base s k false).write none (u.base s k false).quiet)) u.createSeq

/-! ## Each operation is a staging step -/

/-- What an operation leaves behind: a staging step, an intact cache, the same sequence. -/
structure OpSpec (db : DB) (draw : ℕ → JmapId) (s : Store) (u u' : Update)
    (ops : List WriteOp) : Prop where
  step : StagingStep db draw s u ops u'.staged u'.createSeq
  cache : u'.CacheOk s
  sequence : u'.sequence = u.sequence

variable {u' : Update} {k : RecKey} {st : StagedRecord} {typeName : String} {id : JmapId}
  {r : Except Err Unit × Update} {obj : Object}

section Operations

variable {db : DB} {draw : ℕ → JmapId} {s : Store} {u : Update}

def effective (op : WriteOp) (r : Except Err Unit) : List WriteOp :=
  match r with
  | .ok () => [op]
  | .error _ => []

theorem OpSpec.unchanged (hc : u.CacheOk s) : OpSpec db draw s u u [] :=
  ⟨.same (by simp), hc, rfl⟩

theorem OpSpec.of_same (hc : u'.CacheOk s) (hstaged : u'.staged = u.staged)
    (hcreate : u'.createSeq = u.createSeq) (hseq : u'.sequence = u.sequence) :
    OpSpec db draw s u u' [] := by
  refine ⟨?_, hc, hseq⟩
  rw [hstaged, hcreate]
  exact .same (by simp)

theorem OpSpec.of_stage (hc : u'.CacheOk s) (hstaged : u'.staged = u.staged)
    (hcreate : u'.createSeq = u.createSeq) (hseq : u'.sequence = u.sequence) {ops : List WriteOp}
    (hstep : StagingStep db draw s u ops (u.staged.insert k st) u.createSeq) :
    OpSpec db draw s u (u'.stage k st) ops := by
  refine ⟨?_, hc, hseq⟩
  simpa only [Update.stage, hstaged, hcreate] using hstep

theorem getCommitted_spec (hc : u.CacheOk s) {r : Except Err Object × Update}
    (hr : (Update.getCommitted db typeName id u).run s = r) :
    (∀ obj, r.1 = .ok obj → s.objs[RecKey.mk typeName id]? = some obj) ∧
      r.2.CacheOk s ∧ r.2.staged = u.staged ∧ r.2.createSeq = u.createSeq ∧
      r.2.sequence = u.sequence := by
  unfold Update.getCommitted at hr
  split at hr
  · rename_i obj hread
    subst hr
    exact ⟨fun o ho => by simpa using (hc _ _ hread).trans (by simpa using ho), hc, rfl, rfl, rfl⟩
  · split at hr
    · subst hr
      exact ⟨fun o ho => by simp at ho, hc, rfl, rfl, rfl⟩
    · rw [Reads.run_bind, Reads.run_get] at hr
      split at hr
      · subst hr
        exact ⟨fun o ho => by simp at ho, hc, rfl, rfl, rfl⟩
      · rename_i obj hobj
        subst hr
        refine ⟨fun o ho => hobj.trans (by simpa using ho), ?_, rfl, rfl, rfl⟩
        intro k o hk
        simp only [Reads.run_pure] at hk
        rw [Map.getElem?_insert] at hk
        split at hk
        · rename_i hkey
          rw [← hkey, hobj, hk]
        · exact hc k o hk

theorem get_spec (hc : u.CacheOk s) {r : Except Err Object × Update}
    (hr : (Update.get db typeName id u).run s = r) :
    (∀ obj, r.1 = .ok obj → u.view s ⟨typeName, id⟩ = some obj) ∧
      r.2.CacheOk s ∧ r.2.staged = u.staged ∧ r.2.createSeq = u.createSeq ∧
      r.2.sequence = u.sequence := by
  unfold Update.get at hr
  unfold Update.view
  split at hr
  · rename_i st hst
    split at hr <;> subst hr
    · exact ⟨fun o ho => by simp at ho, hc, rfl, rfl, rfl⟩
    · rename_i obj hnew
      refine ⟨fun o ho => ?_, hc, rfl, rfl, rfl⟩
      simpa [hst, hnew] using ho
  · rename_i hst
    simpa [hst] using getCommitted_spec hc hr

theorem get_notFound (hr : (Update.get db typeName id u).run s = (.error .notFound, u')) :
    u.view s ⟨typeName, id⟩ = none := by
  unfold Update.get at hr
  unfold Update.view
  cases hst : u.staged[RecKey.mk typeName id]? with
  | some st =>
    rw [hst] at hr
    cases hnew : st.new with
    | none => exact hnew
    | some obj =>
      dsimp only at hr
      rw [hnew] at hr
      cases hr
  | none =>
    rw [hst] at hr
    dsimp only at hr
    unfold Update.getCommitted at hr
    split at hr
    · cases hr
    split at hr
    · cases hr
    · rw [Reads.run_bind, Reads.run_get] at hr
      cases hobj : s.objs[RecKey.mk typeName id]? with
      | none => rfl
      | some obj =>
        rw [hobj] at hr
        cases hr

theorem get_opSpec (hc : u.CacheOk s) {r : Except Err Object × Update}
    (hr : (Update.get db typeName id u).run s = r) : OpSpec db draw s u r.2 [] := by
  obtain ⟨-, hcache, hstaged, hcreate, hseq⟩ := get_spec hc hr
  exact .of_same hcache hstaged hcreate hseq

theorem create_opSpec (hc : u.CacheOk s) {r : Except Err JmapId × Update}
    (hr : (Update.create db draw typeName obj u).run s = r) : OpSpec db draw s u r.2 [] := by
  unfold Update.create at hr
  split at hr
  · subst hr; exact .unchanged hc
  · rename_i t ht
    split at hr
    · subst hr; exact .unchanged hc
    · rename_i hid
      split at hr
      · subst hr; exact .unchanged hc
      · rename_i hkinds
        subst hr
        exact ⟨.create ht (by simpa using hid) hkinds, hc, rfl⟩

theorem base_of_staged (h : u.staged[k]? = some st) (quiet : Bool) : u.base s k quiet = st := by
  simp [Update.base, h]

theorem base_of_committed {old : Object} (h : u.staged[k]? = none) (hold : s.objs[k]? = some old)
    (quiet : Bool) : u.base s k quiet = { old := some old, quiet := quiet } := by
  simp [Update.base, h, hold]

theorem put_opSpec (hc : u.CacheOk s) (hr : (Update.put db typeName id obj u).run s = r) :
    OpSpec db draw s u r.2 (effective (.put typeName id obj) r.1) := by
  unfold Update.put at hr
  split at hr
  · subst hr; exact .unchanged hc
  rename_i t ht
  split at hr
  · subst hr; exact .unchanged hc
  rename_i hid
  have hid : objectId db.scan obj = some id := by simpa using hid
  split at hr
  · rename_i st hst
    split at hr
    · subst hr; exact .unchanged hc
    · rename_i cur hnew
      split at hr
      · subst hr; exact .unchanged hc
      · rename_i hkinds
        subst hr
        refine ⟨?_, hc, rfl⟩
        have hview : u.view s ⟨typeName, id⟩ = some cur := by simp [Update.view, hst, hnew]
        have := @StagingStep.put db draw s u ⟨typeName, id⟩ _ _ _ ht hid hview hkinds
        rwa [base_of_staged hst] at this
  · rename_i hst
    rw [Reads.run_bind] at hr
    generalize hg : (Update.getCommitted db typeName id u).run s = g at hr
    obtain ⟨hobj, hcache, hstaged, hcreate, hseq⟩ := getCommitted_spec hc hg
    obtain ⟨e | old, u'⟩ := g <;> dsimp only at hobj hcache hstaged hcreate hseq hr
    · subst hr
      exact .of_same hcache hstaged hcreate hseq
    · split at hr
      · subst hr
        exact .of_same hcache hstaged hcreate hseq
      · rename_i hkinds
        subst hr
        have hold := hobj old rfl
        have hview : u.view s ⟨typeName, id⟩ = some old := by simp [Update.view, hst, hold]
        have hstep := @StagingStep.put db draw s u ⟨typeName, id⟩ _ _ _ ht hid hview hkinds
        rw [base_of_committed hst hold] at hstep
        exact .of_stage hcache hstaged hcreate hseq hstep

theorem putInternal_opSpec (hc : u.CacheOk s)
    (hr : (Update.putInternal db typeName id obj u).run s = r) :
    OpSpec db draw s u r.2 (effective (.putInternal typeName id obj) r.1) := by
  unfold Update.putInternal at hr
  split at hr
  · subst hr; exact .unchanged hc
  rename_i t ht
  split at hr
  · subst hr; exact .unchanged hc
  rename_i hid
  have hid : objectId db.scan obj = some id := by simpa using hid
  rw [Reads.run_bind] at hr
  generalize hg : (Update.get db typeName id u).run s = g at hr
  obtain ⟨hobj, hcache, hstaged, hcreate, hseq⟩ := get_spec hc hg
  obtain ⟨e | prior, u'⟩ := g <;> dsimp only at hobj hcache hstaged hcreate hseq hr
  · subst hr
    exact .of_same hcache hstaged hcreate hseq
  split at hr
  · subst hr
    exact .of_same hcache hstaged hcreate hseq
  rename_i hkinds
  split at hr
  · subst hr
    exact .of_same hcache hstaged hcreate hseq
  rename_i hnone
  have hidden : ∀ name ∈ diffProps prior obj, t.hides name := by simpa using hnone
  have hstep := @StagingStep.putInternal db draw s u ⟨typeName, id⟩ _ _ _ ht hid
    (hobj prior rfl) hkinds hidden
  rw [hstaged] at hr
  split at hr
  · rename_i st hst
    subst hr
    rw [base_of_staged hst] at hstep
    exact .of_stage hcache hstaged hcreate hseq hstep
  · rename_i hst
    subst hr
    have hold : s.objs[RecKey.mk typeName id]? = some prior := by
      simpa [Update.view, hst] using hobj prior rfl
    rw [base_of_committed hst hold] at hstep
    exact .of_stage hcache hstaged hcreate hseq hstep

theorem destroy_opSpec (hc : u.CacheOk s) (hr : (Update.destroy db typeName id u).run s = r) :
    OpSpec db draw s u r.2 (effective (.destroy typeName id) r.1) := by
  unfold Update.destroy at hr
  split at hr
  · subst hr; exact .unchanged hc
  rename_i t ht
  split at hr
  · rename_i st hst
    split at hr
    · subst hr; exact .unchanged hc
    · rename_i cur hnew
      subst hr
      refine ⟨?_, hc, rfl⟩
      have hview : u.view s ⟨typeName, id⟩ = some cur := by simp [Update.view, hst, hnew]
      have hstep := @StagingStep.destroy db draw s u ⟨typeName, id⟩ _ _ ht hview
      rwa [base_of_staged hst] at hstep
  · rename_i hst
    rw [Reads.run_bind] at hr
    generalize hg : (Update.getCommitted db typeName id u).run s = g at hr
    obtain ⟨hobj, hcache, hstaged, hcreate, hseq⟩ := getCommitted_spec hc hg
    obtain ⟨e | old, u'⟩ := g <;> dsimp only at hobj hcache hstaged hcreate hseq hr
    · subst hr
      exact .of_same hcache hstaged hcreate hseq
    · subst hr
      have hold := hobj old rfl
      have hview : u.view s ⟨typeName, id⟩ = some old := by simp [Update.view, hst, hold]
      have hstep := @StagingStep.destroy db draw s u ⟨typeName, id⟩ _ _ ht hview
      rw [base_of_committed hst hold] at hstep
      exact .of_stage hcache hstaged hcreate hseq hstep

theorem WriteOp.opSpec (hc : u.CacheOk s) (op : WriteOp) (hr : (op.exec db u).run s = r) :
    OpSpec db draw s u r.2 (effective op r.1) := by
  cases op with
  | put typeName id obj => exact put_opSpec hc hr
  | putInternal typeName id obj => exact putInternal_opSpec hc hr
  | destroy typeName id => exact destroy_opSpec hc hr
  | bumpState typeName =>
    simp only [WriteOp.exec, Update.bumpState] at hr
    split at hr <;> subst hr
    · exact .unchanged hc
    · exact ⟨.same (by simp [effective, WriteOp.target]), hc, rfl⟩
  | setAccountTag tag =>
    simp only [WriteOp.exec, Update.setAccountTag] at hr
    split at hr <;> subst hr
    · exact .unchanged hc
    · exact ⟨.same (by simp [effective, WriteOp.target]), hc, rfl⟩
  | clearAccountTag tag =>
    simp only [WriteOp.exec, Update.clearAccountTag] at hr
    split at hr
    · subst hr; exact .unchanged hc
    · split at hr <;> subst hr
      · exact .unchanged hc
      · exact ⟨.same (by simp [effective, WriteOp.target]), hc, rfl⟩

end Operations

/-! ## Whole callbacks -/

/-- The write operations of a callback that took effect, in order. -/
def Callback.trace {α : Type} (db : DB) (draw : ℕ → JmapId) (s : Store) :
    Callback α → Update → List WriteOp
  | .done _, _ => []
  | .read k, u => (k s).trace db draw s u
  | .view k, u => (k u).trace db draw s u
  | .get typeName id k, u =>
    let r := (Update.get db typeName id u).run s
    (k r.1).trace db draw s r.2
  | .create typeName obj k, u =>
    let r := (Update.create db draw typeName obj u).run s
    (k r.1).trace db draw s r.2
  | .write op k, u =>
    let r := (op.exec db u).run s
    effective op r.1 ++ (k r.1).trace db draw s r.2

/-- **Induction over a callback**: what every staging step keeps is kept by every callback. -/
theorem Callback.exec_induct {α : Type} {db : DB} {draw : ℕ → JmapId} {s : Store}
    {P : Map RecKey StagedRecord → ℕ → List WriteOp → Prop}
    (hstep : ∀ (u : Update) (ops ops' : List WriteOp) (staged' : Map RecKey StagedRecord) (n' : ℕ),
      P u.staged u.createSeq ops → StagingStep db draw s u ops' staged' n' →
        P staged' n' (ops ++ ops'))
    (fn : Callback α) {u : Update} (hc : u.CacheOk s) {ops : List WriteOp}
    (hP : P u.staged u.createSeq ops) {r : α × Update}
    (hr : (fn.exec db draw u).run s = r) :
    P r.2.staged r.2.createSeq (ops ++ fn.trace db draw s u) ∧ r.2.CacheOk s ∧
      r.2.sequence = u.sequence := by
  -- one operation, then the rest of the program on the update it leaves
  have hop : ∀ {u u' : Update} {ops ops' : List WriteOp}, P u.staged u.createSeq ops →
      OpSpec db draw s u u' ops' → P u'.staged u'.createSeq (ops ++ ops') :=
    fun hP h => hstep _ _ _ _ _ hP h.step
  induction fn generalizing u ops with
  | done res =>
    subst hr
    simpa [Callback.trace, Callback.exec] using ⟨hP, hc⟩
  | read k ih => exact ih s hc hP hr
  | view k ih => exact ih u hc hP hr
  | get typeName id k ih =>
    simp only [Callback.exec, Reads.run_bind] at hr
    have hspec : OpSpec db draw s u _ [] :=
      get_opSpec hc (rfl : (Update.get db typeName id u).run s = _)
    have := ih _ hspec.cache (hop hP hspec) hr
    simpa [Callback.trace, hspec.sequence] using this
  | create typeName obj k ih =>
    simp only [Callback.exec, Reads.run_bind] at hr
    have hspec := create_opSpec hc (rfl : (Update.create db draw typeName obj u).run s = _)
    have := ih _ hspec.cache (hop hP hspec) hr
    simpa [Callback.trace, hspec.sequence] using this
  | write op k ih =>
    simp only [Callback.exec, Reads.run_bind] at hr
    have hspec : OpSpec db draw s u _ _ := op.opSpec hc (rfl : (op.exec db u).run s = _)
    have := ih _ hspec.cache (hop hP hspec) hr
    simpa [Callback.trace, hspec.sequence] using this

end NaustJmap.ObjectDB
