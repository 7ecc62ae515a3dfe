import NaustJmap.ObjectDB.Staging

/-!
# What a Commit Does

The effect of one `DB.Update` on an account: which ids its log entry reports, which records it
writes, which type states it moves (`commit_effect`).  What is said about histories builds on this
statement and no longer looks into staging or batches.
-/

namespace NaustJmap.ObjectDB

open Library

/-! ## Visible changes -/

/-- Two versions of a record that agree on every property a client can see. -/
def SameVisible (t : TypeDesc) (a b : Object) : Prop :=
  ∀ name : String, t.hides name = false → a[name]? = b[name]?

theorem SameVisible.refl (t : TypeDesc) (a : Object) : SameVisible t a a := fun _ _ => rfl

variable {t : TypeDesc} {c : Commit} {k : RecKey} {st : StagedRecord}
  {staged staged' : Map RecKey StagedRecord} {ops batch : List BatchOp} {n' : ℕ} {op : BatchOp}
  {entry : String × Property} {db : DB} {acct : JmapId} {s : Store} {u : Update}

theorem SameVisible.trans {a b c : Object} (h1 : SameVisible t a b) (h2 : SameVisible t b c) :
    SameVisible t a c :=
  fun name h => (h1 name h).trans (h2 name h)

theorem mem_diffProps_iff {old new : Object} {name : String} :
    name ∈ diffProps old new ↔ old[name]? ≠ new[name]? := by
  simp only [diffProps, List.mem_append, List.mem_map, List.mem_filter, decide_eq_true_eq,
    Prod.exists, exists_and_right, exists_eq_right, Map.mem_toList, Map.mem_keys_iff]
  constructor
  · rintro (⟨raw, hnew, hne⟩ | ⟨⟨raw, hold⟩, hnone⟩)
    · rwa [hnew]
    · simp [hold, hnone]
  · intro hne
    cases hnew : new[name]? with
    | some raw => exact .inl ⟨raw, rfl, by rwa [hnew] at hne⟩
    | none =>
      rw [hnew] at hne
      exact .inr ⟨Option.ne_none_iff_exists'.mp hne, rfl⟩

theorem sameVisible_of_hidden_diff {a b : Object} (h : ∀ name ∈ diffProps a b, t.hides name) :
    SameVisible t a b := by
  intro name hname
  by_contra hne
  have := h name (mem_diffProps_iff.mpr hne)
  simp [hname] at this

/-! ## Staged records -/

/-- What holds of a staged record of a callback that runs on `s`, after `drawn` ids. -/
structure StagedRecord.Ok (db : DB) (draw : ℕ → JmapId) (s : Store) (drawn : ℕ) (k : RecKey)
    (st : StagedRecord) : Prop where
  registered : (db.types[k.typeName]?).isSome
  /-- A created record was not there before and carries an id drawn by this commit. -/
  created : st.created = true →
    s.objs[k]? = none ∧ st.old = none ∧ st.quiet = false ∧ ∃ j < drawn, k.id = draw j
  /-- Any other staged record has its committed version as pre-image. -/
  existing : st.created = false → st.old = s.objs[k]? ∧ (s.objs[k]?).isSome
  /-- A quiet record looks unchanged to clients. -/
  quiet : st.quiet = true → ∀ {t : TypeDesc} {old new : Object},
    db.types[k.typeName]? = some t → s.objs[k]? = some old → st.new = some new →
      SameVisible t old new

def StagedOk (db : DB) (draw : ℕ → JmapId) (s : Store) (staged : Map RecKey StagedRecord)
    (drawn : ℕ) : Prop :=
  ∀ (k : RecKey) (st : StagedRecord), staged[k]? = some st → st.Ok db draw s drawn k

/-- The first `drawn` ids of a commit are not in use. -/
def FreshDraw (draw : ℕ → JmapId) (s : Store) (drawn : ℕ) : Prop :=
  ∀ i < drawn, ∀ typeName : String, s.objs[RecKey.mk typeName (draw i)]? = none

section Staged

variable {draw : ℕ → JmapId}

theorem StagedRecord.Ok.mono {drawn drawn' : ℕ} (hle : drawn ≤ drawn')
    (h : st.Ok db draw s drawn k) : st.Ok db draw s drawn' k where
  registered := h.registered
  created hc :=
    let ⟨h1, h2, h3, j, hj, h4⟩ := h.created hc
    ⟨h1, h2, h3, j, hj.trans_le hle, h4⟩
  existing := h.existing
  quiet := h.quiet

theorem StagedOk.insert {drawn drawn' : ℕ} (h : StagedOk db draw s staged drawn)
    (hle : drawn ≤ drawn') (hst : st.Ok db draw s drawn' k) :
    StagedOk db draw s (staged.insert k st) drawn' := by
  intro k' st' hk
  rw [Map.getElem?_insert] at hk
  split at hk
  · rename_i heq
    cases hk
    exact heq ▸ hst
  · exact (h _ _ hk).mono hle

theorem StagedOk.base {drawn : ℕ} (h : StagedOk db draw s u.staged drawn) {cur : Object}
    (ht : db.types[k.typeName]? = some t) (hview : u.view s k = some cur) (q : Bool) :
    (u.base s k q).Ok db draw s drawn k ∧ ((u.base s k q).quiet = true →
      ∀ old, s.objs[k]? = some old → SameVisible t old cur) := by
  unfold Update.base
  unfold Update.view at hview
  cases hst : u.staged[k]? with
  | some st =>
    rw [hst] at hview
    exact ⟨h _ _ hst, fun hquiet old hold => (h _ _ hst).quiet hquiet ht hold hview⟩
  | none =>
    rw [hst] at hview
    have hcom : s.objs[k]? = some cur := hview
    refine ⟨⟨by simp [ht], by simp, fun _ => ⟨rfl, by simp [hcom]⟩, by simp⟩, ?_⟩
    intro _ old hold
    cases hcom.symm.trans hold
    exact SameVisible.refl t _

theorem StagingStep.createSeq_le {ops : List WriteOp}
    (hstep : StagingStep db draw s u ops staged' n') : u.createSeq ≤ n' := by
  cases hstep <;> simp

theorem StagedOk.step {ops : List WriteOp} (h : StagedOk db draw s u.staged u.createSeq)
    (hfresh : FreshDraw draw s n') (hstep : StagingStep db draw s u ops staged' n') :
    StagedOk db draw s staged' n' := by
  cases hstep with
  | same => exact h
  | create ht hid hkinds =>
    refine h.insert (Nat.le_succ _) ⟨by simp [ht], fun _ => ?_, by simp, by simp⟩
    exact ⟨hfresh _ (Nat.lt_succ_self _) _, rfl, rfl, u.createSeq, Nat.lt_succ_self _, rfl⟩
  | put ht hid hview hkinds =>
    obtain ⟨⟨hreg, hcr, hex, -⟩, -⟩ := h.base ht hview false
    refine h.insert le_rfl ⟨hreg, fun hc => ?_, hex, by simp [StagedRecord.write]⟩
    obtain ⟨h1, h2, -, h4⟩ := hcr hc
    exact ⟨h1, h2, rfl, h4⟩
  | putInternal ht hid hview hkinds hidden =>
    obtain ⟨⟨hreg, hcr, hex, -⟩, hq⟩ := h.base ht hview true
    refine h.insert le_rfl ⟨hreg, hcr, hex, fun hquiet t' old new ht' hold hnew => ?_⟩
    cases ht.symm.trans ht'
    cases hnew
    exact (hq hquiet old hold).trans (sameVisible_of_hidden_diff hidden)
  | destroy ht hview =>
    obtain ⟨⟨hreg, hcr, hex, -⟩, -⟩ := h.base ht hview false
    exact h.insert le_rfl ⟨hreg, hcr, hex, by simp [StagedRecord.write]⟩

/-- The record is staged as a client-visible update. -/
def Loud (staged : Map RecKey StagedRecord) (k : RecKey) : Prop :=
  ∃ st, staged[k]? = some st ∧ st.created = false ∧ st.quiet = false ∧ st.new.isSome

theorem loud_step {ops ops' : List WriteOp}
    (h : ∀ k, Loud u.staged k → ∃ obj, .put k.typeName k.id obj ∈ ops)
    (hstep : StagingStep db draw s u ops' staged' n') :
    ∀ k, Loud staged' k → ∃ obj, .put k.typeName k.id obj ∈ ops ++ ops' := by
  have hold : ∀ k, Loud u.staged k → ∃ obj, .put k.typeName k.id obj ∈ ops ++ ops' :=
    fun k hk => (h k hk).imp fun _ => List.mem_append_left _
  rintro k ⟨st, hk, hc, hq, hn⟩
  cases hstep with
  | same => exact hold k ⟨st, hk, hc, hq, hn⟩
  | create =>
    rw [Map.getElem?_insert] at hk
    split at hk
    · cases hk
      simp at hc
    · exact hold k ⟨st, hk, hc, hq, hn⟩
  | @put k0 t cur obj =>
    rw [Map.getElem?_insert] at hk
    split at hk
    · rename_i heq
      exact ⟨obj, by simp [heq]⟩
    · exact hold k ⟨st, hk, hc, hq, hn⟩
  | @putInternal k0 t cur obj ht hid hview =>
    rw [Map.getElem?_insert] at hk
    split at hk
    · rename_i heq
      cases hk
      subst heq
      -- a bookkeeping write is loud only if the record already was
      cases hst : u.staged[k0]? with
      | some st0 =>
        rw [base_of_staged hst] at hc hq
        refine hold k0 ⟨st0, hst, hc, hq, ?_⟩
        simp only [Update.view, hst] at hview
        simp [hview]
      | none => simp [Update.base, hst, StagedRecord.write] at hq
    · exact hold k ⟨st, hk, hc, hq, hn⟩
  | destroy =>
    rw [Map.getElem?_insert] at hk
    split at hk
    · cases hk
      simp [StagedRecord.write] at hn
    · exact hold k ⟨st, hk, hc, hq, hn⟩

end Staged

/-! ## Loops that collect operations -/

section Collect

variable {α β : Type} {f : α → Except Err (List BatchOp)}

theorem collectOps_cons_eq_ok {a : α} {l : List α} :
    collectOps f (a :: l) = .ok ops ↔
      ∃ o1 o2, f a = .ok o1 ∧ collectOps f l = .ok o2 ∧ ops = o1 ++ o2 := by
  simp only [collectOps, except_bind_eq_ok, pure, Except.pure, Except.ok.injEq]
  grind

theorem collectOps_append_eq_ok {l1 l2 : List α} (h : collectOps f (l1 ++ l2) = .ok ops) :
    ∃ o1 o2, collectOps f l1 = .ok o1 ∧ collectOps f l2 = .ok o2 ∧ ops = o1 ++ o2 := by
  induction l1 generalizing ops with
  | nil => exact ⟨[], ops, rfl, h, rfl⟩
  | cons a l1 ih =>
    obtain ⟨o, rest, ha, hrest, rfl⟩ := collectOps_cons_eq_ok.mp h
    obtain ⟨o1, o2, h1, h2, rfl⟩ := ih hrest
    exact ⟨o ++ o1, o2, collectOps_cons_eq_ok.mpr ⟨o, o1, ha, h1, rfl⟩, h2, by simp⟩

theorem mem_collectOps {l : List α} (h : collectOps f l = .ok ops) (hop : op ∈ ops) :
    ∃ a ∈ l, ∃ o, f a = .ok o ∧ op ∈ o := by
  induction l generalizing ops with
  | nil =>
    cases h
    simp at hop
  | cons a l ih =>
    obtain ⟨o1, o2, h1, h2, rfl⟩ := collectOps_cons_eq_ok.mp h
    rcases List.mem_append.mp hop with hop | hop
    · exact ⟨a, List.mem_cons_self, o1, h1, hop⟩
    · obtain ⟨b, hb, o, ho, hmem⟩ := ih h2 hop
      exact ⟨b, List.mem_cons_of_mem _ hb, o, ho, hmem⟩

/-- A component only the rounds of `a` touch is what the round of `a` makes of it. -/
theorem applyBatch_collectOps (key : α → β) {l : List α} (hnodup : (l.map key).Nodup)
    (h : collectOps f l = .ok ops) {γ : Type} (g : Store → γ) {a : α} (ha : a ∈ l)
    (hframe : ∀ b ∈ l, key b ≠ key a → ∀ o, f b = .ok o → ∀ op ∈ o, ∀ s, g (op.apply s) = g s)
    (s : Store) :
    ∃ o s1, f a = .ok o ∧ g s1 = g s ∧ g (applyBatch ops s) = g (applyBatch o s1) := by
  obtain ⟨l1, l2, rfl⟩ := List.append_of_mem ha
  obtain ⟨o1, rest, h1, hrest, rfl⟩ := collectOps_append_eq_ok h
  obtain ⟨o, o2, ho, h2, rfl⟩ := collectOps_cons_eq_ok.mp hrest
  simp only [List.map_append, List.map_cons, List.nodup_append, List.nodup_cons] at hnodup
  obtain ⟨-, ⟨hnot2, -⟩, hdisj⟩ := hnodup
  have frame : ∀ l' o', (∀ b ∈ l', b ∈ l1 ++ a :: l2 ∧ key b ≠ key a) →
      collectOps f l' = .ok o' → ∀ s, g (applyBatch o' s) = g s := by
    intro l' o' hl' ho' s
    refine applyBatch_frame g (fun op hop s => ?_) s
    obtain ⟨b, hb, ob, hob, hmem⟩ := mem_collectOps ho' hop
    exact hframe b (hl' b hb).1 (hl' b hb).2 ob hob op hmem s
  refine ⟨o, applyBatch o1 s, ho, frame l1 o1 (fun b hb => ⟨by simp [hb], ?_⟩) h1 s, ?_⟩
  · exact hdisj _ (List.mem_map_of_mem hb) _ List.mem_cons_self
  · rw [applyBatch_append, applyBatch_append]
    refine frame l2 o2 (fun b hb => ⟨by simp [hb], fun heq => hnot2 ?_⟩) h2 _
    exact heq ▸ List.mem_map_of_mem hb

end Collect

/-! ## The operations of one staged record -/

def BatchOp.isIndex : BatchOp → Bool
  | .setIdx _ | .deleteIdx _ | .setRef _ | .deleteRef _ | .setPending _ | .deletePending _ => true
  | _ => false

def BatchOp.isIdx : BatchOp → Bool
  | .setIdx _ | .deleteIdx _ => true
  | _ => false

theorem BatchOp.isIndex_of_isIdx (h : op.isIdx) : op.isIndex := by
  cases op <;> first | rfl | simp [isIdx] at h

section StagedOps

variable {sc : Scanner} {id : JmapId} {old new : Option Object}

theorem propertyIndexOps_isIdx (h : propertyIndexOps sc acct t id old new entry = .ok ops) :
    ∀ op ∈ ops, op.isIdx := by
  simp only [propertyIndexOps] at h
  split at h
  · simp only [except_bind_eq_ok] at h
    obtain ⟨oldVal, -, newVal, -, h⟩ := h
    cases oldVal <;> cases newVal <;> simp only [except_bind_eq_ok] at h
    · cases h
      simp
    · obtain ⟨ord, -, h⟩ := h
      cases h
      simp [BatchOp.isIdx]
    · obtain ⟨ord, -, h⟩ := h
      cases h
      simp [BatchOp.isIdx]
    · split at h
      · cases h
        simp
      · obtain ⟨ord, -, h⟩ := except_bind_eq_ok.mp h
        cases h
        simp [BatchOp.isIdx]
  · cases h
    simp

theorem propertySetIndexOps_isIdx (h : propertySetIndexOps sc acct t id old new entry = .ok ops) :
    ∀ op ∈ ops, op.isIdx := by
  simp only [propertySetIndexOps] at h
  split at h
  · split at h
    · cases h
      simp
    · simp only [except_bind_eq_ok] at h
      obtain ⟨oldM, -, newM, -, h⟩ := h
      cases h
      intro op hop
      simp only [List.mem_append, List.mem_map] at hop
      rcases hop with ⟨m, -, rfl⟩ | ⟨m, -, rfl⟩ <;> rfl
  · cases h
    simp

theorem maintenanceOps_isIndex (h : maintenanceOps db acct t id old new = .ok ops) :
    ∀ op ∈ ops, op.isIndex := by
  simp only [maintenanceOps, except_bind_eq_ok] at h
  obtain ⟨index, hindex, sets, hsets, h⟩ := h
  cases h
  intro op hop
  rcases List.mem_append.mp hop with hop | hop
  · rcases List.mem_append.mp hop with hop | hop
    · obtain ⟨entry, -, o, ho, hmem⟩ := mem_collectOps hindex hop
      exact BatchOp.isIndex_of_isIdx (propertyIndexOps_isIdx ho op hmem)
    · simp only [refOps, List.mem_append, List.mem_flatMap, List.mem_cons] at hop
      rcases hop with ⟨b, -, rfl | rfl | hop⟩ | ⟨b, -, rfl | rfl | hop⟩ <;>
        first | rfl | simp at hop
  · obtain ⟨entry, -, o, ho, hmem⟩ := mem_collectOps hsets hop
    exact BatchOp.isIndex_of_isIdx (propertySetIndexOps_isIdx ho op hmem)

def objOp (k : RecKey) : Option Object → BatchOp
  | none => .deleteObj k
  | some obj => .setObj k obj

/-- One record's operations: none, or the object write and its index maintenance. -/
theorem stagedOps_eq_ok (h : stagedOps db acct (k, st) = .ok ops) :
    (st.created = true ∧ st.new = none ∧ ops = []) ∨
      ∃ t maintenance, db.types[k.typeName]? = some t ∧
        ¬ (st.created = true ∧ st.new = none) ∧
        maintenanceOps db acct t k.id st.preImage st.new = .ok maintenance ∧
        ops = objOp k st.new :: maintenance := by
  simp only [stagedOps] at h
  split at h
  · simp at h
  rename_i t ht
  split at h
  · rename_i hnew
    split at h
    · rename_i hc
      exact .inl ⟨hc, hnew, (Except.ok.inj h).symm⟩
    · rename_i hc
      obtain ⟨m, hm, h⟩ := except_bind_eq_ok.mp h
      refine .inr ⟨t, m, ht, fun h => hc h.1, by rw [hnew]; exact hm, ?_⟩
      rw [hnew]
      exact (Except.ok.inj h).symm
  · rename_i obj hnew
    simp only [except_bind_eq_ok] at h
    obtain ⟨enc, henc, m, hm, h⟩ := h
    have : enc = obj := by
      unfold encodeObject at henc
      split at henc <;> simp_all
    subst this
    refine .inr ⟨t, m, ht, by simp [hnew], by rw [hnew]; exact hm, ?_⟩
    rw [hnew]
    exact (Except.ok.inj h).symm

theorem apply_of_isIndex (h : op.isIndex) (s : Store) :
    (op.apply s).objs = s.objs ∧ (op.apply s).log = s.log ∧ (op.apply s).floor = s.floor ∧
      (op.apply s).seq = s.seq ∧ (op.apply s).typeStates = s.typeStates := by
  cases op <;> first | exact ⟨rfl, rfl, rfl, rfl, rfl⟩ | simp [BatchOp.isIndex] at h

theorem stagedOps_objs_frame {entry : RecKey × StagedRecord}
    (h : stagedOps db acct entry = .ok ops) (hne : entry.1 ≠ k) :
    ∀ op ∈ ops, ∀ s, (op.apply s).objs[k]? = s.objs[k]? := by
  obtain ⟨k', st⟩ := entry
  intro op hop s
  rcases stagedOps_eq_ok h with ⟨-, -, rfl⟩ | ⟨t, m, -, -, hm, rfl⟩
  · simp at hop
  · rcases List.mem_cons.mp hop with rfl | hop
    · cases st.new with
      | none => simpa [objOp, BatchOp.apply, Map.getElem?_erase] using fun h => absurd h hne
      | some obj => simp [objOp, BatchOp.apply, Map.getElem?_insert, hne]
    · rw [(apply_of_isIndex (maintenanceOps_isIndex hm op hop) s).1]

theorem collect_stagedOps_objs (h : collectOps (stagedOps db acct) staged.toList = .ok ops)
    (s : Store) (k : RecKey) :
    (applyBatch ops s).objs[k]? =
      match staged[k]? with
      | none => s.objs[k]?
      | some st => if st.created = true ∧ st.new = none then s.objs[k]? else st.new := by
  cases hk : staged[k]? with
  | none =>
    refine applyBatch_frame (fun s => s.objs[k]?) (fun op hop s => ?_) s
    obtain ⟨entry, hmem, o, ho, hop⟩ := mem_collectOps h hop
    refine stagedOps_objs_frame ho (fun heq => ?_) op hop s
    have := (Map.mem_toList staged entry.1 entry.2).mp hmem
    rw [heq, hk] at this
    cases this
  | some st =>
    obtain ⟨o, s1, ho, hs1, heq⟩ := applyBatch_collectOps Prod.fst
      (Map.nodup_toList_keys staged) h (fun s => s.objs[k]?)
      ((Map.mem_toList staged k st).mpr hk)
      (fun b _ hne o ho op hop s => stagedOps_objs_frame ho hne op hop s) s
    simp only at hs1 heq ⊢
    rw [heq, ← hs1]
    rcases stagedOps_eq_ok ho with ⟨hc, hn, rfl⟩ | ⟨t, m, -, hnot, hm, rfl⟩
    · simp [hc, hn]
    · rw [if_neg hnot, applyBatch_cons]
      rw [applyBatch_frame Store.objs fun op hop s =>
        (apply_of_isIndex (maintenanceOps_isIndex hm op hop) s).1]
      cases st.new with
      | none => simp [objOp, BatchOp.apply]
      | some obj => simp [objOp, BatchOp.apply]

theorem collect_stagedOps_frame {γ : Type} {g : Store → γ}
    (hg : ∀ s s' : Store, s.log = s'.log → s.floor = s'.floor → s.seq = s'.seq →
      s.typeStates = s'.typeStates → g s = g s')
    {l : List (RecKey × StagedRecord)} (h : collectOps (stagedOps db acct) l = .ok ops)
    (s : Store) : g (applyBatch ops s) = g s := by
  refine applyBatch_frame g (fun op hop s => ?_) s
  obtain ⟨⟨k, st⟩, -, o, ho, hop⟩ := mem_collectOps h hop
  rcases stagedOps_eq_ok ho with ⟨-, -, rfl⟩ | ⟨t, m, -, -, hm, rfl⟩
  · simp at hop
  · rcases List.mem_cons.mp hop with rfl | hop
    · cases st.new <;> exact hg _ _ rfl rfl rfl rfl
    · obtain ⟨-, h1, h2, h3, h4⟩ := apply_of_isIndex (maintenanceOps_isIndex hm op hop) s
      exact hg _ _ h1 h2 h3 h4

end StagedOps

/-! ## The log entry -/

def StagedRecord.isCreate (st : StagedRecord) : Bool := st.created && st.new.isSome

def StagedRecord.isDestroy (st : StagedRecord) : Bool := !st.created && st.new.isNone

def StagedRecord.isUpdate (st : StagedRecord) : Bool :=
  !st.created && !st.quiet && st.new.isSome

/-- The ids of the staged records of a type that are reported in one way. -/
def reported (typeName : String) (how : StagedRecord → Bool) (l : List (RecKey × StagedRecord)) :
    List JmapId :=
  (l.filter fun e => e.1.typeName = typeName && how e.2).map (·.1.id)

/-- The entry of a type after the loop, before empty entries are dropped. -/
def Update.typeEntry (db : DB) (u : Update) (typeName : String) : LogTypeEntry :=
  (u.staged.toList.foldl (logStep db) ∅)[typeName]?.getD {}

section Log

theorem reported_cons (typeName : String) (how : StagedRecord → Bool) (e : RecKey × StagedRecord)
    (l : List (RecKey × StagedRecord)) :
    reported typeName how (e :: l) =
      (if e.1.typeName = typeName ∧ how e.2 then [e.1.id] else []) ++ reported typeName how l := by
  by_cases h : e.1.typeName = typeName ∧ how e.2 = true
  · simp [reported, h]
  · rw [if_neg h]
    simp only [reported, List.nil_append]
    rw [List.filter_cons_of_neg (by simpa using h)]

theorem logStep_getD (m : Map String LogTypeEntry) (e : RecKey × StagedRecord)
    (typeName : String) :
    (logStep db m e)[typeName]?.getD {} =
      if e.1.typeName = typeName ∧ ¬ (e.2.created = true ∧ e.2.new = none) then
        logStaged db.types[typeName]? e.1.id e.2 (m[typeName]?.getD {})
      else m[typeName]?.getD {} := by
  simp only [logStep]
  by_cases hskip : e.2.created = true ∧ e.2.new = none
  · simp [hskip]
  · rw [if_neg hskip, Map.getElem?_insert]
    by_cases hT : e.1.typeName = typeName
    · subst hT
      rw [if_pos rfl, if_pos ⟨rfl, hskip⟩]
      rfl
    · rw [if_neg hT, if_neg fun h => hT h.1]

theorem foldl_logStep (db : DB) (l : List (RecKey × StagedRecord)) (m : Map String LogTypeEntry)
    (typeName : String) :
    let te := (l.foldl (logStep db) m)[typeName]?.getD {}
    te.created = (m[typeName]?.getD {}).created ++ reported typeName StagedRecord.isCreate l ∧
    te.updated = (m[typeName]?.getD {}).updated ++ reported typeName StagedRecord.isUpdate l ∧
    te.destroyed = (m[typeName]?.getD {}).destroyed ++
      reported typeName StagedRecord.isDestroy l := by
  induction l generalizing m with
  | nil => simp [reported]
  | cons e l ih =>
    obtain ⟨h1, h2, h3⟩ := ih (logStep db m e)
    simp only [List.foldl_cons, reported_cons]
    rw [h1, h2, h3, logStep_getD]
    by_cases hT : e.1.typeName = typeName
    · -- one case for each way the loop body can go
      cases hn : e.2.new <;> cases hc : e.2.created <;> cases hq : e.2.quiet <;>
        simp [hT, hn, hc, hq, logStaged, StagedRecord.isCreate, StagedRecord.isUpdate,
          StagedRecord.isDestroy]
    · simp [hT]

theorem typeEntry_lists (db : DB) (u : Update) (typeName : String) :
    (u.typeEntry db typeName).created = reported typeName StagedRecord.isCreate u.staged.toList ∧
    (u.typeEntry db typeName).updated = reported typeName StagedRecord.isUpdate u.staged.toList ∧
    (u.typeEntry db typeName).destroyed =
      reported typeName StagedRecord.isDestroy u.staged.toList := by
  simpa [Update.typeEntry] using foldl_logStep db u.staged.toList ∅ typeName

theorem mem_reported {typeName : String} {how : StagedRecord → Bool} {id : JmapId} :
    id ∈ reported typeName how staged.toList ↔
      ∃ st, staged[RecKey.mk typeName id]? = some st ∧ how st = true := by
  simp only [reported, List.mem_map, List.mem_filter, Bool.and_eq_true, decide_eq_true_eq,
    Prod.exists, Map.mem_toList]
  constructor
  · rintro ⟨⟨T, id'⟩, st, ⟨hmem, rfl, hhow⟩, rfl⟩
    exact ⟨st, hmem, hhow⟩
  · rintro ⟨st, hmem, hhow⟩
    exact ⟨_, st, ⟨hmem, rfl, hhow⟩, rfl⟩

theorem nodup_reported (staged : Map RecKey StagedRecord) (typeName : String)
    (how : StagedRecord → Bool) : (reported typeName how staged.toList).Nodup := by
  have hkeys := Map.nodup_toList_keys staged
  refine List.Nodup.map_on ?_ ((List.Nodup.of_map _ hkeys).filter _)
  intro a ha b hb hid
  simp only [List.mem_filter, Bool.and_eq_true, decide_eq_true_eq] at ha hb
  have hkey : a.1 = b.1 := by
    cases ha1 : a.1; cases hb1 : b.1
    simp_all
  exact List.inj_on_of_nodup_map hkeys ha.1 hb.1 hkey

theorem nodup_typeEntry_ids (u : Update) (typeName : String) :
    (u.typeEntry db typeName).ids.Nodup := by
  obtain ⟨h1, h2, h3⟩ := typeEntry_lists db u typeName
  -- the three ways of reporting exclude each other
  have hdisj : ∀ {how how' : StagedRecord → Bool}, (∀ st, how st = true → how' st = false) →
      ∀ id, id ∈ reported typeName how u.staged.toList →
        id ∉ reported typeName how' u.staged.toList := by
    intro how how' hne id hid hid'
    obtain ⟨st, hst, hhow⟩ := mem_reported.mp hid
    obtain ⟨st', hst', hhow'⟩ := mem_reported.mp hid'
    cases hst.symm.trans hst'
    simp [hne st hhow] at hhow'
  rw [LogTypeEntry.ids, h1, h2, h3]
  refine List.Nodup.append (List.Nodup.append (nodup_reported ..) (nodup_reported ..) ?_)
    (nodup_reported ..) ?_
  · refine fun id => hdisj (fun st => ?_) id
    cases hc : st.created <;> simp [StagedRecord.isCreate, StagedRecord.isUpdate, hc]
  · intro id hid
    rcases List.mem_append.mp hid with hid | hid
    · refine hdisj (fun st => ?_) id hid
      cases hc : st.created <;> simp [StagedRecord.isCreate, StagedRecord.isDestroy, hc]
    · refine hdisj (fun st => ?_) id hid
      cases hn : st.new <;> simp [StagedRecord.isUpdate, StagedRecord.isDestroy, hn]

end Log

/-! ## The effect of a commit -/

def Commit.trace (c : Commit) (db : DB) (s : Store) : List WriteOp :=
  c.fn.trace db c.draw s { sequence := s.seq + 1 }

/-- The number of ids a commit draws on `s`. -/
def Commit.drawn (db : DB) (s : Store) (c : Commit) : ℕ :=
  ((c.fn.exec db c.draw { sequence := s.seq + 1 }).run s).2.createSeq

/-- The effect of a commit from `s` to `s'`; `te` is what it reports for each type. -/
structure CommitEffect (db : DB) (c : Commit) (te : String → LogTypeEntry)
    (batch : List BatchOp) (s s' : Store) : Prop where
  result : s' = applyBatch batch s
  seq : s'.seq = s.seq + 1
  floor : ∀ r, (applyBatch batch r).floor = r.floor
  /-- The log entry is written unless there is nothing to report. -/
  log : ((∀ T, (te T).isEmpty) ∧ ∀ r, (applyBatch batch r).log = r.log) ∨
    ∃ e : LogEntry, (∀ r, (applyBatch batch r).log = r.log.insert (s.seq + 1) e) ∧
      ∀ T : String, e.types[T]? = if (te T).isEmpty then none else some (te T)
  typeState_touched : ∀ {T : String}, ¬ (te T).isEmpty → s'.typeState T = s.seq + 1
  typeState_other : ∀ {T : String}, (te T).isEmpty →
    s'.typeState T = s.typeState T ∨ s'.typeState T = s.seq + 1
  nodup : ∀ T : String, (te T).ids.Nodup
  created : ∀ {T : String} {id : JmapId}, id ∈ (te T).created ↔
    s.objs[RecKey.mk T id]? = none ∧ (s'.objs[RecKey.mk T id]?).isSome
  destroyed : ∀ {T : String} {id : JmapId}, id ∈ (te T).destroyed ↔
    (s.objs[RecKey.mk T id]?).isSome ∧ s'.objs[RecKey.mk T id]? = none
  updated : ∀ {T : String} {id : JmapId}, id ∈ (te T).updated →
    (s.objs[RecKey.mk T id]?).isSome ∧ (s'.objs[RecKey.mk T id]?).isSome
  /-- A record that is not reported as updated looks the same to clients. -/
  quiet : ∀ {T : String} {id : JmapId} {t : TypeDesc} {old new : Object},
    db.types[T]? = some t → s.objs[RecKey.mk T id]? = some old →
      s'.objs[RecKey.mk T id]? = some new → id ∉ (te T).updated → SameVisible t old new
  /-- Only a record with an ordinary `Put` in the commit is reported as updated. -/
  loud : ∀ {T : String} {id : JmapId}, id ∈ (te T).updated → ∃ obj, .put T id obj ∈ c.trace db s
  /-- The ids the commit creates are among those it drew. -/
  drawn : ∀ {T : String} {id : JmapId}, id ∈ (te T).created → ∃ i < c.drawn db s, id = c.draw i

theorem update_eq_some (h : (db.update acct c).run s = .ok (some batch)) :
    ∃ u ops, (c.fn.exec db c.draw { sequence := s.seq + 1 }).run s = (.ok (), u) ∧
      u.buildBatch db acct c.now = .ok ops ∧ batch = ops ++ [.setSeq u.sequence] := by
  simp only [DB.update, Reads.run_bind, Reads.run_get] at h
  generalize hr : (c.fn.exec db c.draw { sequence := s.seq + 1 }).run s = r at h
  obtain ⟨e | ⟨⟩, u⟩ := r
  · simp at h
  · by_cases hn : u.nothingStaged
    · simp [hn] at h
    · simp only [hn] at h
      cases hb : u.buildBatch db acct c.now with
      | error e => simp [hb] at h
      | ok ops =>
        simp only [hb] at h
        exact ⟨u, ops, rfl, hb, by simpa using h.symm⟩

section Effect

variable {now : Int}

theorem logTypes_getElem? (u : Update) (T : String) :
    (u.logTypes db)[T]? =
      if (u.typeEntry db T).isEmpty then none else some (u.typeEntry db T) := by
  have hfilter : ∀ x : Option LogTypeEntry, x.filter (fun te => !te.isEmpty) =
      if (x.getD {}).isEmpty then none else some (x.getD {}) := by
    rintro (_ | te)
    · rfl
    · cases h : te.isEmpty <;> simp [h]
  rw [Update.logTypes, Std.ExtTreeMap.getElem?_filter']
  exact hfilter _

theorem applyBatch_setTypeState (names : List String) (n : ℕ) (s : Store) (T : String) :
    (applyBatch (names.map (.setTypeState · n)) s).typeStates[T]? =
      if T ∈ names then some n else s.typeStates[T]? := by
  induction names generalizing s with
  | nil => simp
  | cons name names ih =>
    rw [List.map_cons, applyBatch_cons, ih]
    simp only [BatchOp.apply, Map.getElem?_insert, List.mem_cons]
    by_cases h : T ∈ names
    · simp [h]
    · by_cases h' : name = T
      · simp [h']
      · simp [h, h', Ne.symm h']

theorem applyBatch_tags (tags : List (String × Bool)) (s : Store) :
    let s' := applyBatch (.setTag tagExists :: tags.map tagOp) s
    s'.objs = s.objs ∧ s'.log = s.log ∧ s'.floor = s.floor ∧ s'.typeStates = s.typeStates := by
  have := @applyBatch_frame _ (fun s : Store => (s.objs, s.log, s.floor, s.typeStates))
    (.setTag tagExists :: tags.map tagOp) (fun op hop s => ?_) s
  · simpa using this
  · rcases List.mem_cons.mp hop with rfl | hop
    · rfl
    · obtain ⟨⟨tag, set⟩, -, rfl⟩ := List.mem_map.mp hop
      cases set <;> rfl

theorem applyBatch_buildBatch (h : u.buildBatch db acct now = .ok batch) (s : Store) :
    let s' := applyBatch (batch ++ [.setSeq u.sequence]) s
    s'.seq = u.sequence ∧ s'.floor = s.floor ∧
      (∀ k : RecKey, s'.objs[k]? =
        match u.staged[k]? with
        | none => s.objs[k]?
        | some st => if st.created = true ∧ st.new = none then s.objs[k]? else st.new) ∧
      s'.log = (if (u.logTypes db).isEmpty then s.log
        else s.log.insert u.sequence { types := u.logTypes db, time := now }) ∧
      ∀ T : String, s'.typeState T =
        if T ∈ u.touched db then u.sequence else s.typeState T := by
  simp only [Update.buildBatch, except_bind_eq_ok] at h
  obtain ⟨records, hrec, h⟩ := h
  cases h
  simp only [applyBatch_append]
  -- the batch in its order: tags, records, type states, log entry, sequence
  obtain ⟨htobjs, htlog, htfloor, htstates⟩ := applyBatch_tags u.tagOps.toList s
  generalize applyBatch (.setTag tagExists :: u.tagOps.toList.map tagOp) s = s1 at *
  have hobjs := collect_stagedOps_objs hrec s1
  have hframe := collect_stagedOps_frame (g := fun s => (s.log, s.floor, s.typeStates))
    (fun s s' h1 h2 _ h4 => by simp [h1, h2, h4]) hrec s1
  simp only [Prod.mk.injEq] at hframe
  obtain ⟨hrlog, hrfloor, hrstates⟩ := hframe
  generalize applyBatch records s1 = s2 at *
  have hstates := applyBatch_setTypeState (u.touched db) u.sequence s2
  have hsframe := @applyBatch_frame _ (fun s : Store => (s.objs, s.log, s.floor))
    ((u.touched db).map (.setTypeState · u.sequence))
    (fun op hop s => by obtain ⟨T, -, rfl⟩ := List.mem_map.mp hop; rfl) s2
  simp only [Prod.mk.injEq] at hsframe
  obtain ⟨hsobjs, hslog, hsfloor⟩ := hsframe
  generalize applyBatch ((u.touched db).map (.setTypeState · u.sequence)) s2 = s3 at *
  have hT : ∀ T : String, s3.typeState T =
      if T ∈ u.touched db then u.sequence else s.typeState T := by
    intro T
    rw [Store.typeState, hstates, hrstates, htstates]
    split <;> rfl
  split
  · exact ⟨rfl, by simp [BatchOp.apply, hsfloor, hrfloor, htfloor],
      by simp [BatchOp.apply, hsobjs, hobjs, htobjs],
      by simp [BatchOp.apply, hslog, hrlog, htlog], hT⟩
  · exact ⟨rfl, by simp [BatchOp.apply, hsfloor, hrfloor, htfloor],
      by simp [BatchOp.apply, hsobjs, hobjs, htobjs],
      by simp [BatchOp.apply, hslog, hrlog, htlog], hT⟩

end Effect

/-- A property every staging step keeps holds at the end of a commit's callback. -/
theorem Commit.exec_induct {P : Map RecKey StagedRecord → ℕ → List WriteOp → Prop}
    (hstep : ∀ (u : Update) (ops ops' : List WriteOp) (staged' : Map RecKey StagedRecord) (n' : ℕ),
      P u.staged u.createSeq ops → StagingStep db c.draw s u ops' staged' n' →
        P staged' n' (ops ++ ops'))
    (hstart : P ∅ 0 []) {r : Except Err Unit}
    (h : (c.fn.exec db c.draw { sequence := s.seq + 1 }).run s = (r, u)) :
    P u.staged u.createSeq (c.trace db s) ∧ u.sequence = s.seq + 1 := by
  have hcache : ({ sequence := s.seq + 1 } : Update).CacheOk s := fun k obj h => by simp at h
  obtain ⟨hP, -, hseq⟩ := Callback.exec_induct hstep c.fn hcache hstart h
  exact ⟨hP, hseq⟩

theorem exec_stagedOk (hfresh : FreshDraw c.draw s (c.drawn db s)) {r : Except Err Unit}
    (h : (c.fn.exec db c.draw { sequence := s.seq + 1 }).run s = (r, u)) :
    StagedOk db c.draw s u.staged u.createSeq ∧
      (∀ k, Loud u.staged k → ∃ obj, .put k.typeName k.id obj ∈ c.trace db s) ∧
      u.sequence = s.seq + 1 := by
  have hdrawn : u.createSeq = c.drawn db s := by rw [Commit.drawn, h]
  -- an id drawn on the way is among those drawn in the end
  have hok := Commit.exec_induct
    (P := fun staged n _ => n ≤ c.drawn db s → StagedOk db c.draw s staged n)
    (fun u ops ops' staged' n' hP hstep hle =>
      (hP (hstep.createSeq_le.trans hle)).step (fun i hi => hfresh i (hi.trans_le hle)) hstep)
    (fun _ k st h => by simp at h) h
  have hloud := Commit.exec_induct
    (P := fun staged _ ops => ∀ k, Loud staged k → ∃ obj, .put k.typeName k.id obj ∈ ops)
    (fun u ops ops' staged' n' hP hstep => loud_step hP hstep)
    (by rintro k ⟨st, h, -⟩; simp at h) h
  exact ⟨hok.1 hdrawn.le, hloud.1, hok.2⟩

theorem update_seq (h : (db.update acct c).run s = .ok (some batch)) :
    (applyBatch batch s).seq = s.seq + 1 := by
  obtain ⟨u, ops, hexec, hops, rfl⟩ := update_eq_some h
  have hseq := Commit.exec_induct (P := fun _ _ _ => True) (fun _ _ _ _ _ _ _ => trivial)
    trivial hexec
  rw [(applyBatch_buildBatch hops s).1, hseq.2]

theorem objs_of_stagedOk {draw : ℕ → JmapId} {s' : Store}
    (hok : StagedOk db draw s u.staged u.createSeq) (hobjs : ∀ k : RecKey, s'.objs[k]? =
      match u.staged[k]? with
      | none => s.objs[k]?
      | some st => if st.created = true ∧ st.new = none then s.objs[k]? else st.new) (k : RecKey) :
    s'.objs[k]? =
      match u.staged[k]? with
      | none => s.objs[k]?
      | some st => st.new := by
  rw [hobjs]
  cases hst : u.staged[k]? with
  | none => rfl
  | some st =>
    simp only
    split
    · rename_i h
      rw [h.2, ((hok k st hst).created h.1).1]
    · rfl

theorem commit_effect (hfresh : FreshDraw c.draw s (c.drawn db s))
    (h : (db.update acct c).run s = .ok (some batch)) :
    ∃ te, CommitEffect db c te batch s (applyBatch batch s) := by
  obtain ⟨u, ops, hexec, hops, rfl⟩ := update_eq_some h
  obtain ⟨hok, hloud, hsequence⟩ := exec_stagedOk hfresh hexec
  have hbatch := applyBatch_buildBatch hops
  obtain ⟨hseq, -, hobjs, -, hstate⟩ := hbatch s
  have hfloor := fun r => (hbatch r).2.1
  have hlog := fun r => (hbatch r).2.2.2.1
  replace hobjs := objs_of_stagedOk hok hobjs
  generalize hs' : applyBatch (ops ++ [.setSeq u.sequence]) s = s' at *
  simp only [hsequence] at hs' hseq hfloor hlog hstate ⊢
  have htouched : ∀ T, ¬ (u.typeEntry db T).isEmpty → T ∈ u.touched db := by
    intro T hT
    refine List.mem_append_left _ ((Map.mem_keys_iff _ _).mpr ⟨u.typeEntry db T, ?_⟩)
    rw [logTypes_getElem?, if_neg hT]
  refine ⟨u.typeEntry db, ?_⟩
  refine
    { result := hs'.symm
      seq := hseq
      floor := hfloor
      log := ?_
      typeState_touched := fun {T} hT => by rw [hstate, if_pos (htouched T hT)]
      typeState_other := fun {T} _ => by rw [hstate]; split <;> simp
      nodup := nodup_typeEntry_ids u
      created := ?_
      destroyed := ?_
      updated := ?_
      quiet := ?_
      loud := ?_
      drawn := ?_ }
  · by_cases hempty : (u.logTypes db).isEmpty
    · simp only [if_pos hempty] at hlog
      refine .inl ⟨fun T => ?_, hlog⟩
      by_contra hT
      have := (Map.isEmpty_iff_forall _).mp hempty T
      rw [logTypes_getElem?, if_neg hT] at this
      cases this
    · simp only [if_neg hempty] at hlog
      exact .inr ⟨_, hlog, fun T => logTypes_getElem? u T⟩
  · intro T id
    rw [(typeEntry_lists db u T).1, mem_reported, hobjs]
    cases hst : u.staged[RecKey.mk T id]? with
    | none => cases s.objs[RecKey.mk T id]? <;> simp
    | some st =>
      have hst := hok _ st hst
      cases hc : st.created
      · have := (hst.existing hc).2
        simp_all [StagedRecord.isCreate, Option.isSome_iff_ne_none]
      · simp [StagedRecord.isCreate, hc, (hst.created hc).1]
  · intro T id
    rw [(typeEntry_lists db u T).2.2, mem_reported, hobjs]
    cases hst : u.staged[RecKey.mk T id]? with
    | none => cases s.objs[RecKey.mk T id]? <;> simp
    | some st =>
      have hst := hok _ st hst
      cases hc : st.created
      · simp [StagedRecord.isDestroy, hc, (hst.existing hc).2]
      · simp [StagedRecord.isDestroy, hc, (hst.created hc).1]
  · intro T id hid
    rw [(typeEntry_lists db u T).2.1, mem_reported] at hid
    obtain ⟨st, hst, hhow⟩ := hid
    simp only [StagedRecord.isUpdate, Bool.and_eq_true, Bool.not_eq_true'] at hhow
    rw [hobjs, hst]
    exact ⟨((hok _ st hst).existing hhow.1.1).2, hhow.2⟩
  · intro T id t old new ht hold hnew hid
    rw [(typeEntry_lists db u T).2.1, mem_reported] at hid
    rw [hobjs] at hnew
    cases hst : u.staged[RecKey.mk T id]? with
    | none =>
      rw [hst] at hnew
      cases hold.symm.trans hnew
      exact SameVisible.refl t old
    | some st =>
      rw [hst] at hnew
      have hrec := hok _ st hst
      have hc : st.created = false := by
        by_contra hc
        rw [(hrec.created (by simpa using hc)).1] at hold
        cases hold
      -- it is staged and not reported, so every write to it was a bookkeeping write
      have hq : st.quiet = true := by
        by_contra hq
        have hsome : st.new = some new := hnew
        exact hid ⟨st, hst, by simp [StagedRecord.isUpdate, hc, hq, hsome]⟩
      exact hrec.quiet hq ht hold hnew
  · intro T id hid
    rw [(typeEntry_lists db u T).2.1, mem_reported] at hid
    obtain ⟨st, hst, hhow⟩ := hid
    simp only [StagedRecord.isUpdate, Bool.and_eq_true, Bool.not_eq_true'] at hhow
    exact hloud ⟨T, id⟩ ⟨st, hst, hhow.1.1, hhow.1.2, hhow.2⟩
  · intro T id hid
    rw [(typeEntry_lists db u T).1, mem_reported] at hid
    obtain ⟨st, hst, hhow⟩ := hid
    simp only [StagedRecord.isCreate, Bool.and_eq_true] at hhow
    obtain ⟨-, -, -, j, hlt, hj⟩ := (hok _ st hst).created hhow.1
    have hdrawn : u.createSeq = c.drawn db s := by rw [Commit.drawn, hexec]
    exact ⟨j, hdrawn ▸ hlt, hj⟩

end NaustJmap.ObjectDB
