import NaustJmap.Runtime.Leased
import NaustJmap.Runtime.References

/-!
# What a `/set` Reports

A call is the list of the operations it did (`DoneOp`): the response is compared with that list, and
the committed records are the old ones with the operations applied.  The keys of `updated` and
`destroyed` are record ids, those of `notUpdated` and `notDestroyed` the arguments as written; where
two arguments name one record a response can report it both ways.
-/

namespace NaustJmap.Runtime

open Library ObjectDB

/-- An operation that was done: its argument, its record, and what it leaves. -/
inductive DoneOp where
  | create (cid id : JmapId) (obj : Object)
  | update (uid id : JmapId) (obj : Object)
  | destroy (did id : JmapId)

namespace DoneOp

/-- The record it is about. -/
def id : DoneOp → JmapId
  | .create _ id _ => id
  | .update _ id _ => id
  | .destroy _ id => id

/-- What it leaves under that id. -/
def leaves : DoneOp → Option Object
  | .create _ _ obj => some obj
  | .update _ _ obj => some obj
  | .destroy _ _ => none

/-- The records after the operation: only its own record differs. -/
def apply (records : JmapId → Option Object) (op : DoneOp) : JmapId → Option Object :=
  Function.update records op.id op.leaves

/-- The `update` key an operation answers, if it is an update. -/
def updateKey : DoneOp → Option JmapId
  | .update uid _ _ => some uid
  | _ => none

/-- The operation is one the call asked for, and does to these records what it says. -/
def Explains (env : CommitEnv) (st : StdType) (a : SetArgs) (records : JmapId → Option Object) :
    DoneOp → Prop
  | .create cid id _ => cid ∈ a.create ∧ records id = none
  | .update uid id obj => ∃ raw current, a.update[uid]? = some raw ∧ records id = some current ∧
      ∃ ids side u n u' n', env.run (admitUpdate env.db.scan st current raw ids) u n =
        (.ok (.ok (obj, side)), u', n')
  | .destroy did id => did ∈ a.destroy ∧ (records id).isSome

end DoneOp

/-- Every operation is one the call asked for, on the records the earlier ones leave. -/
def Explained (env : CommitEnv) (st : StdType) (a : SetArgs) :
    (JmapId → Option Object) → List DoneOp → Prop
  | _, [] => True
  | records, op :: ops => op.Explains env st a records ∧ Explained env st a (op.apply records) ops

variable {α β γ : Type} {env : CommitEnv} {st : StdType} {r x uid : JmapId} {raw : Raw}
  {l : List (JmapId × Raw)} {c c' : CallState} {u u' : Update} {n n' : ℕ} {ids : CreatedIds}
  {prepared : List Prepared} {args : List JmapId}

theorem Explained.append {a : SetArgs} {records : JmapId → Option Object} {ops ops' : List DoneOp}
    (h : Explained env st a records ops)
    (h' : Explained env st a (ops.foldl DoneOp.apply records) ops') :
    Explained env st a records (ops ++ ops') := by
  induction ops generalizing records with
  | nil => exact h'
  | cons op ops ih => exact ⟨h.1, ih h.2 h'⟩

/-! ## What the hooks of a type may do -/

/-- A program that leaves what `obs` sees of the update alone. -/
def Unmoved {α γ : Type} (env : CommitEnv) (obs : Store → Update → γ) (cb : Callback α) : Prop :=
  ∀ s u n, Leased env s u n → obs s (env.run cb u n).2.1 = obs s u

/-- A program that leaves the records of the type alone. -/
abbrev Quiet {α : Type} (env : CommitEnv) (typeName : String) (cb : Callback α) : Prop :=
  Unmoved env (recordsOf typeName) cb

/-- A `CommitCreate` creates the record it returns, or rejects and creates none. -/
def CreatesOne (env : CommitEnv) (typeName : String) (commit : CommitCreate) : Prop :=
  ∀ s u n, Leased env s u n →
    match env.run commit u n with
    | (.ok (.ok (id, _)), u', _) =>
      (∃ i, u.createSeq ≤ i ∧ i < u'.createSeq ∧ id = env.draw i) ∧
        recordsOf typeName s u id = none ∧
        ∃ obj, recordsOf typeName s u' = Function.update (recordsOf typeName s u) id (some obj)
    | (.ok (.error _), u', _) => recordsOf typeName s u' = recordsOf typeName s u
    | (.error _, _, _) => True

/-- The hooks of a type leave its own records to the handler. -/
structure HooksQuiet (env : CommitEnv) (st : StdType) : Prop where
  blobExists : ∀ id, Quiet env st.desc.name (st.blobExists id)
  validate : ∀ validate old new, st.hooks.validate = some validate →
    Quiet env st.desc.name (validate old new)
  destroy : ∀ hook id, st.hooks.destroy = some hook → Quiet env st.desc.name (hook id)
  prepareCreate : ∀ prepare ids cid raw n commit m, st.hooks.prepareCreate = some prepare →
    (prepare ids cid raw).runAt env.schedule n = (.ok (.ok commit), m) →
      CreatesOne env st.desc.name commit

section Unmoved

variable {obs : Store → Update → γ}

theorem Unmoved.pure (a : α) : Unmoved env obs (pure a : Callback α) := fun _ _ _ _ => rfl

theorem Unmoved.bind {cb : Callback α} {f : α → Callback β} (h : Unmoved env obs cb)
    (hf : ∀ a, Unmoved env obs (f a)) : Unmoved env obs (cb >>= f) := by
  intro s u n hl
  have heq : env.run (cb >>= f) u n =
      env.run (f (env.run cb u n).1) (env.run cb u n).2.1 (env.run cb u n).2.2 :=
    Callback.runAt_bind cb f u n
  rw [heq]
  exact (hf _ s _ _ (hl.run cb).1).trans (h s u n hl)

theorem unmoved_checkBlobRefs (h : ∀ id, Unmoved env obs (st.blobExists id)) (obj : Object)
    (entries : List (String × Property)) (bad : List String) :
    Unmoved env obs (checkBlobRefs st.json st.blobExists obj entries bad) := by
  induction entries generalizing bad with
  | nil => exact .pure _
  | cons entry rest ih =>
    rw [checkBlobRefs]
    split
    · exact ih bad
    · refine .bind (h _) fun r => ?_
      cases r with
      | error e => exact .pure _
      | ok found => exact ih _

theorem unmoved_admitUpdate (h : ∀ id, Unmoved env obs (st.blobExists id))
    (hvalidate : ∀ validate old new, st.hooks.validate = some validate →
      Unmoved env obs (validate old new))
    (sc : Scanner) (current : Object) (raw : Raw) (ids : CreatedIds) :
    Unmoved env obs (admitUpdate sc st current raw ids) := by
  unfold admitUpdate
  split
  · exact .pure _
  split
  · exact .pure _
  refine .bind (unmoved_checkBlobRefs h _ _ _) fun r => ?_
  cases r with
  | error e => exact .pure _
  | ok bad =>
    dsimp only
    split
    · exact .pure _
    unfold validateUpdate
    split
    · exact .pure _
    · refine .bind (hvalidate _ _ _ ‹_›) fun r => ?_
      rcases r with e | serr | obj <;> exact .pure _

theorem quiet_admitCreate (h : HooksQuiet env st) (sc : Scanner) (obj : Object) :
    Quiet env st.desc.name (admitCreate sc st st.hooks obj) := by
  unfold admitCreate
  split
  · exact .pure _
  refine .bind (unmoved_checkBlobRefs h.blobExists obj _ _) fun r => ?_
  cases r with
  | error e => exact .pure _
  | ok bad =>
    dsimp only
    split
    · exact .pure _
    split
    · exact .pure _
    · exact h.validate _ _ _ ‹_›

end Unmoved

/-! ## The operations of a part of a call -/

/-- From `u` to `u'` the records changed by the operations the call asked for. -/
structure Moved (env : CommitEnv) (st : StdType) (a : SetArgs) (s : Store) (u : Update)
    (u' : Update) (n' : ℕ) (ops : List DoneOp) : Prop where
  leased : Leased env s u' n'
  drawn : u.createSeq ≤ u'.createSeq
  records : recordsOf st.desc.name s u' =
    ops.foldl DoneOp.apply (recordsOf st.desc.name s u)
  explained : Explained env st a (recordsOf st.desc.name s u) ops

section Moved

variable {a : SetArgs} {s : Store} {u'' : Update} {n'' : ℕ} {ops ops' : List DoneOp}

theorem Moved.refl (h : Leased env s u n) : Moved env st a s u u n [] :=
  ⟨h, le_rfl, rfl, trivial⟩

theorem Moved.trans (h : Moved env st a s u u' n' ops) (h' : Moved env st a s u' u'' n'' ops') :
    Moved env st a s u u'' n'' (ops ++ ops') where
  leased := h'.leased
  drawn := h.drawn.trans h'.drawn
  records := by rw [h'.records, h.records, List.foldl_append]
  explained := h.explained.append (h.records ▸ h'.explained)

theorem Quiet.moved {cb : Callback α} (hq : Quiet env st.desc.name cb) (h : Leased env s u n)
    {r : α} (hr : env.run cb u n = (r, u', n')) : Moved env st a s u u' n' [] := by
  obtain ⟨hl, hle⟩ := h.run cb
  have hrec := hq s u n h
  rw [hr] at hl hle hrec
  exact ⟨hl, hle, hrec, trivial⟩

theorem moved_find (h : Leased env s u n) {id : JmapId} {r : Option Object}
    (hr : (CallM.find st.desc.name id).exec env c u n = ((.ok r, c'), u', n')) :
    c' = c ∧ Moved env st a s u u' n' [] ∧
      ∀ obj, r = some obj → recordsOf st.desc.name s u' id = some obj := by
  obtain ⟨hc, hl, hle, hstaged, hobj⟩ := h.find hr
  have hrec : recordsOf st.desc.name s u' = recordsOf st.desc.name s u :=
    Leased.recordsOf_congr hstaged
  exact ⟨hc, ⟨hl, hle, hrec, trivial⟩, fun obj hr => hrec ▸ hobj.trans hr⟩

end Moved

/-- The turns of a phase: each argument with the operation it became, if it was not rejected.
    `Kind` tells the operations of the phase, `done` and `refused` what the response lists. -/
structure PhaseTurns (Kind : JmapId → DoneOp → Prop) (done refused : CallState → JmapId → Prop)
    (c c' : CallState) (turns : List (JmapId × Option DoneOp)) : Prop where
  named : ∀ x op, (x, some op) ∈ turns →
    Kind x op ∧ resolveIdArg c.createdIds x = some op.id
  done : ∀ r, done c' r ↔ done c r ∨ ∃ x op, (x, some op) ∈ turns ∧ op.id = r
  refused : ∀ x, refused c' x ↔ refused c x ∨ (x, none) ∈ turns

section PhaseTurns

variable {Kind : JmapId → DoneOp → Prop} {done refused : CallState → JmapId → Prop}
  {turns : List (JmapId × Option DoneOp)}

/-- One turn, and those of the rest of the phase. -/
theorem PhaseTurns.cons {o : Option DoneOp} {c1 : CallState}
    (h : PhaseTurns Kind done refused c1 c' turns) (hids : c1.createdIds = c.createdIds)
    (ho : ∀ op, o = some op → Kind x op ∧ resolveIdArg c.createdIds x = some op.id)
    (hdone : ∀ r, done c1 r ↔ done c r ∨ ∃ op, o = some op ∧ r = op.id)
    (hrefused : ∀ y, refused c1 y ↔ refused c y ∨ y = x ∧ o = none) :
    PhaseTurns Kind done refused c c' ((x, o) :: turns) where
  named y op hop := by
    rcases List.mem_cons.mp hop with heq | hop
    · cases heq
      exact ho op rfl
    · exact hids ▸ h.named y op hop
  done r := by
    rw [h.done, hdone, or_assoc]
    refine or_congr_right ⟨?_, ?_⟩
    · rintro (⟨op, rfl, rfl⟩ | ⟨y, op, hop, hid⟩)
      · exact ⟨x, op, List.mem_cons_self, rfl⟩
      · exact ⟨y, op, List.mem_cons_of_mem _ hop, hid⟩
    · rintro ⟨y, op, hop, hid⟩
      rcases List.mem_cons.mp hop with heq | hop
      · cases heq
        exact .inl ⟨op, rfl, hid.symm⟩
      · exact .inr ⟨y, op, hop, hid⟩
  refused y := by
    rw [h.refused, hrefused, or_assoc, List.mem_cons, Prod.mk.injEq, eq_comm (a := o)]

/-- An operation of the phase comes from one of its turns. -/
theorem PhaseTurns.mem_ops {op : DoneOp} (h : PhaseTurns Kind done refused c c' turns) :
    op ∈ turns.filterMap Prod.snd ↔ ∃ x, Kind x op ∧ (x, some op) ∈ turns := by
  rw [List.mem_filterMap]
  constructor
  · rintro ⟨⟨x, o⟩, hx, rfl⟩
    exact ⟨x, (h.named x op hx).1, hx⟩
  · rintro ⟨x, -, hx⟩
    exact ⟨_, hx, rfl⟩

end PhaseTurns

/-! ## Updates -/

section Updates

variable {a : SetArgs} {s : Store}

theorem CallM.exec_bind_ok {m : CallM α} {f : α → CallM β} {b : β}
    (h : (m >>= f).exec env c u n = ((.ok b, c'), u', n')) :
    ∃ x c1 u1 n1, m.exec env c u n = ((.ok x, c1), u1, n1) ∧
      (f x).exec env c1 u1 n1 = ((.ok b, c'), u', n') := by
  rw [CallM.exec_bind] at h
  generalize m.exec env c u n = r at h
  obtain ⟨⟨e | x, c1⟩, u1, n1⟩ := r
  · cases h
  · exact ⟨x, c1, u1, n1, rfl, h⟩

theorem CallM.exec_ofCallback_ok {cb : Callback (Except Err α)} {x : α}
    (h : (CallM.ofCallback cb).exec env c u n = ((.ok x, c'), u', n')) :
    c' = c ∧ env.run cb u n = (.ok x, u', n') := by
  rw [CallM.exec_ofCallback] at h
  generalize env.run cb u n = r at h
  obtain ⟨e | x, u1, n1⟩ := r <;> cases h
  exact ⟨rfl, rfl⟩

/-- From `u` to `u'` records were looked up and none was staged. -/
structure Looked (env : CommitEnv) (s : Store) (u u' : Update) (n' : ℕ) : Prop where
  leased : Leased env s u' n'
  drawn : u.createSeq ≤ u'.createSeq
  staged : u'.staged = u.staged

theorem Looked.records (h : Looked env s u u' n') (typeName : String) :
    recordsOf typeName s u' = recordsOf typeName s u := Leased.recordsOf_congr h.staged

theorem Looked.moved (h : Looked env s u u' n') : Moved env st a s u u' n' [] :=
  ⟨h.leased, h.drawn, h.records _, trivial⟩

/-- What one update does: its key names no record, or the checks of the patched record decide. -/
theorem processUpdate_cases (hl : Leased env s u n)
    (h : (processUpdate env.db.scan st uid raw).exec env c u n = ((.ok (), c'), u', n')) :
    (∃ serr, c' = c.rejectUpdate uid serr ∧ Looked env s u u' n' ∧
      ∀ id, resolveIdArg c.createdIds uid = some id → recordsOf st.desc.name s u id = none) ∨
    ∃ id current u1 n1 verdict u2 n2, resolveIdArg c.createdIds uid = some id ∧
      recordsOf st.desc.name s u id = some current ∧ Looked env s u u1 n1 ∧
      env.run (admitUpdate env.db.scan st current raw c.createdIds) u1 n1 =
        (.ok verdict, u2, n2) ∧
      match verdict with
      | .error serr => c' = c.rejectUpdate uid serr ∧ u' = u2 ∧ n' = n2
      | .ok (obj, side) => c' = { c with updated := c.updated.insert id side } ∧
          env.run (.write (.put st.desc.name id obj) .done) u2 n2 = (.ok (), u', n') := by
  rw [processUpdate, CallM.exec_bind, CallM.exec_createdIds] at h
  dsimp only at h
  split at h
  · rename_i hnone
    cases h
    refine .inl ⟨_, rfl, ⟨hl, le_rfl, rfl⟩, fun id hid => ?_⟩
    rw [hnone] at hid
    cases hid
  rename_i id hid
  -- looking the record up stages nothing
  obtain ⟨found, c1, u1, n1, hfind, h⟩ := CallM.exec_bind_ok h
  obtain ⟨rfl, hl1, hle1, hstaged, hfound⟩ := hl.find hfind
  cases found with
  | none =>
    cases h
    refine .inl ⟨_, rfl, ⟨hl1, hle1, hstaged⟩, fun id' hid' => ?_⟩
    cases hid.symm.trans hid'
    exact hfound
  | some current =>
    obtain ⟨verdict, c2, u2, n2, haccept, h⟩ := CallM.exec_bind_ok h
    obtain ⟨rfl, haccept⟩ := CallM.exec_ofCallback_ok haccept
    refine .inr ⟨id, current, u1, n1, verdict, u2, n2, hid, hfound, ⟨hl1, hle1, hstaged⟩,
      haccept, ?_⟩
    cases verdict with
    | error serr =>
      cases h
      exact ⟨rfl, rfl, rfl⟩
    | ok r =>
      obtain ⟨⟨⟩, c3, u3, n3, hput, hdone⟩ := CallM.exec_bind_ok h
      obtain ⟨rfl, hrun⟩ := CallM.exec_ofCallback_ok hput
      cases hdone
      exact ⟨rfl, hrun⟩

variable (hq : HooksQuiet env st) (hl : Leased env s u n)

include hq hl

theorem processUpdate_turn (hraw : a.update[uid]? = some raw)
    (h : (processUpdate env.db.scan st uid raw).exec env c u n = ((.ok (), c'), u', n')) :
    (∃ serr, c' = c.rejectUpdate uid serr ∧ Moved env st a s u u' n' []) ∨
    ∃ id obj side, resolveIdArg c.createdIds uid = some id ∧
      c' = { c with updated := c.updated.insert id side } ∧
      Moved env st a s u u' n' [.update uid id obj] := by
  obtain ⟨serr, hc, hlooked, -⟩ |
    ⟨id, current, u1, n1, verdict, u2, n2, hid, hrec, hlooked, haccept, hdone⟩ :=
      processUpdate_cases hl h
  · exact .inl ⟨serr, hc, hlooked.moved⟩
  have hchecked : Moved env st a s u u2 n2 [] :=
    hlooked.moved.trans (Quiet.moved (unmoved_admitUpdate hq.blobExists hq.validate _ _ _ _)
      hlooked.leased haccept)
  obtain serr | ⟨obj, side⟩ := verdict
  · obtain ⟨hc, rfl, rfl⟩ := hdone
    exact .inl ⟨serr, hc, hchecked⟩
  · obtain ⟨hl', hle, hput⟩ := hchecked.leased.put hdone.2
    refine .inr ⟨id, obj, side, hid, hdone.1, hchecked.trans ⟨hl', hle, hput, ?_, trivial⟩⟩
    -- the hooks left the record as it was found
    refine ⟨raw, current, hraw, ?_, _, side, u1, n1, u2, n2, haccept⟩
    rw [hchecked.records]
    exact hrec

/-- The turns of `processUpdates`. -/
abbrev UpdateTurns := PhaseTurns (fun uid op => ∃ id obj, op = .update uid id obj)
  (fun c r => r ∈ c.updated) fun c uid => uid ∈ c.notUpdated

theorem processUpdates_turns (hargs : ∀ x ∈ l, a.update[x.1]? = some x.2)
    (h : (processUpdates env.db.scan st l).exec env c u n = ((.ok (), c'), u', n')) :
    ∃ turns : List (JmapId × Option DoneOp), turns.map Prod.fst = l.map Prod.fst ∧
      UpdateTurns c c' turns ∧ Moved env st a s u u' n' (turns.filterMap Prod.snd) := by
  induction l generalizing c u n with
  | nil =>
    cases h
    exact ⟨[], rfl, ⟨by simp, by simp, by simp⟩, .refl hl⟩
  | cons x rest ih =>
    obtain ⟨uid, raw⟩ := x
    obtain ⟨⟨⟩, c1, u1, n1, hturn, h⟩ := CallM.exec_bind_ok h
    obtain ⟨hraw, hrest⟩ := List.forall_mem_cons.mp hargs
    rcases processUpdate_turn hq hl hraw hturn with ⟨serr, rfl, hm⟩ | ⟨id, obj, side, hid, rfl, hm⟩
    · obtain ⟨turns, hmap, ht, hmoved⟩ := ih hm.leased hrest h
      refine ⟨(uid, none) :: turns, by simp [hmap], ht.cons rfl ?_ ?_ ?_, hm.trans hmoved⟩
      · exact nofun
      · simp [CallState.rejectUpdate]
      · simp only [CallState.rejectUpdate, Map.mem_insert_iff, and_true, implies_true]
    · obtain ⟨turns, hmap, ht, hmoved⟩ := ih hm.leased hrest h
      refine ⟨(uid, some (.update uid id obj)) :: turns, by simp [hmap], ht.cons rfl ?_ ?_ ?_,
        hm.trans hmoved⟩
      · rintro _ ⟨⟩
        exact ⟨⟨id, obj, rfl⟩, hid⟩
      · simp only [Map.mem_insert_iff, Option.some.injEq, exists_eq_left', DoneOp.id, implies_true]
      · simp

theorem processUpdate_verdict {id : JmapId} {rec : Object}
    (hid : resolveIdArg c.createdIds id = some id) (hrec : recordsOf st.desc.name s u id = some rec)
    (h : (processUpdate env.db.scan st id raw).exec env c u n = ((.ok (), c'), u', n')) :
    ∃ u1 n1 verdict r, Leased env s u1 n1 ∧ u1.staged = u.staged ∧
      env.run (admitUpdate env.db.scan st rec raw c.createdIds) u1 n1 = (.ok verdict, r) ∧
      recordsOf st.desc.name s u' id = some (match verdict with
        | .ok (obj, _) => obj
        | .error _ => rec) := by
  obtain ⟨-, -, -, hnone⟩ |
    ⟨id', current, u1, n1, verdict, u2, n2, hid', hfound, hlooked, haccept, hdone⟩ :=
      processUpdate_cases hl h
  · rw [hnone id hid] at hrec
    cases hrec
  cases hid.symm.trans hid'
  cases hrec.symm.trans hfound
  refine ⟨u1, n1, verdict, _, hlooked.leased, hlooked.staged, haccept, ?_⟩
  -- the checks leave the record as it was found
  have hl2 := (hlooked.leased.run (admitUpdate env.db.scan st rec raw c.createdIds)).1
  have hkept : recordsOf st.desc.name s _ = _ := unmoved_admitUpdate hq.blobExists hq.validate
    env.db.scan rec raw c.createdIds s u1 n1 hlooked.leased
  rw [haccept] at hl2 hkept
  obtain serr | ⟨obj, side⟩ := verdict
  · obtain ⟨-, rfl, rfl⟩ := hdone
    rw [hkept, hlooked.records]
    exact hrec
  · rw [(hl2.put hdone.2).2.2]
    exact Function.update_self _ _ _

theorem processUpdate_other {id : JmapId} (hraw : a.update[uid]? = some raw)
    (hid : resolveIdArg c.createdIds uid = some uid) (hne : id ≠ uid)
    (h : (processUpdate env.db.scan st uid raw).exec env c u n = ((.ok (), c'), u', n')) :
    recordsOf st.desc.name s u' id = recordsOf st.desc.name s u id := by
  rcases processUpdate_turn hq hl hraw h with ⟨serr, -, hm⟩ | ⟨id', obj, side, hid', -, hm⟩
  · rw [hm.records, List.foldl_nil]
  · cases hid.symm.trans hid'
    rw [hm.records]
    exact Function.update_of_ne hne _ _

theorem processUpdates_other (hargs : ∀ x ∈ l, a.update[x.1]? = some x.2)
    (hplain : ∀ x ∈ l, creationRef x.1 = none) {id : JmapId} (hne : ∀ x ∈ l, id ≠ x.1)
    (h : (processUpdates env.db.scan st l).exec env c u n = ((.ok (), c'), u', n')) :
    recordsOf st.desc.name s u' id = recordsOf st.desc.name s u id := by
  induction l generalizing c u n with
  | nil =>
    cases h
    rfl
  | cons x rest ih =>
    obtain ⟨⟨⟩, c1, u1, n1, hturn, h⟩ := CallM.exec_bind_ok h
    obtain ⟨hargs0, hargs⟩ := List.forall_mem_cons.mp hargs
    obtain ⟨hplain0, hplain⟩ := List.forall_mem_cons.mp hplain
    obtain ⟨hne0, hne⟩ := List.forall_mem_cons.mp hne
    have hl1 : Leased env s u1 n1 := by
      rcases processUpdate_turn hq hl hargs0 hturn with ⟨_, -, hm⟩ | ⟨_, _, _, -, -, hm⟩ <;>
        exact hm.leased
    rw [ih hl1 hargs hplain hne h]
    exact processUpdate_other hq hl hargs0 (by rw [resolveIdArg, hplain0]) hne0 hturn

variable {obs : Store → Update → γ}
  (hobs : ∀ s u u', (∀ k : RecKey, k.typeName ≠ st.desc.name → u'.view s k = u.view s k) →
    obs s u' = obs s u) (hblob : ∀ id, Unmoved env obs (st.blobExists id))
  (hvalidate : ∀ validate old new, st.hooks.validate = some validate →
    Unmoved env obs (validate old new))

include hobs hblob hvalidate

omit hq in
theorem processUpdate_others
    (h : (processUpdate env.db.scan st uid raw).exec env c u n = ((.ok (), c'), u', n')) :
    c'.createdIds = c.createdIds ∧ Leased env s u' n' ∧ obs s u' = obs s u := by
  have hlook : ∀ {u1 n1}, Looked env s u u1 n1 → obs s u1 = obs s u := fun hlooked =>
    hobs s u _ fun k _ => by rw [Update.view, Update.view, hlooked.staged]
  obtain ⟨serr, rfl, hlooked, -⟩ |
    ⟨id, current, u1, n1, verdict, u2, n2, -, -, hlooked, haccept, hdone⟩ :=
      processUpdate_cases hl h
  · exact ⟨rfl, hlooked.leased, hlook hlooked⟩
  have hl2 := (hlooked.leased.run (admitUpdate env.db.scan st current raw c.createdIds)).1
  have hobs2 := unmoved_admitUpdate hblob hvalidate env.db.scan current raw c.createdIds s u1 n1
    hlooked.leased
  rw [haccept] at hl2 hobs2
  have hchecked : obs s u2 = obs s u := hobs2.trans (hlook hlooked)
  obtain serr | ⟨obj, side⟩ := verdict
  · obtain ⟨rfl, rfl, rfl⟩ := hdone
    exact ⟨rfl, hl2, hchecked⟩
  · obtain ⟨rfl, hput⟩ := hdone
    obtain ⟨staged, -, hstaged⟩ := hl2.put_staged hput
    refine ⟨rfl, (hl2.put hput).1, (hobs s u2 _ fun k hk => ?_).trans hchecked⟩
    refine (Leased.view_of_insert hstaged k).trans (if_neg ?_)
    rintro rfl
    exact hk rfl

theorem processUpdates_verdict (hargs : ∀ x ∈ l, a.update[x.1]? = some x.2)
    (hnodup : (l.map Prod.fst).Nodup) (hplain : ∀ x ∈ l, creationRef x.1 = none) {id : JmapId}
    (hmem : (id, raw) ∈ l) {rec : Object} (hrec : recordsOf st.desc.name s u id = some rec)
    (h : (processUpdates env.db.scan st l).exec env c u n = ((.ok (), c'), u', n')) :
    ∃ u1 n1 verdict r, Leased env s u1 n1 ∧ obs s u1 = obs s u ∧
      env.run (admitUpdate env.db.scan st rec raw c.createdIds) u1 n1 = (.ok verdict, r) ∧
      recordsOf st.desc.name s u' id = some (match verdict with
        | .ok (obj, _) => obj
        | .error _ => rec) := by
  induction l generalizing c u n with
  | nil => cases hmem
  | cons x rest ih =>
    obtain ⟨uid, raw'⟩ := x
    obtain ⟨⟨⟩, c1, u1, n1, hturn, hrest⟩ := CallM.exec_bind_ok h
    obtain ⟨hargs0, hargs1⟩ := List.forall_mem_cons.mp hargs
    obtain ⟨hplain0, hplain1⟩ := List.forall_mem_cons.mp hplain
    have hself : resolveIdArg c.createdIds uid = some uid := by rw [resolveIdArg, hplain0]
    rw [List.map_cons, List.nodup_cons] at hnodup
    obtain ⟨hids, hl1, hobs1⟩ := processUpdate_others hl hobs hblob hvalidate hturn
    rcases List.mem_cons.mp hmem with heq | hin
    · -- its own turn; the later ones are of other records
      cases heq
      obtain ⟨u2, n2, verdict, r, hl2, hstaged, hrun, hafter⟩ :=
        processUpdate_verdict hq hl hself hrec hturn
      refine ⟨u2, n2, verdict, r, hl2, hobs s u u2 fun k _ => ?_, hrun, ?_⟩
      · rw [Update.view, Update.view, hstaged]
      · rw [← hafter]
        refine processUpdates_other hq hl1 hargs1 hplain1 (fun x hx heq => hnodup.1 ?_) hrest
        exact List.mem_map.mpr ⟨x, hx, heq.symm⟩
    · have hne : id ≠ uid := by
        rintro rfl
        exact hnodup.1 (List.mem_map.mpr ⟨_, hin, rfl⟩)
      have hrec1 := (processUpdate_other hq hl hargs0 hself hne hturn).trans hrec
      obtain ⟨u2, n2, verdict, r, hl2, hobs2, hrun, hafter⟩ :=
        ih hl1 hargs1 hnodup.2 hplain1 hin hrec1 hrest
      exact ⟨u2, n2, verdict, r, hl2, hobs2.trans hobs1, hids ▸ hrun, hafter⟩

end Updates

/-! ## Destroys -/

section Destroys

variable {a : SetArgs} {s : Store} (hq : HooksQuiet env st) (hl : Leased env s u n)

include hq hl

theorem destroyHook_moved {id : JmapId} {r : Option SetError}
    (h : (destroyHook st id).exec env c u n = ((.ok r, c'), u', n')) :
    c' = c ∧ Moved env st a s u u' n' [] := by
  unfold destroyHook at h
  split at h
  · cases h
    exact ⟨rfl, .refl hl⟩
  rename_i hook hhook
  obtain ⟨found, c1, u1, n1, hfind, h⟩ := CallM.exec_bind_ok h
  obtain ⟨rfl, hmoved, -⟩ := moved_find (a := a) hl hfind
  cases found with
  | none =>
    cases h
    exact ⟨rfl, hmoved⟩
  | some old =>
    obtain ⟨rfl, hrun⟩ := CallM.exec_ofCallback_ok h
    exact ⟨rfl, hmoved.trans ((hq.destroy hook id hhook).moved hmoved.leased hrun)⟩

theorem processDestroy_turn {did : JmapId} (hdid : did ∈ a.destroy)
    (h : (processDestroy st did).exec env c u n = ((.ok (), c'), u', n')) :
    (∃ serr, c' = c.rejectDestroy did serr ∧ Moved env st a s u u' n' []) ∨
    ∃ id, resolveIdArg c.createdIds did = some id ∧
      c' = { c with destroyed := c.destroyed ++ [id] } ∧
      Moved env st a s u u' n' [.destroy did id] := by
  rw [processDestroy, CallM.exec_bind, CallM.exec_createdIds] at h
  dsimp only at h
  split at h
  · cases h
    exact .inl ⟨_, rfl, .refl hl⟩
  rename_i id hid
  obtain ⟨serr, c1, u1, n1, hhook, h⟩ := CallM.exec_bind_ok h
  obtain ⟨rfl, hmoved⟩ := destroyHook_moved (a := a) hq hl hhook
  cases serr with
  | some serr =>
    cases h
    exact .inl ⟨serr, rfl, hmoved⟩
  | none =>
    obtain ⟨gone, c2, u2, n2, hdestroy, h⟩ := CallM.exec_bind_ok h
    rw [Leased.destroy_exec] at hdestroy
    rcases hrun : env.run (.write (.destroy st.desc.name id) .done) u1 n1 with ⟨e | ⟨⟩, u3, n3⟩
    · obtain ⟨hl', hle, hrec⟩ := hmoved.leased.destroy_error hrun
      rw [hrun] at hdestroy
      cases e <;> cases hdestroy
      cases h
      exact .inl ⟨_, rfl, hmoved.trans ⟨hl', hle, hrec, trivial⟩⟩
    · obtain ⟨hl', hle, hsome, hrec⟩ := hmoved.leased.destroy hrun
      rw [hrun] at hdestroy
      cases hdestroy
      cases h
      exact .inr ⟨id, hid, rfl, hmoved.trans ⟨hl', hle, hrec, ⟨hdid, hsome⟩, trivial⟩⟩

/-- The turns of `processDestroys`. -/
abbrev DestroyTurns := PhaseTurns (fun did op => ∃ id, op = .destroy did id)
  (fun c r => r ∈ c.destroyed) fun c did => did ∈ c.notDestroyed

theorem processDestroys_turns {l : List JmapId} (hargs : ∀ did ∈ l, did ∈ a.destroy)
    (h : (processDestroys st l).exec env c u n = ((.ok (), c'), u', n')) :
    ∃ turns : List (JmapId × Option DoneOp), turns.map Prod.fst = l ∧
      DestroyTurns c c' turns ∧ Moved env st a s u u' n' (turns.filterMap Prod.snd) := by
  induction l generalizing c u n with
  | nil =>
    cases h
    exact ⟨[], rfl, ⟨by simp, by simp, by simp⟩, .refl hl⟩
  | cons did rest ih =>
    obtain ⟨⟨⟩, c1, u1, n1, hturn, h⟩ := CallM.exec_bind_ok h
    obtain ⟨hdid, hrest⟩ := List.forall_mem_cons.mp hargs
    rcases processDestroy_turn hq hl hdid hturn with ⟨serr, rfl, hm⟩ | ⟨id, hid, rfl, hm⟩
    · obtain ⟨turns, hmap, ht, hmoved⟩ := ih hm.leased hrest h
      refine ⟨(did, none) :: turns, by simp [hmap], ht.cons rfl ?_ ?_ ?_, hm.trans hmoved⟩
      · exact nofun
      · simp [CallState.rejectDestroy]
      · simp only [CallState.rejectDestroy, Map.mem_insert_iff, and_true, implies_true]
    · obtain ⟨turns, hmap, ht, hmoved⟩ := ih hm.leased hrest h
      refine ⟨(did, some (.destroy did id)) :: turns, by simp [hmap], ht.cons rfl ?_ ?_ ?_,
        hm.trans hmoved⟩
      · rintro _ ⟨⟩
        exact ⟨⟨id, rfl⟩, hid⟩
      · simp [DoneOp.id]
      · simp

end Destroys

/-! ## Creates -/

/-- What the creates leave in the response and the creation ids; each drew its own id. -/
structure CreateTurns (env : CommitEnv) (c c' : CallState) (u u' : Update) (ops : List DoneOp) :
    Prop where
  made : ∀ op ∈ ops, ∃ cid id obj i, op = .create cid id obj ∧ id = env.draw i ∧
    u.createSeq ≤ i ∧ i < u'.createSeq
  created : ∀ cid : JmapId, cid ∈ c'.created ↔
    cid ∈ c.created ∨ ∃ id obj, .create cid id obj ∈ ops
  bound : ∀ (cid id : JmapId) (obj : Object), .create cid id obj ∈ ops →
    c'.createdIds[cid]? = some id
  unbound : ∀ cid : JmapId, (∀ id obj, .create cid id obj ∉ ops) →
    c'.createdIds[cid]? = c.createdIds[cid]?
  distinct : (ops.map DoneOp.id).Nodup

namespace CreateTurns

variable {c'' : CallState} {u'' : Update} {ops ops' : List DoneOp}

theorem nil (hcreated : c'.created = c.created) (hids : c'.createdIds = c.createdIds) :
    CreateTurns env c c' u u' [] where
  made := by simp
  created := by simp [hcreated]
  bound := by simp
  unbound := by simp [hids]
  distinct := List.nodup_nil

theorem single {cid id : JmapId} {obj echo : Object} {fromId : Option JmapId} {i : ℕ}
    (hid : id = env.draw i) (hle : u.createSeq ≤ i) (hlt : i < u'.createSeq) :
    CreateTurns env c ((c.publish cid id).echoCreated cid echo fromId) u u'
      [.create cid id obj] where
  made := by
    intro op hop
    obtain rfl := List.mem_singleton.mp hop
    exact ⟨cid, id, obj, i, rfl, hid, hle, hlt⟩
  created := by
    intro k
    refine (Map.mem_insert_iff _ _ _ _).trans (or_congr_right ?_)
    simp
  bound := by
    intro k id' obj' hmem
    cases List.mem_singleton.mp hmem
    exact Std.ExtTreeMap.getElem?_insert_self
  unbound := by
    intro k hk
    have hne : cid ≠ k := fun heq => hk id obj (List.mem_singleton.mpr (by rw [heq]))
    exact (Map.getElem?_insert _ _ _ _).trans (if_neg hne)
  distinct := List.nodup_singleton _

theorem trans (hinj : Function.Injective env.draw) (h : CreateTurns env c c' u u' ops)
    (h' : CreateTurns env c' c'' u' u'' ops') (hle : u.createSeq ≤ u'.createSeq)
    (hle' : u'.createSeq ≤ u''.createSeq)
    (hapart : ∀ cid id obj id' obj', .create cid id obj ∈ ops → .create cid id' obj' ∉ ops') :
    CreateTurns env c c'' u u'' (ops ++ ops') where
  made := by
    intro op hop
    rcases List.mem_append.mp hop with hop | hop
    · obtain ⟨cid, id, obj, i, heq, hid, hlo, hhi⟩ := h.made op hop
      exact ⟨cid, id, obj, i, heq, hid, hlo, hhi.trans_le hle'⟩
    · obtain ⟨cid, id, obj, i, heq, hid, hlo, hhi⟩ := h'.made op hop
      exact ⟨cid, id, obj, i, heq, hid, hle.trans hlo, hhi⟩
  created := by
    intro cid
    rw [h'.created, h.created, or_assoc]
    simp only [List.mem_append, exists_or]
  bound := by
    intro cid id obj hmem
    rcases List.mem_append.mp hmem with hmem | hmem
    · rw [h'.unbound cid fun id' obj' => hapart cid id obj id' obj' hmem]
      exact h.bound cid id obj hmem
    · exact h'.bound cid id obj hmem
  unbound := by
    intro cid hcid
    rw [h'.unbound cid fun id obj hmem => hcid id obj (List.mem_append_right _ hmem),
      h.unbound cid fun id obj hmem => hcid id obj (List.mem_append_left _ hmem)]
  distinct := by
    rw [List.map_append]
    refine h.distinct.append h'.distinct fun id hid hid' => ?_
    obtain ⟨op, hop, rfl⟩ := List.mem_map.mp hid
    obtain ⟨op', hop', heq⟩ := List.mem_map.mp hid'
    obtain ⟨cid, id, obj, i, rfl, hi, -, hhi⟩ := h.made op hop
    obtain ⟨cid', id', obj', i', rfl, hi', hlo', -⟩ := h'.made op' hop'
    -- the earlier create drew an earlier id
    have : env.draw i' = env.draw i := hi' ▸ hi ▸ heq
    have := hinj this
    omega

end CreateTurns

section Creates

variable {a : SetArgs} {s : Store}

/-- **The create loop**: what a run of it leaves. -/
theorem CreateRun.turns (hq : HooksQuiet env st) (hinj : Function.Injective env.draw)
    {start cur : Rounds} (hrun : CreateRun env st st.hooks start cur)
    (hl : Leased env s start.update start.index) (hsorts : Sorts start start)
    (hkeys : ∀ x ∈ start.pending, x.1 ∈ a.create) :
    Sorts start cur ∧ ∃ ops, CreateTurns env start.call cur.call start.update cur.update ops ∧
      Moved env st a s start.update cur.update cur.index ops := by
  induction hrun with
  | refl => exact ⟨hsorts, [], .nil rfl rfl, .refl hl⟩
  | @tail mid _ hrun hmove ih =>
    obtain ⟨hmid, ops, hturns, hmoved⟩ := ih
    refine ⟨hmid.move hmove, ?_⟩
    cases hmove with
    | wait => exact ⟨ops, { hturns with }, hmoved⟩
    | @reject l r cid p serr u n hs hres haccept =>
      have hquiet : Moved env st a s mid.update u n [] :=
        (quiet_admitCreate hq _ _).moved hmoved.leased haccept
      refine ⟨ops ++ [], hturns.trans hinj (.nil rfl rfl) hmoved.drawn hquiet.drawn ?_,
        hmoved.trans hquiet⟩
      simp
    | @land l r cid p obj id u n hs hland =>
      obtain ⟨u1, n1, haccept, hcreate⟩ := hland.staged
      have hquiet : Moved env st a s mid.update u1 n1 [] :=
        (quiet_admitCreate hq _ _).moved hmoved.leased haccept
      obtain ⟨hl', hid, hseq, hnone, hrec⟩ := hquiet.leased.create hinj hcreate
      obtain ⟨p0, hp0, -⟩ :=
        CreateRun.pending hrun (hs ▸ List.mem_append_right _ List.mem_cons_self)
      have hone : Moved env st a s u1 u n [.create cid id (obj.insert "id" (quoteId id))] :=
        ⟨hl', hseq ▸ Nat.le_succ _, hrec, ⟨hkeys _ hp0, hnone⟩, trivial⟩
      refine ⟨ops ++ [.create cid id (obj.insert "id" (quoteId id))],
        hturns.trans hinj (.single hid hquiet.drawn (hseq ▸ Nat.lt_succ_self _)) hmoved.drawn
          (hquiet.drawn.trans hone.drawn) ?_, hmoved.trans (hquiet.trans hone)⟩
      -- what landed before is no longer pending
      intro cid' id' obj' id'' obj'' hmem hmem'
      cases List.mem_singleton.mp hmem'
      exact ((hmid.turn hs).1.1) ((hturns.created cid).mpr (.inr ⟨id', obj', hmem⟩))

theorem CreateRun.known {start cur : Rounds} (hrun : CreateRun env st st.hooks start cur)
    {k : JmapId} (hk : k ∈ cur.call.created ∨ k ∈ cur.call.notCreated) :
    k ∈ start.call.created ∨ k ∈ start.call.notCreated ∨ k ∈ start.pending.map Prod.fst := by
  induction hrun with
  | refl => exact hk.elim .inl (.inr ∘ .inl)
  | @tail mid _ hrun hmove ih =>
    have hturn : ∀ {l r cid p}, mid.pending = l ++ (cid, p) :: r →
        cid ∈ start.pending.map Prod.fst := by
      intro l r cid p hs
      obtain ⟨p0, hp0, -⟩ :=
        CreateRun.pending hrun (hs ▸ List.mem_append_right l List.mem_cons_self)
      exact List.mem_map_of_mem hp0
    cases hmove with
    | wait => exact ih hk
    | reject hs =>
      rcases hk with hk | hk
      · exact ih (.inl hk)
      · rcases (Map.mem_insert_iff _ _ _ _).mp hk with hk | rfl
        · exact ih (.inr hk)
        · exact .inr (.inr (hturn hs))
    | land hs =>
      rcases hk with hk | hk
      · rcases (Map.mem_insert_iff _ _ _ _).mp hk with hk | rfl
        · exact ih (.inl hk)
        · exact .inr (.inr (hturn hs))
      · exact ih (.inr hk)

/-- The creates of a call, whatever their pipeline: every one of them is created or rejected. -/
structure CreatesDone (env : CommitEnv) (st : StdType) (a : SetArgs) (s : Store) (c c' : CallState)
    (u u' : Update) (n' : ℕ) (ops : List DoneOp) : Prop where
  turns : CreateTurns env c c' u u' ops
  moved : Moved env st a s u u' n' ops
  decided : ∀ cid ∈ a.create, (cid ∈ c'.created ↔ cid ∉ c'.notCreated)
  known : ∀ cid : JmapId, cid ∈ c'.created ∨ cid ∈ c'.notCreated → cid ∈ a.create

theorem processCreates_done (hq : HooksQuiet env st) (hinj : Function.Injective env.draw)
    (hl : Leased env s u n)
    (h : (processCreates env.db.scan st a.create).exec env { createdIds := ids } u n =
      ((.ok (), c'), u', n')) :
    ∃ ops, CreatesDone env st a s { createdIds := ids } c' u u' n' ops := by
  obtain ⟨pending, c1, u1, n1, hprep, hrounds⟩ := CallM.exec_bind_ok h
  obtain ⟨hprepares, ⟨rfl, rfl⟩, hids⟩ := prepareCreates_prepares hprep
  obtain ⟨last, hrun, -, rfl, rfl, rfl⟩ :=
    createRounds_run env st st.hooks (Nat.lt_succ_self _) hrounds
  have hsorts : Sorts ⟨pending, c1, u1, n1⟩ ⟨pending, c1, u1, n1⟩ :=
    .refl hprepares.nodup hprepares.created fun x hx => hprepares.not_unprepared hx
  obtain ⟨hlast, ops, hturns, hmoved⟩ := CreateRun.turns hq hinj hrun hl hsorts
    fun x hx => hprepares.mem hx
  refine ⟨ops, ⟨hturns.made, fun cid => ?_, fun cid id obj hmem => ?_, fun cid hcid => ?_,
    hturns.distinct⟩, hmoved, fun cid hcid => ?_, fun cid hcid => ?_⟩
  · rw [Rounds.rejected_created, hturns.created]
    refine or_congr_left (iff_of_false (hprepares.created cid) Std.ExtTreeMap.not_mem_empty)
  · rw [Rounds.rejected_createdIds]
    exact hturns.bound cid id obj hmem
  · rw [Rounds.rejected_createdIds, hturns.unbound cid hcid, ← hids]
  · rw [Rounds.rejected_created, Rounds.mem_rejected_notCreated]
    exact hprepares.decided hlast hcid
  · rw [Rounds.rejected_created, Rounds.mem_rejected_notCreated, ← or_assoc] at hcid
    have hpending : ∀ k, k ∈ pending.map Prod.fst → k ∈ a.create := fun k hk => by
      obtain ⟨x, hx, rfl⟩ := List.mem_map.mp hk
      exact hprepares.mem hx
    rcases hcid with hcid | hcid
    · rcases CreateRun.known hrun hcid with hc | hno | hp
      · exact absurd hc (hprepares.created cid)
      · obtain ⟨raw, hraw, -⟩ := (hprepares.unprepared cid).mp hno
        exact Map.mem_of_getElem? hraw
      · exact hpending cid hp
    · obtain ⟨x, hx, rfl⟩ := List.mem_map.mp hcid
      obtain ⟨p0, hp0, -⟩ := CreateRun.pending hrun hx
      exact hpending x.1 (List.mem_map.mpr ⟨_, hp0, rfl⟩)

/-! A type with create hooks commits the creates that were prepared, one after the other. -/

theorem prepareAll_spec (hq : HooksQuiet env st) {prepare : PrepareCreate}
    (hprepare : st.hooks.prepareCreate = some prepare) {m : ℕ}
    (h : (prepareAll prepare ids l).runAt env.schedule n = (.ok prepared, m)) :
    prepared.map Prepared.cid = l.map Prod.fst ∧
      ∀ p ∈ prepared, ∀ commit, p.commit = .ok commit → CreatesOne env st.desc.name commit := by
  induction l generalizing n m prepared with
  | nil =>
    cases h
    exact ⟨rfl, by simp⟩
  | cons x rest ih =>
    obtain ⟨commit, n1, hone, h⟩ := ReadM.runAt_bind_eq_ok.mp h
    obtain ⟨others, n2, hothers, h⟩ := ReadM.runAt_bind_eq_ok.mp h
    cases h
    obtain ⟨hmap, hcommit⟩ := ih hothers
    refine ⟨by simp [hmap], List.forall_mem_cons.mpr ⟨fun commit' heq => ?_, hcommit⟩⟩
    subst heq
    exact hq.prepareCreate prepare ids x.1 x.2 n commit' n1 hprepare hone

theorem commitPrepared_turn {p : Prepared} (hcid : p.cid ∈ a.create)
    (hcommit : ∀ commit, p.commit = .ok commit → CreatesOne env st.desc.name commit)
    (hl : Leased env s u n) (h : (commitPrepared p).exec env c u n = ((.ok (), c'), u', n')) :
    (∃ serr, c' = c.rejectCreate p.cid serr ∧ Moved env st a s u u' n' []) ∨
    ∃ id obj echo i, c' = (c.publish p.cid id).echoCreated p.cid echo p.fromId ∧
      id = env.draw i ∧ u.createSeq ≤ i ∧ i < u'.createSeq ∧
      Moved env st a s u u' n' [.create p.cid id obj] := by
  cases hp : p.commit with
  | error serr =>
    rw [commitPrepared, hp] at h
    cases h
    exact .inl ⟨serr, rfl, .refl hl⟩
  | ok commit =>
    rw [commitPrepared_exec env p c u n hp] at h
    have hone := hcommit commit hp s u n hl
    obtain ⟨hl', hle⟩ := hl.run commit
    rcases hrun : env.run commit u n with ⟨e | serr | ⟨id, echo⟩, u1, n1⟩ <;>
      rw [hrun] at h hone hl' hle <;> cases h
    · exact .inl ⟨serr, rfl, hl', hle, hone, trivial⟩
    · obtain ⟨⟨i, hlo, hhi, hid⟩, hnone, obj, hrec⟩ := hone
      exact .inr ⟨id, obj, echo, i, rfl, hid, hlo, hhi, hl', hle, hrec, ⟨hcid, hnone⟩, trivial⟩

theorem commitPreparedCreates_turns (hinj : Function.Injective env.draw)
    (hnodup : (prepared.map Prepared.cid).Nodup) (hmem : ∀ p ∈ prepared, p.cid ∈ a.create)
    (hcommit : ∀ p ∈ prepared, ∀ commit, p.commit = .ok commit →
      CreatesOne env st.desc.name commit) (hl : Leased env s u n)
    (h : (commitPreparedCreates prepared).exec env c u n = ((.ok (), c'), u', n')) :
    ∃ turns : List (JmapId × Option DoneOp), turns.map Prod.fst = prepared.map Prepared.cid ∧
      (∀ cid op, (cid, some op) ∈ turns → ∃ id obj, op = .create cid id obj) ∧
      (∀ cid : JmapId, cid ∈ c'.notCreated ↔ cid ∈ c.notCreated ∨ (cid, none) ∈ turns) ∧
      CreateTurns env c c' u u' (turns.filterMap Prod.snd) ∧
      Moved env st a s u u' n' (turns.filterMap Prod.snd) := by
  induction prepared generalizing c u n with
  | nil =>
    cases h
    exact ⟨[], rfl, by simp, by simp, .nil rfl rfl, .refl hl⟩
  | cons p rest ih =>
    obtain ⟨⟨⟩, c1, u1, n1, hturn, hrest⟩ := CallM.exec_bind_ok h
    rw [List.map_cons, List.nodup_cons] at hnodup
    rw [List.forall_mem_cons] at hmem hcommit
    rcases commitPrepared_turn hmem.1 hcommit.1 hl hturn with
      ⟨serr, rfl, hm⟩ | ⟨id, obj, echo, i, rfl, hid, hlo, hhi, hm⟩
    · obtain ⟨turns, hmap, hops, hnot, ht, hmoved⟩ := ih hnodup.2 hmem.2 hcommit.2 hm.leased hrest
      have hfirst : CreateTurns env c (c.rejectCreate p.cid serr) u u1 [] := .nil rfl rfl
      refine ⟨(p.cid, none) :: turns, by simp [hmap], fun cid op hop => ?_, fun cid => ?_,
        hfirst.trans hinj ht hm.drawn hmoved.drawn (by simp), hm.trans hmoved⟩
      · exact hops cid op (by simpa using hop)
      · rw [hnot, CallState.rejectCreate, Map.mem_insert_iff, or_assoc]
        simp
    · obtain ⟨turns, hmap, hops, hnot, ht, hmoved⟩ := ih hnodup.2 hmem.2 hcommit.2 hm.leased hrest
      refine ⟨(p.cid, some (.create p.cid id obj)) :: turns, by simp [hmap],
        fun cid op hop => ?_, fun cid => ?_,
        (CreateTurns.single hid hlo hhi).trans hinj ht hm.drawn hmoved.drawn ?_, hm.trans hmoved⟩
      · rcases List.mem_cons.mp hop with heq | hop
        · cases heq
          exact ⟨id, obj, rfl⟩
        · exact hops cid op hop
      · rw [hnot, CallState.echoCreated, CallState.publish]
        simp
      · -- the creation ids of the call are distinct
        intro cid id' obj' id'' obj'' hop hop'
        cases List.mem_singleton.mp hop
        obtain ⟨⟨cid', o⟩, hx, ho⟩ := List.mem_filterMap.mp hop'
        subst ho
        obtain ⟨id1, obj1, heq⟩ := hops cid' _ hx
        cases heq
        exact hnodup.1 (hmap ▸ List.mem_map_of_mem hx)

/-- Turns of distinct arguments: an argument has one outcome. -/
theorem turn_unique {turns : List (JmapId × Option DoneOp)} {P : JmapId → Prop}
    (honce : (turns.map Prod.fst).Pairwise fun x y => x = y → ¬ P x) {o o' : Option DoneOp}
    (h : (x, o) ∈ turns) (h' : (x, o') ∈ turns) (hx : P x) : o = o' := by
  rw [List.pairwise_map] at honce
  have hsymm : Std.Symm fun y z : JmapId × Option DoneOp => y.1 = z.1 → ¬ P y.1 :=
    ⟨fun y z hyz heq hz => hyz heq.symm (heq ▸ hz)⟩
  by_contra hne
  exact honce.forall h h' (fun heq => hne (Prod.mk.inj heq).2) rfl hx

theorem stageCreates_done (hq : HooksQuiet env st) (hinj : Function.Injective env.draw) {m : ℕ}
    (hprepared : (prepareSet st a ids).runAt env.schedule 0 = (.ok prepared, m))
    (hl : Leased env s u n)
    (h : (stageCreates env.db.scan st a.create prepared).exec env { createdIds := ids } u n =
      ((.ok (), c'), u', n')) :
    ∃ ops, CreatesDone env st a s { createdIds := ids } c' u u' n' ops := by
  cases hhook : st.hooks.prepareCreate with
  | none =>
    simp only [stageCreates, hhook] at h
    exact processCreates_done hq hinj hl h
  | some prepare =>
    simp only [stageCreates, hhook] at h
    simp only [prepareSet, hhook] at hprepared
    obtain ⟨hkeys, hcommit⟩ := prepareAll_spec hq hhook hprepared
    have hnodup : (prepared.map Prepared.cid).Nodup := hkeys ▸ Map.nodup_toList_keys a.create
    have hmem : ∀ k, k ∈ prepared.map Prepared.cid ↔ k ∈ a.create := by
      intro k
      rw [hkeys, List.mem_map]
      constructor
      · rintro ⟨⟨k, raw⟩, hx, rfl⟩
        exact Map.mem_of_getElem? ((Map.mem_toList _ _ _).mp hx)
      · intro hk
        obtain ⟨raw, hraw⟩ := Map.mem_iff.mp hk
        exact ⟨(k, raw), (Map.mem_toList _ _ _).mpr hraw, rfl⟩
    -- every create was prepared once, so it has one turn
    obtain ⟨turns, hmap, hops, hnot, hturns, hmoved⟩ := commitPreparedCreates_turns hinj hnodup
      (fun p hp => (hmem _).mp (List.mem_map_of_mem hp)) hcommit hl h
    have hcreated : ∀ cid : JmapId, cid ∈ c'.created ↔ ∃ op, (cid, some op) ∈ turns := by
      intro cid
      rw [hturns.created]
      constructor
      · rintro (hc | ⟨id, obj, hop⟩)
        · exact absurd hc Std.ExtTreeMap.not_mem_empty
        · obtain ⟨⟨cid', o⟩, hx, ho⟩ := List.mem_filterMap.mp hop
          subst ho
          obtain ⟨id', obj', heq⟩ := hops cid' _ hx
          cases heq
          exact ⟨_, hx⟩
      · rintro ⟨op, hop⟩
        obtain ⟨id, obj, rfl⟩ := hops cid op hop
        exact .inr ⟨id, obj, List.mem_filterMap.mpr ⟨_, hop, rfl⟩⟩
    have hrejected : ∀ cid : JmapId, cid ∈ c'.notCreated ↔ (cid, none) ∈ turns := by
      intro cid
      rw [hnot]
      exact or_iff_right Std.ExtTreeMap.not_mem_empty
    have honce : (turns.map Prod.fst).Pairwise fun x y => x = y → ¬ True := by
      rw [hmap]
      exact hnodup.imp fun hne heq => absurd heq hne
    refine ⟨_, hturns, hmoved, fun cid hcid => ?_, fun cid hcid => ?_⟩
    · rw [hcreated, hrejected]
      constructor
      · rintro ⟨op, hop⟩ hnone
        cases turn_unique honce hop hnone trivial
      · intro hnone
        obtain ⟨⟨cid', o⟩, hx, rfl⟩ := List.mem_map.mp (hmap ▸ (hmem cid).mpr hcid)
        cases o with
        | none => exact absurd hx hnone
        | some op => exact ⟨op, hx⟩
    · rw [hcreated, hrejected] at hcid
      obtain ⟨o, hx⟩ : ∃ o, (cid, o) ∈ turns := by
        rcases hcid with ⟨op, hop⟩ | hnone
        · exact ⟨_, hop⟩
        · exact ⟨_, hnone⟩
      exact (hmem cid).mp (hmap ▸ List.mem_map_of_mem hx)

end Creates

/-! ## Arguments that name records -/

theorem creationRef_inj {y k : JmapId} (hx : creationRef x = some k) (hy : creationRef y = some k) :
    x = y := by
  have hchars : ∀ {z : JmapId}, creationRef z = some k → z.toList = '#' :: k.toList := by
    intro z hz
    unfold creationRef at hz
    split at hz
    · rename_i rest hrest
      rw [hrest, ← Option.some.inj hz, String.toList_ofList]
    · cases hz
  exact String.toList_injective ((hchars hx).trans (hchars hy).symm)

/-- The argument names a record before the call, or a create of the call that may give it one. -/
def MayName (ids : CreatedIds) (create : Map JmapId Raw) (x : JmapId) : Prop :=
  (resolveIdArg ids x).isSome ∨ ∃ k, creationRef x = some k ∧ k ∈ create

/-- No two arguments name one record, by its id or by a creation id. -/
structure NamesApart (ids : CreatedIds) (create : Map JmapId Raw) (args : List JmapId) : Prop where
  once : args.Pairwise fun x y => x = y → ¬ MayName ids create x
  apart : ∀ x ∈ args, ∀ y ∈ args, ∀ r, resolveIdArg ids x = some r → resolveIdArg ids y = some r →
    x = y

/-- Ids are never drawn twice, nor those the account or the request has seen. -/
structure FreshIds (env : CommitEnv) (s : Store) (ids : CreatedIds) (args : List JmapId) :
    Prop where
  injective : Function.Injective env.draw
  unused : ∀ drawn, FreshDraw env.draw s drawn
  unnamed : ∀ x ∈ args, ∀ i, resolveIdArg ids x ≠ some (env.draw i)

section Names

variable {ops : List DoneOp}

/-- What an argument names after the creates: what it named before, or a record of the call. -/
theorem CreateTurns.resolveIdArg_eq (h : CreateTurns env { createdIds := ids } c u u' ops)
    (hx : resolveIdArg c.createdIds x = some r) :
    resolveIdArg ids x = some r ∨
      ∃ k obj, creationRef x = some k ∧ .create k r obj ∈ ops := by
  unfold resolveIdArg at hx ⊢
  cases hk : creationRef x with
  | none =>
    rw [hk] at hx
    exact .inl hx
  | some k =>
    rw [hk] at hx
    dsimp only at hx ⊢
    by_cases hmade : ∃ id obj, .create k id obj ∈ ops
    · obtain ⟨id, obj, hop⟩ := hmade
      have hid := h.bound k id obj hop
      obtain rfl : id = r := Option.some.inj (hid.symm.trans hx)
      exact .inr ⟨k, obj, rfl, hop⟩
    · rw [not_exists] at hmade
      rw [h.unbound k fun id obj hop => hmade id ⟨obj, hop⟩] at hx
      exact .inl hx

variable {create : Map JmapId Raw} {s : Store}

theorem NamesApart.resolve_inj (hnames : NamesApart ids create args)
    (hfresh : FreshIds env s ids args) (h : CreateTurns env { createdIds := ids } c u u' ops)
    {y : JmapId} (hx : x ∈ args) (hy : y ∈ args) (hxr : resolveIdArg c.createdIds x = some r)
    (hyr : resolveIdArg c.createdIds y = some r) : x = y := by
  have hdrawn : ∀ {k obj}, .create k r obj ∈ ops → ∃ i, r = env.draw i := by
    intro k obj hop
    obtain ⟨cid, id, obj', i, heq, hid, -⟩ := h.made _ hop
    cases heq
    exact ⟨i, hid⟩
  rcases h.resolveIdArg_eq hxr with hxr | ⟨k, obj, hk, hop⟩ <;>
    rcases h.resolveIdArg_eq hyr with hyr | ⟨k', obj', hk', hop'⟩
  · exact hnames.apart x hx y hy r hxr hyr
  · obtain ⟨i, rfl⟩ := hdrawn hop'
    exact absurd hxr (hfresh.unnamed x hx i)
  · obtain ⟨i, rfl⟩ := hdrawn hop
    exact absurd hyr (hfresh.unnamed y hy i)
  · -- both name the record of one create
    cases List.inj_on_of_nodup_map h.distinct hop hop' rfl
    exact creationRef_inj hk hk'

theorem CreateTurns.mayName (h : CreateTurns env { createdIds := ids } c u u' ops)
    (hknown : ∀ k id obj, .create k id obj ∈ ops → k ∈ create)
    (hx : resolveIdArg c.createdIds x = some r) : MayName ids create x := by
  rcases h.resolveIdArg_eq hx with hx | ⟨k, obj, hk, hop⟩
  · exact .inl (by rw [hx]; rfl)
  · exact .inr ⟨k, hk, hknown k r obj hop⟩

end Names

/-! ## The whole call -/

/-- What the commit of a call writes to the account; nothing if the call fails. -/
def CallM.writes (env : CommitEnv) (m : CallM Unit) (c : CallState) (n : ℕ) : List BatchOp :=
  match env.acquired with
  | .error _ => []
  | .ok () =>
    match m.exec env c { sequence := (env.schedule n).seq + 1 } (n + 1) with
    | ((.error _, _), _) => []
    | ((.ok (), _), u, _) =>
      if u.nothingStaged then []
      else
        match u.buildBatch env.db env.acct env.now, env.written with
        | .ok batch, .ok () => batch ++ [.setSeq u.sequence]
        | _, _ => []

/-- What `Foo/set` writes to the account. -/
def fooSetWrites (env : CommitEnv) (st : StdType) (a : SetArgs) (ids : CreatedIds) :
    List BatchOp :=
  if st.maxObjectsInSet < a.create.size + a.update.size + a.destroy.length then []
  else
    match (prepareSet st a ids).runAt env.schedule 0 with
    | (.error _, _) => []
    | (.ok prepared, n) =>
      (setCallback env.db.scan st a prepared).writes env { createdIds := ids } n

/-- The operations of the list are those the response reports as done. -/
structure Reports (resp : CallState) (ops : List DoneOp) : Prop where
  created : ∀ cid id : JmapId, (∃ obj, .create cid id obj ∈ ops) ↔
    cid ∈ resp.created ∧ resp.createdIds[cid]? = some id
  updated : ∀ r : JmapId, (∃ uid obj, .update uid r obj ∈ ops) ↔ r ∈ resp.updated
  destroyed : ∀ r : JmapId, (∃ did, .destroy did r ∈ ops) ↔ r ∈ resp.destroyed
  /-- No update is done twice. -/
  once : (ops.filterMap DoneOp.updateKey).Nodup

/-- Every argument is reported once, and the records are the old ones with what is reported. -/
structure Accounted (env : CommitEnv) (st : StdType) (a : SetArgs) (ids : CreatedIds) (s : Store)
    (resp : CallState) : Prop where
  creates : ∀ cid ∈ a.create, (cid ∈ resp.created ↔ cid ∉ resp.notCreated)
  updates : ∀ uid ∈ a.update,
    match resolveIdArg resp.createdIds uid with
    | some r => r ∈ resp.updated ↔ uid ∉ resp.notUpdated
    | none => uid ∈ resp.notUpdated
  destroys : ∀ did ∈ a.destroy,
    match resolveIdArg resp.createdIds did with
    | some r => r ∈ resp.destroyed ↔ did ∉ resp.notDestroyed
    | none => did ∈ resp.notDestroyed
  committed : ∃ ops, Reports resp ops ∧
    Explained env st a (fun id => s.objs[RecKey.mk st.desc.name id]?) ops ∧
    ∀ id, (applyBatch (fooSetWrites env st a ids) s).objs[RecKey.mk st.desc.name id]? =
      ops.foldl DoneOp.apply (fun id => s.objs[RecKey.mk st.desc.name id]?) id

section Call

variable {a : SetArgs} {s : Store} {resp : SetResponse}

theorem leased_opened {sequence : ℕ} (hheld : ∀ m, n ≤ m → env.schedule m = s)
    (hfresh : ∀ drawn, FreshDraw env.draw s drawn) : Leased env s { sequence := sequence } n where
  held := hheld
  fresh := hfresh
  cache := fun k obj h => by simp at h
  staged := fun k st h => by simp at h

theorem writes_objs (hl : Leased env s u n) {newState : Option ℕ}
    (hcommit : commitUpdate env st.desc.name u = .ok newState) (k : RecKey) :
    (applyBatch (if u.nothingStaged then []
      else
        match u.buildBatch env.db env.acct env.now, env.written with
        | .ok batch, .ok () => batch ++ [.setSeq u.sequence]
        | _, _ => []) s).objs[k]? = u.view s k := by
  unfold commitUpdate at hcommit
  unfold Update.view
  by_cases hn : u.nothingStaged
  · rw [if_pos hn]
    have hnone : u.staged[k]? = none := by
      simp only [Update.nothingStaged, Bool.and_eq_true] at hn
      exact (Map.isEmpty_iff_forall u.staged).mp hn.1.1 k
    rw [hnone]
    rfl
  · rw [if_neg hn] at hcommit ⊢
    simp only [except_bind_eq_ok] at hcommit
    obtain ⟨batch, hbatch, ⟨⟩, hwritten, -⟩ := hcommit
    rw [hbatch, hwritten]
    refine (objs_of_stagedOk hl.staged (applyBatch_buildBatch hbatch s).2.2.1 k).trans ?_
    cases u.staged[k]? <;> rfl

theorem fooSetWrites_of_ok (h : (fooSet env st a ids).1 = .ok resp) {n0 : ℕ}
    (hprepared : (prepareSet st a ids).runAt env.schedule 0 = (.ok prepared, n0))
    (hcallback : (setCallback env.db.scan st a prepared).exec env { createdIds := ids }
      { sequence := (env.schedule n0).seq + 1 } (n0 + 1) = ((.ok (), c), u, n)) :
    fooSetWrites env st a ids =
      if u.nothingStaged then []
      else
        match u.buildBatch env.db env.acct env.now, env.written with
        | .ok batch, .ok () => batch ++ [.setSeq u.sequence]
        | _, _ => [] := by
  unfold fooSet at h
  unfold fooSetWrites
  split at h
  · cases h
  rename_i hsize
  rw [if_neg hsize, hprepared]
  rw [hprepared] at h
  cases hacquired : env.acquired with
  | error e =>
    simp only [CallM.update, hacquired] at h
    cases h
  | ok _ =>
    simp only [CallM.writes, hacquired, hcallback]

/-- If no two arguments of a phase name one record, each has one outcome. -/
theorem turns_exactly_one {ops : List DoneOp} {c0 : CallState} {Kind : JmapId → DoneOp → Prop}
    {done refused : CallState → JmapId → Prop} {turns : List (JmapId × Option DoneOp)}
    (hturns : CreateTurns env { createdIds := ids } c u u' ops)
    (hknown : ∀ k id obj, .create k id obj ∈ ops → k ∈ a.create)
    (hnames : NamesApart ids a.create args) (hfresh : FreshIds env s ids args)
    (ht : PhaseTurns Kind done refused c0 c' turns) (hids : c0.createdIds = c.createdIds)
    (hstart : ∀ y, ¬ done c0 y ∧ ¬ refused c0 y) (hmap : turns.map Prod.fst = args)
    (hx : x ∈ args) :
    match resolveIdArg c.createdIds x with
    | some r => done c' r ↔ ¬ refused c' x
    | none => refused c' x := by
  have hnamed := fun y op hy => hids ▸ (ht.named y op hy).2
  simp only [ht.done, ht.refused, hstart, false_or]
  obtain ⟨⟨x, o⟩, hturn, rfl⟩ := List.mem_map.mp (hmap ▸ hx)
  cases hr : resolveIdArg c.createdIds x with
  | none =>
    cases o with
    | none => exact hturn
    | some op => exact absurd (hnamed x op hturn) (by rw [hr]; exact nofun)
  | some r =>
    have hmay := hturns.mayName hknown hr
    have honce : (turns.map Prod.fst).Pairwise fun y z => y = z → ¬ MayName ids a.create y :=
      hmap ▸ hnames.once
    constructor
    · rintro ⟨y, op, hy, rfl⟩ hnone
      obtain rfl : y = x := hnames.resolve_inj hfresh hturns
        (hmap ▸ List.mem_map_of_mem hy) hx (hnamed y op hy) hr
      cases turn_unique honce hy hnone hmay
    · intro hnone
      cases o with
      | none => exact absurd hturn hnone
      | some op => exact ⟨x, op, hturn, Option.some.inj ((hnamed x op hturn).symm.trans hr)⟩

/-- Each phase writes its own part of the response only. -/
theorem phases_keep {u1 u2 u3 : Update} {n1 n2 n3 : ℕ} {c1 c2 c3 : CallState}
    (hcreates : (stageCreates env.db.scan st a.create prepared).exec env { createdIds := ids } u n =
      ((.ok (), c1), u1, n1))
    (hupdates : (processUpdates env.db.scan st a.update.toList).exec env c1 u1 n1 =
      ((.ok (), c2), u2, n2))
    (hdestroys : (processDestroys st a.destroy).exec env c2 u2 n2 = ((.ok (), c3), u3, n3)) :
    (c1.updated = ∅ ∧ c1.notUpdated = ∅) ∧ (c2.destroyed = [] ∧ c2.notDestroyed = ∅) ∧
    (c2.createdIds = c1.createdIds ∧ c3.createdIds = c1.createdIds) ∧
    (c3.created = c1.created ∧ c3.notCreated = c1.notCreated) ∧
    (c3.updated = c2.updated ∧ c3.notUpdated = c2.notUpdated) := by
  have hc := @stageCreates_keeps _
    (fun c => (c.updated, c.notUpdated, c.destroyed, c.notDestroyed))
    (fun _ => ⟨fun _ _ => rfl, fun _ _ => rfl, fun _ _ _ => rfl⟩) env.db.scan st a.create prepared
    env { createdIds := ids } u n
  have hu := @processUpdates_keeps _
    (fun c => (c.createdIds, c.created, c.notCreated, c.destroyed, c.notDestroyed)) env.db.scan st
    (fun _ _ _ => rfl) (fun _ _ _ => rfl) a.update.toList env c1 u1 n1
  have hd := @processDestroys_keeps _
    (fun c => (c.createdIds, c.created, c.notCreated, c.updated, c.notUpdated)) st
    (fun _ _ _ => rfl) (fun _ _ => rfl) a.destroy env c2 u2 n2
  rw [CallM.left, hcreates] at hc
  rw [CallM.left, hupdates] at hu
  rw [CallM.left, hdestroys] at hd
  simp only [Prod.mk.injEq] at hc hu hd
  obtain ⟨hup, hnup, hde, hnde⟩ := hc
  obtain ⟨hids, hcr, hncr, hde', hnde'⟩ := hu
  obtain ⟨hids', hcr', hncr', hup', hnup'⟩ := hd
  exact ⟨⟨hup, hnup⟩, ⟨hde'.trans hde, hnde'.trans hnde⟩, ⟨hids, hids'.trans hids⟩,
    ⟨hcr'.trans hcr, hncr'.trans hncr⟩, ⟨hup', hnup'⟩⟩

/-- The keys of the updates done, in the order of the arguments. -/
theorem updateKeys_sublist {turns : List (JmapId × Option DoneOp)}
    (h : ∀ x op, (x, some op) ∈ turns → op.updateKey = some x) :
    ((turns.filterMap Prod.snd).filterMap DoneOp.updateKey).Sublist (turns.map Prod.fst) := by
  induction turns with
  | nil => exact List.Sublist.slnil
  | cons t rest ih =>
    have hrest := ih fun x op hop => h x op (List.mem_cons_of_mem _ hop)
    obtain ⟨x, o⟩ := t
    cases o with
    | none => exact hrest.cons x
    | some op =>
      have hx := h x op List.mem_cons_self
      simp only [List.filterMap_cons, hx, List.map_cons]
      exact hrest.cons_cons x

/-- The operations of the three phases are what the final response reports. -/
theorem reports_of_turns {c1 c2 c3 : CallState} {u1 : Update} {ops : List DoneOp}
    {t2 t3 : List (JmapId × Option DoneOp)}
    (hc : CreateTurns env { createdIds := ids } c1 u u1 ops) (hu : UpdateTurns c1 c2 t2)
    (hd : DestroyTurns c2 c3 t3) (hempty : c1.updated = ∅ ∧ c2.destroyed = [])
    (hids : c3.createdIds = c1.createdIds) (hcreated : c3.created = c1.created)
    (hupdated : c3.updated = c2.updated) (hnodup : (t2.map Prod.fst).Nodup) :
    Reports c3 (ops ++ t2.filterMap Prod.snd ++ t3.filterMap Prod.snd) := by
  -- each phase has operations of its own kind
  have hmade : ∀ op ∈ ops, ∃ cid id obj, op = .create cid id obj := by
    intro op hop
    obtain ⟨cid, id, obj, i, heq, -⟩ := hc.made op hop
    exact ⟨cid, id, obj, heq⟩
  refine ⟨fun cid id => ?_, fun r => ?_, fun r => ?_, ?_⟩
  · simp only [List.mem_append, hu.mem_ops, hd.mem_ops, reduceCtorEq, exists_const, false_and,
      or_false]
    rw [hids, hcreated, hc.created]
    constructor
    · rintro ⟨obj, hop⟩
      exact ⟨.inr ⟨id, obj, hop⟩, hc.bound cid id obj hop⟩
    · rintro ⟨hin | ⟨id', obj, hop⟩, hid⟩
      · exact absurd hin Std.ExtTreeMap.not_mem_empty
      · rw [hc.bound cid id' obj hop] at hid
        exact ⟨obj, Option.some.inj hid ▸ hop⟩
  · simp only [List.mem_append, hu.mem_ops, hd.mem_ops]
    rw [hupdated, hu.done, hempty.1]
    constructor
    · rintro ⟨uid, obj, (hop | ⟨uid', -, hop⟩) | ⟨_, ⟨_, heq⟩, -⟩⟩
      · obtain ⟨_, _, _, heq⟩ := hmade _ hop
        cases heq
      · exact .inr ⟨uid', _, hop, rfl⟩
      · cases heq
    · rintro (hin | ⟨uid, op, hop, rfl⟩)
      · exact absurd hin Std.ExtTreeMap.not_mem_empty
      · obtain ⟨⟨id, obj, rfl⟩, -⟩ := hu.named uid op hop
        exact ⟨uid, obj, .inl (.inr ⟨uid, ⟨id, obj, rfl⟩, hop⟩)⟩
  · simp only [List.mem_append, hu.mem_ops, hd.mem_ops]
    rw [hd.done, hempty.2]
    constructor
    · rintro ⟨did, (hop | ⟨_, ⟨_, _, heq⟩, -⟩) | ⟨did', -, hop⟩⟩
      · obtain ⟨_, _, _, heq⟩ := hmade _ hop
        cases heq
      · cases heq
      · exact .inr ⟨did', _, hop, rfl⟩
    · rintro (hin | ⟨did, op, hop, rfl⟩)
      · exact absurd hin List.not_mem_nil
      · obtain ⟨⟨id, rfl⟩, -⟩ := hd.named did op hop
        exact ⟨did, .inr ⟨did, ⟨id, rfl⟩, hop⟩⟩
  · rw [List.filterMap_append, List.filterMap_append]
    have hnone : ops.filterMap DoneOp.updateKey = [] := by
      refine List.filterMap_eq_nil_iff.mpr fun op hop => ?_
      obtain ⟨_, _, _, rfl⟩ := hmade op hop
      rfl
    have hnone' : (t3.filterMap Prod.snd).filterMap DoneOp.updateKey = [] := by
      refine List.filterMap_eq_nil_iff.mpr fun op hop => ?_
      obtain ⟨_, ⟨_, rfl⟩, -⟩ := hd.mem_ops.mp hop
      rfl
    rw [hnone, hnone', List.append_nil]
    refine (updateKeys_sublist fun uid op hop => ?_).nodup hnodup
    obtain ⟨⟨id, obj, rfl⟩, -⟩ := hu.named uid op hop
    rfl

/-- A call that answered, as the turns of its three phases. -/
structure SetTurns (env : CommitEnv) (st : StdType) (a : SetArgs) (ids : CreatedIds) (s : Store)
    (resp : CallState) where
  afterCreates : CallState
  afterUpdates : CallState
  opened : Update
  staged : Update
  made : List DoneOp
  updates : List (JmapId × Option DoneOp)
  destroys : List (JmapId × Option DoneOp)
  creates : CreateTurns env { createdIds := ids } afterCreates opened staged made
  decided : ∀ cid ∈ a.create, (cid ∈ afterCreates.created ↔ cid ∉ afterCreates.notCreated)
  known : ∀ k id obj, .create k id obj ∈ made → k ∈ a.create
  updateArgs : updates.map Prod.fst = a.update.keys
  updateTurns : UpdateTurns afterCreates afterUpdates updates
  destroyArgs : destroys.map Prod.fst = a.destroy
  destroyTurns : DestroyTurns afterUpdates resp destroys
  noUpdates : afterCreates.updated = ∅ ∧ afterCreates.notUpdated = ∅
  noDestroys : afterUpdates.destroyed = [] ∧ afterUpdates.notDestroyed = ∅
  createdIds : afterUpdates.createdIds = afterCreates.createdIds ∧
    resp.createdIds = afterCreates.createdIds
  created : resp.created = afterCreates.created ∧ resp.notCreated = afterCreates.notCreated
  updated : resp.updated = afterUpdates.updated ∧ resp.notUpdated = afterUpdates.notUpdated
  explained : Explained env st a (fun id => s.objs[RecKey.mk st.desc.name id]?)
    (made ++ updates.filterMap Prod.snd ++ destroys.filterMap Prod.snd)
  committed : ∀ id,
    (applyBatch (fooSetWrites env st a ids) s).objs[RecKey.mk st.desc.name id]? =
      (made ++ updates.filterMap Prod.snd ++ destroys.filterMap Prod.snd).foldl DoneOp.apply
        (fun id => s.objs[RecKey.mk st.desc.name id]?) id

/-- A call that answers went through its three phases, each as its turns say. -/
theorem fooSet_turns (hq : HooksQuiet env st)
    (hheld : ∀ m, ((prepareSet st a ids).runAt env.schedule 0).2 ≤ m → env.schedule m = s)
    (hinj : Function.Injective env.draw) (hunused : ∀ drawn, FreshDraw env.draw s drawn)
    (h : (fooSet env st a ids).1 = .ok resp) : Nonempty (SetTurns env st a ids s resp.resp) := by
  obtain ⟨prepared, n0, ⟨c1, u1, n1⟩, ⟨c2, u2, n2⟩, ⟨u, n⟩, newState, hprepared, hexec1, hexec2,
    hexec3, hcallback, hcommit, -⟩ := fooSet_stages h
  rw [hprepared] at hheld
  -- the three phases, each on what the one before leaves
  obtain ⟨ops, hc⟩ := stageCreates_done hq hinj hprepared
    (leased_opened (fun m hm => hheld m (by omega)) hunused) hexec1
  obtain ⟨t2, hmap2, ht2, hm2⟩ := processUpdates_turns hq hc.moved.leased
    (fun x hx => (Map.mem_toList a.update x.1 x.2).mp hx) hexec2
  obtain ⟨t3, hmap3, ht3, hm3⟩ := processDestroys_turns hq hm2.leased (fun did hdid => hdid) hexec3
  rw [Std.ExtTreeMap.map_fst_toList_eq_keys] at hmap2
  obtain ⟨hno1, hno2, hids, hcreated, hupdated⟩ := phases_keep hexec1 hexec2 hexec3
  have hmoved := (hc.moved.trans hm2).trans hm3
  have hstart : recordsOf st.desc.name s { sequence := (env.schedule n0).seq + 1 } =
      fun id => s.objs[RecKey.mk st.desc.name id]? := by
    funext id
    simp [recordsOf, Update.view]
  exact ⟨{
    afterCreates := c1
    afterUpdates := c2
    opened := { sequence := (env.schedule n0).seq + 1 }
    staged := u1
    made := ops
    updates := t2
    destroys := t3
    creates := hc.turns
    decided := hc.decided
    known := fun k id obj hop =>
      hc.known k (.inl ((hc.turns.created k).mpr (.inr ⟨id, obj, hop⟩)))
    updateArgs := hmap2
    updateTurns := ht2
    destroyArgs := hmap3
    destroyTurns := ht3
    noUpdates := hno1
    noDestroys := hno2
    createdIds := hids
    created := hcreated
    updated := hupdated
    explained := hstart ▸ hmoved.explained
    committed := fun id => by
      rw [← hstart, ← hmoved.records, fooSetWrites_of_ok h hprepared hcallback]
      exact writes_objs hmoved.leased hcommit ⟨st.desc.name, id⟩ }⟩

/-- **The report of a call.**  If no two update keys and no two destroy arguments name one
    record, a call that answers reports every argument once, and commits what it reports. -/
theorem set_accounted (hq : HooksQuiet env st)
    (hheld : ∀ m, ((prepareSet st a ids).runAt env.schedule 0).2 ≤ m → env.schedule m = s)
    (hfresh : FreshIds env s ids (a.update.keys ++ a.destroy))
    (hupdates : NamesApart ids a.create a.update.keys)
    (hdestroys : NamesApart ids a.create a.destroy)
    (h : (fooSet env st a ids).1 = .ok resp) : Accounted env st a ids s resp.resp := by
  obtain ⟨call⟩ := fooSet_turns hq hheld hfresh.injective hfresh.unused h
  obtain ⟨hids2, hids⟩ := call.createdIds
  obtain ⟨hup3, hnup3⟩ := call.updated
  have hfresh2 : FreshIds env s ids a.update.keys :=
    { hfresh with unnamed := fun x hx => hfresh.unnamed x (List.mem_append_left _ hx) }
  have hfresh3 : FreshIds env s ids a.destroy :=
    { hfresh with unnamed := fun x hx => hfresh.unnamed x (List.mem_append_right _ hx) }
  refine ⟨fun cid hcid => ?_, fun uid huid => ?_, fun did hdid => ?_, ?_⟩
  · rw [call.created.1, call.created.2]
    exact call.decided cid hcid
  · rw [hids, hup3, hnup3]
    exact turns_exactly_one call.creates call.known hupdates hfresh2 call.updateTurns rfl
      (by simp [call.noUpdates]) call.updateArgs (Std.ExtTreeMap.mem_keys.mpr huid)
  · rw [hids]
    exact turns_exactly_one call.creates call.known hdestroys hfresh3 call.destroyTurns hids2
      (by simp [call.noDestroys]) call.destroyArgs hdid
  · refine ⟨_, reports_of_turns call.creates call.updateTurns call.destroyTurns
      ⟨call.noUpdates.1, call.noDestroys.1⟩ hids call.created.1 hup3 ?_, call.explained,
      call.committed⟩
    rw [call.updateArgs]
    exact Map.nodup_keys a.update

end Call

/-! ## Calls on one note

The account has note `X`. -/

def oneNote : Store where
  objs := (∅ : Map RecKey Object).insert ⟨"Note", "X"⟩
    (((∅ : Object).insert "id" "\"X\"").insert "title" "\"t\"")

def oneNoteEnv : CommitEnv :=
  { noteEnv oneNote [] with draw := fun i => String.ofList (List.replicate (i + 1) 'n') }

def oneNoteStd : StdType :=
  noteStd [("new", ∅), ("patch", (∅ : Object).insert "title" "\"u\"")] {}

/-- What a call reports as done and as refused, of its updates and of its destroys. -/
def changeKeys (r : Except MethodErr SetResponse × CreatedIds) :
    (List JmapId × List JmapId) × (List JmapId × List JmapId) :=
  match r.1 with
  | .ok resp => ((resp.resp.updated.keys, resp.resp.notUpdated.keys),
      (resp.resp.destroyed, resp.resp.notDestroyed.keys))
  | .error _ => (([], []), ([], []))

def oneNoteArgs : SetArgs where
  create := (∅ : Map JmapId Raw).insert "k" "new"
  update := (∅ : Map JmapId Raw).insert "X" "patch"
  destroy := ["#k", "X"]

theorem oneNoteEnv_draw_ne (i : ℕ) : oneNoteEnv.draw i ≠ "X" := by
  intro h
  have hlist : (oneNoteEnv.draw i).toList = List.replicate (i + 1) 'n' := String.toList_ofList
  rw [h] at hlist
  exact absurd (List.cons.inj hlist).1 (by decide)

theorem oneNoteEnv_fresh :
    FreshIds oneNoteEnv oneNote ∅ (oneNoteArgs.update.keys ++ oneNoteArgs.destroy) where
  injective := by
    intro i j h
    have hlist : ∀ i, (oneNoteEnv.draw i).toList = List.replicate (i + 1) 'n' :=
      fun i => String.toList_ofList
    have hlen := congrArg List.length ((hlist i).symm.trans ((congrArg _ h).trans (hlist j)))
    simpa using hlen
  unused := by
    intro drawn i _ T
    rw [oneNote, Map.getElem?_insert, if_neg fun h => oneNoteEnv_draw_ne i (RecKey.mk.inj h).2.symm]
    exact Std.ExtTreeMap.getElem?_empty
  unnamed := by
    intro x hx i h
    have hargs : oneNoteArgs.update.keys ++ oneNoteArgs.destroy = ["X", "#k", "X"] := by
      decide +kernel
    rw [hargs] at hx
    have hX : resolveIdArg ∅ "X" = some "X" := by decide +kernel
    have hk : resolveIdArg ∅ "#k" = none := by decide +kernel
    simp only [List.mem_cons, List.not_mem_nil, or_false] at hx
    rcases hx with rfl | rfl | rfl
    · exact oneNoteEnv_draw_ne i (Option.some.inj (hX.symm.trans h)).symm
    · exact nomatch hk.symm.trans h
    · exact oneNoteEnv_draw_ne i (Option.some.inj (hX.symm.trans h)).symm

theorem oneNoteStd_quiet (env : CommitEnv) : HooksQuiet env oneNoteStd where
  blobExists _ := .pure _
  validate _ _ _ h := nomatch h
  destroy _ _ h := nomatch h
  prepareCreate _ _ _ _ _ _ _ h := nomatch h

theorem set_accounted_one_note :
    ∃ resp, (fooSet oneNoteEnv oneNoteStd oneNoteArgs ∅).1 = .ok resp ∧
      resp.resp.destroyed = ["n", "X"] ∧
      Accounted oneNoteEnv oneNoteStd oneNoteArgs ∅ oneNote resp.resp := by
  have hkeys : changeKeys (fooSet oneNoteEnv oneNoteStd oneNoteArgs ∅) =
      ((["X"], []), (["n", "X"], [])) := by decide +kernel
  have hone : NamesApart ∅ oneNoteArgs.create oneNoteArgs.update.keys := by
    refine ⟨List.pairwise_singleton _ _, fun x hx y hy _ _ _ => ?_⟩
    rw [List.mem_singleton.mp hx, List.mem_singleton.mp hy]
  have htwo : NamesApart ∅ oneNoteArgs.create oneNoteArgs.destroy := by
    refine ⟨?_, fun x hx y hy r hxr hyr => ?_⟩
    · refine List.pairwise_pair.mpr fun h => absurd h (by decide)
    · have hk : resolveIdArg ∅ "#k" = none := by decide +kernel
      simp only [oneNoteArgs, List.mem_cons, List.not_mem_nil, or_false] at hx hy
      rcases hx with rfl | rfl
      · exact nomatch hk.symm.trans hxr
      rcases hy with rfl | rfl
      · exact nomatch hk.symm.trans hyr
      · rfl
  unfold changeKeys at hkeys
  split at hkeys
  · rename_i resp hresp
    exact ⟨resp, hresp, (Prod.mk.inj (Prod.mk.inj hkeys).2).1,
      set_accounted (oneNoteStd_quiet _) (fun _ _ => rfl) oneNoteEnv_fresh hone htwo hresp⟩
  · cases hkeys

/-- A record that is destroyed twice is reported as destroyed and as not destroyed; one that is
    updated under two names, once with a patch and once with a value that is none, is reported as
    updated and as not updated. -/
theorem set_reports_twice :
    changeKeys (fooSet oneNoteEnv oneNoteStd { destroy := ["X", "X"] } ∅) =
      (([], []), (["X"], ["X"])) ∧
    changeKeys (fooSet oneNoteEnv oneNoteStd
      { update := ((∅ : Map JmapId Raw).insert "#a" "patch").insert "X" "odd" }
      ((∅ : CreatedIds).insert "a" "X")) = ((["X"], ["X"]), ([], [])) := by
  refine ⟨?_, ?_⟩ <;> decide +kernel

end NaustJmap.Runtime
