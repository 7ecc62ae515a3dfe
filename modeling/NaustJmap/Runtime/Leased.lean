import NaustJmap.ObjectDB.CommitSpec
import NaustJmap.Runtime.Rounds

/-!
# A Call Under Its Lease

While a call holds the lease of the account nobody else writes it, so that every read of its
callback sees one store.  On that store the update is in order at every point (`Leased`), and the
records of a type as the callback sees them (`recordsOf`) change by its own writes only.
-/

namespace NaustJmap.Runtime

open Library ObjectDB

/-- The records of a type as the callback sees them: staged ones as staged, others as stored. -/
def recordsOf (typeName : String) (s : Store) (u : Update) (id : JmapId) : Option Object :=
  u.view s ⟨typeName, id⟩

/-- The callback is at read `n` with the update `u`, and the account is at `s` until it ends. -/
structure Leased (env : CommitEnv) (s : Store) (u : Update) (n : ℕ) : Prop where
  held : ∀ m, n ≤ m → env.schedule m = s
  fresh : ∀ drawn, FreshDraw env.draw s drawn
  cache : u.CacheOk s
  staged : StagedOk env.db env.draw s u.staged u.createSeq

variable {u' : Update} {n' : ℕ} {typeName : String} {id : JmapId}

namespace Leased

variable {env : CommitEnv} {s : Store} {u : Update} {n : ℕ} {α : Type}

theorem of_opSpec {ops : List WriteOp} (h : Leased env s u n)
    (hspec : OpSpec env.db env.draw s u u' ops) (hn : n ≤ n') :
    Leased env s u' n' ∧ u.createSeq ≤ u'.createSeq :=
  ⟨⟨fun m hm => h.held m (hn.trans hm), h.fresh, hspec.cache, h.staged.step (h.fresh _) hspec.step⟩,
    hspec.step.createSeq_le⟩

theorem runAt_eq {p : Reads Store α} (h : Leased env s u n) :
    (p.runAt env.schedule n).1 = p.run s :=
  Reads.runAt_eq_run p n fun i hi _ => h.held i hi

theorem runOn_eq (h : Leased env s u n) {cb : Callback α} {a : α}
    (hr : env.run cb u n = (a, u', n')) : cb.runOn env.db env.draw s u = (a, u') := by
  have heq := @runAt_eq env s u n _ (cb.exec env.db env.draw u) h
  rw [Prod.mk.injEq, Prod.mk.injEq] at hr
  rw [Callback.runOn, ← heq]
  exact Prod.ext hr.1 hr.2.1

theorem run (h : Leased env s u n) (cb : Callback α) :
    Leased env s (env.run cb u n).2.1 (env.run cb u n).2.2 ∧
      u.createSeq ≤ (env.run cb u n).2.1.createSeq := by
  induction cb generalizing u n with
  | done a => exact ⟨h, le_rfl⟩
  | read k ih =>
    exact ih (env.schedule n) { h with held := fun m hm => h.held m (Nat.le_of_succ_le hm) }
  | view k ih => exact ih u h
  | get typeName id k ih =>
    simp only [CommitEnv.run, Callback.runAt, Callback.exec, Reads.runAt_bind]
    obtain ⟨hl, hle⟩ := h.of_opSpec (get_opSpec h.cache h.runAt_eq.symm)
      (Reads.le_runAt_snd env.schedule (Update.get env.db typeName id u) n)
    obtain ⟨hl', hle'⟩ := ih _ hl
    exact ⟨hl', hle.trans hle'⟩
  | create typeName obj k ih =>
    simp only [CommitEnv.run, Callback.runAt, Callback.exec, Reads.runAt_bind]
    obtain ⟨hl, hle⟩ := h.of_opSpec (create_opSpec h.cache h.runAt_eq.symm)
      (Reads.le_runAt_snd env.schedule (Update.create env.db env.draw typeName obj u) n)
    obtain ⟨hl', hle'⟩ := ih _ hl
    exact ⟨hl', hle.trans hle'⟩
  | write op k ih =>
    simp only [CommitEnv.run, Callback.runAt, Callback.exec, Reads.runAt_bind]
    obtain ⟨hl, hle⟩ := h.of_opSpec (op.opSpec h.cache h.runAt_eq.symm)
      (Reads.le_runAt_snd env.schedule (op.exec env.db u) n)
    obtain ⟨hl', hle'⟩ := ih _ hl
    exact ⟨hl', hle.trans hle'⟩

/-! ## The operations on the records of a type -/

theorem view_of_insert {k : RecKey} {st : StagedRecord} (h : u'.staged = u.staged.insert k st)
    (k' : RecKey) : u'.view s k' = if k = k' then st.new else u.view s k' := by
  unfold Update.view
  rw [h, Map.getElem?_insert]
  by_cases hk : k = k'
  · rw [if_pos hk, if_pos hk]
  · rw [if_neg hk, if_neg hk]

theorem recordsOf_insert {st : StagedRecord} (h : u'.staged = u.staged.insert ⟨typeName, id⟩ st) :
    recordsOf typeName s u' = Function.update (recordsOf typeName s u) id st.new := by
  funext id'
  rw [recordsOf, view_of_insert h, Function.update_apply]
  simp only [RecKey.mk.injEq, true_and]
  split
  case isTrue heq => rw [if_pos heq.symm]
  case isFalse hne => rw [if_neg (Ne.symm hne)]; rfl

theorem recordsOf_congr (h : u'.staged = u.staged) :
    recordsOf typeName s u' = recordsOf typeName s u := by
  funext id
  rw [recordsOf, recordsOf, Update.view, Update.view, h]

theorem find_exec (typeName : String) (id : JmapId) (c : CallState) :
    (CallM.find typeName id).exec env c u n =
      let g := (Update.get env.db typeName id u).runAt env.schedule n
      ((match g.1.1 with
        | .ok obj => .ok (some obj)
        | .error .notFound => .ok none
        | .error e => .error (.failed e), c), g.1.2, g.2) := by
  rw [CallM.find, CallM.exec_ofCallback]
  simp only [CommitEnv.run, Callback.runAt, Callback.exec, Reads.runAt_bind]
  generalize (Update.get env.db typeName id u).runAt env.schedule n = g
  obtain ⟨⟨e | obj, u'⟩, n'⟩ := g
  · cases e <;> rfl
  · rfl

theorem find (h : Leased env s u n) {c c' : CallState} {r : Option Object}
    (hr : (CallM.find typeName id).exec env c u n = ((.ok r, c'), u', n')) :
    c' = c ∧ Leased env s u' n' ∧ u.createSeq ≤ u'.createSeq ∧ u'.staged = u.staged ∧
      recordsOf typeName s u id = r := by
  have heq := @runAt_eq env s u n _ (Update.get env.db typeName id u) h
  obtain ⟨hobj, -, hstaged, -, -⟩ := get_spec h.cache heq.symm
  obtain ⟨hl, hle⟩ :=
    h.of_opSpec (get_opSpec h.cache heq.symm) (Reads.le_runAt_snd env.schedule _ n)
  rw [find_exec] at hr
  generalize (Update.get env.db typeName id u).runAt env.schedule n = g at *
  obtain ⟨⟨res, u1⟩, n1⟩ := g
  simp only [Prod.mk.injEq] at hr
  obtain ⟨⟨hres, rfl⟩, rfl, rfl⟩ := hr
  refine ⟨rfl, hl, hle, hstaged, ?_⟩
  split at hres <;> cases hres
  · exact hobj _ rfl
  · exact get_notFound heq.symm

theorem run_get (h : Leased env s u n) (typeName : String) (id : JmapId)
    (k : Except Err Object → Callback α) :
    ∃ r u1 n1, env.run (.get typeName id k) u n = env.run (k r) u1 n1 ∧ Leased env s u1 n1 ∧
      u1.staged = u.staged ∧ (∀ obj, r = .ok obj → recordsOf typeName s u id = some obj) ∧
      (r = .error .notFound → recordsOf typeName s u id = none) := by
  have heq := @runAt_eq env s u n _ (Update.get env.db typeName id u) h
  obtain ⟨hobj, -, hstaged, -, -⟩ := get_spec h.cache heq.symm
  obtain ⟨hl, -⟩ := h.of_opSpec (get_opSpec h.cache heq.symm) (Reads.le_runAt_snd env.schedule _ n)
  simp only [CommitEnv.run, Callback.runAt, Callback.exec, Reads.runAt_bind]
  generalize (Update.get env.db typeName id u).runAt env.schedule n = g at *
  refine ⟨g.1.1, g.1.2, g.2, rfl, hl, hstaged, hobj, fun hnone => ?_⟩
  exact get_notFound (heq.symm.trans (Prod.ext hnone rfl))

theorem write (h : Leased env s u n) {op : WriteOp}
    (hr : env.run (.write op .done) u n = (.ok (), u', n')) :
    Leased env s u' n' ∧ u.createSeq ≤ u'.createSeq ∧
      StagingStep env.db env.draw s u [op] u'.staged u'.createSeq := by
  have heq := @runAt_eq env s u n _ (op.exec env.db u) h
  have hspec : OpSpec env.db env.draw s u _ _ := op.opSpec h.cache heq.symm
  have hle := Reads.le_runAt_snd env.schedule (op.exec env.db u) n
  simp only [CommitEnv.run, Callback.runAt, Callback.exec, Reads.runAt_bind] at hr
  generalize (op.exec env.db u).runAt env.schedule n = g at *
  obtain ⟨⟨res, u1⟩, n1⟩ := g
  cases hr
  obtain ⟨hl, hseq⟩ := h.of_opSpec hspec hle
  exact ⟨hl, hseq, hspec.step⟩

theorem put_staged (h : Leased env s u n) {obj : Object}
    (hr : env.run (.write (.put typeName id obj) .done) u n = (.ok (), u', n')) :
    ∃ st : StagedRecord, st.new = some obj ∧ u'.staged = u.staged.insert ⟨typeName, id⟩ st := by
  obtain ⟨-, -, hstep⟩ := h.write hr
  generalize hstaged : u'.staged = staged at hstep
  generalize u'.createSeq = drawn at hstep
  cases hstep with
  | same hsame => exact absurd (hsame _ (List.mem_singleton.mpr rfl)) (by simp [WriteOp.target])
  | put => exact ⟨_, rfl, rfl⟩

theorem put (h : Leased env s u n) {obj : Object}
    (hr : env.run (.write (.put typeName id obj) .done) u n = (.ok (), u', n')) :
    Leased env s u' n' ∧ u.createSeq ≤ u'.createSeq ∧
      recordsOf typeName s u' = Function.update (recordsOf typeName s u) id (some obj) := by
  obtain ⟨hl, hle, -⟩ := h.write hr
  obtain ⟨st, hnew, hstaged⟩ := h.put_staged hr
  exact ⟨hl, hle, hnew ▸ recordsOf_insert hstaged⟩

theorem destroy (h : Leased env s u n)
    (hr : env.run (.write (.destroy typeName id) .done) u n = (.ok (), u', n')) :
    Leased env s u' n' ∧ u.createSeq ≤ u'.createSeq ∧ (recordsOf typeName s u id).isSome ∧
      recordsOf typeName s u' = Function.update (recordsOf typeName s u) id none := by
  obtain ⟨hl, hle, hstep⟩ := h.write hr
  refine ⟨hl, hle, ?_⟩
  generalize hstaged : u'.staged = staged at hstep
  generalize u'.createSeq = drawn at hstep
  cases hstep with
  | same hsame => exact absurd (hsame _ (List.mem_singleton.mpr rfl)) (by simp [WriteOp.target])
  | destroy ht hview => exact ⟨by rw [recordsOf, hview]; rfl, recordsOf_insert hstaged⟩

theorem destroy_error (h : Leased env s u n) {e : Err}
    (hr : env.run (.write (.destroy typeName id) .done) u n = (.error e, u', n')) :
    Leased env s u' n' ∧ u.createSeq ≤ u'.createSeq ∧
      recordsOf typeName s u' = recordsOf typeName s u := by
  have hrun := h.run (.write (.destroy typeName id) .done : Callback (Except Err Unit))
  rw [hr] at hrun
  refine ⟨hrun.1, hrun.2, recordsOf_congr ?_⟩
  have heq := @runAt_eq env s u n _ (Update.destroy env.db typeName id u) h
  have hdone : (Update.destroy env.db typeName id u).run s = (.error e, u') := by
    simp only [CommitEnv.run, Callback.runAt, Callback.exec, Reads.runAt_bind, WriteOp.exec] at hr
    rw [← heq]
    generalize (Update.destroy env.db typeName id u).runAt env.schedule n = g at hr
    obtain ⟨⟨res, u1⟩, n1⟩ := g
    cases hr
    rfl
  unfold Update.destroy at hdone
  split at hdone
  · cases hdone
    rfl
  split at hdone
  · split at hdone <;> cases hdone
    rfl
  · obtain ⟨-, -, hstaged, -⟩ :=
      getCommitted_spec h.cache (rfl : (Update.getCommitted env.db typeName id u).run s = _)
    rw [Reads.run_bind] at hdone
    generalize (Update.getCommitted env.db typeName id u).run s = g at hdone hstaged
    obtain ⟨e' | old, u1⟩ := g <;> cases hdone
    exact hstaged

theorem destroy_exec (typeName : String) (id : JmapId) (c : CallState) :
    (CallM.destroy typeName id).exec env c u n =
      let g := env.run (.write (.destroy typeName id) .done) u n
      ((match g.1 with
        | .ok () => .ok true
        | .error .notFound => .ok false
        | .error e => .error (.failed e), c), g.2) := by
  rw [CallM.destroy, CallM.exec_ofCallback]
  simp only [CommitEnv.run, Callback.runAt, Callback.exec, Reads.runAt_bind]
  generalize ((WriteOp.destroy typeName id).exec env.db u).runAt env.schedule n = g
  obtain ⟨⟨e | ⟨⟩, u'⟩, n'⟩ := g
  · cases e <;> rfl
  · rfl

theorem create (h : Leased env s u n) (hinj : Function.Injective env.draw) {obj : Object}
    (hr : env.run (.create typeName obj .done) u n = (.ok id, u', n')) :
    Leased env s u' n' ∧ id = env.draw u.createSeq ∧ u'.createSeq = u.createSeq + 1 ∧
      recordsOf typeName s u id = none ∧
      recordsOf typeName s u' =
        Function.update (recordsOf typeName s u) id (some (obj.insert "id" (quoteId id))) := by
  have hl := (h.run (.create typeName obj .done : Callback (Except Err JmapId))).1
  rw [hr] at hl
  simp only [CommitEnv.run, Callback.runAt, Callback.exec, Update.create] at hr
  split at hr
  · simp at hr
  split at hr
  · simp at hr
  split at hr
  · simp at hr
  obtain ⟨rfl, rfl, rfl⟩ := hr
  refine ⟨hl, rfl, rfl, ?_, @recordsOf_insert _ typeName _ s u
    { new := some (obj.insert "id" (quoteId (env.draw u.createSeq))), created := true } rfl⟩
  rw [recordsOf, Update.view]
  -- a staged record has an id drawn before, or it was there
  cases hst : u.staged[RecKey.mk typeName (env.draw u.createSeq)]? with
  | none => exact h.fresh _ _ (Nat.lt_succ_self _) typeName
  | some st =>
    have hok := h.staged _ st hst
    cases hc : st.created with
    | true =>
      obtain ⟨-, -, -, j, hj, heq⟩ := hok.created hc
      exact absurd (hinj heq) (Nat.ne_of_gt hj)
    | false =>
      have hsome := (hok.existing hc).2
      rw [h.fresh _ _ (Nat.lt_succ_self _) typeName] at hsome
      cases hsome

end Leased

end NaustJmap.Runtime
