import NaustJmap.ObjectDB.ChangesSpec

/-!
# Trimming Beside Readers

`TrimChanges` deletes log entries while readers that take no lease scan the same range.  The
readers check the floor before and after the scan; this file shows that the two checks
suffice: whatever the schedule, a reader is refused or answers as on the store that was
never trimmed.
-/

namespace NaustJmap.ObjectDB

open Library

/-! ## Answers as functions of the reads -/

theorem changes_runAt_invalid (db : DB) (T : String) {sinceState : Option Int}
    (h : ∀ n : ℕ, sinceState ≠ some (n : Int)) (maxChanges : Int) (σ : ℕ → Store) (n : ℕ) :
    (ReadM.runAt σ (db.changes T sinceState maxChanges) n).1 =
      if (db.types[T]?).isSome then .error .cannotCalculateChanges else .error .unknownType := by
  simp only [DB.changes, ReadM.runAt_ensure_bind, ReadM.runAt_ofExcept_bind]
  by_cases hT : (db.types[T]?).isSome
  · simp only [if_pos hT]
    cases sinceState with
    | none => rfl
    | some v =>
      have hneg : ¬ 0 ≤ v := fun hv => h v.toNat (by rw [Int.toNat_of_nonneg hv])
      simp only [Option.elim, if_neg hneg]
  · simp only [if_neg hT]

/-- `DB.ChangedSince` as a function of its four reads, at the instants `n`, …, `n + 3`. -/
theorem changedSince_runAt (db : DB) (typeNames : List String) (since maxBehind maxIds : Int)
    (σ : ℕ → Store) (n : ℕ) :
    (ReadM.runAt σ (db.changedSince typeNames since maxBehind maxIds) n).1 =
      if ∀ name ∈ typeNames, (db.types[name]?).isSome then
        if (0 ≤ since ∧ since ≤ (σ n).seq ∧ ¬ (0 < maxBehind ∧ maxBehind < (σ n).seq - since)) ∧
            (σ (n + 1)).floor ≤ since + 1 then
          match (SinceScan.start typeNames).scan maxIds (σ n).seq
            ((σ (n + 2)).logFrom (since.toNat + 1)) with
          | none => .error .cannotCalculateChanges
          | some st =>
            if (σ (n + 3)).floor ≤ since + 1 then
              .ok (st.disp.map fun _ byId => typeChangesOf byId, (σ n).seq)
            else .error .cannotCalculateChanges
        else .error .cannotCalculateChanges
      else .error .unknownType := by
  simp only [DB.changedSince, ReadM.runAt_ensure_bind, ReadM.runAt_ofExcept_bind,
    ReadM.runAt_get_bind]
  by_cases hT : ∀ name ∈ typeNames, (db.types[name]?).isSome
  swap
  · simp only [if_neg hT]
  simp only [if_pos hT]
  by_cases hpos : 0 ≤ since
  swap
  · simp [hpos]
  by_cases hseq : since ≤ (σ n).seq
  swap
  · simp [hpos, hseq]
  by_cases hbehind : ¬ (0 < maxBehind ∧ maxBehind < (σ n).seq - since)
  swap
  · simp only [if_pos hpos, if_pos hseq, if_neg hbehind]
    rw [if_neg fun h => hbehind h.1.2.2]
  by_cases hfloor : (σ (n + 1)).floor ≤ since + 1
  swap
  · simp only [if_pos hpos, if_pos hseq, if_pos hbehind, if_neg hfloor]
    rw [if_neg fun h => hfloor h.2]
  rw [if_pos hpos, if_pos hseq, if_pos hbehind, if_pos hfloor,
    if_pos ⟨⟨hpos, hseq, hbehind⟩, hfloor⟩]
  cases (SinceScan.start typeNames).scan maxIds (σ n).seq
      ((σ (n + 2)).logFrom (since.toNat + 1)) with
  | none => rfl
  | some st =>
    by_cases hfloor' : (σ (n + 3)).floor ≤ since + 1
    · simp [hfloor']
    · simp [hfloor']

/-! ## Readers beside trims -/

section Readers

variable {db : DB} {acct : JmapId} {σ : ℕ → World}

theorem World.Ok.reads_eq {w : World} (hw : w.Ok) :
    w.untrimmed.seq = w.store.seq ∧ w.untrimmed.floor = 0 ∧
      w.untrimmed.typeState = w.store.typeState :=
  ⟨hw.same.seq_eq, hw.floor_zero, hw.same.typeState_eq⟩

theorem changes_untrimmed (hok : ∀ i, (σ i).Ok) (hσ : Interleaving (Moves db acct) σ)
    (T : String) (sinceState : Option Int) (maxChanges : Int) (n : ℕ) :
    (ReadM.runAt (fun i => (σ i).store) (db.changes T sinceState maxChanges) n).1 =
        .error .cannotCalculateChanges ∨
      (ReadM.runAt (fun i => (σ i).store) (db.changes T sinceState maxChanges) n).1 =
        (ReadM.runAt (fun i => (σ i).untrimmed) (db.changes T sinceState maxChanges) n).1 := by
  by_cases hvalid : ∀ n : ℕ, sinceState ≠ some (n : Int)
  · exact .inr (by rw [changes_runAt_invalid db T hvalid, changes_runAt_invalid db T hvalid])
  simp only [not_forall, not_not] at hvalid
  obtain ⟨since, rfl⟩ := hvalid
  rw [changes_runAt, changes_runAt]
  by_cases hT : (db.types[T]?).isSome
  swap
  · exact .inr (by rw [if_neg hT, if_neg hT])
  rw [if_pos hT, if_pos hT]
  by_cases hwin : since ≤ (σ n).store.seq ∧ (σ (n + 1)).store.floor ≤ since + 1
  swap
  · exact .inl (if_neg hwin)
  rw [if_pos hwin]
  by_cases hfloor : (σ (n + 3)).store.floor ≤ since + 1
  swap
  · left
    split
    · rename_i e hscan
      rw [(ChangesScan.scan_eq_error hscan).1]
    · rw [if_neg hfloor]
  -- the floor is low after the scan, so the scan saw the untrimmed log
  right
  have hfloor' : (σ (n + 3)).untrimmed.floor ≤ since + 1 := by
    rw [(hok (n + 3)).reads_eq.2.1]
    omega
  rw [if_pos ⟨(hok n).reads_eq.1 ▸ hwin.1, by rw [(hok (n + 1)).reads_eq.2.1]; omega⟩,
    ← scanned_untrimmed hσ (show n + 2 ≤ n + 3 by omega) (hok _) hfloor]
  split
  · rfl
  · rw [if_pos hfloor, if_pos hfloor', (hok (n + 4)).reads_eq.2.2]

theorem changedSince_untrimmed (hok : ∀ i, (σ i).Ok) (hσ : Interleaving (Moves db acct) σ)
    (typeNames : List String) (since maxBehind maxIds : Int) (n : ℕ) :
    (ReadM.runAt (fun i => (σ i).store) (db.changedSince typeNames since maxBehind maxIds) n).1 =
        .error .cannotCalculateChanges ∨
      (ReadM.runAt (fun i => (σ i).store) (db.changedSince typeNames since maxBehind maxIds) n).1 =
        (ReadM.runAt (fun i => (σ i).untrimmed)
          (db.changedSince typeNames since maxBehind maxIds) n).1 := by
  rw [changedSince_runAt, changedSince_runAt]
  by_cases hT : ∀ name ∈ typeNames, (db.types[name]?).isSome
  swap
  · exact .inr (by rw [if_neg hT, if_neg hT])
  rw [if_pos hT, if_pos hT]
  by_cases hwin : (0 ≤ since ∧ since ≤ (σ n).store.seq ∧
      ¬ (0 < maxBehind ∧ maxBehind < (σ n).store.seq - since)) ∧
      (σ (n + 1)).store.floor ≤ since + 1
  swap
  · exact .inl (if_neg hwin)
  rw [if_pos hwin]
  by_cases hfloor : (σ (n + 3)).store.floor ≤ since + 1
  swap
  · left
    split
    · rfl
    · rw [if_neg hfloor]
  right
  rw [(hok n).reads_eq.1, (hok (n + 1)).reads_eq.2.1, (hok (n + 3)).reads_eq.2.1,
    if_pos ⟨hwin.1, by omega⟩,
    ← scanned_untrimmed hσ (show n + 2 ≤ n + 3 by omega) (hok _)
      (show (σ (n + 3)).store.floor ≤ since.toNat + 1 by omega)]
  split
  · rfl
  · rw [if_pos hfloor, if_pos (by omega)]

/-- A commit clients can see has its entry in every later log whose floor has not passed it. -/
theorem commit_logged {w w1 w2 : World} (hw : w.Ok) {c : Commit}
    (hstep : Step db acct w (.commit c) w1) {acts : List Action}
    (hrun : Run db acct w1 acts w2) (hfloor : w2.store.floor ≤ w1.store.seq) {t : TypeDesc}
    (ht : db.types[t.name]? = some t) {id : JmapId}
    (hchanged : w.store.has t.name id ≠ w1.store.has t.name id ∨
      ∃ old new, w.store.objs[RecKey.mk t.name id]? = some old ∧
        w1.store.objs[RecKey.mk t.name id]? = some new ∧ ¬ SameVisible t old new) :
    ∃ e te, w2.store.log[w1.store.seq]? = some e ∧ e.types[t.name]? = some te ∧ id ∈ te.ids := by
  have hw1 := hw.step hstep
  cases hstep with
  | @commit c batch hfresh _ h =>
    obtain ⟨te, heff⟩ := commit_effect (hw.freshDraw hfresh) h
    have hid : id ∈ (te t.name).ids := by
      rcases hchanged with hhas | ⟨old, new, hold, hnew, hdiff⟩
      · have hc := @heff.created t.name id
        have hd := @heff.destroyed t.name id
        simp only [LogTypeEntry.ids, List.mem_append, hc, hd]
        simp only [Store.has, World.afterCommit] at hhas
        cases hb : w.store.objs[RecKey.mk t.name id]? <;>
          cases ha : (applyBatch batch w.store).objs[RecKey.mk t.name id]? <;>
          simp [hb, ha] at hhas ⊢
      · simp only [LogTypeEntry.ids, List.mem_append]
        refine .inl (.inr ?_)
        by_contra hnot
        exact hdiff (heff.quiet ht hold hnew hnot)
    have hne : ¬ (te t.name).isEmpty := by
      intro hempty
      simp only [LogTypeEntry.isEmpty, Bool.and_eq_true, List.isEmpty_iff] at hempty
      simp [LogTypeEntry.ids, hempty.1.1, hempty.1.2, hempty.2] at hid
    rcases heff.log with ⟨hall, -⟩ | ⟨e, hlog, htypes⟩
    · exact absurd (hall t.name) hne
    · refine ⟨e, te t.name, ?_, by rw [htypes, if_neg hne], hid⟩
      rw [(hrun.ok hw1).log, if_neg (Nat.not_lt.mpr hfloor), hrun.untrimmed_log hw1 le_rfl]
      simp [World.afterCommit, hlog, heff.seq]

/-- **Trims are safe.**  On any schedule of commits and trims beside the readers' single reads:
    every call is refused or answers as on the store that was never trimmed; the floor never
    decreases; no entry below it is left to be read; and every commit since the floor that
    created or destroyed a record, or changed one visibly, has its entry. -/
theorem trim_safe (hreach : Reachable db acct (σ 0)) (hσ : Interleaving (Moves db acct) σ) :
    (∀ T sinceState maxChanges n,
      (ReadM.runAt (fun i => (σ i).store) (db.changes T sinceState maxChanges) n).1 =
          .error .cannotCalculateChanges ∨
        (ReadM.runAt (fun i => (σ i).store) (db.changes T sinceState maxChanges) n).1 =
          (ReadM.runAt (fun i => (σ i).untrimmed) (db.changes T sinceState maxChanges) n).1) ∧
    (∀ typeNames since maxBehind maxIds n,
      (ReadM.runAt (fun i => (σ i).store)
          (db.changedSince typeNames since maxBehind maxIds) n).1 =
          .error .cannotCalculateChanges ∨
        (ReadM.runAt (fun i => (σ i).store)
            (db.changedSince typeNames since maxBehind maxIds) n).1 =
          (ReadM.runAt (fun i => (σ i).untrimmed)
            (db.changedSince typeNames since maxBehind maxIds) n).1) ∧
    (∀ i j, i ≤ j → (σ i).store.floor ≤ (σ j).store.floor) ∧
    (∀ i n e, (σ i).store.log[n]? = some e → (σ i).store.floor ≤ n) ∧
    ∀ i (w w' : World) (c : Commit) (t : TypeDesc) (id : JmapId),
      Reachable db acct w → Step db acct w (.commit c) w' →
      Relation.ReflTransGen (Moves db acct) w' (σ i) → (σ i).store.floor ≤ w'.store.seq →
      db.types[t.name]? = some t →
      (w.store.has t.name id ≠ w'.store.has t.name id ∨
        ∃ old new, w.store.objs[RecKey.mk t.name id]? = some old ∧
          w'.store.objs[RecKey.mk t.name id]? = some new ∧ ¬ SameVisible t old new) →
      ∃ e te, (σ i).store.log[w'.store.seq]? = some e ∧ e.types[t.name]? = some te ∧
        id ∈ te.ids := by
  -- every moment of the schedule is a reachable one
  have hok : ∀ i, (σ i).Ok := fun i => by
    obtain ⟨acts, hrun⟩ := Run.of_moves (hσ.reaches (Nat.zero_le i))
    exact hrun.ok hreach.ok
  refine ⟨changes_untrimmed hok hσ, changedSince_untrimmed hok hσ, ?_, ?_, ?_⟩
  · intro i j hij
    obtain ⟨acts, hrun⟩ := Run.of_moves (hσ.reaches hij)
    exact hrun.floor_le (hok i)
  · intro i n e hn
    rw [(hok i).log] at hn
    split at hn
    · cases hn
    · omega
  · intro i w w' c t id hw hstep hlater hfloor ht hchanged
    obtain ⟨acts, hrun⟩ := Run.of_moves hlater
    exact commit_logged hw.ok hstep hrun hfloor ht hchanged

end Readers

def trimmedWorld : World where
  store := (Action.trim ⟨0, 0, 1⟩).apply noteDB "u" laterWorld.store
  untrimmed := laterWorld.untrimmed
  issued := laterWorld.issued

theorem step_trimmedWorld : Step noteDB "u" laterWorld (.trim ⟨0, 0, 1⟩) trimmedWorld := by
  have hsome : ((DB.trimChanges ⟨0, 0, 1⟩).run laterWorld.store).isSome := by decide +kernel
  obtain ⟨batch, hbatch⟩ := Option.isSome_iff_exists.mp hsome
  have : trimmedWorld = ⟨applyBatch batch laterWorld.store, laterWorld.untrimmed,
      laterWorld.issued⟩ := by
    simp [trimmedWorld, Action.apply, hbatch]
  exact this ▸ .trim hbatch

/-- The trim lands between the scan and the second look at the floor: a call from before the
    new floor is refused, a call from the last state answers as if nothing had been trimmed. -/
theorem trim_safe_notes :
    (ReadM.runAt (fun i => (switchAt 3 laterWorld trimmedWorld i).store)
        (noteDB.changes "Note" (some 1) 0) 0).1 = .error .cannotCalculateChanges ∧
      (ReadM.runAt (fun i => (switchAt 3 laterWorld trimmedWorld i).store)
        (noteDB.changes "Note" (some 3) 0) 0).1 =
      (ReadM.runAt (fun i => (switchAt 3 laterWorld trimmedWorld i).untrimmed)
        (noteDB.changes "Note" (some 3) 0) 0).1 := by
  obtain ⟨hreach, hrun⟩ := laterWorld_run
  have hσ : Interleaving (Moves noteDB "u") (switchAt 3 laterWorld trimmedWorld) :=
    .switchAt 3 (.single ⟨_, step_trimmedWorld⟩)
  have h := (trim_safe (hreach.run hrun) hσ).1 "Note" (some 3) 0 0
  refine ⟨by decide +kernel, h.resolve_left ?_⟩
  decide +kernel

/-- A bookkeeping commit changes a hidden property and leaves no entry in the log. -/
theorem mark_not_logged :
    Reachable noteDB "u" noteWorld ∧
      ∃ w', Run noteDB "u" noteWorld [.commit (markNote "A" "\"x\"")] w' ∧
        w'.store.seq = noteWorld.store.seq + 1 ∧ w'.store.floor ≤ w'.store.seq ∧
        (noteWorld.store.objs[RecKey.mk "Note" "A"]?).bind (·[("mark" : String)]?) = none ∧
        (w'.store.objs[RecKey.mk "Note" "A"]?).bind (·[("mark" : String)]?) =
          some "\"x\"" ∧
        (w'.store.log[w'.store.seq]?).isNone := by
  obtain ⟨hreach, hrun⟩ := @Reachable.of_runsOn noteDB "u" [createNotes ["A"]]
    [markNote "A" "\"x\""] (by decide +kernel)
  exact ⟨hreach, _, hrun, by decide +kernel, by decide +kernel, by decide +kernel,
    by decide +kernel, by decide +kernel⟩

end NaustJmap.ObjectDB
