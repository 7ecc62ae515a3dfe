import NaustJmap.ObjectDB.Update

/-!
# Reading Records

`DB.Get` and `DB.GetMany`.  A backend that can fetch several keys at once is asked for them
in batches, any other one for one key after the other; either way `GetMany` is a sequence of
atomic reads, each of which answers for a few ids.
-/

namespace NaustJmap.ObjectDB

open Library

def DB.get (db : DB) (typeName : String) (id : JmapId) : ReadM Err Store Object := do
  match db.types[typeName]? with
  | none => throw .unknownType
  | some _ =>
    match ← ReadM.get fun s : Store => s.objs[RecKey.mk typeName id]? with
    | none => throw .notFound
    | some obj => pure obj

def Store.fetch (s : Store) (typeName : String) (ids : List JmapId) : List (Option Object) :=
  ids.map fun id => s.objs[RecKey.mk typeName id]?

/-- The loop of `getManyRaw`; there are at most as many rounds as ids. -/
def fetchLoop (batch : ℕ+) (typeName : String) :
    ℕ → List JmapId → Reads Store (List (Option Object))
  | 0, _ => pure []
  | _, [] => pure []
  | rounds + 1, ids => do
    let objs ← Reads.get fun s : Store => s.fetch typeName (ids.take batch)
    let more ← fetchLoop batch typeName rounds (ids.drop batch)
    pure (objs ++ more)

/-- `DB.GetMany`: `none` for an id without record; `batch` is one without a `MultiGetter`. -/
def DB.getMany (db : DB) (batch : ℕ+) (typeName : String) (ids : List JmapId) :
    ReadM Err Store (List (Option Object)) :=
  match db.types[typeName]? with
  | none => throw .unknownType
  | some _ => ReadM.lift (fetchLoop batch typeName ids.length ids)

section

variable {db : DB} {s : Store} {T : String}

theorem run_get (id : JmapId) :
    (db.get T id).run s =
      if (db.types[T]?).isSome then
        match s.objs[RecKey.mk T id]? with
        | none => .error .notFound
        | some obj => .ok obj
      else .error .unknownType := by
  unfold DB.get
  cases db.types[T]? with
  | none => rfl
  | some t =>
    cases hobj : s.objs[RecKey.mk T id]? with
    | none => simp [ReadM.run_bind, hobj]
    | some obj => simp [ReadM.run_bind, hobj]

theorem run_fetchLoop (batch : ℕ+) {rounds : ℕ} {ids : List JmapId} (h : ids.length ≤ rounds) :
    (fetchLoop batch T rounds ids).run s = s.fetch T ids := by
  induction rounds generalizing ids with
  | zero =>
    obtain rfl := List.length_eq_zero_iff.mp (Nat.le_zero.mp h)
    rfl
  | succ rounds ih =>
    cases ids with
    | nil => rfl
    | cons id ids =>
      have hlen : ((id :: ids).drop batch).length ≤ rounds := by
        have := batch.pos
        rw [List.length_drop]
        omega
      rw [fetchLoop.eq_3 _ _ _ _ (by simp), Reads.run_bind, Reads.run_bind, ih hlen]
      change s.fetch T _ ++ s.fetch T _ = _
      rw [Store.fetch, Store.fetch, ← List.map_append, List.take_append_drop]
      rfl

theorem run_getMany (batch : ℕ+) (ids : List JmapId) :
    (db.getMany batch T ids).run s =
      if (db.types[T]?).isSome then .ok (s.fetch T ids) else .error .unknownType := by
  unfold DB.getMany
  cases db.types[T]? with
  | none => rfl
  | some t =>
    simp [run_fetchLoop batch (le_refl ids.length)]

/-- Beside commits, the record at position `i` of the ids is read by batch `i / batch`. -/
theorem runAt_fetchLoop (σ : ℕ → Store) (batch : ℕ+) {rounds : ℕ} {ids : List JmapId}
    (h : ids.length ≤ rounds) (n i : ℕ) :
    (Reads.runAt σ (fetchLoop batch T rounds ids) n).1[i]? =
      (ids[i]?).map fun id => (σ (n + i / batch)).objs[RecKey.mk T id]? := by
  induction rounds generalizing ids n i with
  | zero =>
    obtain rfl := List.length_eq_zero_iff.mp (Nat.le_zero.mp h)
    rfl
  | succ rounds ih =>
    cases hids : ids with
    | nil => rfl
    | cons id rest =>
      rw [← hids]
      have hne : ids ≠ [] := by simp [hids]
      have hlen : (ids.drop batch).length ≤ rounds := by
        have := batch.pos
        rw [List.length_drop]
        omega
      have hrun : (Reads.runAt σ (fetchLoop batch T (rounds + 1) ids) n).1 =
          (σ n).fetch T (ids.take batch) ++
            (Reads.runAt σ (fetchLoop batch T rounds (ids.drop batch)) (n + 1)).1 := by
        rw [fetchLoop.eq_3 _ _ _ _ hne, Reads.runAt_bind, Reads.runAt_bind]
        rfl
      rw [hrun, Store.fetch]
      by_cases hi : i < batch
      · -- among the ids of the first batch, or past the end of all of them
        rw [Nat.div_eq_of_lt hi]
        by_cases hend : i < ids.length
        · rw [List.getElem?_append_left (by simp; omega), List.getElem?_map,
            List.getElem?_take_of_lt hi]
          rfl
        · rw [List.getElem?_eq_none (by omega : ids.length ≤ i)]
          refine List.getElem?_append_right (by simp; omega) |>.trans ?_
          rw [ih hlen, List.getElem?_eq_none (by simp; omega)]
          rfl
      · have hb : (batch : ℕ) ≤ i := Nat.not_lt.mp hi
        by_cases hend : (batch : ℕ) ≤ ids.length
        · rw [List.getElem?_append_right (by simp; omega), ih hlen, List.getElem?_drop]
          have hpos : (ids.take batch).length = batch := by simp [hend]
          rw [List.length_map, hpos, Nat.add_sub_cancel' hb, Nat.div_eq_sub_div batch.pos hb]
          simp only [Nat.add_assoc, Nat.add_comm 1]
        · rw [List.getElem?_eq_none (by omega : ids.length ≤ i)]
          refine List.getElem?_append_right (by simp; omega) |>.trans ?_
          rw [ih hlen, List.getElem?_eq_none (by simp; omega)]
          rfl

end

end NaustJmap.ObjectDB
