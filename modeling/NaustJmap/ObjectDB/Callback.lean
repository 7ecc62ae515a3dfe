import NaustJmap.ObjectDB.Commit

/-!
# Callbacks That Compute

The callback of a method handler builds the response as it goes: `Callback α` is a program over the
operations of `Update` that returns an `α`.  These are the rules by which such programs run.
-/

namespace NaustJmap.ObjectDB

open Library

namespace Callback

variable {α β : Type}

def bind : Callback α → (α → Callback β) → Callback β
  | .done a, f => f a
  | .read k, f => .read fun s => (k s).bind f
  | .view k, f => .view fun u => (k u).bind f
  | .get typeName id k, f => .get typeName id fun r => (k r).bind f
  | .create typeName obj k, f => .create typeName obj fun r => (k r).bind f
  | .write op k, f => .write op fun r => (k r).bind f

instance : Monad Callback where
  pure := .done
  bind := Callback.bind

variable {db : DB} {draw : ℕ → JmapId} {σ : ℕ → Store}

/-- A whole callback on a schedule: result, update and the index of the next read. -/
def runAt (db : DB) (draw : ℕ → JmapId) (σ : ℕ → Store) (c : Callback α) (u : Update) (n : ℕ) :
    α × Update × ℕ :=
  let r := (c.exec db draw u).runAt σ n
  (r.1.1, r.1.2, r.2)

@[simp] theorem runAt_pure (a : α) (u : Update) (n : ℕ) :
    runAt db draw σ (pure a : Callback α) u n = (a, u, n) := rfl

theorem runAt_bind (c : Callback α) (f : α → Callback β) (u : Update) (n : ℕ) :
    runAt db draw σ (c >>= f) u n =
      runAt db draw σ (f (runAt db draw σ c u n).1) (runAt db draw σ c u n).2.1
        (runAt db draw σ c u n).2.2 := by
  change runAt db draw σ (c.bind f) u n = _
  induction c generalizing u n with
  | done a => rfl
  | read k ih => exact ih (σ n) u (n + 1)
  | view k ih => exact ih u u n
  | get typeName id k ih =>
    simp only [runAt, bind, exec, Reads.runAt_bind]
    exact ih _ _ _
  | create typeName obj k ih =>
    simp only [runAt, bind, exec, Reads.runAt_bind]
    exact ih _ _ _
  | write op k ih =>
    simp only [runAt, bind, exec, Reads.runAt_bind]
    exact ih _ _ _

/-- A whole callback on an account that nobody else writes. -/
def runOn (db : DB) (draw : ℕ → JmapId) (s : Store) (c : Callback α) (u : Update) : α × Update :=
  (c.exec db draw u).run s

@[simp] theorem runOn_pure {s : Store} (a : α) (u : Update) :
    runOn db draw s (pure a : Callback α) u = (a, u) := rfl

@[simp] theorem runOn_read {s : Store} (k : Store → Callback α) (u : Update) :
    runOn db draw s (.read k) u = runOn db draw s (k s) u := rfl

theorem runOn_eq_runAt {s : Store} (c : Callback α) (u : Update) (n : ℕ) :
    runOn db draw s c u = ((runAt db draw (fun _ => s) c u n).1,
      (runAt db draw (fun _ => s) c u n).2.1) :=
  (Reads.runAt_eq_run _ n fun _ _ _ => rfl).symm

theorem runOn_bind {s : Store} (c : Callback α) (f : α → Callback β) (u : Update) :
    runOn db draw s (c >>= f) u =
      runOn db draw s (f (runOn db draw s c u).1) (runOn db draw s c u).2 := by
  rw [runOn_eq_runAt _ u 0, runAt_bind, runOn_eq_runAt c u 0]
  exact (runOn_eq_runAt _ _ _).symm

def ofReads : Reads Store α → Callback α
  | .ret a => .done a
  | .read k => .read fun s => ofReads (k s)

theorem runAt_ofReads (p : Reads Store α) (u : Update) (n : ℕ) :
    runAt db draw σ (ofReads p) u n = ((p.runAt σ n).1, u, (p.runAt σ n).2) := by
  induction p generalizing n with
  | ret a => rfl
  | read k ih => exact ih (σ n) (n + 1)

end Callback

end NaustJmap.ObjectDB
