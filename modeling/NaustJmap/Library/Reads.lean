import Mathlib.Data.List.Basic
import Mathlib.Logic.Relation
import Mathlib.Order.Lattice

/-!
# Programs of Atomic Reads

The effects of a reader that takes no lock are atomic reads of a shared state.  `Reads.runAt` lets
the `n`-th read see the `n`-th state of a *schedule*; a schedule joined by steps of the environment
(`Interleaving`) is one interleaving of the two.  In `Reads.run` every read sees the same state.
`ReadM ε S` adds failure.
-/

namespace NaustJmap.Library

/-- A program over a shared state `S` whose effects are atomic reads. -/
inductive Reads (S α : Type) where
  /-- The program has finished. -/
  | ret (a : α)
  /-- One atomic read, and what the program does with the state it saw. -/
  | read (k : S → Reads S α)

namespace Reads

variable {S α β : Type} (σ : ℕ → S) (s : S)

def bind : Reads S α → (α → Reads S β) → Reads S β
  | .ret a, f => f a
  | .read k, f => .read fun s => (k s).bind f

instance : Monad (Reads S) where
  pure := .ret
  bind := Reads.bind

def get (f : S → α) : Reads S α := .read fun s => .ret (f s)

/-- Run with the `n`-th read at `σ n`; returns the result and the index of the next read. -/
def runAt (σ : ℕ → S) : Reads S α → ℕ → α × ℕ
  | .ret a, n => (a, n)
  | .read k, n => runAt σ (k (σ n)) (n + 1)

def run (s : S) : Reads S α → α
  | .ret a => a
  | .read k => run s (k s)

@[simp] theorem runAt_pure (a : α) (n : ℕ) :
    runAt σ (pure a : Reads S α) n = (a, n) := rfl

@[simp] theorem runAt_get (f : S → α) (n : ℕ) :
    runAt σ (get f) n = (f (σ n), n + 1) := rfl

@[simp] theorem runAt_bind (p : Reads S α) (f : α → Reads S β) (n : ℕ) :
    runAt σ (p >>= f) n = runAt σ (f (runAt σ p n).1) (runAt σ p n).2 := by
  change runAt σ (p.bind f) n = _
  induction p generalizing n with
  | ret a => rfl
  | read k ih => exact ih (σ n) (n + 1)

@[simp] theorem run_pure (a : α) : run s (pure a : Reads S α) = a := rfl

@[simp] theorem run_get (f : S → α) : run s (get f) = f s := rfl

@[simp] theorem run_bind (p : Reads S α) (f : α → Reads S β) :
    run s (p >>= f) = run s (f (run s p)) := by
  change run s (p.bind f) = _
  induction p with
  | ret a => rfl
  | read k ih => exact ih s

@[simp] theorem run_get_bind (g : S → α) (f : α → Reads S β) :
    run s (get g >>= f) = run s (f (g s)) := run_bind s (get g) f

theorem le_runAt_snd (p : Reads S α) (n : ℕ) : n ≤ (runAt σ p n).2 := by
  induction p generalizing n with
  | ret a => exact le_rfl
  | read k ih => exact (Nat.le_succ n).trans (ih (σ n) (n + 1))

/-- On a schedule that does not change meanwhile, a reader returns what it does on one state. -/
theorem runAt_eq_run {σ : ℕ → S} {s : S} (p : Reads S α) (n : ℕ)
    (h : ∀ i, n ≤ i → i < (runAt σ p n).2 → σ i = s) :
    (runAt σ p n).1 = run s p := by
  induction p generalizing n with
  | ret a => rfl
  | read k ih =>
    have hn : σ n = s :=
      h n le_rfl (Nat.lt_of_succ_le (le_runAt_snd σ (k (σ n)) (n + 1)))
    have := ih (σ n) (n + 1) fun i hi hlt => h i (Nat.le_of_succ_le hi) hlt
    simpa [runAt, run, hn] using this

end Reads

/-! ## Readers that can fail -/

theorem except_bind_eq_ok {ε α β : Type} {x : Except ε α} {f : α → Except ε β} {b : β} :
    x >>= f = .ok b ↔ ∃ a, x = .ok a ∧ f a = .ok b := by
  cases x <;> simp [bind, Except.bind]

/-- Readers that can fail with an `ε`. -/
abbrev ReadM (ε S : Type) := ExceptT ε (Reads S)

namespace ReadM

variable {ε S α β : Type} (σ : ℕ → S) (s : S)

def get (f : S → α) : ReadM ε S α := ExceptT.lift (Reads.get f)

def lift (p : Reads S α) : ReadM ε S α := ExceptT.lift p

def ensure (c : Prop) [Decidable c] (e : ε) : ReadM ε S Unit := if c then pure () else throw e

def ofExcept (x : Except ε α) : ReadM ε S α := ExceptT.mk (pure x)

def mapError {ε' : Type} (f : ε → ε') (p : ReadM ε S α) : ReadM ε' S α :=
  ExceptT.mk (ExceptT.run p >>= fun r => pure (r.mapError f))

def runAt (σ : ℕ → S) (p : ReadM ε S α) (n : ℕ) : Except ε α × ℕ :=
  Reads.runAt σ (ExceptT.run p) n

def run (s : S) (p : ReadM ε S α) : Except ε α := Reads.run s (ExceptT.run p)

@[simp] theorem runAt_pure (a : α) (n : ℕ) :
    runAt σ (pure a : ReadM ε S α) n = (.ok a, n) := rfl

@[simp] theorem runAt_throw (e : ε) (n : ℕ) :
    runAt σ (throw e : ReadM ε S α) n = (.error e, n) := rfl

@[simp] theorem runAt_get (f : S → α) (n : ℕ) :
    runAt σ (get f : ReadM ε S α) n = (.ok (f (σ n)), n + 1) := rfl

theorem runAt_lift (p : Reads S α) (n : ℕ) :
    runAt σ (lift p : ReadM ε S α) n = (.ok (Reads.runAt σ p n).1, (Reads.runAt σ p n).2) := by
  change Reads.runAt σ (p >>= fun a => pure (Except.ok a)) n = _
  rw [Reads.runAt_bind]
  rfl

@[simp] theorem runAt_ofExcept (x : Except ε α) (n : ℕ) :
    runAt σ (ofExcept x : ReadM ε S α) n = (x, n) := rfl

theorem runAt_mapError {ε' : Type} (f : ε → ε') (p : ReadM ε S α) (n : ℕ) :
    runAt σ (mapError f p) n = ((runAt σ p n).1.mapError f, (runAt σ p n).2) := by
  change Reads.runAt σ (ExceptT.run p >>= fun r => pure (r.mapError f)) n = _
  rw [Reads.runAt_bind]
  rfl

theorem runAt_ensure (c : Prop) [Decidable c] (e : ε) (n : ℕ) :
    runAt σ (ensure c e : ReadM ε S Unit) n = (if c then .ok () else .error e, n) := by
  unfold ensure
  split <;> rfl

theorem runAt_bind (p : ReadM ε S α) (f : α → ReadM ε S β) (n : ℕ) :
    runAt σ (p >>= f) n =
      match runAt σ p n with
      | (.ok a, m) => runAt σ (f a) m
      | (.error e, m) => (.error e, m) := by
  simp only [runAt, ExceptT.run_bind, Reads.runAt_bind]
  rcases Reads.runAt σ (ExceptT.run p) n with ⟨_ | _, _⟩ <;> rfl

theorem runAt_bind_eq_ok {σ : ℕ → S} {p : ReadM ε S α} {f : α → ReadM ε S β} {n m : ℕ} {b : β} :
    runAt σ (p >>= f) n = (.ok b, m) ↔
      ∃ a k, runAt σ p n = (.ok a, k) ∧ runAt σ (f a) k = (.ok b, m) := by
  rw [runAt_bind]
  rcases runAt σ p n with ⟨e | a, k⟩ <;> simp

theorem runAt_ensure_bind_eq_ok {σ : ℕ → S} {c : Prop} [Decidable c] {e : ε}
    {f : Unit → ReadM ε S β} {n m : ℕ} {b : β} :
    runAt σ (ensure c e >>= f) n = (.ok b, m) ↔ c ∧ runAt σ (f ()) n = (.ok b, m) := by
  rw [runAt_bind, runAt_ensure]
  by_cases h : c <;> simp [h]

theorem runAt_ensure_bind (c : Prop) [Decidable c] (e : ε) (f : Unit → ReadM ε S β) (n : ℕ) :
    runAt σ (ensure c e >>= f) n = if c then runAt σ (f ()) n else (.error e, n) := by
  rw [runAt_bind, runAt_ensure]
  by_cases h : c <;> simp [h]

theorem runAt_ofExcept_bind (x : Except ε α) (f : α → ReadM ε S β) (n : ℕ) :
    runAt σ (ofExcept x >>= f) n =
      match x with
      | .ok a => runAt σ (f a) n
      | .error e => (.error e, n) := by
  cases x <;> rfl

@[simp] theorem runAt_get_bind (g : S → α) (f : α → ReadM ε S β) (n : ℕ) :
    runAt σ (get g >>= f) n = runAt σ (f (g (σ n))) (n + 1) := by
  rw [runAt_bind, runAt_get]

@[simp] theorem run_pure (a : α) : run s (pure a : ReadM ε S α) = .ok a := rfl

@[simp] theorem run_throw (e : ε) : run s (throw e : ReadM ε S α) = .error e := rfl

@[simp] theorem run_get (f : S → α) : run s (get f : ReadM ε S α) = .ok (f s) := rfl

@[simp] theorem run_lift (p : Reads S α) : run s (lift p : ReadM ε S α) = .ok (Reads.run s p) := by
  change Reads.run s (p >>= fun a => pure (Except.ok a)) = _
  rw [Reads.run_bind]
  rfl

@[simp] theorem run_ofExcept (x : Except ε α) :
    run s (ofExcept x : ReadM ε S α) = x := rfl

theorem run_mapError {ε' : Type} (f : ε → ε') (p : ReadM ε S α) :
    run s (mapError f p) = (run s p).mapError f := by
  change Reads.run s (ExceptT.run p >>= fun r => pure (r.mapError f)) = _
  rw [Reads.run_bind]
  rfl

theorem run_bind (p : ReadM ε S α) (f : α → ReadM ε S β) :
    run s (p >>= f) =
      match run s p with
      | .ok a => run s (f a)
      | .error e => .error e := by
  simp only [run, ExceptT.run_bind, Reads.run_bind]
  rcases Reads.run s (ExceptT.run p) with _ | _ <;> rfl

theorem run_bind_eq_ok {s : S} {p : ReadM ε S α} {f : α → ReadM ε S β} {b : β} :
    run s (p >>= f) = .ok b ↔ ∃ a, run s p = .ok a ∧ run s (f a) = .ok b := by
  rw [run_bind]
  rcases run s p with e | a <;> simp

theorem run_eq_runAt (p : ReadM ε S α) : run s p = (runAt (fun _ => s) p 0).1 :=
  (Reads.runAt_eq_run (ExceptT.run p) 0 fun _ _ _ => rfl).symm

end ReadM

/-! ## Interleavings -/

/-- `σ` is a schedule: between two reads the environment takes any number of steps. -/
def Interleaving {S : Type} (Step : S → S → Prop) (σ : ℕ → S) : Prop :=
  ∀ n, Relation.ReflTransGen Step (σ n) (σ (n + 1))

namespace Interleaving

variable {S : Type} {Step : S → S → Prop} {σ : ℕ → S}

theorem reaches (h : Interleaving Step σ) {m n : ℕ} (hmn : m ≤ n) :
    Relation.ReflTransGen Step (σ m) (σ n) := by
  induction n, hmn using Nat.le_induction with
  | base => exact .refl
  | succ n _ ih => exact ih.trans (h n)

end Interleaving

/-- The schedule of an environment that moves once, right before read `k`. -/
def switchAt {S : Type} (k : ℕ) (s s' : S) (i : ℕ) : S := if i < k then s else s'

theorem Interleaving.switchAt {S : Type} {Step : S → S → Prop} (k : ℕ) {s s' : S}
    (h : Relation.ReflTransGen Step s s') : Interleaving Step (switchAt k s s') := by
  intro i
  unfold Library.switchAt
  split <;> split
  · exact .refl
  · exact h
  · omega
  · exact .refl

end NaustJmap.Library
