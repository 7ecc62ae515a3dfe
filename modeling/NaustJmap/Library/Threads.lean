import Mathlib.Logic.Function.Basic
import Mathlib.Logic.Relation

/-!
# Threads over Atomic Operations

Programs whose only effects are atomic operations of a shared store (`Prog`), interleaved by
`Config.Step` or run alone (`Prog.Runs`).  A system is verified one thread at a time: thread `i`
promises that its operations change the state by `G i`, and relies on the others changing it by
theirs.  `wp` is the weakest precondition under that regime, `Config.reaches_wp` its soundness, and
`wp_lift` carries a program and its proof into a larger system.

An operation is executed by `exec i op s r s'`: thread `i` issues `op` in state `s`, the answer is
`r` and the state becomes `s'`.
-/

namespace NaustJmap.Library

/-- A program all of whose effects are atomic operations `Op`, answered by `Ans`. -/
inductive Prog (Op : Type) (Ans : Op → Type) (α : Type) where
  /-- The program has finished. -/
  | ret (a : α)
  /-- One operation, and what the program does with its answer. -/
  | call (op : Op) (k : Ans op → Prog Op Ans α)

namespace Prog

variable {Op : Type} {Ans : Op → Type} {α β : Type}

def bind : Prog Op Ans α → (α → Prog Op Ans β) → Prog Op Ans β
  | .ret a, f => f a
  | .call op k, f => .call op fun r => (k r).bind f

instance : Monad (Prog Op Ans) where
  pure := .ret
  bind := Prog.bind

def op (o : Op) : Prog Op Ans (Ans o) := .call o .ret

@[simp] theorem pure_eq_ret (a : α) : (pure a : Prog Op Ans α) = .ret a := rfl

@[simp] theorem ret_bind (a : α) (f : α → Prog Op Ans β) : (Prog.ret a >>= f) = f a := rfl

@[simp] theorem op_bind (o : Op) (f : Ans o → Prog Op Ans β) :
    (op o >>= f) = .call o f := rfl

/-- The same program over a larger set of operations. -/
def lift {Op' : Type} {Ans' : Op' → Type} (emb : Op → Op')
    (out : (o : Op) → Ans' (emb o) → Ans o) : Prog Op Ans α → Prog Op' Ans' α
  | .ret a => .ret a
  | .call o k => .call (emb o) fun r => (k (out o r)).lift emb out

end Prog

section

variable {ι S Op : Type} {Ans : Op → Type} {α β : Type}
variable (exec : ι → (o : Op) → S → Ans o → S → Prop)

/-! ## One thread alone -/

/-- A run of one program with nobody else around. -/
inductive Prog.Runs (i : ι) : Prog Op Ans α → S → α → S → Prop where
  | ret (a : α) (s : S) : Prog.Runs i (.ret a) s a s
  | call {o : Op} {k : Ans o → Prog Op Ans α} {s s1 s2 : S} {r : Ans o} {a : α}
      (h : exec i o s r s1) (hk : Prog.Runs i (k r) s1 a s2) : Prog.Runs i (.call o k) s a s2

variable {exec} in
theorem Prog.Runs.bind {i : ι} {p : Prog Op Ans α} {f : α → Prog Op Ans β} {s s1 s2 : S} {a : α}
    {b : β} (hp : p.Runs exec i s a s1) (hf : (f a).Runs exec i s1 b s2) :
    (p >>= f).Runs exec i s b s2 := by
  change (p.bind f).Runs exec i s b s2
  induction hp with
  | ret a s => exact hf
  | call hx _ ih => exact .call hx (ih hf)

/-! ## Any number of threads -/

/-- The shared state and what each thread still has to do. -/
structure Config (ι S Op : Type) (Ans : Op → Type) where
  state : S
  threads : ι → Prog Op Ans Unit

/-- One thread issues its next operation; one that is never scheduled again has crashed. -/
inductive Config.Step [DecidableEq ι] : Config ι S Op Ans → Config ι S Op Ans → Prop where
  | call {c : Config ι S Op Ans} (i : ι) {o : Op} {k : Ans o → Prog Op Ans Unit} {r : Ans o}
      {s' : S} (hi : c.threads i = .call o k) (h : exec i o c.state r s') :
      Config.Step c ⟨s', Function.update c.threads i (k r)⟩

abbrev Config.Reaches [DecidableEq ι] : Config ι S Op Ans → Config ι S Op Ans → Prop :=
  Relation.ReflTransGen (Config.Step exec)

/-! ## Playing a schedule

A run can be computed from a schedule once every answer that `exec` leaves open is chosen.
`eval i o ch s` is the outcome of an operation under choice `ch`. -/

section Play

variable {Ch : Type} (eval : ι → (o : Op) → Ch → S → Option (Ans o × S))

/-- One program alone, under a list of choices: its result and the final state. -/
def Prog.play (i : ι) : List Ch → Prog Op Ans α → S → Option (α × S)
  | [], .ret a, s => some (a, s)
  | ch :: chs, .call o k, s =>
    match eval i o ch s with
    | some (r, s') => (k r).play i chs s'
    | none => none
  | _, _, _ => none

/-- A schedule: which thread goes next, and under which choice. -/
def Config.play [DecidableEq ι] :
    List (ι × Ch) → Config ι S Op Ans → Option (Config ι S Op Ans)
  | [], c => some c
  | (i, ch) :: rest, c =>
    match c.threads i with
    | .ret _ => none
    | .call o k =>
      match eval i o ch c.state with
      | some (r, s') => Config.play rest ⟨s', Function.update c.threads i (k r)⟩
      | none => none

variable {exec eval} (h : ∀ i o ch s r s', eval i o ch s = some (r, s') → exec i o s r s')

include h

theorem Prog.play_runs {i : ι} {chs : List Ch} {p : Prog Op Ans α} {s s' : S} {a : α}
    (hp : p.play eval i chs s = some (a, s')) : p.Runs exec i s a s' := by
  induction chs generalizing p s with
  | nil =>
    cases p with
    | ret b =>
      obtain ⟨rfl, rfl⟩ : b = a ∧ s = s' := by simpa [Prog.play] using hp
      exact .ret b s
    | call o k => simp [Prog.play] at hp
  | cons ch chs ih =>
    cases p with
    | ret b => simp [Prog.play] at hp
    | call o k =>
      rw [Prog.play] at hp
      cases he : eval i o ch s with
      | none => simp [he] at hp
      | some out =>
        rw [he] at hp
        exact .call (h i o ch s out.1 out.2 he) (ih hp)

theorem Config.play_reaches [DecidableEq ι] {sched : List (ι × Ch)} {c c' : Config ι S Op Ans}
    (hp : Config.play eval sched c = some c') : Config.Reaches exec c c' := by
  induction sched generalizing c with
  | nil =>
    cases hp
    exact .refl
  | cons turn rest ih =>
    obtain ⟨i, ch⟩ := turn
    rw [Config.play] at hp
    cases hi : c.threads i with
    | ret a => simp [hi] at hp
    | call o k =>
      rw [hi] at hp
      dsimp only at hp
      cases he : eval i o ch c.state with
      | none => simp [he] at hp
      | some out =>
        rw [he] at hp
        exact .head (.call i hi (h i o ch c.state out.1 out.2 he)) (ih hp)

end Play

/-! ## Rely and guarantee -/

variable (G : ι → S → S → Prop)

/-- What the other threads may have done meanwhile. -/
def Env (i : ι) : S → S → Prop := Relation.ReflTransGen fun s s' => ∃ j, j ≠ i ∧ G j s s'

/-- A fact that no operation of another thread invalidates. -/
def Stable (i : ι) (L : S → Prop) : Prop := ∀ j, j ≠ i → ∀ s s', G j s s' → L s → L s'

variable {G} in
theorem Stable.env {i : ι} {L : S → Prop} (h : Stable G i L) {s s' : S} (he : Env G i s s')
    (hL : L s) : L s' := by
  induction he with
  | refl => exact hL
  | tail _ hstep ih =>
    obtain ⟨j, hj, hg⟩ := hstep
    exact h j hj _ _ hg ih

/-- Every operation keeps the guarantee of its thread, and at the return `Q` holds. -/
def wp (i : ι) : Prog Op Ans α → (α → S → Prop) → S → Prop
  | .ret a, Q, s => Q a s
  | .call o k, Q, s =>
    ∀ s1, Env G i s s1 → ∀ r s2, exec i o s1 r s2 → G i s1 s2 ∧ wp i (k r) Q s2

variable {exec G} {i : ι}

@[simp] theorem wp_ret {a : α} {Q : α → S → Prop} {s : S} :
    wp exec G i (.ret a) Q s ↔ Q a s := Iff.rfl

theorem wp_call {L : S → Prop} {o : Op} {k : Ans o → Prog Op Ans α} {Q : α → S → Prop} {s : S}
    (hL : Stable G i L) (h : L s)
    (hstep : ∀ s1 r s2, L s1 → exec i o s1 r s2 → G i s1 s2 ∧ wp exec G i (k r) Q s2) :
    wp exec G i (.call o k) Q s :=
  fun s1 he r s2 hx => hstep s1 r s2 (hL.env he h) hx

theorem wp_mono {p : Prog Op Ans α} {Q Q' : α → S → Prop} (hQ : ∀ a s, Q a s → Q' a s) {s : S}
    (h : wp exec G i p Q s) : wp exec G i p Q' s := by
  induction p generalizing s with
  | ret a => exact hQ a s h
  | call o k ih =>
    intro s1 he r s2 hx
    obtain ⟨hg, hk⟩ := h s1 he r s2 hx
    exact ⟨hg, ih r hk⟩

theorem wp_bind {p : Prog Op Ans α} {f : α → Prog Op Ans β} {Q : β → S → Prop} {s : S}
    (h : wp exec G i p (fun a => wp exec G i (f a) Q) s) : wp exec G i (p >>= f) Q s := by
  change wp exec G i (p.bind f) Q s
  induction p generalizing s with
  | ret a => exact h
  | call o k ih =>
    intro s1 he r s2 hx
    obtain ⟨hg, hk⟩ := h s1 he r s2 hx
    exact ⟨hg, ih r hk⟩

theorem wp_bind_of {p : Prog Op Ans α} {f : α → Prog Op Ans β} {P : α → S → Prop}
    {Q : β → S → Prop} {s : S} (hp : wp exec G i p P s)
    (hf : ∀ a s, P a s → wp exec G i (f a) Q s) : wp exec G i (p >>= f) Q s :=
  wp_bind (wp_mono hf hp)

theorem wp_env {p : Prog Op Ans α} {Q : α → S → Prop} (hQ : ∀ a, Stable G i (Q a)) {j : ι}
    (hj : j ≠ i) {s s' : S} (hg : G j s s') (h : wp exec G i p Q s) : wp exec G i p Q s' := by
  cases p with
  | ret a => exact hQ a j hj s s' hg h
  | call o k => exact fun s1 he r s2 hx => h s1 (.head ⟨j, hj, hg⟩ he) r s2 hx

theorem Prog.Runs.post {p : Prog Op Ans α} {Q : α → S → Prop} {s s' : S} {a : α}
    (hr : p.Runs exec i s a s') (h : wp exec G i p Q s) : Q a s' := by
  induction hr with
  | ret a s => exact h
  | call hx _ ih => exact ih (h _ .refl _ _ hx).2

/-- Soundness: along every interleaving each thread meets the precondition of what is left of it. -/
theorem Config.reaches_wp [DecidableEq ι] {c c' : Config ι S Op Ans}
    (h : ∀ i, wp exec G i (c.threads i) (fun _ _ => True) c.state)
    (hr : Config.Reaches exec c c') :
    (∀ i, wp exec G i (c'.threads i) (fun _ _ => True) c'.state) ∧
      Relation.ReflTransGen (fun s s' => ∃ i, G i s s') c.state c'.state := by
  induction hr with
  | refl => exact ⟨h, .refl⟩
  | @tail b _ _ hstep ih =>
    obtain ⟨hwp, hpath⟩ := ih
    cases hstep with
    | @call i o k r s' hi hx =>
      -- the scheduled thread moves to the rest of its program
      have hown := hwp i
      rw [hi] at hown
      obtain ⟨hg, hk⟩ := hown b.state .refl r s' hx
      refine ⟨fun j => ?_, hpath.tail ⟨i, hg⟩⟩
      by_cases hji : j = i
      · subst hji
        simpa using hk
      · -- for every other thread this was a step of its environment
        have hj := wp_env (fun _ _ _ _ _ _ _ => trivial) (Ne.symm hji) hg (hwp j)
        simpa [Function.update_of_ne hji] using hj

theorem Config.reaches_inv [DecidableEq ι] {c c' : Config ι S Op Ans} {Inv : S → Prop}
    (hkeep : ∀ i s s', G i s s' → Inv s → Inv s')
    (h : ∀ i, wp exec G i (c.threads i) (fun _ _ => True) c.state) (h0 : Inv c.state)
    (hr : Config.Reaches exec c c') : Inv c'.state := by
  obtain ⟨_, hpath⟩ := Config.reaches_wp h hr
  generalize c'.state = s' at hpath
  induction hpath with
  | refl => exact h0
  | tail _ hg ih =>
    obtain ⟨i, hg⟩ := hg
    exact hkeep i _ _ hg ih

/-! ## Components -/

/-- A program verified against a component is verified in a system that moves it as guaranteed. -/
theorem wp_lift {S' Op' : Type} {Ans' : Op' → Type}
    {exec' : ι → (o : Op') → S' → Ans' o → S' → Prop} {G' : ι → S' → S' → Prop}
    {emb : Op → Op'} {out : (o : Op) → Ans' (emb o) → Ans o} {proj : S' → S} {R : S' → Prop}
    (hexec : ∀ o s r s', exec' i (emb o) s r s' → exec i o (proj s) (out o r) (proj s'))
    (hguar : ∀ o s r s', exec' i (emb o) s r s' → G i (proj s) (proj s') → G' i s s')
    (henv : ∀ j, j ≠ i → ∀ s s', G' j s s' → proj s = proj s' ∨ G j (proj s) (proj s'))
    (hR : ∀ j s s', G' j s s' → R s → R s')
    {p : Prog Op Ans α} {Q : α → S → Prop} {s : S'} (h : wp exec G i p Q (proj s)) (hs : R s) :
    wp exec' G' i (p.lift emb out) (fun a s => Q a (proj s) ∧ R s) s := by
  have hproj : ∀ {s s'}, Env G' i s s' → Env G i (proj s) (proj s') := by
    intro s s' he
    induction he with
    | refl => exact .refl
    | tail _ hstep ih =>
      obtain ⟨j, hj, hg⟩ := hstep
      rcases henv j hj _ _ hg with heq | hg'
      · rwa [← heq]
      · exact ih.tail ⟨j, hj, hg'⟩
  have hstable : Stable G' i R := fun j _ s s' => hR j s s'
  induction p generalizing s with
  | ret a => exact ⟨h, hs⟩
  | call o k ih =>
    intro s1 he r s2 hx
    obtain ⟨hg, hk⟩ := h (proj s1) (hproj he) (out o r) (proj s2) (hexec o s1 r s2 hx)
    have hg' := hguar o s1 r s2 hx hg
    exact ⟨hg', ih (out o r) hk (hR i s1 s2 hg' (hstable.env he hs))⟩

end

end NaustJmap.Library
