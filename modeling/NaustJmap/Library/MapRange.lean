import NaustJmap.Library.Map

/-!
# A Loop over a Map That Its Body Changes

A `range` loop produces the entries of a map in any order.  An entry that its body removes before it
was reached is not produced, and one that it creates may be produced or not.  `Ranges` is every way
such a loop can go.
-/

namespace NaustJmap.Library

/-- An order in which a `range` loop may go over the keys of a map that its body leaves alone. -/
structure RangeOrder (α : Type) where
  order : List α → List α
  perm : ∀ keys, (order keys).Perm keys

/-- The order in which the map lists its keys. -/
def RangeOrder.listed {α : Type} : RangeOrder α := ⟨id, .refl⟩

variable {α β σ ε : Type} [Ord α] [Std.TransOrd α] [DecidableEq α]

/-- The loop from a state, with the entries that are due and those that may still come. -/
inductive Ranges (view : σ → Map α β) (body : σ → α → β → Except ε σ) :
    σ → List α → List α → Except ε σ → Prop where
  | stop (s : σ) (may : List α) : Ranges view body s [] may (.ok s)
  | next {s s' : σ} {due may : List α} {a : α} {v : β} {r : Except ε σ}
      (hmem : a ∈ due ∨ a ∈ may) (hentry : (view s)[a]? = some v) (hbody : body s a v = .ok s')
      (hrest : Ranges view body s' (due.filter fun b => b ≠ a ∧ b ∈ view s')
        (may.filter (· ≠ a) ++ (view s').keys.filter (· ∉ view s)) r) :
      Ranges view body s due may r
  | fail {s : σ} {due may : List α} {a : α} {v : β} {e : ε}
      (hmem : a ∈ due ∨ a ∈ may) (hentry : (view s)[a]? = some v) (hbody : body s a v = .error e) :
      Ranges view body s due may (.error e)

namespace Ranges

variable (view : σ → Map α β) (body : σ → α → β → Except ε σ) (s : σ) (due may : List α)

/-- The loop can end by taking what is due in the order of the list and skipping the rest. -/
theorem exists_skipping (Inv : σ → List α → Prop)
    (hstep : ∀ s s' due a v, Inv s due → a ∈ due → (view s)[a]? = some v → body s a v = .ok s' →
      Inv s' (due.filter fun b => b ≠ a ∧ b ∈ view s'))
    (hinv : Inv s due) (hdue : ∀ a ∈ due, a ∈ view s) :
    ∃ r, Ranges view body s due may r ∧ ∀ s', r = .ok s' → Inv s' [] := by
  induction hn : due.length using Nat.strong_induction_on generalizing s due may with
  | _ n ih =>
    cases due with
    | nil => exact ⟨_, .stop s may, fun s' h => Except.ok.inj h ▸ hinv⟩
    | cons a rest =>
      obtain ⟨v, hv⟩ := Map.mem_iff.mp (hdue a List.mem_cons_self)
      cases hbody : body s a v with
      | error e => exact ⟨_, .fail (.inl List.mem_cons_self) hv hbody, fun s' h => nomatch h⟩
      | ok s' =>
        have hinv' := hstep s s' _ a v hinv List.mem_cons_self hv hbody
        -- the entry itself is no longer due
        have hless : ((a :: rest).filter fun b => b ≠ a ∧ b ∈ view s').length < n := by
          rw [← hn, List.filter_cons_of_neg (by simp)]
          exact Nat.lt_succ_of_le (List.length_filter_le _ _)
        obtain ⟨r, hr, hend⟩ := ih _ hless _ _ _ hinv'
          (fun b hb => (by simpa using List.of_mem_filter hb : b ≠ a ∧ b ∈ view s').2) rfl
        exact ⟨r, .next (.inl List.mem_cons_self) hv hbody hr, hend⟩

end Ranges

end NaustJmap.Library
