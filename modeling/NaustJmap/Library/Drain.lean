import NaustJmap.Library.Map

/-!
# Draining a Backlog Through a Bounded Window

A loop that calls a step as long as it asks for another call (`DoWhile`).  The step looks at the
first `n` entries of a backlog and removes those that may go.  As soon as `n` entries that may not
go yet precede an entry, the window never reaches it (`DoWhile.mem_iff`).
-/

namespace NaustJmap.Library

/-! ## Calling again -/

section

variable {σ τ : Type}

/-- `again` is asked of the state a call starts from; the first refusal ends the loop. -/
inductive DoWhile (again : σ → Bool) (step : σ → σ) : σ → σ → Prop where
  | last {s : σ} (h : again s = false) : DoWhile again step s (step s)
  | next {s s' : σ} (h : again s = true) (hrest : DoWhile again step (step s) s') :
      DoWhile again step s s'

variable {again : σ → Bool} {step : σ → σ}

theorem DoWhile.exists_of_lt (Inv : σ → Prop) (size : σ → ℕ)
    (hinv : ∀ s, Inv s → again s = true → Inv (step s))
    (hlt : ∀ s, Inv s → again s = true → size (step s) < size s) (s : σ) (hs : Inv s) :
    ∃ s', DoWhile again step s s' := by
  induction hn : size s using Nat.strong_induction_on generalizing s with
  | _ n ih =>
    cases hagain : again s with
    | false => exact ⟨step s, .last hagain⟩
    | true =>
      obtain ⟨s', hs'⟩ := ih _ (hn ▸ hlt s hs hagain) (step s) (hinv s hs hagain) rfl
      exact ⟨s', .next hagain hs'⟩

theorem DoWhile.unique {s s1 s2 : σ} (h1 : DoWhile again step s s1)
    (h2 : DoWhile again step s s2) : s1 = s2 := by
  induction h1 with
  | last h =>
    cases h2 with
    | last => rfl
    | next h' => exact absurd (h.symm.trans h') (by simp)
  | next h _ ih =>
    cases h2 with
    | last h' => exact absurd (h'.symm.trans h) (by simp)
    | next _ hrest => exact ih hrest

theorem DoWhile.map {again' : τ → Bool} {step' : τ → τ} (Inv : σ → Prop) (view : σ → τ)
    (hinv : ∀ s, Inv s → Inv (step s)) (hagain : ∀ s, Inv s → again' (view s) = again s)
    (hstep : ∀ s, Inv s → view (step s) = step' (view s)) {s s' : σ} (hs : Inv s)
    (h : DoWhile again step s s') : DoWhile again' step' (view s) (view s') ∧ Inv s' := by
  induction h with
  | @last s h =>
    refine ⟨?_, hinv s hs⟩
    rw [hstep s hs]
    exact .last ((hagain s hs).trans h)
  | @next s s' h _ ih =>
    obtain ⟨hrest, hs'⟩ := ih (hinv s hs)
    rw [hstep s hs] at hrest
    exact ⟨.next ((hagain s hs).trans h) hrest, hs'⟩

end

/-! ## The window -/

section

variable {α : Type}

/-- Of the first `n` entries those that have to stay, and all behind them. -/
def windowPass (n : ℕ) (keep : α → Bool) (xs : List α) : List α :=
  (xs.take n).filter keep ++ xs.drop n

/-- The window was full, and one of its entries could go. -/
def windowAgain (n : ℕ) (keep : α → Bool) (xs : List α) : Bool :=
  decide (n ≤ xs.length) && (xs.take n).any (fun x => !keep x)

variable {n : ℕ} {keep : α → Bool} {xs ys : List α}

theorem windowPass_congr {keep' : α → Bool} (h : ∀ x ∈ xs, keep x = keep' x) :
    windowPass n keep xs = windowPass n keep' xs := by
  rw [windowPass, windowPass, List.filter_congr fun x hx => h x (List.mem_of_mem_take hx)]

theorem windowAgain_congr {keep' : α → Bool} (h : ∀ x ∈ xs, keep x = keep' x) :
    windowAgain n keep xs = windowAgain n keep' xs := by
  rw [windowAgain]
  congr 1
  rw [Bool.eq_iff_iff, List.any_eq_true, List.any_eq_true]
  refine exists_congr fun x => and_congr_right fun hx => ?_
  rw [h x (List.mem_of_mem_take hx)]

theorem windowPass_subset : windowPass n keep xs ⊆ xs := by
  intro x hx
  rcases List.mem_append.mp hx with hx | hx
  · exact List.mem_of_mem_take (List.mem_filter.mp hx).1
  · exact List.mem_of_mem_drop hx

theorem length_windowPass_lt (h : windowAgain n keep xs = true) :
    (windowPass n keep xs).length < xs.length := by
  simp only [windowAgain, Bool.and_eq_true, List.any_eq_true, Bool.not_eq_true'] at h
  obtain ⟨-, x, hx, hgo⟩ := h
  have hfewer : ((xs.take n).filter keep).length < (xs.take n).length := by
    apply List.length_filter_lt_length_iff_exists.mpr
    exact ⟨x, hx, by simp [hgo]⟩
  calc (windowPass n keep xs).length
      = ((xs.take n).filter keep).length + (xs.drop n).length := List.length_append
    _ < (xs.take n).length + (xs.drop n).length := by omega
    _ = xs.length := by rw [← List.length_append, List.take_append_drop]

/-- An entry that may go is gone, or has as many entries that stay in front of it as before. -/
theorem windowPass_split {x : α} (l1 : List α) {l2 : List α} (hgo : keep x = false)
    (hx2 : x ∉ l2) :
    (l1.length < n ∧ x ∉ windowPass n keep (l1 ++ x :: l2)) ∨
      (n ≤ l1.length ∧ windowPass n keep (l1 ++ x :: l2) = windowPass n keep l1 ++ x :: l2 ∧
        (windowPass n keep l1).filter keep = l1.filter keep) := by
  rcases Nat.lt_or_ge l1.length n with hlt | hle
  · refine .inl ⟨hlt, fun hmem => ?_⟩
    rcases List.mem_append.mp hmem with h | h
    · rw [(List.mem_filter.mp h).2] at hgo
      cases hgo
    · -- the window ends behind `x`, so what is left of the list is a part of `l2`
      obtain ⟨k, rfl⟩ : ∃ k, n = l1.length + (k + 1) := ⟨n - l1.length - 1, by omega⟩
      rw [List.drop_length_add_append] at h
      exact hx2 (List.mem_of_mem_drop h)
  · refine .inr ⟨hle, ?_, ?_⟩
    · simp [windowPass, List.take_append_of_le_length hle, List.drop_append_of_le_length hle]
    · rw [windowPass, List.filter_append, List.filter_filter]
      simp only [Bool.and_self]
      rw [← List.filter_append, List.take_append_drop]

theorem DoWhile.window_subset
    (h : DoWhile (windowAgain n keep) (windowPass n keep) xs ys) : ys ⊆ xs := by
  induction h with
  | last => exact windowPass_subset
  | next _ _ ih => exact List.Subset.trans ih windowPass_subset

/-- **What a drain leaves**: what has a whole window of entries that stay ahead of it. -/
theorem DoWhile.mem_iff (h : DoWhile (windowAgain n keep) (windowPass n keep) xs ys) {x : α}
    {l1 l2 : List α} (hxs : xs = l1 ++ x :: l2) (hgo : keep x = false) (hx1 : x ∉ l1)
    (hx2 : x ∉ l2) : x ∈ ys ↔ n ≤ (l1.filter keep).length := by
  have hcount : (l1.filter keep).length ≤ l1.length := List.length_filter_le ..
  induction h generalizing l1 with
  | @last xs hlast =>
    subst hxs
    obtain ⟨hlt, hgone⟩ | ⟨hle, heq, -⟩ := windowPass_split l1 hgo hx2
    · exact iff_of_false hgone (by omega)
    · -- nothing in the window could go, and the window lies in front of `x`
      have hstay : ∀ y ∈ l1.take n, keep y = true := by
        have hfull : n ≤ (l1 ++ x :: l2).length := by simp; omega
        simp only [windowAgain, hfull, decide_true, Bool.true_and, List.any_eq_false,
          List.take_append_of_le_length hle] at hlast
        simpa using hlast
      refine iff_of_true (heq ▸ by simp) ?_
      calc n = (l1.take n).length := by simp [hle]
        _ = ((l1.take n).filter keep).length := by rw [List.filter_eq_self.mpr hstay]
        _ ≤ (l1.filter keep).length := ((List.take_sublist n l1).filter keep).length_le
  | @next xs ys hagain hrest ih =>
    subst hxs
    obtain ⟨hlt, hgone⟩ | ⟨hle, heq, hsame⟩ := windowPass_split (n := n) l1 hgo hx2
    · refine iff_of_false (fun hmem => hgone ?_) (by omega)
      exact hrest.window_subset hmem
    · rw [← hsame]
      exact ih heq (fun hmem => hx1 (windowPass_subset hmem)) (List.length_filter_le ..)

end

end NaustJmap.Library
