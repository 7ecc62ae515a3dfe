import Mathlib

/-!
# Maintenance of a Derived Set

A program keeps a derived set by removing what is no longer derived and adding what is newly so.
`Maintains view f A B` says that the step `f` exchanges the part `A` of the set for `B`, on every
state that has all of `A`.  Steps with disjoint parts compose, and so does a loop of them.
-/

namespace NaustJmap.Library

variable {S κ ι α : Type}

/-- The step `f` exchanges `A` for `B` in the derived set. -/
def Maintains (view : S → Set κ) (f : S → S) (A B : Set κ) : Prop :=
  ∀ s, A ⊆ view s → view (f s) = view s \ A ∪ B

namespace Maintains

variable {view : S → Set κ} {f g : S → S} {A B A1 B1 A2 B2 : Set κ}

theorem of_frame (h : ∀ s, view (f s) = view s) (A : Set κ) : Maintains view f A A := by
  intro s hA
  rw [h, Set.sdiff_union_of_subset hA]

theorem of_diff (h : ∀ s, view (f s) = view s \ (A \ B) ∪ (B \ A)) : Maintains view f A B := by
  intro s hA
  rw [h]
  ext x
  simp only [Set.mem_union, Set.mem_sdiff]
  tauto

theorem comp (h1 : Maintains view f A1 B1) (h2 : Maintains view g A2 B2)
    (hA : Disjoint A1 A2) (hB : Disjoint B1 A2) :
    Maintains view (fun s => g (f s)) (A1 ∪ A2) (B1 ∪ B2) := by
  intro s hs
  have hA1 : A1 ⊆ view s := Set.subset_union_left.trans hs
  have hA2 : A2 ⊆ view (f s) := by
    rw [h1 s hA1]
    intro x hx
    exact .inl ⟨hs (.inr hx), fun hx' => Set.disjoint_left.mp hA hx' hx⟩
  rw [h2 _ hA2, h1 s hA1]
  ext x
  have hx : x ∈ B1 → x ∉ A2 := fun h => Set.disjoint_left.mp hB h
  simp only [Set.mem_union, Set.mem_sdiff]
  tauto

theorem foldl {step : S → α → S} {A B : α → Set κ} {region : α → Set κ} {l : List α}
    (hstep : ∀ a ∈ l, Maintains view (step · a) (A a) (B a))
    (hA : ∀ a ∈ l, A a ⊆ region a) (hB : ∀ a ∈ l, B a ⊆ region a)
    (hdisj : l.Pairwise fun a b => Disjoint (region a) (region b)) :
    Maintains view (fun s => l.foldl step s) (⋃ a ∈ l, A a) (⋃ a ∈ l, B a) := by
  induction l with
  | nil => simpa using @of_frame S κ view (fun s => s) (fun _ => rfl) ∅
  | cons a l ih =>
    simp only [List.mem_cons, Set.iUnion_iUnion_eq_or_left, List.foldl_cons]
    obtain ⟨hhead, htail⟩ := List.pairwise_cons.mp hdisj
    refine comp (hstep a List.mem_cons_self)
      (ih (fun b hb => hstep b (List.mem_cons_of_mem _ hb))
        (fun b hb => hA b (List.mem_cons_of_mem _ hb))
        (fun b hb => hB b (List.mem_cons_of_mem _ hb)) htail) ?_ ?_
    all_goals
      refine Set.disjoint_iUnion₂_right.mpr fun b hb => ?_
      have hb' := hA b (List.mem_cons_of_mem _ hb)
    · exact (hhead b hb).mono (hA a List.mem_cons_self) hb'
    · exact (hhead b hb).mono (hB a List.mem_cons_self) hb'

theorem exact {step : S → S} {old new region : ι → Set κ} {touched : Set ι} {s : S}
    (h : Maintains view step (⋃ i ∈ touched, old i) (⋃ i ∈ touched, new i))
    (hold : view s = ⋃ i, old i) (hsame : ∀ i ∉ touched, new i = old i)
    (hregion : ∀ i, old i ⊆ region i)
    (hdisj : Pairwise fun i j => Disjoint (region i) (region j)) :
    view (step s) = ⋃ i, new i := by
  rw [h s (hold ▸ Set.iUnion₂_subset_iUnion _ _), hold]
  ext x
  simp only [Set.mem_union, Set.mem_sdiff, Set.mem_iUnion, exists_prop, not_exists, not_and]
  constructor
  · rintro (⟨⟨i, hi⟩, hnot⟩ | ⟨i, -, hi⟩)
    · exact ⟨i, by rwa [hsame i fun hmem => hnot i hmem hi]⟩
    · exact ⟨i, hi⟩
  · rintro ⟨i, hi⟩
    by_cases hmem : i ∈ touched
    · exact .inr ⟨i, hmem, hi⟩
    · rw [hsame i hmem] at hi
      refine .inl ⟨⟨i, hi⟩, fun j hj hx => hmem ?_⟩
      by_contra hne
      have hij : i ≠ j := fun h => hne (h ▸ hj)
      exact Set.disjoint_left.mp (hdisj hij) (hregion i hi) (hregion j hx)

end Maintains

end NaustJmap.Library
