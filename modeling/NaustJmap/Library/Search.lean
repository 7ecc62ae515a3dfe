import Mathlib.Data.List.Basic
import Mathlib.Data.List.Infix
import Mathlib.Data.Nat.Find
import Mathlib.Tactic.Common

/-!
# Searching a Text

`strings.Index`, over any letters: the first place at which a text has another one.
-/

namespace NaustJmap.Library

section Search

variable {α : Type} [DecidableEq α]

def index (needle : List α) : List α → Option ℕ
  | [] => if needle = [] then some 0 else none
  | x :: text =>
    if needle <+: x :: text then some 0 else (index needle text).map (· + 1)

omit [DecidableEq α] in
def OccursAt (needle text : List α) (i : ℕ) : Prop := i ≤ text.length ∧ needle <+: text.drop i

omit [DecidableEq α] in
theorem occursAt_zero {needle text : List α} : OccursAt needle text 0 ↔ needle <+: text := by
  simp [OccursAt]

omit [DecidableEq α] in
theorem occursAt_succ {needle text : List α} {x : α} {i : ℕ} :
    OccursAt needle (x :: text) (i + 1) ↔ OccursAt needle text i := by
  simp [OccursAt]

omit [DecidableEq α] in
theorem occursAt_iff {needle text : List α} {i : ℕ} :
    OccursAt needle text i ↔ ∃ a b, text = a ++ needle ++ b ∧ a.length = i := by
  constructor
  · rintro ⟨hi, b, hb⟩
    refine ⟨text.take i, b, ?_, by simp [hi]⟩
    rw [List.append_assoc, hb, List.take_append_drop]
  · rintro ⟨a, b, rfl, rfl⟩
    refine ⟨by simp, ?_⟩
    rw [List.append_assoc, List.drop_left]
    exact List.prefix_append needle b

omit [DecidableEq α] in
theorem OccursAt.length_le {needle text : List α} {i : ℕ} (h : OccursAt needle text i) :
    i + needle.length ≤ text.length := by
  have := h.2.length_le
  rw [List.length_drop] at this
  have := h.1
  omega

omit [DecidableEq α] in
theorem OccursAt.mem {needle text : List α} {i : ℕ} (h : OccursAt needle text i) {x : α}
    (hx : x ∈ needle) : x ∈ text := by
  obtain ⟨a, b, rfl, -⟩ := occursAt_iff.mp h
  exact List.mem_append_left b (List.mem_append_right a hx)

/-- **The search finds the first occurrence.** -/
theorem index_eq_some_iff {needle text : List α} {i : ℕ} :
    index needle text = some i ↔ OccursAt needle text i ∧ ∀ j < i, ¬OccursAt needle text j := by
  induction text generalizing i with
  | nil =>
    rw [index]
    split_ifs with h
    · subst h
      constructor
      · rintro ⟨⟩
        exact ⟨by simp [OccursAt], by simp⟩
      · rintro ⟨⟨hi, -⟩, -⟩
        rw [Nat.le_zero.mp hi]
    · simp [OccursAt, h]
  | cons x text ih =>
    rw [index]
    split_ifs with h
    · constructor
      · rintro ⟨⟩
        exact ⟨occursAt_zero.mpr h, by simp⟩
      · rintro ⟨-, hfirst⟩
        cases i with
        | zero => rfl
        | succ i => exact absurd (occursAt_zero.mpr h) (hfirst 0 (Nat.succ_pos i))
    · rw [← occursAt_zero] at h
      cases i with
      | zero => simp [h]
      | succ i =>
        rw [occursAt_succ, Option.map_eq_some_iff]
        simp only [Nat.add_right_cancel_iff, exists_eq_right, ih]
        refine and_congr_right fun _ => ⟨fun hfirst j hj => ?_, fun hfirst j hj => ?_⟩
        · cases j with
          | zero => exact h
          | succ j => exact fun hj' => hfirst j (by omega) (occursAt_succ.mp hj')
        · exact fun hj' => hfirst (j + 1) (by omega) (occursAt_succ.mpr hj')

omit [DecidableEq α] in
theorem not_occursAt_of_head {x : α} {needle a b : List α} (hx : x ∉ needle) {i : ℕ}
    (hi : i < a.length) (ha : ¬OccursAt (x :: needle) a i) :
    ¬OccursAt (x :: needle) (a ++ (x :: needle) ++ b) i := by
  intro h
  obtain ⟨u, v, heq, rfl⟩ := occursAt_iff.mp h
  by_cases hfits : u.length + (x :: needle).length ≤ a.length
  · -- the occurrence lies in `a`
    refine ha ⟨hi.le, ?_⟩
    have hprefix : x :: needle <+: (a ++ (x :: needle) ++ b).drop u.length := h.2
    rw [List.append_assoc, List.drop_append_of_le_length hi.le] at hprefix
    exact List.prefix_of_prefix_length_le hprefix (List.prefix_append _ _)
      (by rw [List.length_drop]; omega)
  · -- the copy at the end of `a` starts inside it
    have hget := congrArg (fun l => l[a.length]?) heq
    have hlt : a.length < u.length + (x :: needle).length := by omega
    simp only [List.append_assoc] at hget
    rw [List.getElem?_append_right (Nat.le_refl _), Nat.sub_self,
      List.getElem?_append_right hi.le] at hget
    obtain ⟨k, hk⟩ : ∃ k, a.length - u.length = k + 1 := ⟨a.length - u.length - 1, by omega⟩
    rw [hk, List.cons_append, List.getElem?_cons_zero, List.cons_append, List.getElem?_cons_succ,
      List.getElem?_append_left (by simp only [List.length_cons] at hlt; omega)] at hget
    exact hx (List.mem_of_getElem? hget.symm)

theorem index_append {x : α} {needle a : List α} (hx : x ∉ needle)
    (ha : ∀ i, ¬OccursAt (x :: needle) a i) (b : List α) :
    index (x :: needle) (a ++ (x :: needle) ++ b) = some a.length := by
  rw [index_eq_some_iff]
  refine ⟨occursAt_iff.mpr ⟨a, b, rfl, rfl⟩, fun j hj => ?_⟩
  exact not_occursAt_of_head hx hj (ha j)

end Search

end NaustJmap.Library
