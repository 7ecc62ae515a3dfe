import Mathlib.Data.List.Basic

/-!
# Properties of a History

A history is the list of what happened, oldest first.  `Along P` says of every event that `P`
relates it to what came before it; a history that grows at its end keeps such a property as
long as each new event meets it.
-/

namespace NaustJmap.Library

variable {α : Type} {P : List α → α → Prop} {h : List α} {e : α}

/-- Every event stands in relation `P` to what happened before it. -/
def Along (P : List α → α → Prop) (h : List α) : Prop :=
  ∀ past e rest, h = past ++ e :: rest → P past e

theorem Along.nil : Along P [] := by
  intro past e rest heq
  exact absurd heq.symm (by simp)

theorem concat_eq_append_cons {l l1 l2 : List α} {x : α} (h : l ++ [e] = l1 ++ x :: l2) :
    (l1 = l ∧ x = e) ∨ ∃ l2', l = l1 ++ x :: l2' := by
  rcases List.eq_nil_or_concat l2 with rfl | ⟨l2', y, rfl⟩
  · obtain ⟨hl, hx⟩ := List.append_inj' h rfl
    exact .inl ⟨hl.symm, (List.singleton_inj.mp hx).symm⟩
  · rw [List.concat_eq_append, ← List.cons_append, ← List.append_assoc] at h
    exact .inr ⟨l2', (List.append_inj' h rfl).1⟩

theorem along_concat : Along P (h ++ [e]) ↔ Along P h ∧ P h e := by
  constructor
  · intro hP
    exact ⟨fun past x rest heq => hP past x (rest ++ [e]) (by simp [heq]), hP h e [] rfl⟩
  · rintro ⟨hP, he⟩ past x rest heq
    obtain ⟨rfl, rfl⟩ | ⟨rest', hrest⟩ := concat_eq_append_cons heq
    · exact he
    · exact hP past x rest' hrest

end NaustJmap.Library
