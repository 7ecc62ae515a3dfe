import Mathlib

/-!
# Ordered Maps

`Map α β` is the extensional tree map of the standard library at the key type's own order: maps with
the same entries are equal, and entries come back in key order.  The lemmas restate the library's
lookup rules with `=` on keys in place of `compare _ _ = .eq`.
-/

namespace NaustJmap.Library

abbrev Map (α β : Type) [Ord α] := Std.ExtTreeMap α β

namespace Map

variable {α β : Type} [Ord α] [Std.TransOrd α] [Std.LawfulEqOrd α]

section Lookup

variable [DecidableEq α]

theorem getElem?_insert (m : Map α β) (k a : α) (v : β) :
    (m.insert k v)[a]? = if k = a then some v else m[a]? := by
  rw [Std.ExtTreeMap.getElem?_insert]
  by_cases h : k = a
  · rw [if_pos h, if_pos (by simpa using h)]
  · rw [if_neg h, if_neg (by simpa using h)]

theorem getElem?_erase (m : Map α β) (k a : α) :
    (m.erase k)[a]? = if k = a then none else m[a]? := by
  rw [Std.ExtTreeMap.getElem?_erase]
  by_cases h : k = a
  · rw [if_pos h, if_pos (by simpa using h)]
  · rw [if_neg h, if_neg (by simpa using h)]

theorem insert_eq_self {m : Map α β} {k : α} {v : β} (h : m[k]? = some v) : m.insert k v = m := by
  refine Std.ExtTreeMap.ext_getElem? fun a => ?_
  rw [getElem?_insert]
  split
  · next heq => rw [← heq, h]
  · rfl

end Lookup

theorem mem_toList (m : Map α β) (k : α) (v : β) : (k, v) ∈ m.toList ↔ m[k]? = some v := by
  rw [Std.ExtTreeMap.mem_toList_iff_getElem?_eq_some]

theorem mem_insert_iff (m : Map α β) (k a : α) (v : β) : a ∈ m.insert k v ↔ a ∈ m ∨ a = k := by
  rw [Std.ExtTreeMap.mem_insert, Std.LawfulEqCmp.compare_eq_iff_eq, or_comm, eq_comm]

theorem mem_erase_iff (m : Map α β) (k a : α) : a ∈ m.erase k ↔ a ∈ m ∧ a ≠ k := by
  rw [Std.ExtTreeMap.mem_erase, and_comm, ne_eq, Std.LawfulEqCmp.compare_eq_iff_eq, eq_comm]

omit [Std.LawfulEqOrd α] in
theorem mem_iff {m : Map α β} {k : α} : k ∈ m ↔ ∃ v, m[k]? = some v := by
  rw [Std.ExtTreeMap.mem_iff_isSome_getElem?, Option.isSome_iff_exists]

omit [Std.LawfulEqOrd α] in
theorem mem_of_getElem? {m : Map α β} {k : α} {v : β} (h : m[k]? = some v) : k ∈ m :=
  mem_iff.mpr ⟨v, h⟩

theorem mem_keys_iff (m : Map α β) (k : α) : k ∈ m.keys ↔ ∃ v, m[k]? = some v := by
  rw [Std.ExtTreeMap.mem_keys, mem_iff]

theorem nodup_keys (m : Map α β) : m.keys.Nodup := by
  refine Std.ExtTreeMap.distinct_keys.imp fun {a b} h heq => h ?_
  rw [heq]
  exact Std.ReflCmp.compare_self

omit [Std.LawfulEqOrd α] in
theorem keys_eq_of_perm {m : Map α β} {l : List α} (hperm : m.keys.Perm l)
    (hsorted : l.Pairwise fun a b => compare a b = .lt) : m.keys = l := by
  refine hperm.eq_of_pairwise (fun a b _ _ hab hba => ?_) Std.ExtTreeMap.ordered_keys hsorted
  have hgt : compare a b = .gt := Std.OrientedCmp.gt_iff_lt.mpr hba
  rw [hab] at hgt
  cases hgt

theorem keys_insert_of_mem {m : Map α β} {k : α} (h : k ∈ m) (v : β) :
    (m.insert k v).keys = m.keys := by
  refine keys_eq_of_perm ?_ Std.ExtTreeMap.ordered_keys
  refine (List.perm_ext_iff_of_nodup (nodup_keys _) (nodup_keys _)).mpr fun a => ?_
  rw [Std.ExtTreeMap.mem_keys, Std.ExtTreeMap.mem_keys, mem_insert_iff]
  exact or_iff_left_of_imp fun ha => ha ▸ h

theorem keys_eq_filter {m m' : Map α β} {p : α → Bool} (h : ∀ k, k ∈ m' ↔ k ∈ m ∧ p k = true) :
    m'.keys = m.keys.filter p := by
  refine keys_eq_of_perm ?_ (Std.ExtTreeMap.ordered_keys.filter p)
  refine (List.perm_ext_iff_of_nodup (nodup_keys _) ((nodup_keys m).filter p)).mpr fun a => ?_
  rw [List.mem_filter, Std.ExtTreeMap.mem_keys, Std.ExtTreeMap.mem_keys]
  exact h a

omit [Std.LawfulEqOrd α] in
theorem isEmpty_iff_forall (m : Map α β) : m.isEmpty ↔ ∀ k : α, m[k]? = none := by
  rw [Std.ExtTreeMap.isEmpty_iff, Std.ExtTreeMap.eq_empty_iff_forall_not_mem]
  simp

theorem nodup_toList_keys (m : Map α β) : (m.toList.map Prod.fst).Nodup := by
  rw [Std.ExtTreeMap.map_fst_toList_eq_keys]
  exact nodup_keys m

/-- A loop in which each round changes what is kept for its own key visits every key once. -/
theorem get_foldl_toList [DecidableEq α] {σ γ : Type} (get : σ → α → Option γ)
    {f : σ → α × β → σ} {g : β → Option γ → Option γ}
    (hf : ∀ s e a, get (f s e) a = if e.1 = a then g e.2 (get s a) else get s a)
    (t : Map α β) (s : σ) (a : α) :
    get (t.toList.foldl f s) a = t[a]?.elim (get s a) fun v => g v (get s a) := by
  have hskip : ∀ (l : List (α × β)) (s : σ), (∀ e ∈ l, e.1 ≠ a) →
      get (l.foldl f s) a = get s a := by
    intro l
    induction l with
    | nil => exact fun _ _ => rfl
    | cons e rest ih =>
      intro s hl
      rw [List.foldl_cons, ih _ fun e' he' => hl e' (List.mem_cons_of_mem _ he'), hf,
        if_neg (hl e List.mem_cons_self)]
  cases hv : t[a]? with
  | none =>
    refine hskip _ s fun e he heq => ?_
    have hmem := (mem_toList t e.1 e.2).mp he
    rw [heq, hv] at hmem
    cases hmem
  | some v =>
    -- the key stands at one place of the list
    obtain ⟨l, r, hlr⟩ := List.append_of_mem ((mem_toList t a v).mpr hv)
    have hnodup := nodup_toList_keys t
    rw [hlr, List.map_append, List.map_cons, List.nodup_middle, List.nodup_cons,
      List.mem_append, not_or] at hnodup
    have hout : ∀ k : List (α × β), a ∉ k.map Prod.fst → ∀ e ∈ k, e.1 ≠ a :=
      fun k hk e he heq => hk (heq ▸ List.mem_map_of_mem he)
    rw [hlr, List.foldl_append, List.foldl_cons, hskip r _ (hout r hnodup.1.2), hf, if_pos rfl,
      hskip l s (hout l hnodup.1.1)]
    rfl

theorem getElem?_foldl_insert_zipIdx {γ : Type} [DecidableEq α] {key : ℕ → α}
    (hinj : Function.Injective key) (f : γ → β) {m : Map α β} (hfresh : ∀ n, key n ∉ m)
    (l : List γ) (a : α) (v : β) :
    (l.zipIdx.foldl (fun m c => m.insert (key c.2) (f c.1)) m)[a]? = some v ↔
      (∃ n c, l[n]? = some c ∧ key n = a ∧ f c = v) ∨ m[a]? = some v := by
  induction l using List.reverseRecOn with
  | nil => simp
  | append_singleton l c ih =>
    simp only [List.zipIdx_append, List.foldl_append, List.zipIdx_singleton, List.foldl_cons,
      List.foldl_nil, Nat.zero_add, getElem?_insert]
    split
    · next heq =>
      -- the last key is none of the others
      constructor
      · intro h
        exact .inl ⟨l.length, c, by simp, heq, Option.some.inj h⟩
      · intro h
        rcases h with ⟨n, c', hc', hkey, rfl⟩ | h
        · obtain rfl : n = l.length := hinj (hkey.trans heq.symm)
          rw [List.getElem?_concat_length] at hc'
          rw [Option.some.inj hc']
        · exact absurd (mem_of_getElem? h) (heq ▸ hfresh l.length)
    · next hne =>
      rw [ih]
      refine or_congr_left ⟨fun ⟨n, c', hc', h⟩ => ⟨n, c', ?_, h⟩, fun ⟨n, c', hc', h⟩ =>
        ⟨n, c', ?_, h⟩⟩
      · rw [List.getElem?_append_left (List.getElem?_eq_some_iff.mp hc').1, hc']
      · have hn : n ≠ l.length := fun hn => hne (hn ▸ h.1)
        have hlt := (List.getElem?_eq_some_iff.mp hc').1
        rw [List.length_append, List.length_singleton] at hlt
        rwa [List.getElem?_append_left (by omega)] at hc'

end Map

end NaustJmap.Library
