import NaustJmap.ObjectDB.Descriptor

/-!
# Key Encoding

The order-preserving key encoding of `core/internal/keyenc`: a key is the concatenation of escaped,
terminated segments.  No two segment lists share a key (`key_injective`), a key starts with that of
`p` exactly when its segments start with `p` (`key_isPrefix_iff`), the bounds of `PrefixRange` hold
exactly these keys (`mem_prefixRange_iff`), and keys are ordered as their segments are.
-/

namespace NaustJmap.ObjectDB

/-! ## The encoding -/

def escape (b : UInt8) : Bytes := if b = 0x00 then [0x00, 0xFF] else [b]

/-- `keyenc.Segment`: escaped bytes and the terminator `0x00 0x01`. -/
def segment (seg : Bytes) : Bytes := seg.flatMap escape ++ [0x00, 0x01]

def key (segs : List Bytes) : Bytes := segs.flatMap segment

/-- `keyenc.PrefixSuccessor`: the last byte below `0xFF` is raised and the rest cut off. -/
def prefixSuccessor : Bytes → Option Bytes
  | [] => none
  | b :: bs =>
    match prefixSuccessor bs with
    | some out => some (b :: out)
    | none => if b < 0xFF then some [b + 1] else none

/-- `keyenc.PrefixRange`: the `[start, end)` scan bounds. -/
def prefixRange (segs : List Bytes) : Bytes × Option Bytes :=
  (key segs, prefixSuccessor (key segs))

/-- A backend scan visits the keys from `start` on, before the end if there is one. -/
def inRange (bounds : Bytes × Option Bytes) (k : Bytes) : Bool :=
  bounds.1 ≤ k && bounds.2.all (k < ·)

/-! ## Segments -/

theorem segment_cons (b : UInt8) (s : Bytes) : segment (b :: s) = escape b ++ segment s := by
  simp [segment]

theorem key_cons (s : Bytes) (segs : List Bytes) : key (s :: segs) = segment s ++ key segs := by
  simp [key]

theorem key_append (p q : List Bytes) : key (p ++ q) = key p ++ key q := by
  simp [key]

theorem segment_append_inj {a b x y : Bytes} (h : segment a ++ x = segment b ++ y) :
    a = b ∧ x = y := by
  induction a generalizing b with
  | nil =>
    cases b with
    | nil => simpa using h
    | cons c b =>
      -- the terminator is neither an escaped zero nor a nonzero byte
      by_cases hc : c = 0
      · subst hc; simp [segment, escape] at h
      · simp [segment, escape, hc, Ne.symm hc] at h
  | cons c a ih =>
    cases b with
    | nil =>
      by_cases hc : c = 0
      · subst hc; simp [segment, escape] at h
      · simp [segment, escape, hc] at h
    | cons d b =>
      simp only [segment_cons, List.append_assoc] at h
      have hcd : c = d := by
        unfold escape at h
        split at h <;> split at h <;> simp_all
      subst hcd
      obtain ⟨rfl, hxy⟩ := ih (List.append_cancel_left h)
      exact ⟨rfl, hxy⟩

theorem segment_append_lt_iff {a b : Bytes} (hab : a ≠ b) (x y : Bytes) :
    segment a ++ x < segment b ++ y ↔ a < b := by
  induction a generalizing b with
  | nil =>
    cases b with
    | nil => exact absurd rfl hab
    | cons c b =>
      by_cases hc : c = 0
      · subst hc
        simp [segment, escape, List.cons_lt_cons_iff, UInt8.lt_iff_toNat_lt]
      · have : 0 < c := by
          rw [UInt8.lt_iff_toNat_lt]
          have := UInt8.toNat_inj.ne.mpr hc
          simp at this ⊢
          omega
        simp [segment, escape, hc, List.cons_lt_cons_iff, this]
  | cons c a ih =>
    cases b with
    | nil =>
      by_cases hc : c = 0
      · subst hc
        simp [segment, escape, List.cons_lt_cons_iff]
      · simp [segment, escape, hc, List.cons_lt_cons_iff]
    | cons d b =>
      simp only [segment_cons, List.append_assoc, List.cons_lt_cons_iff]
      by_cases hcd : c = d
      · subst hcd
        have hlt : ¬ c < c := by simp
        have hne : a ≠ b := fun h => hab (by rw [h])
        unfold escape
        split <;> simp [hlt, ih hne]
      · -- the first differing byte decides; an escaped zero starts with a zero
        unfold escape
        split <;> split <;> simp_all [List.cons_lt_cons_iff]

/-! ## Keys -/

theorem key_injective : Function.Injective key := by
  intro p q h
  induction p generalizing q with
  | nil =>
    cases q with
    | nil => rfl
    | cons t q => simp [key_cons, segment] at h; simp [key] at h
  | cons s p ih =>
    cases q with
    | nil => simp [key_cons, segment] at h; simp [key] at h
    | cons t q =>
      obtain ⟨rfl, hpq⟩ := segment_append_inj h
      rw [ih hpq]

theorem key_isPrefix_iff {p q : List Bytes} : key p <+: key q ↔ p <+: q := by
  constructor
  · rintro ⟨r, hr⟩
    induction p generalizing q with
    | nil => exact List.nil_prefix
    | cons s p ih =>
      cases q with
      | nil => simp [key_cons, segment] at hr; simp [key] at hr
      | cons t q =>
        rw [key_cons, List.append_assoc] at hr
        obtain ⟨rfl, hr'⟩ := segment_append_inj hr
        exact List.cons_prefix_cons.mpr ⟨rfl, ih hr'⟩
  · rintro ⟨r, rfl⟩
    exact ⟨key r, (key_append p r).symm⟩

/-! ## Scan bounds -/

/-- A prefix without successor is all `0xFF`: what does not start with it is below it. -/
theorem lt_or_isPrefix_of_prefixSuccessor_eq_none {p : Bytes} (h : prefixSuccessor p = none)
    (k : Bytes) : k < p ∨ p <+: k := by
  induction p generalizing k with
  | nil => exact .inr List.nil_prefix
  | cons b p ih =>
    simp only [prefixSuccessor] at h
    cases hp : prefixSuccessor p with
    | some out => simp [hp] at h
    | none =>
      have hb : ¬ b < 0xFF := by simpa [hp] using h
      cases k with
      | nil => exact .inl (List.nil_lt_cons b p)
      | cons c k =>
        rw [List.cons_lt_cons_iff, List.cons_prefix_cons]
        have hcb : c < b ∨ c = b := by
          have := c.toNat_lt
          simp only [UInt8.lt_iff_toNat_lt, ← UInt8.toNat_inj] at hb ⊢
          simp at hb
          omega
        rcases hcb with hcb | rfl
        · exact .inl (.inl hcb)
        · rcases ih hp k with hk | hk
          · exact .inl (.inr ⟨rfl, hk⟩)
          · exact .inr ⟨rfl, hk⟩

theorem lt_prefixSuccessor_iff {p out : Bytes} (h : prefixSuccessor p = some out) (k : Bytes) :
    k < out ↔ k < p ∨ p <+: k := by
  induction p generalizing out k with
  | nil => simp [prefixSuccessor] at h
  | cons b p ih =>
    simp only [prefixSuccessor] at h
    cases hp : prefixSuccessor p with
    | some out' =>
      simp only [hp, Option.some.injEq] at h
      subst h
      cases k with
      | nil => simp
      | cons c k =>
        simp only [List.cons_lt_cons_iff, ih hp, List.cons_prefix_cons]
        tauto
    | none =>
      simp only [hp, Option.ite_none_right_eq_some, Option.some.injEq] at h
      obtain ⟨hb, rfl⟩ := h
      cases k with
      | nil => simp
      | cons c k =>
        have hrest := lt_or_isPrefix_of_prefixSuccessor_eq_none hp k
        have hc : c < b + 1 ↔ c < b ∨ c = b := by
          simp only [UInt8.lt_iff_toNat_lt, ← UInt8.toNat_inj, UInt8.toNat_add] at hb ⊢
          simp at hb ⊢
          omega
        simp only [List.cons_lt_cons_iff, List.cons_prefix_cons, List.not_lt_nil, and_false,
          or_false, hc]
        tauto

theorem all_lt_prefixSuccessor_iff (p k : Bytes) :
    (prefixSuccessor p).all (k < ·) ↔ k < p ∨ p <+: k := by
  cases h : prefixSuccessor p with
  | none => simpa using lt_or_isPrefix_of_prefixSuccessor_eq_none h k
  | some out => simpa using lt_prefixSuccessor_iff h k

theorem not_lt_of_isPrefix {p k : Bytes} (h : p <+: k) : ¬ k < p := by
  obtain ⟨r, rfl⟩ := h
  induction p with
  | nil => simp
  | cons b p ih => simpa using ih

theorem mem_prefixRange_iff (segs : List Bytes) (k : Bytes) :
    inRange (prefixRange segs) k ↔ key segs <+: k := by
  have hle : key segs ≤ k ↔ ¬ k < key segs := List.not_lt.symm
  simp only [inRange, prefixRange, Bool.and_eq_true, decide_eq_true_eq,
    all_lt_prefixSuccessor_iff, hle]
  have := @not_lt_of_isPrefix (key segs) k
  tauto

theorem append_lt_append_left_iff (p a b : Bytes) : p ++ a < p ++ b ↔ a < b := by
  induction p with
  | nil => rfl
  | cons c p ih => simpa using ih

theorem key_lt_key_iff {p q : List Bytes} : key p < key q ↔ p < q := by
  induction p generalizing q with
  | nil =>
    cases q with
    | nil => simp [key]
    | cons t q =>
      have hne : key (t :: q) ≠ [] := by simp [key_cons, segment]
      obtain ⟨b, k, hk⟩ := List.exists_cons_of_ne_nil hne
      rw [hk]
      exact iff_of_true (List.nil_lt_cons b k) (List.nil_lt_cons t q)
  | cons s p ih =>
    cases q with
    | nil => simp [key]
    | cons t q =>
      rw [key_cons, key_cons, List.cons_lt_cons_iff]
      -- the first segment that differs decides on both sides
      by_cases hst : s = t
      · subst hst
        rw [append_lt_append_left_iff, ih]
        simp [List.lt_irrefl]
      · rw [segment_append_lt_iff hst]
        simp [hst]

theorem key_append_lt_iff (p : List Bytes) (v w : Bytes) (rest : List Bytes) :
    key (p ++ w :: rest) < key (p ++ [v]) ↔ w < v := by
  by_cases hwv : w = v
  · subst hwv
    have hpre : key (p ++ [w]) <+: key (p ++ w :: rest) :=
      key_isPrefix_iff.mpr ⟨rest, by simp⟩
    exact iff_of_false (not_lt_of_isPrefix hpre) (List.lt_irrefl w)
  · rw [key_append, key_append, append_lt_append_left_iff]
    exact segment_append_lt_iff hwv _ _

/-- The keys up to the end of the subrange of `v`: those whose next segment is at most `v`. -/
theorem key_lt_prefixSuccessor_iff (p : List Bytes) (v w : Bytes) (rest : List Bytes) :
    (prefixSuccessor (key (p ++ [v]))).all (key (p ++ w :: rest) < ·) ↔ w ≤ v := by
  rw [all_lt_prefixSuccessor_iff, key_isPrefix_iff, List.le_iff_lt_or_eq, key_append_lt_iff]
  simp [List.cons_prefix_cons, eq_comm]

/-- The keys from the subrange of `v` on are those whose next segment is at least `v`. -/
theorem key_le_iff (p : List Bytes) (v w : Bytes) (rest : List Bytes) :
    key (p ++ [v]) ≤ key (p ++ w :: rest) ↔ v ≤ w := by
  rw [← List.not_lt, ← List.not_lt, key_append_lt_iff]

end NaustJmap.ObjectDB
