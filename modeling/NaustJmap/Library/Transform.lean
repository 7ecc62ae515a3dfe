import Mathlib.Data.List.Basic
import Mathlib.Tactic.Common

/-!
# Streaming Transformers

The contract of `golang.org/x/text/transform`.  A `Transformer` takes a prefix of the octets it is
offered and says why it stopped; a writer offers any part of what it holds, with any room that is
enough for one character.  A transformer that is `Sound` for a function of the whole text computes
it, whatever the writer does (`Session.whole_eq`, `Session.exists_of_advances`).
-/

namespace NaustJmap.Library

/-- Why a call stopped: the source is used up, or the error of the call. -/
inductive Stop where
  | done
  | shortDst
  | shortSrc
  deriving DecidableEq

/-- What a call of `Transform` returns, and the state it leaves. -/
structure Transformed (σ : Type) where
  out : List UInt8
  taken : ℕ
  stop : Stop
  state : σ

/-- A call that first takes `n` octets and writes `out`. -/
def Transformed.after {σ : Type} (r : Transformed σ) (out : List UInt8) (n : ℕ) : Transformed σ :=
  { r with out := out ++ r.out, taken := n + r.taken }

theorem Transformed.taken_after_pos {σ : Type} (r : Transformed σ) (out : List UInt8) {n : ℕ}
    (hn : 0 < n) : 0 < (r.after out n).taken := Nat.lt_of_lt_of_le hn (Nat.le_add_right _ _)

/-- `transform.Transformer`: by state, room, source and whether the source ends the text. -/
structure Transformer (σ : Type) where
  transform : σ → ℕ → List UInt8 → Bool → Transformed σ

section Writer

variable {σ : Type} (t : Transformer σ) (least : ℕ)

/-- The calls of one `Write`: the pieces written, and what is left of the octets. -/
inductive Wrote : σ → List UInt8 → List (List UInt8) → σ → List UInt8 → Prop where
  | last {s : σ} {src : List UInt8} {room : ℕ} (hroom : least ≤ room)
      (hstop : (t.transform s room src false).stop ≠ .shortDst) :
      Wrote s src [(t.transform s room src false).out] (t.transform s room src false).state
        (src.drop (t.transform s room src false).taken)
  | call {s s' : σ} {offered rest left : List UInt8} {pieces : List (List UInt8)} {room : ℕ}
      (hroom : least ≤ room)
      (h : Wrote (t.transform s room offered false).state
        (offered.drop (t.transform s room offered false).taken ++ rest) pieces s' left) :
      Wrote s (offered ++ rest) ((t.transform s room offered false).out :: pieces) s' left

inductive Closed : σ → List UInt8 → List (List UInt8) → σ → Prop where
  | last {s : σ} {src : List UInt8} {room : ℕ} (hroom : least ≤ room)
      (hstop : (t.transform s room src true).stop ≠ .shortDst) :
      Closed s src [(t.transform s room src true).out] (t.transform s room src true).state
  | call {s s' : σ} {src : List UInt8} {pieces : List (List UInt8)} {room : ℕ}
      (hroom : least ≤ room)
      (h : Closed (t.transform s room src true).state
        (src.drop (t.transform s room src true).taken) pieces s') :
      Closed s src ((t.transform s room src true).out :: pieces) s'

/-- A text written in some writes, then closed. -/
inductive Session : σ → List UInt8 → List (List UInt8) → List (List UInt8) → σ → Prop where
  | close {s s' : σ} {held : List UInt8} {pieces : List (List UInt8)}
      (h : Closed t least s held pieces s') : Session s held [] pieces s'
  | write {s s1 s' : σ} {held held1 data : List UInt8} {writes pieces pieces' : List (List UInt8)}
      (h : Wrote t least s (held ++ data) pieces s1 held1)
      (hrest : Session s1 held1 writes pieces' s') :
      Session s held (data :: writes) (pieces ++ pieces') s'

end Writer

section Sound

variable {σ : Type} {t : Transformer σ} {least : ℕ}

/-- A text that comes out after `out`, with the state it leaves. -/
def prepend (out : List UInt8) (p : List UInt8 × σ) : List UInt8 × σ := (out ++ p.1, p.2)

@[simp] theorem prepend_nil (p : List UInt8 × σ) : prepend [] p = p := rfl

@[simp] theorem prepend_prepend (out out' : List UInt8) (p : List UInt8 × σ) :
    prepend out (prepend out' p) = prepend (out ++ out') p := by
  simp [prepend]

@[simp] theorem prepend_mk (out text : List UInt8) (s : σ) :
    prepend out (text, s) = (out ++ text, s) := rfl

/-- A call does a part of `whole`, a function of a state and a text. -/
def Transformed.DoesPart (whole : σ → List UInt8 → List UInt8 × σ) (s : σ) (src rest : List UInt8)
    (r : Transformed σ) : Prop :=
  whole s (src ++ rest) = prepend r.out (whole r.state (src.drop r.taken ++ rest))

/-- Every call does a part of `whole`, and the last one all that is left of it. -/
structure Transformer.Sound (t : Transformer σ) (whole : σ → List UInt8 → List UInt8 × σ) :
    Prop where
  nil : ∀ s, whole s [] = ([], s)
  call : ∀ s room src rest, (t.transform s room src false).DoesPart whole s src rest
  atEOF : ∀ s room src, (t.transform s room src true).DoesPart whole s src []
  all : ∀ s room src, (t.transform s room src true).stop ≠ .shortDst →
    src.length ≤ (t.transform s room src true).taken

variable {whole : σ → List UInt8 → List UInt8 × σ}

theorem Transformed.DoesPart.none (s : σ) (src rest : List UInt8) (stop : Stop) :
    Transformed.DoesPart whole s src rest ⟨[], 0, stop, s⟩ := rfl

theorem Transformed.DoesPart.after {s s' : σ} {b src rest out : List UInt8} {r : Transformed σ}
    (h : r.DoesPart whole s' src rest)
    (hround : whole s (b ++ (src ++ rest)) = prepend out (whole s' (src ++ rest))) :
    (r.after out b.length).DoesPart whole s (b ++ src) rest := by
  unfold Transformed.DoesPart at h ⊢
  rw [List.append_assoc, hround, h, prepend_prepend]
  have hdrop : (b ++ src).drop (b.length + r.taken) = src.drop r.taken := by
    rw [List.drop_append, List.drop_eq_nil_of_le (Nat.le_add_right _ _), Nat.add_sub_cancel_left,
      List.nil_append]
  simp only [Transformed.after, hdrop]

theorem Wrote.whole_eq (h : t.Sound whole) {s s' : σ} {src left : List UInt8}
    {pieces : List (List UInt8)} (hw : Wrote t least s src pieces s' left) (rest : List UInt8) :
    whole s (src ++ rest) = prepend pieces.flatten (whole s' (left ++ rest)) := by
  induction hw with
  | @last s src room hroom hstop =>
    rw [h.call s room src rest]
    simp
  | @call s s' offered rest' left pieces room hroom hw ih =>
    rw [List.append_assoc, h.call s room offered (rest' ++ rest), ← List.append_assoc, ih]
    simp

theorem Closed.whole_eq (h : t.Sound whole) {s s' : σ} {src : List UInt8}
    {pieces : List (List UInt8)} (hc : Closed t least s src pieces s') :
    whole s src = (pieces.flatten, s') := by
  induction hc with
  | @last s src room hroom hstop =>
    have hpart := h.atEOF s room src
    unfold Transformed.DoesPart at hpart
    rw [List.drop_eq_nil_of_le (h.all s room src hstop), List.append_nil, List.append_nil,
      h.nil] at hpart
    simpa using hpart
  | @call s s' src pieces room hroom hc ih =>
    have hpart := h.atEOF s room src
    unfold Transformed.DoesPart at hpart
    rw [List.append_nil, List.append_nil, ih] at hpart
    simpa using hpart

/-- **Whatever the writer does**, what comes out is the function of the whole text. -/
theorem Session.whole_eq (h : t.Sound whole) {s s' : σ} {held : List UInt8}
    {writes pieces : List (List UInt8)} (hs : Session t least s held writes pieces s') :
    whole s (held ++ writes.flatten) = (pieces.flatten, s') := by
  induction hs with
  | close hc => simpa using hc.whole_eq h
  | @write s s1 s' held held1 data writes pieces pieces' hw hrest ih =>
    rw [List.flatten_cons, ← List.append_assoc, hw.whole_eq h, ih]
    simp

/-- With room for a character, a call that is stopped for want of room has taken something. -/
def Transformer.Advances (t : Transformer σ) (least : ℕ) : Prop :=
  ∀ s room src atEOF, least ≤ room → (t.transform s room src atEOF).stop = .shortDst →
    0 < (t.transform s room src atEOF).taken ∧ src ≠ []

theorem Wrote.exists_of_advances (h : t.Advances least) (s : σ) (src : List UInt8) :
    ∃ pieces s' left, Wrote t least s src pieces s' left := by
  induction hn : src.length using Nat.strongRecOn generalizing s src with
  | ind n ih =>
    by_cases hstop : (t.transform s least src false).stop = .shortDst
    · -- there is less to offer in the next call
      obtain ⟨hpos, hne⟩ := h s least src false (Nat.le_refl _) hstop
      have hlt : (src.drop (t.transform s least src false).taken).length < n := by
        have := List.length_pos_iff.mpr hne
        rw [List.length_drop]
        omega
      obtain ⟨pieces, s', left, hw⟩ := ih _ hlt (t.transform s least src false).state _ rfl
      have hcall := @Wrote.call _ t least s s' src [] left pieces least (Nat.le_refl _)
        (by simpa using hw)
      exact ⟨_, s', left, by simpa using hcall⟩
    · exact ⟨_, _, _, .last (Nat.le_refl _) hstop⟩

theorem Closed.exists_of_advances (h : t.Advances least) (s : σ) (src : List UInt8) :
    ∃ pieces s', Closed t least s src pieces s' := by
  induction hn : src.length using Nat.strongRecOn generalizing s src with
  | ind n ih =>
    by_cases hstop : (t.transform s least src true).stop = .shortDst
    · obtain ⟨hpos, hne⟩ := h s least src true (Nat.le_refl _) hstop
      have hlt : (src.drop (t.transform s least src true).taken).length < n := by
        have := List.length_pos_iff.mpr hne
        rw [List.length_drop]
        omega
      obtain ⟨pieces, s', hc⟩ := ih _ hlt (t.transform s least src true).state _ rfl
      exact ⟨_, s', .call (Nat.le_refl _) hc⟩
    · exact ⟨_, _, .last (Nat.le_refl _) hstop⟩

/-- **A writer that goes on calling gets to an end.** -/
theorem Session.exists_of_advances (h : t.Advances least) (s : σ) (held : List UInt8)
    (writes : List (List UInt8)) : ∃ pieces s', Session t least s held writes pieces s' := by
  induction writes generalizing s held with
  | nil =>
    obtain ⟨pieces, s', hc⟩ := Closed.exists_of_advances h s held
    exact ⟨pieces, s', .close hc⟩
  | cons data writes ih =>
    obtain ⟨pieces, s1, held1, hw⟩ := Wrote.exists_of_advances h s (held ++ data)
    obtain ⟨pieces', s', hrest⟩ := ih s1 held1
    exact ⟨_, s', .write hw hrest⟩

end Sound

end NaustJmap.Library
