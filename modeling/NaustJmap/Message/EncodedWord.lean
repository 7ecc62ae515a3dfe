import NaustJmap.Library.Base64
import NaustJmap.Library.DotBlock

/-!
# Text as Encoded-Words

`genforms.go`: how `EncodeText` writes an unstructured header value.  Text that is not printable
ASCII becomes a run of "B" encoded-words; each takes 45 octets of the source, or fewer where that
would split a character.

The loop steps back from the 45th octet to the start of a character.  It moves on unless that
takes it to the octet it began with, and then it never ends.
-/

namespace NaustJmap.Message

open Library
open Library.Utf8 (Rune runes runeCut runeStart isCont)

/-! ## The source -/

def isPrintableASCII (s : Octets) : Bool := s.all fun c => 0x20 ≤ c && c ≤ 0x7e

/-- `strings.Fields` of printable ASCII, whose only white space is the space. -/
def fields (s : Octets) : List Octets := (s.splitOn 0x20).filter (· ≠ [])

def maxEncodedWordSource : ℕ := 45

def wordHead : Octets := [61, 63, 117, 116, 102, 45, 56, 63, 66, 63]

def wordTail : Octets := [63, 61]

def wordCut (s : Octets) : ℕ :=
  if maxEncodedWordSource < s.length then runeCut s maxEncodedWordSource else s.length

/-- `encodeWordsB`; the fuel is the number of rounds the loop may take. -/
def encodeWordsB : ℕ → Octets → Option (List Octets)
  | _, [] => some []
  | 0, _ :: _ => none
  | rounds + 1, s =>
    let n := wordCut s
    (encodeWordsB rounds (s.drop n)).map ((wordHead ++ Base64.encode (s.take n) ++ wordTail) :: ·)

def encodeText (rounds : ℕ) (s : Octets) : Option (List Octets) :=
  if !isPrintableASCII s then encodeWordsB rounds s
  else if s = [0x20].intercalate (fields s) then some (fields s)
  else some [s]

/-! ## What an encoded-word is to be -/

/-- An encoded-word within the limit of RFC 2047 that decodes to these characters. -/
structure IsWordOf (w : Octets) (group : List Rune) : Prop where
  short : w.length ≤ 75
  decodes : ∃ text, w = wordHead ++ text ++ wordTail ∧ (Base64.decode text).map runes = some group

/-- `EncodeText` ends, and its words carry the characters in groups, none of them split. -/
def EncodesWhole (s : Octets) : Prop :=
  ∃ rounds atoms, encodeText rounds s = some atoms ∧
    (isPrintableASCII s = false →
      ∃ groups : List (List Rune), groups.flatten = runes s ∧ List.Forall₂ IsWordOf atoms groups)

/-- After the first octet, some octet of any 45 in a row starts a character. -/
def StartsWithin (s : Octets) : Prop :=
  ∀ w, w <:+: s.tail → w.length = maxEncodedWordSource → ∃ b ∈ w, runeStart b

/-! ## One round -/

theorem isWordOf_encode {p : Octets} (hp : p.length ≤ maxEncodedWordSource) :
    IsWordOf (wordHead ++ Base64.encode p ++ wordTail) (runes p) where
  short := by
    simp only [List.length_append, Base64.length_encode, wordHead, wordTail, List.length_cons,
      List.length_nil, maxEncodedWordSource] at hp ⊢
    omega
  decodes := ⟨Base64.encode p, rfl, by rw [Base64.decode_encode]; rfl⟩

variable {s : Octets}

theorem StartsWithin.drop (h : StartsWithin s) (n : ℕ) : StartsWithin (s.drop n) := by
  intro w hw
  apply h w
  rw [List.tail_drop, Nat.add_comm, ← List.drop_drop, List.drop_one] at hw
  exact hw.trans (List.drop_suffix n s.tail).isInfix

theorem wordCut_le (s : Octets) : wordCut s ≤ maxEncodedWordSource := by
  unfold wordCut
  split_ifs with h
  · exact (Utf8.runeCut_spec s _).1
  · exact Nat.le_of_not_lt h

theorem wordCut_pos (hs : s ≠ []) (h : StartsWithin s) : 0 < wordCut s := by
  unfold wordCut
  split_ifs with hlong
  · obtain ⟨-, -, hpassed⟩ := Utf8.runeCut_spec s maxEncodedWordSource
    by_contra hzero
    -- the octets passed over are 45 in a row that start nothing
    obtain ⟨b, hb, hstart⟩ := h (s.tail.take maxEncodedWordSource)
      (List.take_prefix _ _).isInfix (by simp; omega)
    obtain ⟨j, hj, rfl⟩ := List.getElem_of_mem hb
    rw [List.length_take] at hj
    have hcont := hpassed (j + 1) (by omega) (by omega)
    simp only [List.getD, List.getElem_take, List.getElem_tail] at hcont hstart
    rw [List.getElem?_eq_getElem (by omega)] at hcont
    simp [runeStart] at hstart
    simp_all
  · exact List.length_pos_iff.mpr hs

theorem runes_wordCut (hpos : 0 < wordCut s) :
    runes (s.take (wordCut s)) ++ runes (s.drop (wordCut s)) = runes s := by
  cases hrest : s.drop (wordCut s) with
  | nil =>
    have hall : s.take (wordCut s) = s := by
      have := List.take_append_drop (wordCut s) s
      rwa [hrest, List.append_nil] at this
    rw [hall, Utf8.runes_nil, List.append_nil]
  | cons b t =>
    have hlt : wordCut s < s.length := by
      by_contra hle
      rw [List.drop_eq_nil_of_le (Nat.le_of_not_lt hle)] at hrest
      cases hrest
    have hb : runeStart b := by
      have hget : s.getD (wordCut s) 0 = b := by
        rw [List.getD, ← List.head?_drop, hrest]
        rfl
      unfold wordCut at hpos hlt hget
      split_ifs at hpos hlt hget with hlong
      · rcases (Utf8.runeCut_spec s maxEncodedWordSource).2.1 with hzero | hstart
        · omega
        · rwa [hget] at hstart
      · omega
    rw [← Utf8.runes_append_of_runeStart hb, ← hrest, List.take_append_drop]

/-! ## The loop -/

theorem encodeWordsB_succ (hs : s ≠ []) (rounds : ℕ) :
    encodeWordsB (rounds + 1) s = (encodeWordsB rounds (s.drop (wordCut s))).map
      ((wordHead ++ Base64.encode (s.take (wordCut s)) ++ wordTail) :: ·) := by
  rw [encodeWordsB]
  exact hs

theorem encodeWordsB_of_startsWithin {rounds : ℕ} (hlen : s.length ≤ rounds) (h : StartsWithin s) :
    ∃ words, encodeWordsB rounds s = some words ∧
      ∃ groups : List (List Rune), groups.flatten = runes s ∧
        List.Forall₂ IsWordOf words groups := by
  induction rounds generalizing s with
  | zero =>
    obtain rfl := List.length_eq_zero_iff.mp (Nat.le_zero.mp hlen)
    exact ⟨[], rfl, [], rfl, .nil⟩
  | succ rounds ih =>
    by_cases hs : s = []
    · subst hs
      exact ⟨[], rfl, [], rfl, .nil⟩
    · have hpos := wordCut_pos hs h
      obtain ⟨words, hwords, groups, hgroups, hall⟩ :=
        ih (by rw [List.length_drop]; omega) (h.drop (wordCut s))
      refine ⟨_, by rw [encodeWordsB_succ hs, hwords]; rfl,
        runes (s.take (wordCut s)) :: groups, ?_, .cons (isWordOf_encode ?_) hall⟩
      · rw [List.flatten_cons, hgroups, runes_wordCut hpos]
      · exact (List.length_take_le _ _).trans (wordCut_le _)

/-- 45 octets that start no character stay in the text: a round ends before them. -/
theorem startsWithin_of_drop (h : StartsWithin (s.drop (wordCut s))) : StartsWithin s := by
  intro w hw hlen
  by_contra hnone
  obtain ⟨x, y, hs⟩ := hw
  have hs' : s.drop 1 = x ++ w ++ y := by rw [List.drop_one, hs]
  have hlong : maxEncodedWordSource < s.length := by
    have := congrArg List.length hs'
    simp only [List.length_drop, List.length_append] at this
    simp only [maxEncodedWordSource] at hlen ⊢
    omega
  obtain ⟨hle, hstart, -⟩ := Utf8.runeCut_spec s maxEncodedWordSource
  have hcut : wordCut s = runeCut s maxEncodedWordSource := if_pos hlong
  rw [← hcut] at hle hstart
  -- the cut starts a character, so it lies before the run
  have hbefore : wordCut s ≤ x.length := by
    rcases hstart with hzero | hstart
    · omega
    by_contra hafter
    apply hnone
    obtain ⟨k, hk⟩ := Nat.exists_eq_add_of_le (Nat.lt_of_not_le hafter)
    have hkw : k < w.length := by omega
    refine ⟨w[k], List.getElem_mem hkw, ?_⟩
    have hget : s.getD (wordCut s) 0 = w[k] := by
      have : s[wordCut s]? = (s.drop 1)[x.length + k]? := by
        rw [List.getElem?_drop]
        congr 1
        omega
      rw [List.getD, this, hs', List.append_assoc, List.getElem?_append_right (by omega),
        Nat.add_sub_cancel_left, List.getElem?_append_left hkw, List.getElem?_eq_getElem hkw]
      rfl
    rwa [hget] at hstart
  apply hnone
  apply h w _ hlen
  refine ⟨x.drop (wordCut s), y, ?_⟩
  rw [List.tail_drop, Nat.add_comm, ← List.drop_drop, hs', List.append_assoc, List.append_assoc,
    List.drop_append_of_le_length hbefore]

theorem startsWithin_nil : StartsWithin [] := by
  intro w hw hlen
  simp_all [maxEncodedWordSource]

theorem startsWithin_of_encodeWordsB {rounds : ℕ} {words : List Octets}
    (h : encodeWordsB rounds s = some words) : StartsWithin s := by
  induction rounds generalizing s words with
  | zero =>
    cases s with
    | nil => exact startsWithin_nil
    | cons b t => cases h
  | succ rounds ih =>
    by_cases hs : s = []
    · exact hs ▸ startsWithin_nil
    · rw [encodeWordsB_succ hs, Option.map_eq_some_iff] at h
      obtain ⟨rest, hrest, -⟩ := h
      exact startsWithin_of_drop (ih hrest)

theorem startsWithin_of_printable (h : isPrintableASCII s) : StartsWithin s := by
  intro w hw hlen
  obtain ⟨b, t, rfl⟩ := List.exists_cons_of_length_pos (by rw [hlen]; decide)
  have hmem : b ∈ s := List.mem_of_mem_tail (hw.subset List.mem_cons_self)
  have hb := List.all_eq_true.mp h b hmem
  refine ⟨b, List.mem_cons_self, ?_⟩
  simp only [Bool.and_eq_true, decide_eq_true_eq, UInt8.le_iff_toNat_le] at hb
  simp [runeStart, isCont] at hb ⊢
  omega

theorem EncodesWhole.startsWithin (h : EncodesWhole s) : StartsWithin s := by
  obtain ⟨rounds, atoms, hatoms, -⟩ := h
  cases hp : isPrintableASCII s with
  | true => exact startsWithin_of_printable hp
  | false =>
    rw [encodeText, hp] at hatoms
    exact startsWithin_of_encodeWordsB hatoms

/-- **Encoding a text** ends, in words that split no character, exactly if the text never has 45
    octets in a row, after its first, that start no character. -/
theorem encodeText_whole_iff (s : Octets) : EncodesWhole s ↔ StartsWithin s := by
  constructor
  · exact EncodesWhole.startsWithin
  · intro h
    cases hp : isPrintableASCII s with
    | true =>
      by_cases hj : s = [0x20].intercalate (fields s)
      · exact ⟨0, fields s, by rw [encodeText, hp, ← hj]; simp, by simp [hp]⟩
      · exact ⟨0, [s], by rw [encodeText, hp, if_neg (by simp), if_neg hj], by simp [hp]⟩
    | false =>
      obtain ⟨words, hwords, hgroups⟩ := encodeWordsB_of_startsWithin (Nat.le_refl _) h
      exact ⟨s.length, words, by rw [encodeText, hp]; exact hwords, fun _ => hgroups⟩

/-- A text of 46 octets that start no character: the loop emits empty words for ever. -/
theorem encodeText_continuation : ¬ EncodesWhole (List.replicate 46 0x80) := by
  intro h
  obtain ⟨b, hb, hstart⟩ := h.startsWithin (List.replicate 45 0x80) List.infix_rfl rfl
  rw [List.eq_of_mem_replicate hb] at hstart
  exact absurd hstart (by decide)

end NaustJmap.Message
