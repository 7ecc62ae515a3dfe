import NaustJmap.Library.DotBlock
import Mathlib.Data.List.Infix
import Mathlib.Tactic.Common

/-!
# The Encoding of a Text Part

The octets of a `bodyValues` text (`emailgenbody.go`): the encoding is chosen by a scan of the
text as the client sent it, and 7bit content is written as `crlfNormalize` leaves it.
-/

namespace NaustJmap.Message

open Library

inductive TextEncoding where
  | sevenBit | base64 | quotedPrintable
deriving DecidableEq

structure TextScan where
  nonASCII : ℕ := 0
  col : ℕ := 0
  longLine : Bool := false

def isOdd (c : UInt8) : Bool :=
  0x7e < c || (c < 0x20 && c ≠ 9 && c ≠ CR)

def TextScan.step (t : TextScan) (c : UInt8) : TextScan :=
  if c = LF then { t with col := 0 }
  else
    { nonASCII := if isOdd c then t.nonASCII + 1 else t.nonASCII
      col := t.col + 1
      longLine := t.longLine || 78 < t.col + 1 }

def chooseTextEncoding (s : List UInt8) : TextEncoding :=
  let t := s.foldl TextScan.step {}
  if t.nonASCII = 0 && !t.longLine then .sevenBit
  else if s.length < t.nonASCII * 3 then .base64
  else .quotedPrintable

/-- `strings.ReplaceAll` of LF by CRLF. -/
def expandLFs (s : List UInt8) : List UInt8 :=
  s.flatMap fun c => if c = LF then [CR, LF] else [c]

def crlfNormalize (s : List UInt8) : List UInt8 := expandLFs (replaceCRLF s)

/-! ## What 7bit asks for -/

/-- CR and LF only as CRLF; `afterCR` says whether a CR has just been read. -/
def Paired : Bool → List UInt8 → Prop
  | afterCR, [] => afterCR = false
  | true, c :: s => c = LF ∧ Paired false s
  | false, c :: s => c ≠ LF ∧ Paired (c = CR) s

/-- Content that is legal as 7bit (RFC 2045 section 2.7). -/
structure SevenBit (t : List UInt8) : Prop where
  octets : ∀ c ∈ t, 1 ≤ c ∧ c ≤ 127
  paired : Paired false t
  short : ∀ l, l <:+: t → CR ∉ l → LF ∉ l → l.length ≤ 998

/-- Text of US-ASCII in lines of at most 78 octets. -/
structure ShortText (s : List UInt8) : Prop where
  plain : ∀ c ∈ s, c = LF ∨ isOdd c = false
  short : ∀ l, l <:+: s → LF ∉ l → l.length ≤ 78

def NoBareCR : List UInt8 → Prop
  | [] => True
  | c :: s => (c = CR → s.head? = some LF) ∧ NoBareCR s

/-! ## The scan -/

/-- What the scan knows: `col` is the length of the line it is in. -/
structure ScanOf (s : List UInt8) (t : TextScan) : Prop where
  plain : t.nonASCII = 0 ↔ ∀ c ∈ s, c = LF ∨ isOdd c = false
  line : ∀ n, n ≤ t.col ↔ ∃ l, l <:+ s ∧ LF ∉ l ∧ l.length = n
  short : t.longLine = false ↔ ∀ l, l <:+: s → LF ∉ l → l.length ≤ 78

theorem ScanOf.step {s : List UInt8} {t : TextScan} (h : ScanOf s t) (c : UInt8) :
    ScanOf (s ++ [c]) (t.step c) := by
  have hsuffix : ∀ {l}, l <:+ s ++ [c] ↔ l = [] ∨ ∃ l', l = l' ++ [c] ∧ l' <:+ s := by
    intro l
    exact List.suffix_concat_iff
  -- a line feed ends the line, any other octet makes it longer
  by_cases hc : c = LF
  · rw [TextScan.step, if_pos hc]
    refine ⟨?_, fun n => ?_, ?_⟩
    · rw [h.plain]
      simp [hc, or_imp, forall_and]
    · constructor
      · intro hn
        exact ⟨[], List.nil_suffix, by simp, (Nat.le_zero.mp hn).symm⟩
      · rintro ⟨l, hl, hlf, rfl⟩
        obtain rfl | ⟨l', rfl, -⟩ := hsuffix.mp hl
        · exact Nat.le_refl 0
        · simp [hc] at hlf
    · rw [h.short]
      refine ⟨fun hs l hl hlf => ?_, fun hs l hl =>
        hs l (hl.trans (List.prefix_append _ _).isInfix)⟩
      obtain hl | hl := List.infix_concat_iff.mp hl
      · obtain rfl | ⟨l', rfl, -⟩ := hsuffix.mp hl
        · exact Nat.zero_le _
        · simp [hc] at hlf
      · exact hs l hl hlf
  · rw [TextScan.step, if_neg hc]
    refine ⟨?_, fun n => ?_, ?_⟩
    · have hodd : (if isOdd c then t.nonASCII + 1 else t.nonASCII) = 0 ↔
          t.nonASCII = 0 ∧ isOdd c = false := by
        cases isOdd c <;> simp
      rw [hodd, h.plain]
      simp [or_imp, forall_and, hc]
    · constructor
      · intro hn
        cases n with
        | zero => exact ⟨[], List.nil_suffix, by simp, rfl⟩
        | succ n =>
          obtain ⟨l, hl, hlf, rfl⟩ := (h.line n).mp (Nat.le_of_succ_le_succ hn)
          exact ⟨l ++ [c], hsuffix.mpr (.inr ⟨l, rfl, hl⟩), by simp [hlf, Ne.symm hc], by simp⟩
      · rintro ⟨l, hl, hlf, rfl⟩
        obtain rfl | ⟨l', rfl, hl'⟩ := hsuffix.mp hl
        · exact Nat.zero_le _
        · have := (h.line l'.length).mpr ⟨l', hl', by simp_all, rfl⟩
          simpa using this
    · rw [Bool.or_eq_false_iff, h.short, decide_eq_false_iff_not]
      constructor
      · rintro ⟨hs, hcol⟩ l hl hlf
        obtain hl | hl := List.infix_concat_iff.mp hl
        · obtain rfl | ⟨l', rfl, hl'⟩ := hsuffix.mp hl
          · exact Nat.zero_le _
          · have := (h.line l'.length).mpr ⟨l', hl', by simp_all, rfl⟩
            simp only [List.length_append, List.length_singleton]
            omega
        · exact hs l hl hlf
      · intro hs
        refine ⟨fun l hl => hs l (hl.trans (List.prefix_append _ _).isInfix), ?_⟩
        obtain ⟨l, hl, hlf, hlen⟩ := (h.line t.col).mp (Nat.le_refl _)
        have := hs (l ++ [c]) (hsuffix.mpr (.inr ⟨l, rfl, hl⟩)).isInfix
          (by simp [hlf, Ne.symm hc])
        simpa [hlen] using this

theorem scanOf_foldl (s : List UInt8) : ScanOf s (s.foldl TextScan.step {}) := by
  induction s using List.reverseRecOn with
  | nil =>
    refine ⟨by simp, fun n => ?_, by simp⟩
    simp only [List.suffix_nil]
    constructor
    · intro hn
      exact ⟨[], rfl, by simp, (Nat.le_zero.mp hn).symm⟩
    · rintro ⟨l, rfl, -, rfl⟩
      exact Nat.le_refl 0
  | append_singleton s c ih =>
    rw [List.foldl_append]
    exact ih.step c

theorem chooseTextEncoding_eq_sevenBit {s : List UInt8} :
    chooseTextEncoding s = .sevenBit ↔ ShortText s := by
  have h := scanOf_foldl s
  have hiff : ((s.foldl TextScan.step {}).nonASCII = 0 ∧
      (s.foldl TextScan.step {}).longLine = false) ↔ ShortText s := by
    rw [h.plain, h.short]
    exact ⟨fun h => ⟨h.1, h.2⟩, fun h => ⟨h.plain, h.short⟩⟩
  unfold chooseTextEncoding
  dsimp only
  split_ifs <;> simp_all

/-! ## The written text -/

theorem mem_replaceCRLF {s : List UInt8} {c : UInt8} (h : c ∈ replaceCRLF s) : c ∈ s := by
  induction s with
  | nil => exact h
  | cons d s ih =>
    rw [replaceCRLF] at h
    split at h
    · exact List.mem_cons_of_mem d (ih h)
    · obtain rfl | h := List.mem_cons.mp h
      · exact List.mem_cons_self
      · exact List.mem_cons_of_mem d (ih h)

theorem not_mem_replaceCRLF {s : List UInt8} : CR ∉ replaceCRLF s ↔ NoBareCR s := by
  induction s with
  | nil => simp [replaceCRLF, NoBareCR]
  | cons c s ih =>
    rw [replaceCRLF]
    split_ifs with h
    · rw [ih]
      exact ⟨fun hs => ⟨fun _ => h.2, hs⟩, fun hs => hs.2⟩
    · rw [List.mem_cons, not_or, ih]
      refine and_congr_left fun _ => ⟨fun hne hc => absurd hc.symm hne, fun hhead hc => ?_⟩
      exact h ⟨hc.symm, hhead hc.symm⟩

theorem paired_expandLFs {s : List UInt8} : Paired false (expandLFs s) ↔ CR ∉ s := by
  induction s with
  | nil => simp [expandLFs, Paired]
  | cons c s ih =>
    rw [expandLFs, List.flatMap_cons, ← expandLFs]
    by_cases hlf : c = LF
    · simp [hlf, Paired, ih, show CR ≠ LF by decide]
    · rw [if_neg hlf]
      by_cases hcr : c = CR
      · -- the octet after the CR is never an LF
        have hnext : ¬Paired true (expandLFs s) := by
          cases s with
          | nil => simp [expandLFs, Paired]
          | cons d s =>
            rw [expandLFs]
            by_cases hd : d = LF
            · simp [hd, Paired, show CR ≠ LF by decide]
            · simp [hd, Paired]
        simp [hcr, Paired, hnext]
      · simp [Paired, hlf, hcr, Ne.symm hcr, ih]

theorem infix_of_expandLFs {s l : List UInt8} (hcr : CR ∉ l) (hlf : LF ∉ l) :
    (l <+: expandLFs s → l <+: s) ∧ (l <:+: expandLFs s → l <:+: s) := by
  induction s generalizing l with
  | nil => exact ⟨id, id⟩
  | cons c s ih =>
    rw [expandLFs, List.flatMap_cons]
    have hstart : l <+: (if c = LF then [CR, LF] else [c]) ++ expandLFs s →
        l <+: c :: s := by
      intro h
      cases l with
      | nil => exact List.nil_prefix
      | cons d l =>
        rw [List.mem_cons, not_or] at hcr hlf
        split_ifs at h with hc
        · exact absurd (List.cons_prefix_cons.mp h).1.symm hcr.1
        · obtain ⟨heq, hrest⟩ := List.cons_prefix_cons.mp h
          exact List.cons_prefix_cons.mpr ⟨heq, (ih hcr.2 hlf.2).1 hrest⟩
    refine ⟨hstart, fun h => ?_⟩
    split_ifs at h hstart with hc
    · rw [List.cons_append, List.infix_cons_iff, List.cons_append, List.infix_cons_iff] at h
      obtain h | h | h := h
      · exact (hstart h).isInfix
      · cases l with
        | nil => exact List.nil_infix
        | cons d l => exact absurd (by simp [(List.cons_prefix_cons.mp h).1]) hlf
      · exact List.infix_cons_iff.mpr (.inr ((ih hcr hlf).2 h))
    · obtain h | h := List.infix_cons_iff.mp h
      · exact (hstart h).isInfix
      · exact List.infix_cons_iff.mpr (.inr ((ih hcr hlf).2 h))

theorem infix_of_replaceCRLF {s l : List UInt8} (hlf : LF ∉ l) :
    (l <+: replaceCRLF s → l = [] ∨ l <+: s) ∧ (l <:+: replaceCRLF s → l <:+: s) := by
  induction s generalizing l with
  | nil => exact ⟨.inr, id⟩
  | cons c s ih =>
    rw [replaceCRLF]
    split_ifs with hc
    · refine ⟨fun h => .inl ?_, fun h => List.infix_cons_iff.mpr (.inr ((ih hlf).2 h))⟩
      -- what is left starts with the LF
      obtain ⟨r, rfl⟩ : ∃ r, s = LF :: r := by
        cases s with
        | nil => simp at hc
        | cons d r => exact ⟨r, by simpa using hc.2⟩
      cases l with
      | nil => rfl
      | cons d l => exact absurd (by simp [(List.cons_prefix_cons.mp h).1]) hlf
    · have hstart : l <+: c :: replaceCRLF s → l = [] ∨ l <+: c :: s := by
        intro h
        cases l with
        | nil => exact .inl rfl
        | cons d l =>
          rw [List.mem_cons, not_or] at hlf
          obtain ⟨rfl, hrest⟩ := List.cons_prefix_cons.mp h
          obtain rfl | hrest := (ih hlf.2).1 hrest
          · exact .inr ⟨s, rfl⟩
          · exact .inr (List.cons_prefix_cons.mpr ⟨rfl, hrest⟩)
      refine ⟨hstart, fun h => ?_⟩
      obtain h | h := List.infix_cons_iff.mp h
      · obtain rfl | h := hstart h
        · exact List.nil_infix
        · exact h.isInfix
      · exact List.infix_cons_iff.mpr (.inr ((ih hlf).2 h))

theorem ShortText.octets {s : List UInt8} (h : ShortText s) :
    ∀ c ∈ crlfNormalize s, 1 ≤ c ∧ c ≤ 127 := by
  intro c hc
  obtain ⟨d, hd, hc⟩ := List.mem_flatMap.mp hc
  split_ifs at hc with hlf
  · simp only [List.mem_cons, List.not_mem_nil, or_false] at hc
    obtain rfl | rfl := hc <;> decide
  · obtain rfl := List.mem_singleton.mp hc
    have hplain := (h.plain c (mem_replaceCRLF hd)).resolve_left hlf
    constructor
    · by_contra hlt
      have hzero : c = 0 := by
        rw [← UInt8.toNat_inj]
        rw [UInt8.not_le] at hlt
        exact Nat.lt_one_iff.mp hlt
      subst hzero
      cases hplain
    · rw [isOdd, Bool.or_eq_false_iff, decide_eq_false_iff_not, UInt8.not_lt] at hplain
      exact UInt8.le_trans hplain.1 (by decide)

/-- **The encoding of a text part**: where 7bit is declared, the written octets are legal just if
the text holds no CR without an LF, which the scan lets pass and the normalization leaves. -/
theorem sevenBit_written_iff (s : List UInt8) :
    (chooseTextEncoding s = .sevenBit → SevenBit (crlfNormalize s)) ↔
      (ShortText s → NoBareCR s) := by
  rw [chooseTextEncoding_eq_sevenBit]
  refine forall_congr' fun h => ⟨fun hs => ?_, fun hs => ⟨h.octets, ?_, fun l hl hcr hlf => ?_⟩⟩
  · exact not_mem_replaceCRLF.mp (paired_expandLFs.mp hs.paired)
  · exact paired_expandLFs.mpr (not_mem_replaceCRLF.mpr hs)
  · have hshort := h.short l ((infix_of_replaceCRLF hlf).2 ((infix_of_expandLFs hcr hlf).2 hl)) hlf
    omega

/-- `a`, a CR and `b`: declared as 7bit and written as it is. -/
theorem sevenBit_bareCR : chooseTextEncoding [97, 13, 98] = .sevenBit ∧
    crlfNormalize [97, 13, 98] = [97, 13, 98] ∧ ¬SevenBit (crlfNormalize [97, 13, 98]) := by
  refine ⟨by decide, by decide, fun h => ?_⟩
  have hpaired := paired_expandLFs.mp h.paired
  revert hpaired
  decide

end NaustJmap.Message
