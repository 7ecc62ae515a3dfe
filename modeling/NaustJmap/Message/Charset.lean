import Mathlib.Data.List.TakeWhile
import NaustJmap.Library.DotBlock
import NaustJmap.Library.Transform
import NaustJmap.Library.Utf8

/-!
# The Text of a Part

`message/charset.go` and `charsetstream.go`: the octets of a text part are decoded in its charset
and CRLF becomes LF, by `DecodeBody` for a whole part and by `TextWriter` for one that arrives in
pieces, through three writers that each keep back what they cannot judge yet.
-/

namespace NaustJmap.Message

open Library Library.Utf8

/-! ## Decoding at once -/

def replacement : List UInt8 := [0xEF, 0xBF, 0xBD]

/-- The loop of `strings.ToValidUTF8`; `invalid` says that the octet before was malformed. -/
def validRunes : Bool → List Rune → List UInt8
  | _, [] => []
  | _, .char c :: rest => String.utf8EncodeChar c ++ validRunes false rest
  | invalid, .bad _ :: rest => (if invalid then [] else replacement) ++ validRunes true rest

/-- `strings.ToValidUTF8` with U+FFFD. -/
def toValidUTF8 (data : List UInt8) : List UInt8 := validRunes false (runes data)

def isBad : Rune → Bool
  | .char _ => false
  | .bad _ => true

def utf8Valid (data : List UInt8) : Bool := !(runes data).any isBad

/-- An encoding of `x/text`: its decoder, and `Decoder.Bytes` with whether it failed. -/
structure Encoding where
  State : Type
  start : State
  decoder : Transformer State
  bytes : List UInt8 → List UInt8 × Bool

inductive Looked where
  | utf8
  | ascii
  | encoding (e : Encoding)
  | unknown

/-- A charset's name without case, spaces and quotes, and `ianaindex.MIME`. -/
structure Charsets where
  trimmed : String → String
  mime : String → Option Encoding

def lookupCharset (cs : Charsets) (name : String) : Looked :=
  let name := cs.trimmed name
  if name = "utf-8" ∨ name = "utf8" ∨ name = "" then .utf8
  else if name = "us-ascii" ∨ name = "ascii" ∨ name = "ansi_x3.4-1968" then .ascii
  else
    match cs.mime name with
    | none => .unknown
    | some e => .encoding e

def decodeASCII (data : List UInt8) : List UInt8 × Bool :=
  (data.flatMap fun c => if c.toNat > 0x7F then replacement else [c],
    data.any fun c => c.toNat > 0x7F)

def contains (needle : List UInt8) (text : List UInt8) : Bool :=
  text.tails.any fun t => needle.isPrefixOf t

/-- `decodeCharset`, of what the charset was looked up to. -/
def decodeCharset (data : List UInt8) : Looked → List UInt8 × Bool
  | .unknown => (toValidUTF8 data, true)
  | .ascii => decodeASCII data
  | .utf8 => if utf8Valid data then (data, false) else (toValidUTF8 data, true)
  | .encoding e =>
    let (out, failed) := e.bytes data
    if failed then (toValidUTF8 out, true) else (out, contains replacement out)

/-- The charset of a part; us-ascii is the implicit one. -/
def charsetOf (cs : Charsets) (charset : Option String) : Looked :=
  lookupCharset cs (charset.getD "us-ascii")

def decodeBody (cs : Charsets) (data : List UInt8) (charset : Option String) : List UInt8 × Bool :=
  let (s, problem) := decodeCharset data (charsetOf cs charset)
  (replaceCRLF s, problem)

/-! ## Decoding in pieces -/

/-- The state of the transformers: `TextWriter.problem`, and `sanitizeUTF8.inRun`. -/
structure Decoded where
  problem : Bool := false
  inRun : Bool := false
  deriving DecidableEq

/-- The loop of `asciiOnly.Transform`. -/
def asciiLoop (s : Decoded) (room : ℕ) : List UInt8 → Transformed Decoded
  | [] => ⟨[], 0, .done, s⟩
  | c :: rest =>
    if c.toNat < 0x80 then
      if room = 0 then ⟨[], 0, .shortDst, s⟩ else (asciiLoop s (room - 1) rest).after [c] 1
    else if room < replacement.length then ⟨[], 0, .shortDst, s⟩
    else (asciiLoop { s with problem := true } (room - replacement.length) rest).after replacement 1

def asciiOnly : Transformer Decoded where
  transform s room src _ := asciiLoop s room src

/-- The loop of `sanitizeUTF8.Transform`; each round takes at least one octet. -/
def sanitizeLoop (atEOF : Bool) : ℕ → Decoded → ℕ → List UInt8 → Transformed Decoded
  | 0, s, _, _ => ⟨[], 0, .done, s⟩
  | _ + 1, s, _, [] => ⟨[], 0, .done, s⟩
  | n + 1, s, room, c :: rest =>
    if c.toNat < 0x80 then
      if room = 0 then ⟨[], 0, .shortDst, s⟩
      else (sanitizeLoop atEOF n { s with inRun := false } (room - 1) rest).after [c] 1
    else
      match decodeRune (c :: rest) with
      | none =>
        if !atEOF && !fullRune (c :: rest) then ⟨[], 0, .shortSrc, s⟩
        else if s.inRun then (sanitizeLoop atEOF n s room rest).after [] 1
        else if room < replacement.length then ⟨[], 0, .shortDst, s⟩
        else
          (sanitizeLoop atEOF n ⟨true, true⟩ (room - replacement.length) rest).after replacement 1
      | some r =>
        let size := (String.utf8EncodeChar r).length
        if room < size then ⟨[], 0, .shortDst, s⟩
        else (sanitizeLoop atEOF n { s with inRun := false } (room - size)
          ((c :: rest).drop size)).after ((c :: rest).take size) size

def sanitizeUTF8 : Transformer Decoded where
  transform s room src atEOF := sanitizeLoop atEOF src.length s room src

def emit (b : List UInt8) : List (List UInt8) := if b = [] then [] else [b]

def heldCR (cr : Bool) : List UInt8 := if cr then [CR] else []

/-- The loop of `crlfWriter.Write`: what is written on, and whether a CR is held back. -/
def crlfLoop : ℕ → Bool → List UInt8 → List (List UInt8) × Bool
  | 0, cr, _ => ([], cr)
  | _ + 1, cr, [] => ([], cr)
  | n + 1, cr, c :: rest =>
    if cr ∧ c = LF then
      let (pieces, cr') := crlfLoop n false rest
      (emit [LF] ++ pieces, cr')
    else
      match (c :: rest).dropWhile (· ≠ CR) with
      | [] => (emit (heldCR cr) ++ emit (c :: rest), false)
      | _ :: rest' =>
        let (pieces, cr') := crlfLoop n true rest'
        (emit (heldCR cr) ++ emit ((c :: rest).takeWhile (· ≠ CR)) ++ pieces, cr')

def crlfWrite (cr : Bool) (b : List UInt8) : List (List UInt8) × Bool := crlfLoop b.length cr b

/-- The writes of `crlfWriter` for a sequence of writes, with that of `Close`. -/
def crlfAll : Bool → List (List UInt8) → List (List UInt8)
  | cr, [] => emit (heldCR cr)
  | cr, b :: writes =>
    let (pieces, cr') := crlfWrite cr b
    pieces ++ crlfAll cr' writes

/-- The room for one character that a writer of `x/text` gives at least. -/
def utfMax : ℕ := 4

/-- What `NewTextWriter` sets up; `crlfWriter` may look for substitutions. -/
structure Decoder where
  State : Type
  start : State
  transformer : Transformer State
  problem : State → Bool
  detect : Bool

def Looked.decoder : Looked → Decoder
  | .unknown => ⟨Decoded, { problem := true }, sanitizeUTF8, Decoded.problem, false⟩
  | .ascii => ⟨Decoded, {}, asciiOnly, Decoded.problem, false⟩
  | .utf8 => ⟨Decoded, {}, sanitizeUTF8, Decoded.problem, false⟩
  | .encoding e => ⟨e.State, e.start, e.decoder, fun _ => false, true⟩

/-- Given these writes and closed, the writer writes `emitted` on, with this `Problem`. -/
def Decoder.Runs (d : Decoder) (writes emitted : List (List UInt8)) (problem : Bool) : Prop :=
  ∃ pieces s, Session d.transformer utfMax d.start [] writes pieces s ∧
    emitted = crlfAll false pieces ∧
    problem = (d.problem s || (d.detect && pieces.any (contains replacement)))

def TextWriter.Runs (cs : Charsets) (charset : Option String) (writes emitted : List (List UInt8))
    (problem : Bool) : Prop :=
  (charsetOf cs charset).decoder.Runs writes emitted problem

/-! ## Line endings -/

@[simp] theorem flatten_emit (b : List UInt8) : (emit b).flatten = b := by
  unfold emit
  split_ifs with h <;> simp [h]

theorem replaceCRLF_cons_of_ne {b : UInt8} (hb : b ≠ CR) (rest : List UInt8) :
    replaceCRLF (b :: rest) = b :: replaceCRLF rest := by
  rw [replaceCRLF, if_neg (fun h => hb h.1)]

@[simp] theorem replaceCRLF_crlf (rest : List UInt8) :
    replaceCRLF (CR :: LF :: rest) = LF :: replaceCRLF rest := by
  rw [replaceCRLF, if_pos ⟨rfl, rfl⟩, replaceCRLF_cons_of_ne (by decide)]

theorem replaceCRLF_cr_cons {b : UInt8} (hb : b ≠ LF) (rest : List UInt8) :
    replaceCRLF (CR :: b :: rest) = CR :: replaceCRLF (b :: rest) := by
  rw [replaceCRLF, if_neg (fun h => hb (Option.some.inj h.2))]

theorem replaceCRLF_append_of_not_mem {b : List UInt8} (hb : CR ∉ b) (rest : List UInt8) :
    replaceCRLF (b ++ rest) = b ++ replaceCRLF rest := by
  induction b with
  | nil => rfl
  | cons c b ih =>
    rw [List.mem_cons, not_or] at hb
    rw [List.cons_append, replaceCRLF_cons_of_ne (fun h => hb.1 h.symm), ih hb.2, List.cons_append]

theorem crlfLoop_eq {n : ℕ} {cr : Bool} {b : List UInt8} (hn : b.length ≤ n) (rest : List UInt8) :
    replaceCRLF (heldCR cr ++ b ++ rest) =
      (crlfLoop n cr b).1.flatten ++ replaceCRLF (heldCR (crlfLoop n cr b).2 ++ rest) := by
  induction n generalizing cr b with
  | zero =>
    obtain rfl := List.length_eq_zero_iff.mp (Nat.le_zero.mp hn)
    simp [crlfLoop]
  | succ n ih =>
    cases b with
    | nil => simp [crlfLoop]
    | cons c b =>
      rw [crlfLoop]
      by_cases hpair : cr = true ∧ c = LF
      · -- the CR that was held back and this LF are one line ending
        obtain ⟨rfl, rfl⟩ := hpair
        have hrest := @ih false b (by simpa using hn)
        simp only [heldCR, Bool.false_eq_true, if_false, List.nil_append] at hrest
        simp [heldCR, hrest]
      · rw [if_neg hpair]
        have hheld : replaceCRLF (heldCR cr ++ (c :: b) ++ rest) =
            heldCR cr ++ replaceCRLF (c :: b ++ rest) := by
          cases cr with
          | false => rfl
          | true =>
            have hc : c ≠ LF := fun h => hpair ⟨rfl, h⟩
            simpa [heldCR] using replaceCRLF_cr_cons hc (b ++ rest)
        rw [hheld]
        split
        · next hdrop =>
          have hnot : CR ∉ c :: b := by
            intro hmem
            simpa using List.dropWhile_eq_nil_iff.mp hdrop CR hmem
          rw [replaceCRLF_append_of_not_mem hnot]
          simp [heldCR]
        · next x b' hdrop =>
          -- up to the next CR the text stays as it is
          have hsplit := List.takeWhile_append_dropWhile (p := (· ≠ CR)) (l := c :: b)
          have hx : x = CR := by
            have := List.head?_dropWhile_not (· ≠ CR) (c :: b)
            rw [hdrop] at this
            simpa using this
          subst hx
          have hnot : CR ∉ (c :: b).takeWhile (· ≠ CR) := fun hmem => by
            simpa using List.mem_takeWhile_imp hmem
          have hlen : b'.length ≤ n := by
            have := congrArg List.length hsplit
            rw [hdrop, List.length_append, List.length_cons] at this
            omega
          have hrest := @ih true b' hlen
          rw [hdrop] at hsplit
          conv_lhs => rw [← hsplit, List.append_assoc, replaceCRLF_append_of_not_mem hnot]
          simp only [heldCR, if_true, List.cons_append, List.nil_append] at hrest
          simp [heldCR, hrest]

/-- **`crlfWriter` replaces every CRLF**, however the text is cut into writes. -/
theorem crlfAll_flatten (cr : Bool) (writes : List (List UInt8)) :
    (crlfAll cr writes).flatten = replaceCRLF (heldCR cr ++ writes.flatten) := by
  induction writes generalizing cr with
  | nil => cases cr <;> simp [crlfAll, heldCR, replaceCRLF]
  | cons b writes ih =>
    rw [List.flatten_cons, ← List.append_assoc, crlfLoop_eq (Nat.le_refl b.length), ← ih]
    simp [crlfAll, crlfWrite]

/-! ## The transformers compute the whole text -/

/-- What `asciiOnly` makes of a text. -/
def asciiWhole (s : Decoded) (data : List UInt8) : List UInt8 × Decoded :=
  ((decodeASCII data).1, { s with problem := s.problem || (decodeASCII data).2 })

theorem asciiWhole_cons (s : Decoded) (c : UInt8) (rest : List UInt8) :
    asciiWhole s (c :: rest) =
      if c.toNat < 0x80 then prepend [c] (asciiWhole s rest)
      else prepend replacement (asciiWhole { s with problem := true } rest) := by
  split_ifs with hc
  · simp [asciiWhole, decodeASCII, show ¬0x7F < c.toNat by omega]
  · simp [asciiWhole, decodeASCII, show 0x7F < c.toNat by omega]

theorem asciiLoop_doesPart (s : Decoded) (room : ℕ) (src rest : List UInt8) :
    (asciiLoop s room src).DoesPart asciiWhole s src rest := by
  induction src generalizing s room with
  | nil => exact .none ..
  | cons c src ih =>
    rw [asciiLoop]
    split_ifs with hc hroom hroom
    · exact .none ..
    · exact (ih s (room - 1)).after (b := [c]) (by simp [asciiWhole_cons, hc])
    · exact .none ..
    · exact (ih _ _).after (b := [c]) (by simp [asciiWhole_cons, hc])

theorem asciiLoop_all (s : Decoded) (room : ℕ) (src : List UInt8)
    (h : (asciiLoop s room src).stop ≠ .shortDst) : src.length ≤ (asciiLoop s room src).taken := by
  induction src generalizing s room with
  | nil => simp
  | cons c src ih =>
    rw [asciiLoop] at h ⊢
    split_ifs at h ⊢ with hc hroom hroom
    · exact absurd rfl h
    · have := ih s (room - 1) h
      simp only [Transformed.after, List.length_cons]
      omega
    · exact absurd rfl h
    · have := ih _ _ h
      simp only [Transformed.after, List.length_cons]
      omega

theorem asciiOnly_sound : asciiOnly.Sound asciiWhole where
  nil s := by simp [asciiWhole, decodeASCII]
  call s room src rest := asciiLoop_doesPart s room src rest
  atEOF s room src := asciiLoop_doesPart s room src []
  all s room src := asciiLoop_all s room src

theorem asciiOnly_advances : asciiOnly.Advances utfMax := by
  intro s room src atEOF hroom hstop
  simp only [asciiOnly] at hstop ⊢
  simp only [utfMax] at hroom
  cases src with
  | nil => cases hstop
  | cons c src =>
    rw [asciiLoop] at hstop ⊢
    have hlen : replacement.length = 3 := rfl
    split_ifs at hstop ⊢ with hc hzero hsmall
    · omega
    · exact ⟨Transformed.taken_after_pos _ _ Nat.one_pos, by simp⟩
    · omega
    · exact ⟨Transformed.taken_after_pos _ _ Nat.one_pos, by simp⟩

/-- What `sanitizeUTF8` makes of the runes of a text. -/
def sanitizeWhole : Decoded → List Rune → List UInt8 × Decoded
  | s, [] => ([], s)
  | s, .char c :: rest =>
    prepend (String.utf8EncodeChar c) (sanitizeWhole { s with inRun := false } rest)
  | s, .bad _ :: rest =>
    if s.inRun then sanitizeWhole s rest
    else prepend replacement (sanitizeWhole ⟨true, true⟩ rest)

/-- A call of `sanitizeUTF8` does a part of it; after the end of the text nothing may follow. -/
theorem sanitizeLoop_doesPart {atEOF : Bool} {rest : List UInt8} (hrest : atEOF → rest = [])
    {n : ℕ} {src : List UInt8} (hn : src.length ≤ n) (s : Decoded) (room : ℕ) :
    (sanitizeLoop atEOF n s room src).DoesPart (fun s data => sanitizeWhole s (runes data))
      s src rest := by
  induction n generalizing s room src with
  | zero => exact .none ..
  | succ n ih =>
    cases src with
    | nil => exact .none ..
    | cons c src =>
      have hsrc : src.length ≤ n := by simpa using hn
      rw [sanitizeLoop]
      by_cases hc : c.toNat < 0x80
      · split_ifs with hroom
        · exact .none ..
        · refine (ih hsrc _ _).after (b := [c]) ?_
          rw [← encodeChar_ascii hc, runes_char, sanitizeWhole]
      · rw [if_neg hc]
        cases hdecode : decodeRune (c :: src) with
        | none =>
          by_cases hwait : (!atEOF && !fullRune (c :: src)) = true
          · rw [if_pos hwait]
            exact .none ..
          · -- the octet is malformed whatever follows
            have hbad : decodeRune (c :: (src ++ rest)) = none := by
              cases atEOF with
              | true => rw [hrest rfl, List.append_nil, hdecode]
              | false =>
                have hfull : fullRune (c :: src) := by simpa using hwait
                exact (decodeRune_append hfull rest).trans hdecode
            split_ifs with hrun hroom
            · refine (ih hsrc _ _).after (b := [c]) ?_
              simp [runes_bad hbad, sanitizeWhole, hrun]
            · exact .none ..
            · refine (ih hsrc _ _).after (b := [c]) ?_
              simp [runes_bad hbad, sanitizeWhole, hrun]
        | some r =>
          dsimp only
          split_ifs with hroom
          · exact .none ..
          · obtain ⟨src', heq⟩ := exists_of_decodeRune hdecode
            have hlen : src'.length ≤ n := by
              have hpos := List.length_pos_iff.mpr (String.utf8EncodeChar_ne_nil (c := r))
              have := congrArg List.length heq
              simp only [List.length_append, List.length_cons] at this
              omega
            rw [heq, List.drop_left, List.take_left]
            refine (ih hlen _ _).after ?_
            rw [runes_char, sanitizeWhole]

theorem sanitizeLoop_all {n : ℕ} {src : List UInt8} (hn : src.length ≤ n) (s : Decoded) (room : ℕ)
    (h : (sanitizeLoop true n s room src).stop ≠ .shortDst) :
    src.length ≤ (sanitizeLoop true n s room src).taken := by
  induction n generalizing s room src with
  | zero => omega
  | succ n ih =>
    cases src with
    | nil => simp
    | cons c src =>
      have hsrc : src.length ≤ n := by simpa using hn
      have hround : ∀ {r : Transformed Decoded} {out : List UInt8}, src.length ≤ r.taken →
          (c :: src).length ≤ (r.after out 1).taken := by
        intro r out hr
        simp only [Transformed.after, List.length_cons]
        omega
      rw [sanitizeLoop] at h ⊢
      by_cases hc : c.toNat < 0x80
      · split_ifs at h ⊢ with hroom
        · exact absurd rfl h
        · exact hround (ih hsrc _ _ h)
      · cases hdecode : decodeRune (c :: src) with
        | none =>
          simp only [hdecode, Bool.not_true, Bool.false_and, Bool.false_eq_true, if_false] at h ⊢
          split_ifs at h ⊢ with hrun hroom
          · exact hround (ih hsrc _ _ h)
          · exact absurd rfl h
          · exact hround (ih hsrc _ _ h)
        | some r =>
          simp only [hdecode] at h ⊢
          split_ifs at h ⊢ with hroom
          · exact absurd rfl h
          · obtain ⟨src', heq⟩ := exists_of_decodeRune hdecode
            have hpos := List.length_pos_iff.mpr (String.utf8EncodeChar_ne_nil (c := r))
            have hlen := congrArg List.length heq
            simp only [List.length_append, List.length_cons] at hlen
            rw [heq, List.drop_left] at h ⊢
            have := @ih src' (by omega) _ _ h
            simp only [Transformed.after, List.length_append]
            omega

theorem sanitizeUTF8_sound : sanitizeUTF8.Sound fun s data => sanitizeWhole s (runes data) where
  nil s := rfl
  call s room src rest := sanitizeLoop_doesPart (by simp) (Nat.le_refl _) s room
  atEOF s room src := sanitizeLoop_doesPart (fun _ => rfl) (Nat.le_refl _) s room
  all s room src := sanitizeLoop_all (Nat.le_refl _) s room

theorem sanitizeUTF8_advances : sanitizeUTF8.Advances utfMax := by
  intro s room src atEOF hroom hstop
  simp only [sanitizeUTF8] at hstop ⊢
  simp only [utfMax] at hroom
  cases src with
  | nil => cases hstop
  | cons c src =>
    refine ⟨?_, by simp⟩
    have hlen : replacement.length = 3 := rfl
    rw [List.length_cons, sanitizeLoop] at hstop ⊢
    by_cases hc : c.toNat < 0x80
    · split_ifs at hstop ⊢ with hzero
      · omega
      · exact Transformed.taken_after_pos _ _ Nat.one_pos
    · cases hdecode : decodeRune (c :: src) with
      | none =>
        simp only [hdecode] at hstop ⊢
        split_ifs at hstop ⊢ with hwait hrun hsmall
        · exact Transformed.taken_after_pos _ _ Nat.one_pos
        · omega
        · exact Transformed.taken_after_pos _ _ Nat.one_pos
      | some r =>
        simp only [hdecode] at hstop ⊢
        have hpos := List.length_pos_iff.mpr (String.utf8EncodeChar_ne_nil (c := r))
        have hmax : (String.utf8EncodeChar r).length ≤ 4 := by
          rw [String.length_utf8EncodeChar]
          exact Char.utf8Size_le_four r
        split_ifs at hstop ⊢ with hsmall
        · omega
        · exact Transformed.taken_after_pos _ _ hpos

/-- `sanitizeUTF8` makes of a text what `ToValidUTF8` does, and notes a malformed rune. -/
theorem sanitizeWhole_eq (s : Decoded) (hs : s.inRun → s.problem) (rs : List Rune) :
    (sanitizeWhole s rs).1 = validRunes s.inRun rs ∧
      (sanitizeWhole s rs).2.problem = (s.problem || rs.any isBad) := by
  induction rs generalizing s with
  | nil => simp [sanitizeWhole, validRunes]
  | cons r rs ih =>
    cases r with
    | char c =>
      obtain ⟨htext, hproblem⟩ := ih { s with inRun := false } (fun h => nomatch h)
      simp [sanitizeWhole, validRunes, prepend, isBad, htext, hproblem]
    | bad b =>
      rw [sanitizeWhole]
      split_ifs with hrun
      · obtain ⟨htext, hproblem⟩ := ih s hs
        simp [validRunes, isBad, htext, hproblem, hrun, hs hrun]
      · obtain ⟨htext, hproblem⟩ := ih ⟨true, true⟩ (fun _ => rfl)
        simp [validRunes, prepend, isBad, htext, hproblem, hrun]

theorem validRunes_of_valid {rs : List Rune} (h : rs.any isBad = false) (invalid : Bool) :
    validRunes invalid rs = rs.flatMap Rune.bytes := by
  induction rs generalizing invalid with
  | nil => rfl
  | cons r rs ih =>
    cases r with
    | char c =>
      have hrs : rs.any isBad = false := by simpa [isBad] using h
      simp [validRunes, Rune.bytes, ih hrs]
    | bad b => simp [isBad] at h

theorem toValidUTF8_of_valid {data : List UInt8} (h : utf8Valid data) :
    toValidUTF8 data = data := by
  have hgood : (runes data).any isBad = false := by simpa [utf8Valid] using h
  rw [toValidUTF8, validRunes_of_valid hgood, bytes_runes]

/-! ## Streaming and decoding at once agree -/

theorem Decoder.runs_of_sound {s : Decoded} {t : Transformer Decoded}
    {whole : Decoded → List UInt8 → List UInt8 × Decoded} (hsound : t.Sound whole)
    (hadvances : t.Advances utfMax) (writes : List (List UInt8)) :
    let d : Decoder := ⟨Decoded, s, t, Decoded.problem, false⟩
    (∃ emitted problem, d.Runs writes emitted problem) ∧
      ∀ emitted problem, d.Runs writes emitted problem →
        (emitted.flatten, problem) =
          (replaceCRLF (whole s writes.flatten).1, (whole s writes.flatten).2.problem) := by
  constructor
  · obtain ⟨pieces, s', hsession⟩ := Session.exists_of_advances hadvances s [] writes
    exact ⟨_, _, pieces, s', hsession, rfl, rfl⟩
  · rintro emitted problem ⟨pieces, s', hsession, rfl, rfl⟩
    have hwhole := hsession.whole_eq hsound
    rw [List.nil_append] at hwhole
    rw [crlfAll_flatten, hwhole]
    simp [heldCR]

/-- **A `TextWriter` decodes as `DecodeBody` does**, whatever the writes: it comes to an end, the
    text it writes on is the text of the whole content, and so is its problem.  This is for the
    charsets the package decodes itself. -/
theorem textWriter_decodes (cs : Charsets) (charset : Option String)
    (hown : ∀ e, charsetOf cs charset ≠ .encoding e) (writes : List (List UInt8)) :
    (∃ emitted problem, TextWriter.Runs cs charset writes emitted problem) ∧
      ∀ emitted problem, TextWriter.Runs cs charset writes emitted problem →
        (emitted.flatten, problem) = decodeBody cs writes.flatten charset := by
  unfold TextWriter.Runs decodeBody
  generalize charsetOf cs charset = looked at hown
  cases looked with
  | encoding e => exact absurd rfl (hown e)
  | ascii => exact Decoder.runs_of_sound asciiOnly_sound asciiOnly_advances writes
  | unknown =>
    obtain ⟨hends, hruns⟩ := Decoder.runs_of_sound
      sanitizeUTF8_sound sanitizeUTF8_advances writes
    obtain ⟨htext, hflag⟩ :=
      sanitizeWhole_eq { problem := true } (fun _ => rfl) (runes writes.flatten)
    refine ⟨hends, fun emitted problem h => (hruns emitted problem h).trans ?_⟩
    rw [htext, hflag]
    rfl
  | utf8 =>
    obtain ⟨hends, hruns⟩ := Decoder.runs_of_sound sanitizeUTF8_sound
      sanitizeUTF8_advances writes
    obtain ⟨htext, hflag⟩ := sanitizeWhole_eq {} (fun h => nomatch h) (runes writes.flatten)
    refine ⟨hends, fun emitted problem h => (hruns emitted problem h).trans ?_⟩
    rw [htext, hflag, decodeCharset]
    -- a content that is valid is its own text
    by_cases hvalid : utf8Valid writes.flatten = true
    · have hbad : (runes writes.flatten).any isBad = false := by simpa [utf8Valid] using hvalid
      rw [if_pos hvalid, hbad]
      exact congrArg (fun s => (replaceCRLF s, false)) (toValidUTF8_of_valid hvalid)
    · have hbad : (runes writes.flatten).any isBad = true := by simpa [utf8Valid] using hvalid
      rw [if_neg hvalid, hbad]
      rfl

def ownCharsets : Charsets := ⟨id, fun _ => none⟩

/-- A character and a line ending that are each cut by a write. -/
theorem textWriter_decodes_cut :
    ∃ emitted problem,
      TextWriter.Runs ownCharsets (some "utf-8") [[0xC3], [0xA9, CR], [LF]] emitted problem ∧
        (emitted.flatten, problem) = ([0xC3, 0xA9, LF], false) := by
  have hown : ∀ e, charsetOf ownCharsets (some "utf-8") ≠ .encoding e := fun e h => nomatch h
  obtain ⟨⟨emitted, problem, hrun⟩, hall⟩ := textWriter_decodes ownCharsets (some "utf-8") hown
    [[0xC3], [0xA9, CR], [LF]]
  exact ⟨emitted, problem, hrun, (hall emitted problem hrun).trans (by decide +kernel)⟩

end NaustJmap.Message
