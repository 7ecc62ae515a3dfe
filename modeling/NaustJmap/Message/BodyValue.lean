import NaustJmap.Message.Charset

/-!
# Body Values

`datatypes/mail/internal/parse/parse.go`: the text of a part that `Email/get` returns, cut to
`maxBodyValueBytes` octets at a character.  The decoded text comes in writes, and `cappedText`
keeps what fits.  It decides write by write: after a cut that leaves some octets of the cap
unused, a later write that is short enough is kept again.
-/

namespace NaustJmap.Message

open Library Library.Utf8

/-! ## The sink -/

structure CappedText where
  max : ℕ
  text : List UInt8 := []
  isOver : Bool := false
  deriving DecidableEq

def CappedText.write (c : CappedText) (b : List UInt8) : CappedText :=
  if c.max = 0 then { c with text := c.text ++ b }
  else if c.max ≤ c.text.length then { c with isOver := true }
  else
    let room := c.max - c.text.length
    if room < b.length then { c with text := c.text ++ b.take (runeCut b room), isOver := true }
    else { c with text := c.text ++ b }

/-- `valueSink`: what is kept of a text that is decoded in these pieces. -/
def bodyValue (max : ℕ) (pieces : List (List UInt8)) : CappedText :=
  (crlfAll false pieces).foldl CappedText.write { max := max }

/-! ## What the value should be -/

def lfText : List Char → List Char
  | [] => []
  | [c] => [c]
  | c :: c' :: rest =>
    if c = '\r' ∧ c' = '\n' then '\n' :: lfText rest else c :: lfText (c' :: rest)

/-- The longest start of the text of at most `max` octets that ends at a character. -/
structure IsCapture (max : ℕ) (text : List Char) (c : CappedText) : Prop where
  start : ∃ p, p <+: text ∧ c.text = encode p
  fits : c.text.length ≤ max
  longest : ∀ p, p <+: text → (encode p).length ≤ max → (encode p).length ≤ c.text.length
  truncated : c.isOver ↔ c.text ≠ encode text

variable {max : ℕ} {p : List Char} {ws : List (List Char)}

theorem isCapture_iff {text : List Char} {c : CappedText} :
    IsCapture max text c ↔
      c.text = encode (takeOctets max text) ∧ (c.isOver ↔ max < (encode text).length) := by
  have hwhole : encode (takeOctets max text) ≠ encode text ↔ max < (encode text).length := by
    rw [← not_le, not_iff_not]
    constructor
    · intro h
      rw [← h]
      exact length_takeOctets_le max text
    · intro h
      rw [takeOctets_of_fits h]
  constructor
  · rintro ⟨⟨p, hp, htext⟩, hfits, hlongest, hover⟩
    -- the value fits, so it is part of the longest one; and it is as long
    obtain ⟨r, hr⟩ := prefix_takeOctets hp (htext ▸ hfits)
    have hle := hlongest _ (takeOctets_isPrefixOf max text) (length_takeOctets_le max text)
    have hnil : r = [] := by
      have := length_le_length_encode r
      rw [htext, ← hr, encode_append, List.length_append] at hle
      exact List.length_eq_zero_iff.mp (by omega)
    have heq : c.text = encode (takeOctets max text) := by rw [htext, ← hr, hnil, List.append_nil]
    exact ⟨heq, by rw [hover, heq, hwhole]⟩
  · rintro ⟨heq, hover⟩
    refine ⟨⟨_, takeOctets_isPrefixOf max text, heq⟩, ?_, fun p hp hfits => ?_, ?_⟩
    · rw [heq]
      exact length_takeOctets_le max text
    · obtain ⟨r, hr⟩ := prefix_takeOctets hp hfits
      rw [heq, ← hr, encode_append, List.length_append]
      omega
    · rw [hover, heq, hwhole]

/-! ## The writes of a text are of whole characters -/

theorem encodeChar_cr : String.utf8EncodeChar '\r' = [CR] := by decide

theorem encodeChar_lf : String.utf8EncodeChar '\n' = [LF] := by decide

theorem not_mem_encodeChar_cr {c : Char} (hc : c ≠ '\r') : CR ∉ String.utf8EncodeChar c :=
  not_mem_encodeChar (by decide) hc

theorem not_mem_encodeChar_lf {c : Char} (hc : c ≠ '\n') : LF ∉ String.utf8EncodeChar c :=
  not_mem_encodeChar (by decide) hc

theorem replaceCRLF_encode (cs : List Char) : replaceCRLF (encode cs) = encode (lfText cs) := by
  induction cs using lfText.induct with
  | case1 => rfl
  | case2 c =>
    by_cases hc : c = '\r'
    · subst hc
      rfl
    · rw [encode_cons, replaceCRLF_append_of_not_mem (not_mem_encodeChar_cr hc)]
      rfl
  | case3 c c' rest hpair ih =>
    obtain ⟨rfl, rfl⟩ := hpair
    simp only [lfText, encode_cons, encodeChar_cr, encodeChar_lf, List.cons_append,
      List.nil_append, replaceCRLF_crlf, ih, and_self, if_true]
  | case4 c c' rest hpair ih =>
    rw [lfText, if_neg hpair, encode_cons, encode_cons (c := c)]
    by_cases hc : c = '\r'
    · subst hc
      -- the character after the CR is not LF, and no more is its first octet
      have hc' : c' ≠ '\n' := fun h => hpair ⟨rfl, h⟩
      obtain ⟨b, t, henc, -, -⟩ := encodeChar_eq_cons c'
      have hb : b ≠ LF := by
        rintro rfl
        exact not_mem_encodeChar_lf hc' (henc ▸ List.mem_cons_self)
      rw [← ih, encode_cons, henc, encodeChar_cr, List.cons_append, List.nil_append,
        List.cons_append, replaceCRLF_cr_cons hb]
      rfl
    · rw [replaceCRLF_append_of_not_mem (not_mem_encodeChar_cr hc), ih]

theorem emit_encode (cs : List Char) :
    ∃ ws : List (List Char), emit (encode cs) = ws.map encode ∧ [] ∉ ws := by
  cases cs with
  | nil => exact ⟨[], rfl, by simp⟩
  | cons c cs =>
    refine ⟨[c :: cs], ?_, by simp⟩
    simp [emit]

theorem writes_append {xs ys : List (List UInt8)}
    (hx : ∃ ws : List (List Char), xs = ws.map encode ∧ [] ∉ ws)
    (hy : ∃ ws : List (List Char), ys = ws.map encode ∧ [] ∉ ws) :
    ∃ ws : List (List Char), xs ++ ys = ws.map encode ∧ [] ∉ ws := by
  obtain ⟨ws, rfl, hws⟩ := hx
  obtain ⟨vs, rfl, hvs⟩ := hy
  exact ⟨ws ++ vs, by simp, by simp [hws, hvs]⟩

theorem crlfLoop_encode (n : ℕ) (cr : Bool) (cs : List Char) :
    ∃ ws : List (List Char), (crlfLoop n cr (encode cs)).1 = ws.map encode ∧ [] ∉ ws := by
  have hheld : heldCR cr = encode (if cr then ['\r'] else []) := by cases cr <;> rfl
  induction n generalizing cr cs with
  | zero => exact ⟨[], rfl, by simp⟩
  | succ n ih =>
    cases cs with
    | nil => exact ⟨[], rfl, by simp⟩
    | cons c cs =>
      obtain ⟨b, t, henc, -, -⟩ := encodeChar_eq_cons c
      have hcons : encode (c :: cs) = b :: (t ++ encode cs) := by
        rw [encode_cons, henc, List.cons_append]
      rw [hcons, crlfLoop]
      by_cases hpair : cr = true ∧ b = LF
      · rw [if_pos hpair]
        obtain ⟨-, rfl⟩ := hpair
        have hc : c = '\n' := eq_of_mem_encodeChar (by decide) (henc ▸ List.mem_cons_self)
        subst hc
        obtain rfl : t = [] := (List.cons.inj (encodeChar_lf.symm.trans henc)).2.symm
        exact writes_append (emit_encode ['\n']) (ih false cs rfl)
      · rw [if_neg hpair, ← hcons, (takeWhile_encode (by decide) (c :: cs)).1,
          (takeWhile_encode (by decide) (c :: cs)).2, hheld]
        cases hdrop : (c :: cs).dropWhile (· ≠ Char.ofNat CR.toNat) with
        | nil => exact writes_append (emit_encode _) (emit_encode _)
        | cons d ds =>
          have hd : d = Char.ofNat CR.toNat := by
            have := List.head?_dropWhile_not (· ≠ Char.ofNat CR.toNat) (c :: cs)
            rw [hdrop] at this
            simpa using this
          rw [show d = '\r' from hd]
          exact writes_append (writes_append (emit_encode _) (emit_encode _)) (ih true ds rfl)

theorem crlfAll_encode (cr : Bool) (pieces : List (List Char)) :
    ∃ ws : List (List Char), crlfAll cr (pieces.map encode) = ws.map encode ∧ [] ∉ ws := by
  induction pieces generalizing cr with
  | nil =>
    have hheld : heldCR cr = encode (if cr then ['\r'] else []) := by cases cr <;> rfl
    rw [List.map_nil, crlfAll, hheld]
    exact emit_encode _
  | cons w pieces ih => exact writes_append (crlfLoop_encode _ cr w) (ih _)

/-! ## Writing characters -/

def keep (max : ℕ) (p w : List Char) : List Char := p ++ takeOctets (max - (encode p).length) w

theorem length_keep_le (hp : (encode p).length ≤ max) (w : List Char) :
    (encode (keep max p w)).length ≤ max := by
  have := length_takeOctets_le (max - (encode p).length) w
  rw [keep, encode_append, List.length_append]
  omega

theorem write_encode (hmax : 0 < max) {w : List Char} (hp : (encode p).length ≤ max) (hw : w ≠ [])
    (isOver : Bool) :
    CappedText.write ⟨max, encode p, isOver⟩ (encode w) =
      ⟨max, encode (keep max p w), isOver || decide (max < (encode (p ++ w)).length)⟩ := by
  have hpos : 0 < (encode w).length :=
    Nat.lt_of_lt_of_le (List.length_pos_iff.mpr hw) (length_le_length_encode w)
  simp only [CappedText.write, keep, encode_append]
  rw [if_neg (by omega)]
  split_ifs with hroom hcut
  · -- no octet is left
    have hnone : encode (takeOctets (max - (encode p).length) w) = [] := by
      have := length_takeOctets_le (max - (encode p).length) w
      exact List.length_eq_zero_iff.mp (by omega)
    simp only [hnone, List.append_nil, CappedText.mk.injEq, true_and]
    simp
    omega
  · rw [take_runeCut hcut]
    simp
    omega
  · rw [takeOctets_of_fits (by omega)]
    simp
    omega

theorem foldl_write (hmax : 0 < max) (hws : [] ∉ ws) (hp : (encode p).length ≤ max)
    (isOver : Bool) :
    ∃ isOver', (ws.map encode).foldl CappedText.write ⟨max, encode p, isOver⟩ =
        ⟨max, encode (ws.foldl (keep max) p), isOver'⟩ ∧ (isOver = true → isOver' = true) := by
  induction ws generalizing p isOver with
  | nil => exact ⟨isOver, rfl, id⟩
  | cons w ws ih =>
    rw [List.mem_cons, not_or] at hws
    rw [List.map_cons, List.foldl_cons, write_encode hmax hp (fun h => hws.1 h.symm)]
    obtain ⟨isOver', heq, hover⟩ := ih hws.2 (length_keep_le hp w)
      (isOver || decide (max < (encode (p ++ w)).length))
    exact ⟨isOver', heq, fun h => hover (by rw [h, Bool.true_or])⟩

theorem prefix_foldl_keep (max : ℕ) (ws : List (List Char)) (p : List Char) :
    p <+: ws.foldl (keep max) p := by
  induction ws generalizing p with
  | nil => exact List.prefix_rfl
  | cons w ws ih => exact (List.prefix_append p _).trans (ih _)

theorem foldl_keep_eq_iff :
    ws.foldl (keep max) p = p ↔ ∀ w ∈ ws, takeOctets (max - (encode p).length) w = [] := by
  induction ws with
  | nil => simp
  | cons w ws ih =>
    rw [List.foldl_cons, List.forall_mem_cons, ← ih]
    constructor
    · intro h
      have hnil : takeOctets (max - (encode p).length) w = [] := by
        have hle := (prefix_foldl_keep max ws (keep max p w)).length_le
        rw [h, keep, List.length_append] at hle
        exact List.length_eq_zero_iff.mp (by omega)
      rw [keep, hnil, List.append_nil] at h
      exact ⟨hnil, h⟩
    · rintro ⟨hnil, h⟩
      rw [keep, hnil, List.append_nil, h]

/-! ## When the value is right -/

/-- The writes after the one that goes past the cap. -/
def laterWrites : ℕ → List (List Char) → List (List Char)
  | _, [] => []
  | room, w :: ws =>
    if (encode w).length ≤ room then laterWrites (room - (encode w).length) ws else ws

/-- The characters of what `crlfWriter` writes on for a text in these pieces. -/
def writesOf (pieces : List (List Char)) : List (List Char) :=
  (crlfAll false (pieces.map encode)).map characters

/-- The value is right exactly if nothing is kept after the cap was passed. -/
theorem isCapture_foldl_iff (hmax : 0 < max) (hws : [] ∉ ws) (hp : (encode p).length ≤ max) :
    IsCapture max (p ++ ws.flatten)
      ((ws.map encode).foldl CappedText.write ⟨max, encode p, false⟩) ↔
      ∀ w ∈ laterWrites (max - (encode p).length) ws,
        takeOctets (max - (encode (takeOctets max (p ++ ws.flatten))).length) w = [] := by
  induction ws generalizing p with
  | nil =>
    -- everything was kept
    simp [laterWrites, isCapture_iff, takeOctets_of_fits hp, hp]
  | cons w ws ih =>
    rw [List.mem_cons, not_or] at hws
    rw [List.map_cons, List.foldl_cons, write_encode hmax hp (fun h => hws.1 h.symm),
      List.flatten_cons, ← List.append_assoc, laterWrites]
    have hlen : (encode (p ++ w)).length = (encode p).length + (encode w).length := by
      rw [encode_append, List.length_append]
    split_ifs with hfits
    · have hkeep : keep max p w = p ++ w := by rw [keep, takeOctets_of_fits hfits]
      have hover : decide (max < (encode (p ++ w)).length) = false := by
        rw [decide_eq_false_iff_not]
        omega
      rw [hkeep, hover, Bool.false_or, ih hws.2 (by omega), hlen, Nat.sub_sub]
    · -- this write is cut: what is kept now is the value
      have hkeep : keep max p w = takeOctets max (p ++ w ++ ws.flatten) := by
        rw [takeOctets_append_of_lt (by omega), takeOctets_append hp]
        rfl
      have hover : decide (max < (encode (p ++ w)).length) = true := by
        rw [decide_eq_true_eq]
        omega
      obtain ⟨isOver', heq, hover'⟩ := foldl_write hmax hws.2 (length_keep_le hp w) true
      have hlong : max < (encode (p ++ w ++ ws.flatten)).length := by
        rw [encode_append, List.length_append]
        omega
      rw [hover, Bool.false_or, heq, isCapture_iff, hover' rfl, ← hkeep,
        ← foldl_keep_eq_iff]
      simp only [hlong, and_true]
      exact encode_injective.eq_iff

/-- **The value is the longest text within the cap exactly if no later write starts with a
    character that fits into the octets the cut left**: for every text, in whole characters,
    and every way it is decoded in pieces. -/
theorem bodyValue_isCapture_iff {max : ℕ} (hmax : 0 < max) (pieces : List (List Char)) :
    IsCapture max (lfText pieces.flatten) (bodyValue max (pieces.map encode)) ↔
      ∀ w ∈ laterWrites max (writesOf pieces),
        takeOctets (max - (encode (takeOctets max (lfText pieces.flatten))).length) w = [] := by
  obtain ⟨ws, hws, hne⟩ := crlfAll_encode false pieces
  have hchars : writesOf pieces = ws := by
    rw [writesOf, hws, List.map_map]
    exact (List.map_congr_left fun w _ => characters_encode w).trans (List.map_id ws)
  have htext : lfText pieces.flatten = ws.flatten := by
    have hflat := crlfAll_flatten false (pieces.map encode)
    have henc : ∀ xs : List (List Char), (xs.map encode).flatten = encode xs.flatten := by
      intro xs
      induction xs with
      | nil => rfl
      | cons x xs ih => rw [List.map_cons, List.flatten_cons, List.flatten_cons, encode_append, ih]
    rw [hws, henc, henc] at hflat
    exact encode_injective ((replaceCRLF_encode _).symm.trans hflat.symm)
  rw [bodyValue, hws, hchars, htext]
  exact isCapture_foldl_iff (p := []) hmax hne (Nat.zero_le _)

/-- A cap of 3 octets: `é` does not fit after `ab`, and the write `c` is kept after it. -/
theorem bodyValue_not_start :
    bodyValue 3 ([['a', 'b', 'é'], ['c']].map encode) = ⟨3, encode ['a', 'b', 'c'], true⟩ ∧
      ¬IsCapture 3 (lfText [['a', 'b', 'é'], ['c']].flatten)
        (bodyValue 3 ([['a', 'b', 'é'], ['c']].map encode)) := by
  refine ⟨by decide +kernel, fun h => ?_⟩
  exact absurd (isCapture_iff.mp h).1 (by decide +kernel)

/-- In one write the same text is cut as it should be. -/
theorem bodyValue_isCapture_one :
    IsCapture 3 (lfText [['a', 'b', 'é', 'c']].flatten)
      (bodyValue 3 ([['a', 'b', 'é', 'c']].map encode)) :=
  (bodyValue_isCapture_iff (by decide) _).mpr (by decide +kernel)

end NaustJmap.Message
