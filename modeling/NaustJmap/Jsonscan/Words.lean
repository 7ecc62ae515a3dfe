import NaustJmap.Jsonscan.Decode

/-!
# Words

The fast paths of `skipString` and `cleanASCII` look at eight bytes at a time: the arithmetic of
`hasByte` and `hasBelow` on a 64-bit word finds out whether one of its bytes needs the byte loop.
Both tests are exact.  A borrow can flag a byte that is clean, but only above a byte that is not,
so that the loops are those of `Scan` and `Decode`, which go byte by byte.
-/

namespace NaustJmap.Jsonscan

/-! ## Words and their bytes -/

def littleEndian : Bytes → ℕ
  | [] => 0
  | b :: bs => b.toNat + 256 * littleEndian bs

/-- `binary.LittleEndian.Uint64`. -/
def word (s : Bytes) : UInt64 := UInt64.ofNat (littleEndian (s.take 8))

def hasBelow (x : UInt64) (n : UInt8) : Bool :=
  (x - 0x0101010101010101 * n.toUInt64) &&& ~~~x &&& 0x8080808080808080 != 0

def hasByte (x : UInt64) (b : UInt8) : Bool :=
  let y := x ^^^ (0x0101010101010101 * b.toUInt64)
  (y - 0x0101010101010101) &&& ~~~y &&& 0x8080808080808080 != 0

/-- Some byte of `d` has its high bit set where that of `x` has not. -/
def Flagged (d x : ℕ) : Prop := ∃ i, d.testBit (8 * i + 7) ∧ ¬ x.testBit (8 * i + 7)

theorem testBit_zero {b : ℕ} (hb : b < 256) (d : ℕ) :
    (b + 256 * d).testBit (8 * 0 + 7) = decide (128 ≤ b) := by
  rw [Nat.testBit_eq_decide_div_mod_eq, decide_eq_decide]
  omega

theorem testBit_succ {b : ℕ} (hb : b < 256) (d i : ℕ) :
    (b + 256 * d).testBit (8 * (i + 1) + 7) = d.testBit (8 * i + 7) := by
  rw [Nat.add_comm, show 8 * (i + 1) + 7 = 8 * i + 7 + 8 by omega,
    show 256 * d + b = 2 ^ 8 * d + b from rfl, Nat.testBit_two_pow_mul_add d hb,
    if_neg (by omega), Nat.add_sub_cancel]

theorem flagged_cons {a b : ℕ} (ha : a < 256) (hb : b < 256) (d x : ℕ) :
    Flagged (a + 256 * d) (b + 256 * x) ↔ 128 ≤ a ∧ b < 128 ∨ Flagged d x := by
  unfold Flagged
  rw [← Nat.or_exists_add_one]
  simp only [testBit_zero ha, testBit_zero hb, testBit_succ ha, testBit_succ hb]
  simp

theorem littleEndian_lt (bs : Bytes) : littleEndian bs < 256 ^ bs.length := by
  induction bs with
  | nil => simp [littleEndian]
  | cons b bs ih =>
    have hb : b.toNat < 256 := b.toNat_lt
    rw [littleEndian, List.length_cons]
    omega

theorem littleEndian_ones (bs : Bytes) :
    255 * littleEndian (bs.map fun _ => 1) + 1 = 256 ^ bs.length := by
  induction bs with
  | nil => rfl
  | cons b bs ih =>
    rw [List.length_cons, pow_succ', ← ih]
    show 255 * (1 + 256 * _) + 1 = _
    ring

/-- The lowest byte below `n` is flagged: no borrow reaches it. -/
theorem flagged_below {n : ℕ} (hn : n ≤ 128) (bs : Bytes) :
    Flagged ((littleEndian bs + 256 ^ bs.length - n * littleEndian (bs.map fun _ => 1)) %
      256 ^ bs.length) (littleEndian bs) ↔ ∃ b ∈ bs, b.toNat < n := by
  induction bs with
  | nil => simp [Flagged, littleEndian]
  | cons b bs ih =>
    have hb : b.toNat < 256 := b.toNat_lt
    have hones : n * littleEndian (bs.map fun _ => 1) < 256 ^ bs.length := by
      have := Nat.mul_le_mul_right (littleEndian (bs.map fun _ => 1)) hn
      have := littleEndian_ones bs
      omega
    rw [List.map_cons, littleEndian, littleEndian, List.length_cons, pow_succ', Nat.mod_mul,
      show (1 : UInt8).toNat = 1 from rfl, Nat.mul_add, Nat.mul_left_comm]
    simp only [List.exists_mem_cons_iff]
    generalize n * littleEndian (bs.map fun _ => 1) = ones at *
    generalize 256 ^ bs.length = size at *
    generalize littleEndian bs = x at *
    rw [flagged_cons (Nat.mod_lt _ (by omega)) hb]
    by_cases hlow : b.toNat < n
    · exact iff_of_true (.inl (by omega)) (.inl hlow)
    · have hrest : (b.toNat + 256 * x + 256 * size - (n * 1 + 256 * ones)) / 256 =
          x + size - ones := by omega
      rw [hrest, ih]
      exact or_congr (iff_of_false (by omega) hlow) Iff.rfl

/-- What the masks of the source ask. -/
theorem mask_iff (d x : UInt64) :
    (d &&& ~~~x &&& 0x8080808080808080 != 0) = true ↔ Flagged d.toNat x.toNat := by
  have hmask : ∀ j < 64, (0x8080808080808080 : ℕ).testBit j = decide (j % 8 = 7) := by decide
  have hbit : ∀ j, (d &&& ~~~x &&& 0x8080808080808080).toNat.testBit j =
      (d.toNat.testBit j && (decide (j < 64) && !x.toNat.testBit j) &&
        (0x8080808080808080 : ℕ).testBit j) := by
    intro j
    rw [UInt64.toNat_and, UInt64.toNat_and, UInt64.toNat_not, Nat.testBit_and, Nat.testBit_and,
      ← Nat.testBit_two_pow_sub_succ x.toNat_lt, Nat.sub_right_comm]
    rfl
  rw [bne_iff_ne, ne_eq, ← UInt64.toNat_inj]
  constructor
  · intro hne
    obtain ⟨j, hj⟩ := Nat.exists_testBit_of_ne_zero hne
    rw [hbit] at hj
    simp only [Bool.and_eq_true, decide_eq_true_eq, Bool.not_eq_true'] at hj
    obtain ⟨⟨hd, hlt, hx⟩, hm⟩ := hj
    rw [hmask j hlt, decide_eq_true_eq] at hm
    have hj : 8 * (j / 8) + 7 = j := by omega
    exact ⟨j / 8, by rw [hj]; exact hd, by simp [hj, hx]⟩
  · rintro ⟨i, hd, hx⟩ hzero
    have hlt : 8 * i + 7 < 64 := by
      by_contra hge
      have hbig := d.toNat_lt.trans_le (Nat.pow_le_pow_right (by decide) (not_lt.mp hge))
      rw [Nat.testBit_lt_two_pow hbig] at hd
      cases hd
    have hj := hbit (8 * i + 7)
    rw [hzero, hmask _ hlt] at hj
    simp [hd, hx, hlt] at hj

theorem littleEndian_xor (b : UInt8) (bs : Bytes) :
    littleEndian bs ^^^ (b.toNat * littleEndian (bs.map fun _ => 1)) =
      littleEndian (bs.map (· ^^^ b)) := by
  induction bs with
  | nil => simp [littleEndian]
  | cons c bs ih =>
    have hb : b.toNat < 256 := b.toNat_lt
    have hc : c.toNat < 256 := c.toNat_lt
    rw [List.map_cons, List.map_cons, littleEndian, littleEndian, littleEndian, ← ih,
      UInt8.toNat_xor, show (1 : UInt8).toNat = 1 from rfl, Nat.mul_add, Nat.mul_left_comm]
    -- the low bytes and the rest of the words do not mix
    rw [← Nat.mod_add_div (_ ^^^ _) (2 ^ 8), Nat.xor_mod_two_pow, Nat.xor_div_two_pow]
    congr 2 <;> congr 1 <;> omega

theorem toNat_repeat (n : UInt8) :
    (0x0101010101010101 * n.toUInt64).toNat = n.toNat * 0x0101010101010101 := by
  have hn : n.toNat < 256 := n.toNat_lt
  rw [UInt64.toNat_mul, Nat.mul_comm]
  exact Nat.mod_eq_of_lt (show n.toNat * 0x0101010101010101 < 2 ^ 64 by omega)

section Eight

variable {bs : Bytes} (h : bs.length = 8)

include h

theorem toNat_word : (word bs).toNat = littleEndian bs := by
  rw [word, List.take_of_length_le h.le]
  exact UInt64.toNat_ofNat_of_lt' ((littleEndian_lt bs).trans_eq (by rw [h]; rfl))

theorem littleEndian_eight : littleEndian (bs.map fun _ => 1) = 0x0101010101010101 := by
  have hones := littleEndian_ones bs
  rw [h] at hones
  omega

theorem hasBelow_word {n : UInt8} (hn : n.toNat ≤ 128) :
    hasBelow (word bs) n ↔ ∃ b ∈ bs, b < n := by
  have hbelow := flagged_below hn bs
  have hsub : 2 ^ 64 - n.toNat * 0x0101010101010101 + littleEndian bs =
      littleEndian bs + 256 ^ 8 - n.toNat * 0x0101010101010101 := by omega
  rw [littleEndian_eight h, h] at hbelow
  rw [hasBelow, mask_iff, UInt64.toNat_sub, toNat_repeat, toNat_word h, hsub]
  exact hbelow

theorem hasByte_word (b : UInt8) : hasByte (word bs) b ↔ b ∈ bs := by
  have hmap : (bs.map (· ^^^ b)).length = 8 := by simpa using h
  have hword : word bs ^^^ (0x0101010101010101 * b.toUInt64) = word (bs.map (· ^^^ b)) := by
    rw [← UInt64.toNat_inj, UInt64.toNat_xor, toNat_repeat, toNat_word h, toNat_word hmap,
      ← littleEndian_xor, littleEndian_eight h]
  have hbelow := hasBelow_word hmap (n := 1) (by decide)
  rw [← hword] at hbelow
  refine hbelow.trans ?_
  have hone : ∀ c : UInt8, c < 1 ↔ c = 0 := fun c => by
    rw [← UInt8.toNat_inj]
    exact Nat.lt_one_iff
  simp [hone]

theorem high_word : (word bs &&& 0x8080808080808080 != 0) = true ↔ ∃ b ∈ bs, 0x80 ≤ b := by
  have hflag : ∀ bs : Bytes, Flagged (littleEndian bs) 0 ↔ ∃ b ∈ bs, 128 ≤ b.toNat := by
    intro bs
    induction bs with
    | nil => simp [Flagged, littleEndian]
    | cons b bs ih =>
      rw [List.exists_mem_cons_iff, ← ih, littleEndian]
      simpa using flagged_cons b.toNat_lt (show 0 < 256 by decide) (littleEndian bs) 0
  have hmask := mask_iff (word bs) 0
  rw [toNat_word h] at hmask
  simp only [UInt8.le_iff_toNat_le]
  rw [← show _ ↔ ∃ b ∈ bs, (0x80 : UInt8).toNat ≤ b.toNat from hflag bs]
  simpa using hmask

end Eight

/-! ## The loops of the source -/

/-- A round of the byte loop, which goes on with `next`. -/
def skipByte (next : Bytes → Except ScanError Bytes) : Bytes → Except ScanError Bytes
  | [] => errAt [] "unterminated string"
  | c :: r =>
    if c = quote then .ok r
    else if c = backslash then
      match r with
      | [] => errAt [c] "unterminated escape"
      | e :: r' =>
        if (simpleEscape e).isSome then next r'
        else if e = 0x75 then
          match r' with
          | h1 :: h2 :: h3 :: h4 :: r'' =>
            if [h1, h2, h3, h4].all isHex then next r''
            else errAt (c :: r) "invalid \\u escape"
          | _ => errAt (c :: r) "truncated \\u escape"
        else errAt (c :: r) "invalid escape character"
    else if c < 0x20 then errAt (c :: r) "control character in string"
    else next r

/-- The word of the next eight bytes, if there are so many and none of them needs a look. -/
def cleanWord (s : Bytes) : Bool :=
  8 ≤ s.length &&
    !(hasByte (word s) quote || hasByte (word s) backslash || hasBelow (word s) 0x20)

/-- The loop of `skipString` after the opening quote; every round takes a byte at least. -/
def skipBodyWords : ℕ → Bytes → Except ScanError Bytes
  | 0, s => errAt s "unterminated string"
  | fuel + 1, s =>
    if cleanWord s then skipBodyWords fuel (s.drop 8) else skipByte (skipBodyWords fuel) s

def skipStringWords (s : Bytes) : Except ScanError Bytes :=
  match s with
  | [] => errAt [] "expected string"
  | c :: r => if c = quote then skipBodyWords (r.length + 1) r else errAt s "expected string"

def cleanASCIIWords : ℕ → Bytes → Bool
  | 0, _ => true
  | fuel + 1, span =>
    if 8 ≤ span.length then
      if hasByte (word span) backslash || word span &&& 0x8080808080808080 != 0 then false
      else cleanASCIIWords fuel (span.drop 8)
    else span.all fun c => c != backslash && c < 0x80

theorem skipBody_eq (s : Bytes) : skipBody s = skipByte skipBody s := by
  rw [skipBody.eq_def]
  rfl

theorem skipByte_congr {next next' : Bytes → Except ScanError Bytes} {s : Bytes}
    (h : ∀ r, r.length < s.length → next r = next' r) : skipByte next s = skipByte next' s := by
  cases s with
  | nil => rfl
  | cons c r =>
    simp only [skipByte]
    repeat' split
    all_goals first | rfl | exact h _ (by simp only [List.length_cons]; omega)

theorem skipBody_clean {front : Bytes} (h : ∀ c ∈ front, c ≠ quote ∧ c ≠ backslash ∧ ¬ c < 0x20)
    (r : Bytes) : skipBody (front ++ r) = skipBody r := by
  induction front with
  | nil => rfl
  | cons c front ih =>
    obtain ⟨⟨hq, hb, hlow⟩, hfront⟩ := List.forall_mem_cons.mp h
    rw [List.cons_append, skipBody_eq]
    simp only [skipByte, hq, hb, hlow, if_false]
    exact ih hfront

theorem word_take (s : Bytes) : word (s.take 8) = word s := by
  rw [word, word, List.take_take, min_self]

theorem clean_of_cleanWord {s : Bytes} (h : cleanWord s) :
    8 ≤ s.length ∧ ∀ c ∈ s.take 8, c ≠ quote ∧ c ≠ backslash ∧ ¬ c < 0x20 := by
  simp only [cleanWord, Bool.and_eq_true, decide_eq_true_eq, Bool.not_eq_true',
    Bool.or_eq_false_iff, ← word_take s] at h
  obtain ⟨hs, ⟨hquote, hback⟩, hlow⟩ := h
  have hlen : (s.take 8).length = 8 := by simpa using hs
  rw [← Bool.not_eq_true, hasByte_word hlen] at hquote hback
  rw [← Bool.not_eq_true, hasBelow_word hlen (by decide)] at hlow
  refine ⟨hs, fun c hc => ⟨?_, ?_, fun hl => hlow ⟨c, hc, hl⟩⟩⟩
  · rintro rfl
    exact hquote hc
  · rintro rfl
    exact hback hc

theorem skipBodyWords_eq {fuel : ℕ} {s : Bytes} (h : s.length < fuel) :
    skipBodyWords fuel s = skipBody s := by
  induction fuel generalizing s with
  | zero => cases h
  | succ fuel ih =>
    rw [skipBodyWords]
    by_cases hclean : cleanWord s = true
    · obtain ⟨hs, hfront⟩ := clean_of_cleanWord hclean
      rw [if_pos hclean, ih (by rw [List.length_drop]; omega)]
      conv_rhs => rw [← List.take_append_drop 8 s, skipBody_clean hfront]
    · rw [if_neg hclean, skipBody_eq]
      exact skipByte_congr fun r hr => ih (by omega)

theorem skipStringWords_eq (s : Bytes) : skipStringWords s = skipString s := by
  cases s with
  | nil => rfl
  | cons c r => rw [skipStringWords, skipBodyWords_eq (Nat.lt_succ_self _)]; rfl

theorem cleanASCII_word {span : Bytes} (h : 8 ≤ span.length) :
    (hasByte (word span) backslash || word span &&& 0x8080808080808080 != 0) =
      !cleanASCII (span.take 8) := by
  have hlen : (span.take 8).length = 8 := by simpa using h
  rw [Bool.eq_iff_iff, Bool.or_eq_true, ← word_take, hasByte_word hlen, high_word hlen,
    Bool.not_eq_true', cleanASCII, List.all_eq_false]
  constructor
  · rintro (hback | ⟨b, hb, hhigh⟩)
    · exact ⟨_, hback, by simp⟩
    · exact ⟨b, hb, by simp [hhigh]⟩
  · rintro ⟨b, hb, hbad⟩
    simp only [Bool.and_eq_true, bne_iff_ne, decide_eq_true_eq, not_and] at hbad
    by_cases hback : b = backslash
    · exact .inl (hback ▸ hb)
    · exact .inr ⟨b, hb, UInt8.not_lt.mp (hbad hback)⟩

theorem cleanASCIIWords_eq {fuel : ℕ} {span : Bytes} (h : span.length < fuel) :
    cleanASCIIWords fuel span = cleanASCII span := by
  induction fuel generalizing span with
  | zero => cases h
  | succ fuel ih =>
    rw [cleanASCIIWords]
    by_cases hlen : 8 ≤ span.length
    · have hsplit : cleanASCII span = (cleanASCII (span.take 8) && cleanASCII (span.drop 8)) := by
        rw [cleanASCII, cleanASCII, cleanASCII, ← List.all_append, List.take_append_drop]
      rw [if_pos hlen, cleanASCII_word hlen, ih (by rw [List.length_drop]; omega), hsplit]
      cases cleanASCII (span.take 8) <;> rfl
    · exact if_neg hlen

/-- **The fast paths are the byte loops**: from every position they accept the same strings, stop
    in the same place, and report the same error there. -/
theorem words_agree (s : Bytes) :
    skipStringWords s = skipString s ∧ cleanASCIIWords (s.length + 1) s = cleanASCII s :=
  ⟨skipStringWords_eq s, cleanASCIIWords_eq (Nat.lt_succ_self _)⟩

end NaustJmap.Jsonscan
