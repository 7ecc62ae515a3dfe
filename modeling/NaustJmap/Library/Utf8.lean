import Mathlib.Data.List.Basic
import Mathlib.Tactic.SplitIfs
import Mathlib.Tactic.Common
import NaustJmap.Library.Search

/-!
# UTF-8

Octets read as characters the way `unicode/utf8` reads them, with a single malformed octet wherever
none stands (`runes`, `runes_induction`).  A `Lead` is what the first octet of a character
announces.  A text that does not contradict it but ends early is unfinished (`fullRune`); any other
text reads the same whatever follows it.
-/

namespace NaustJmap.Library.Utf8

/-! ## One character -/

def encode (cs : List Char) : List UInt8 := cs.flatMap String.utf8EncodeChar

def isCont (b : UInt8) : Bool := 0x80 ≤ b.toNat && b.toNat < 0xC0

def runeStart (b : UInt8) : Bool := !isCont b

/-- What the first octet of a character says: how many follow, and its own bits. -/
structure Lead where
  first : ℕ
  more : ℕ
  bits : ℕ

def lead (b : UInt8) : Option Lead :=
  let n := b.toNat
  if n < 0x80 then some ⟨n, 0, n⟩
  else if n < 0xC2 then none
  else if n < 0xE0 then some ⟨n, 1, n - 0xC0⟩
  else if n < 0xF0 then some ⟨n, 2, n - 0xE0⟩
  else if n < 0xF5 then some ⟨n, 3, n - 0xF0⟩
  else none

/-- The least second octet; a smaller one would spell a character that has a shorter encoding. -/
def Lead.lo (l : Lead) : ℕ := if l.first = 0xE0 then 0xA0 else if l.first = 0xF0 then 0x90 else 0x80

/-- The greatest second octet; a greater one would spell a surrogate or go past U+10FFFF. -/
def Lead.hi (l : Lead) : ℕ := if l.first = 0xED then 0x9F else if l.first = 0xF4 then 0x8F else 0xBF

def Lead.admits (l : Lead) : List UInt8 → Bool
  | [] => true
  | b :: rest => (l.lo ≤ b.toNat && b.toNat ≤ l.hi) && rest.all isCont

def Lead.codePoint (l : Lead) (tail : List UInt8) : ℕ :=
  tail.foldl (fun v b => v * 64 + (b.toNat - 0x80)) l.bits

/-- `utf8.DecodeRune`; `none` is `RuneError` with a width of one, and the empty text. -/
def decodeRune : List UInt8 → Option Char
  | [] => none
  | b :: rest => (lead b).bind fun l =>
    if l.more ≤ rest.length && l.admits (rest.take l.more) then
      some (Char.ofNat (l.codePoint (rest.take l.more)))
    else none

/-- `utf8.FullRune`: a character or a malformed octet stands first, whatever follows. -/
def fullRune : List UInt8 → Bool
  | [] => false
  | b :: rest =>
    match lead b with
    | none => true
    | some l => l.more ≤ rest.length || !l.admits rest

variable {n room : ℕ} {b x : UInt8} {t s : List UInt8} {c : Char} {cs : List Char}

/-! ## Characters and their octets -/

theorem toNat_val_ofNat (h : n.isValidChar) : (Char.ofNat n).val.toNat = n := by
  rw [Char.ofNat, dif_pos h]
  rfl

theorem toNat_ofNat_of_lt (h : n < 256) : (UInt8.ofNat n).toNat = n := by
  exact Nat.mod_eq_of_lt h

theorem decodeRune_of_lead {l : Lead} (hlead : lead b = some l) (hlen : t.length = l.more)
    (hadmits : l.admits t) (rest : List UInt8) :
    decodeRune (b :: (t ++ rest)) = some (Char.ofNat (l.codePoint t)) := by
  simp [decodeRune, hlead, hadmits, ← hlen]

theorem decodeRune_encode (c : Char) (rest : List UInt8) :
    decodeRune (String.utf8EncodeChar c ++ rest) = some c := by
  have hvalid : c.val.toNat.isValidChar := c.valid
  have hc : Char.ofNat c.val.toNat = c := Char.ofNat_toNat c
  simp only [String.utf8EncodeChar]
  generalize c.val.toNat = v at hvalid hc
  have hlast : (UInt8.ofNat (v % 64 + 128)).toNat = v % 64 + 128 := toNat_ofNat_of_lt (by omega)
  have hsecond : (UInt8.ofNat (v / 64 % 64 + 128)).toNat = v / 64 % 64 + 128 :=
    toNat_ofNat_of_lt (by omega)
  have hthird : (UInt8.ofNat (v / 4096 % 64 + 128)).toNat = v / 4096 % 64 + 128 :=
    toNat_ofNat_of_lt (by omega)
  -- one case for each length of the encoding
  split_ifs with h1 h2 h3
  · have hb : (UInt8.ofNat v).toNat = v := toNat_ofNat_of_lt (by omega)
    have hlead : lead (UInt8.ofNat v) = some ⟨v, 0, v⟩ := by
      simp only [lead, hb]
      rw [if_pos (by omega)]
    exact (decodeRune_of_lead hlead rfl rfl rest).trans (congrArg some hc)
  · have hb : (UInt8.ofNat (v / 64 % 32 + 192)).toNat = v / 64 % 32 + 192 :=
      toNat_ofNat_of_lt (by omega)
    have hlead : lead (UInt8.ofNat (v / 64 % 32 + 192)) =
        some ⟨v / 64 % 32 + 192, 1, v / 64 % 32 + 192 - 0xC0⟩ := by
      simp only [lead, hb]
      rw [if_neg (by omega), if_neg (by omega), if_pos (by omega)]
    refine (decodeRune_of_lead hlead rfl ?_ rest).trans (congrArg some ?_)
    · simp only [Lead.admits, Lead.lo, Lead.hi, hlast, List.all_nil, Bool.and_true,
        Bool.and_eq_true, decide_eq_true_eq]
      split_ifs <;> omega
    · refine Eq.trans (congrArg Char.ofNat ?_) hc
      simp only [Lead.codePoint, List.foldl_cons, List.foldl_nil, hlast]
      omega
  · have hb : (UInt8.ofNat (v / 4096 % 16 + 224)).toNat = v / 4096 % 16 + 224 :=
      toNat_ofNat_of_lt (by omega)
    have hlead : lead (UInt8.ofNat (v / 4096 % 16 + 224)) =
        some ⟨v / 4096 % 16 + 224, 2, v / 4096 % 16 + 224 - 0xE0⟩ := by
      simp only [lead, hb]
      rw [if_neg (by omega), if_neg (by omega), if_neg (by omega), if_pos (by omega)]
    refine (decodeRune_of_lead hlead rfl ?_ rest).trans (congrArg some ?_)
    · simp only [Lead.admits, Lead.lo, Lead.hi, isCont, hlast, hsecond, List.all_cons, List.all_nil,
        Bool.and_true, Bool.and_eq_true, decide_eq_true_eq]
      split_ifs <;> omega
    · refine Eq.trans (congrArg Char.ofNat ?_) hc
      simp only [Lead.codePoint, List.foldl_cons, List.foldl_nil, hlast, hsecond]
      omega
  · have hb : (UInt8.ofNat (v / 262144 % 8 + 240)).toNat = v / 262144 % 8 + 240 :=
      toNat_ofNat_of_lt (by omega)
    have hlead : lead (UInt8.ofNat (v / 262144 % 8 + 240)) =
        some ⟨v / 262144 % 8 + 240, 3, v / 262144 % 8 + 240 - 0xF0⟩ := by
      simp only [lead, hb]
      rw [if_neg (by omega), if_neg (by omega), if_neg (by omega), if_neg (by omega),
        if_pos (by omega)]
    refine (decodeRune_of_lead hlead rfl ?_ rest).trans (congrArg some ?_)
    · simp only [Lead.admits, Lead.lo, Lead.hi, isCont, hlast, hsecond, hthird, List.all_cons,
        List.all_nil, Bool.and_true, Bool.and_eq_true, decide_eq_true_eq]
      split_ifs <;> omega
    · refine Eq.trans (congrArg Char.ofNat ?_) hc
      simp only [Lead.codePoint, List.foldl_cons, List.foldl_nil, hlast, hsecond, hthird]
      omega

theorem ofNat_eq_of_toNat (h : n = b.toNat) : UInt8.ofNat n = b := by
  rw [h, UInt8.ofNat_toNat]

theorem Lead.admits_cons {l : Lead} {rest : List UInt8} :
    l.admits (b :: rest) ↔ (l.lo ≤ b.toNat ∧ b.toNat ≤ l.hi) ∧ rest.all isCont := by
  simp [Lead.admits]

theorem isCont_iff : isCont b ↔ 0x80 ≤ b.toNat ∧ b.toNat < 0xC0 := by
  simp [isCont]

theorem encode_of_lead {l : Lead} (hlead : lead b = some l) (hlen : t.length = l.more)
    (hadmits : l.admits t) : String.utf8EncodeChar (Char.ofNat (l.codePoint t)) = b :: t := by
  simp only [lead] at hlead
  split_ifs at hlead with h1 h2 h3 h4 h5 <;> cases hlead
  · obtain rfl : t = [] := List.length_eq_zero_iff.mp hlen
    have hv : b.toNat.isValidChar := Or.inl (by omega)
    simp only [Lead.codePoint, List.foldl_nil, String.utf8EncodeChar, toNat_val_ofNat hv]
    rw [if_pos (by omega), UInt8.ofNat_toNat]
  · obtain ⟨b1, rfl⟩ := List.length_eq_one_iff.mp hlen
    obtain ⟨⟨hlo, hhi⟩, -⟩ := Lead.admits_cons.mp hadmits
    simp only [Lead.lo, Lead.hi] at hlo hhi
    rw [if_neg (by omega), if_neg (by omega)] at hlo hhi
    have hv : ((b.toNat - 0xC0) * 64 + (b1.toNat - 0x80)).isValidChar := Or.inl (by omega)
    simp only [Lead.codePoint, List.foldl_cons, List.foldl_nil, String.utf8EncodeChar,
      toNat_val_ofNat hv]
    rw [if_neg (by omega), if_pos (by omega), ofNat_eq_of_toNat (b := b) (by omega),
      ofNat_eq_of_toNat (b := b1) (by omega)]
  · obtain ⟨b1, b2, rfl⟩ := List.length_eq_two.mp hlen
    obtain ⟨⟨hlo, hhi⟩, htail⟩ := Lead.admits_cons.mp hadmits
    have h2 := isCont_iff.mp (List.all_eq_true.mp htail b2 (by simp))
    simp only [Lead.lo, Lead.hi] at hlo hhi
    have hv :
        (((b.toNat - 0xE0) * 64 + (b1.toNat - 0x80)) * 64 + (b2.toNat - 0x80)).isValidChar := by
      simp only [Nat.isValidChar]
      split_ifs at hlo hhi <;> omega
    simp only [Lead.codePoint, List.foldl_cons, List.foldl_nil, String.utf8EncodeChar,
      toNat_val_ofNat hv]
    have hrange : 0x80 ≤ b1.toNat ∧ b1.toNat < 0xC0 ∧ (b.toNat = 0xE0 → 0xA0 ≤ b1.toNat) := by
      split_ifs at hlo hhi <;> omega
    rw [if_neg (by omega), if_neg (by omega), if_pos (by omega),
      ofNat_eq_of_toNat (b := b) (by omega), ofNat_eq_of_toNat (b := b1) (by omega),
      ofNat_eq_of_toNat (b := b2) (by omega)]
  · obtain ⟨b1, b2, b3, rfl⟩ := List.length_eq_three.mp hlen
    obtain ⟨⟨hlo, hhi⟩, htail⟩ := Lead.admits_cons.mp hadmits
    have h2 := isCont_iff.mp (List.all_eq_true.mp htail b2 (by simp))
    have h3 := isCont_iff.mp (List.all_eq_true.mp htail b3 (by simp))
    simp only [Lead.lo, Lead.hi] at hlo hhi
    have hrange : 0x80 ≤ b1.toNat ∧ b1.toNat < 0xC0 ∧ (b.toNat = 0xF0 → 0x90 ≤ b1.toNat) ∧
        (b.toNat = 0xF4 → b1.toNat < 0x90) := by
      split_ifs at hlo hhi <;> omega
    have hv : ((((b.toNat - 0xF0) * 64 + (b1.toNat - 0x80)) * 64 + (b2.toNat - 0x80)) * 64 +
        (b3.toNat - 0x80)).isValidChar := by
      omega
    simp only [Lead.codePoint, List.foldl_cons, List.foldl_nil, String.utf8EncodeChar,
      toNat_val_ofNat hv]
    rw [if_neg (by omega), if_neg (by omega), if_neg (by omega),
      ofNat_eq_of_toNat (b := b) (by omega), ofNat_eq_of_toNat (b := b1) (by omega),
      ofNat_eq_of_toNat (b := b2) (by omega), ofNat_eq_of_toNat (b := b3) (by omega)]

/-- **What is decoded is an encoding.** -/
theorem exists_of_decodeRune (h : decodeRune s = some c) :
    ∃ rest, s = String.utf8EncodeChar c ++ rest := by
  cases s with
  | nil => cases h
  | cons b rest =>
    simp only [decodeRune, Option.bind_eq_some_iff] at h
    obtain ⟨l, hlead, h⟩ := h
    split_ifs at h with hok
    simp only [Bool.and_eq_true, decide_eq_true_eq] at hok
    cases h
    rw [encode_of_lead hlead (by simp [hok.1]) hok.2]
    exact ⟨rest.drop l.more, by simp⟩

/-- A text that is not cut inside its first character reads the same whatever follows. -/
theorem decodeRune_append (h : fullRune s) (t : List UInt8) :
    decodeRune (s ++ t) = decodeRune s := by
  cases s with
  | nil => cases h
  | cons b rest =>
    rw [List.cons_append]
    simp only [fullRune] at h
    simp only [decodeRune]
    cases hlead : lead b with
    | none => rfl
    | some l =>
      simp only [hlead, Bool.or_eq_true, decide_eq_true_eq, Bool.not_eq_true'] at h
      simp only [Option.bind_some, List.length_append]
      by_cases hlen : l.more ≤ rest.length
      · rw [List.take_append_of_le_length hlen]
        simp [hlen, Nat.le_add_right_of_le hlen]
      · -- too few octets, and one of them contradicts the first
        have hbad : l.admits ((rest ++ t).take l.more) = false := by
          have hnot := h.resolve_left hlen
          rw [List.take_append, List.take_of_length_le (by omega)]
          cases rest with
          | nil => cases hnot
          | cons b1 tail =>
            rw [← Bool.not_eq_true, Lead.admits_cons] at hnot
            rw [← Bool.not_eq_true, List.cons_append, Lead.admits_cons, List.all_append,
              Bool.and_eq_true]
            exact fun hall => hnot ⟨hall.1, hall.2.1⟩
        simp [hlen, hbad]

/-! ## A text taken apart -/

/-- A character of a text, or an octet that is not part of one. -/
inductive Rune where
  | char (c : Char)
  | bad (b : UInt8)
  deriving DecidableEq

def Rune.bytes : Rune → List UInt8
  | .char c => String.utf8EncodeChar c
  | .bad b => [b]

/-- The value a `range` loop has for a rune: U+FFFD for an octet that is not part of one. -/
def Rune.value : Rune → Char
  | .char c => c
  | .bad _ => '\uFFFD'

/-- The runes of a text after its first `skip` octets. -/
def runesFrom : ℕ → List UInt8 → List Rune
  | _, [] => []
  | skip + 1, _ :: rest => runesFrom skip rest
  | 0, b :: rest =>
    match decodeRune (b :: rest) with
    | some c => .char c :: runesFrom ((String.utf8EncodeChar c).length - 1) rest
    | none => .bad b :: runesFrom 0 rest

/-- The runes of a text, as a `range` loop sees them. -/
def runes (s : List UInt8) : List Rune := runesFrom 0 s

theorem runesFrom_eq (skip : ℕ) (s : List UInt8) : runesFrom skip s = runes (s.drop skip) := by
  induction skip generalizing s with
  | zero => rfl
  | succ skip ih =>
    cases s with
    | nil => rfl
    | cons b rest => exact ih rest

@[simp] theorem runes_nil : runes [] = [] := rfl

@[simp] theorem runes_char (c : Char) (s : List UInt8) :
    runes (String.utf8EncodeChar c ++ s) = .char c :: runes s := by
  have hdecode := decodeRune_encode c s
  obtain ⟨b, tail, henc⟩ := List.exists_cons_of_ne_nil (String.utf8EncodeChar_ne_nil)
  rw [henc, List.cons_append] at hdecode ⊢
  rw [runes, runesFrom, hdecode]
  simp [runesFrom_eq, henc]

theorem runes_bad (h : decodeRune (b :: s) = none) : runes (b :: s) = .bad b :: runes s := by
  rw [runes, runesFrom, h]
  rfl

/-- **Induction along the runes of a text.** -/
theorem runes_induction {P : List UInt8 → Prop} (nil : P [])
    (char : ∀ c s, P s → P (String.utf8EncodeChar c ++ s))
    (bad : ∀ b s, decodeRune (b :: s) = none → P s → P (b :: s)) (s : List UInt8) : P s := by
  induction hn : s.length using Nat.strongRecOn generalizing s with
  | ind n ih =>
    cases s with
    | nil => exact nil
    | cons b rest =>
      cases hdecode : decodeRune (b :: rest) with
      | none => exact bad b rest hdecode (ih _ (by simp [← hn]) rest rfl)
      | some c =>
        obtain ⟨s, hs⟩ := exists_of_decodeRune hdecode
        have hpos := List.length_pos_iff.mpr (String.utf8EncodeChar_ne_nil (c := c))
        have hlen := congrArg List.length hs
        rw [List.length_append] at hlen
        rw [hs]
        exact char c s (ih _ (by omega) s rfl)

theorem bytes_runes (s : List UInt8) : (runes s).flatMap Rune.bytes = s := by
  induction s using runes_induction with
  | nil => rfl
  | char c s ih => simp [ih, Rune.bytes]
  | bad b s h ih => simp [runes_bad h, ih, Rune.bytes]

@[simp] theorem encode_nil : encode [] = [] := rfl

@[simp] theorem encode_cons (c : Char) (cs : List Char) :
    encode (c :: cs) = String.utf8EncodeChar c ++ encode cs := rfl

@[simp] theorem encode_append (cs ds : List Char) : encode (cs ++ ds) = encode cs ++ encode ds :=
  List.flatMap_append

theorem runes_encode_append (cs : List Char) (s : List UInt8) :
    runes (encode cs ++ s) = cs.map .char ++ runes s := by
  induction cs with
  | nil => rfl
  | cons c cs ih => simp [ih]

/-! ## Cutting a text at a character -/

theorem encodeChar_eq_cons (c : Char) :
    ∃ b t, String.utf8EncodeChar c = b :: t ∧ runeStart b ∧ ∀ x ∈ t, isCont x := by
  simp only [String.utf8EncodeChar]
  have hcont : ∀ n, isCont (UInt8.ofNat (n % 64 + 128)) := by
    intro n
    rw [isCont_iff, toNat_ofNat_of_lt (by omega)]
    omega
  have hstart : ∀ n, n < 256 → (n < 0x80 ∨ 0xC0 ≤ n) → runeStart (UInt8.ofNat n) := by
    intro n hn h
    rw [runeStart, Bool.not_eq_true', ← Bool.not_eq_true, isCont_iff, toNat_ofNat_of_lt hn]
    omega
  split_ifs
  · exact ⟨_, _, rfl, hstart _ (by omega) (by omega), by simp⟩
  all_goals
    refine ⟨_, _, rfl, hstart _ (by omega) (by omega), ?_⟩
    simp only [List.mem_cons, List.not_mem_nil, or_false, forall_eq_or_imp, forall_eq, hcont,
      and_self]

theorem runes_append_of_runeStart (hb : runeStart b) (a t : List UInt8) :
    runes (a ++ b :: t) = runes a ++ runes (b :: t) := by
  induction a using runes_induction with
  | nil => rfl
  | char c a ih => simp [ih]
  | bad x a hbad ih =>
    have hbad' : decodeRune (x :: a ++ b :: t) = none := by
      rw [Option.eq_none_iff_forall_ne_some]
      intro c hc
      obtain ⟨rest, hrest⟩ := exists_of_decodeRune hc
      obtain ⟨y, u, hy, -, hu⟩ := encodeChar_eq_cons c
      -- the character ends in the first part, or the second starts inside it
      rcases List.append_eq_append_iff.mp hrest with ⟨v, hv, hv'⟩ | ⟨v, hv, hv'⟩
      · cases v with
        | nil =>
          have hdecode := decodeRune_encode c []
          rw [List.append_nil, hv, List.append_nil, hbad] at hdecode
          cases hdecode
        | cons z v =>
          obtain ⟨rfl, -⟩ := List.cons.inj hv'
          rw [hy, List.cons_append, List.cons.injEq] at hv
          simp [runeStart, hu b (by simp [hv.2])] at hb
      · rw [hv, decodeRune_encode] at hbad
        cases hbad
    rw [List.cons_append] at hbad' ⊢
    rw [runes_bad hbad', runes_bad hbad, ih, List.cons_append]

def characters (s : List UInt8) : List Char :=
  (runes s).filterMap fun
    | .char c => some c
    | .bad _ => none

@[simp] theorem characters_encode (cs : List Char) : characters (encode cs) = cs := by
  have h := runes_encode_append cs []
  rw [List.append_nil, runes_nil, List.append_nil] at h
  rw [characters, h, List.filterMap_map]
  exact List.filterMap_some

theorem encode_injective : Function.Injective encode := fun cs ds h => by
  rw [← characters_encode cs, h, characters_encode]

theorem length_le_length_encode (cs : List Char) : cs.length ≤ (encode cs).length := by
  induction cs with
  | nil => exact Nat.le_refl _
  | cons c cs ih =>
    have := List.length_pos_iff.mpr (String.utf8EncodeChar_ne_nil (c := c))
    simp only [encode_cons, List.length_append, List.length_cons]
    omega

/-- The longest start of a text that fits into some octets. -/
def takeOctets : ℕ → List Char → List Char
  | _, [] => []
  | room, c :: cs =>
    if (String.utf8EncodeChar c).length ≤ room then
      c :: takeOctets (room - (String.utf8EncodeChar c).length) cs
    else []

def runeCut (s : List UInt8) : ℕ → ℕ
  | 0 => 0
  | i + 1 => if runeStart (s.getD (i + 1) 0) then i + 1 else runeCut s i

theorem takeOctets_isPrefixOf (room : ℕ) (cs : List Char) : takeOctets room cs <+: cs := by
  induction cs generalizing room with
  | nil => exact List.prefix_rfl
  | cons c cs ih =>
    rw [takeOctets]
    split_ifs
    · exact (List.prefix_cons_inj c).mpr (ih _)
    · exact List.nil_prefix

theorem length_takeOctets_le (room : ℕ) (cs : List Char) :
    (encode (takeOctets room cs)).length ≤ room := by
  induction cs generalizing room with
  | nil => simp [takeOctets]
  | cons c cs ih =>
    rw [takeOctets]
    split_ifs with h
    · have := ih (room - (String.utf8EncodeChar c).length)
      simp only [encode_cons, List.length_append]
      omega
    · simp

theorem prefix_takeOctets {p : List Char} (hp : p <+: cs) (hfits : (encode p).length ≤ room) :
    p <+: takeOctets room cs := by
  induction p generalizing room cs with
  | nil => exact List.nil_prefix
  | cons c p ih =>
    obtain ⟨t, rfl⟩ := hp
    simp only [encode_cons, List.length_append] at hfits
    rw [List.cons_append, takeOctets, if_pos (by omega)]
    exact (List.prefix_cons_inj c).mpr (ih ⟨t, rfl⟩ (by omega))

theorem takeOctets_of_fits (h : (encode cs).length ≤ room) : takeOctets room cs = cs :=
  (takeOctets_isPrefixOf room cs).eq_of_length_le (prefix_takeOctets List.prefix_rfl h).length_le

theorem takeOctets_append (h : (encode cs).length ≤ room) (ds : List Char) :
    takeOctets room (cs ++ ds) = cs ++ takeOctets (room - (encode cs).length) ds := by
  induction cs generalizing room with
  | nil => simp
  | cons c cs ih =>
    simp only [encode_cons, List.length_append] at h
    rw [List.cons_append, takeOctets, if_pos (by omega), ih (by omega), List.cons_append,
      encode_cons, List.length_append, Nat.sub_sub]

theorem takeOctets_append_of_lt (h : room < (encode cs).length) (ds : List Char) :
    takeOctets room (cs ++ ds) = takeOctets room cs := by
  induction cs generalizing room with
  | nil => simp at h
  | cons c cs ih =>
    simp only [encode_cons, List.length_append] at h
    rw [List.cons_append, takeOctets, takeOctets]
    split_ifs with hc
    · rw [ih (by omega)]
    · rfl

theorem runeCut_append {a : List UInt8} (ha : a ≠ []) (hb : runeStart b) (s : List UInt8) (i : ℕ) :
    runeCut (a ++ b :: s) (a.length + i) = a.length + runeCut (b :: s) i := by
  induction i with
  | zero =>
    obtain ⟨x, a, rfl⟩ := List.exists_cons_of_ne_nil ha
    simp [runeCut, hb]
  | succ i ih =>
    rw [← Nat.add_assoc, runeCut, runeCut, ih]
    have hget : (a ++ b :: s).getD (a.length + i + 1) 0 = (b :: s).getD (i + 1) 0 := by
      simp [List.getD, List.getElem?_append, show ¬a.length + i + 1 < a.length by omega,
        show a.length + i + 1 - a.length = i + 1 by omega]
    rw [hget]
    split_ifs <;> rfl

theorem runeCut_spec (s : List UInt8) (i : ℕ) :
    runeCut s i ≤ i ∧ (runeCut s i = 0 ∨ runeStart (s.getD (runeCut s i) 0)) ∧
      ∀ j, runeCut s i < j → j ≤ i → isCont (s.getD j 0) := by
  induction i with
  | zero => exact ⟨Nat.le_refl _, .inl rfl, fun j h h' => absurd h (Nat.not_lt.mpr h')⟩
  | succ i ih =>
    obtain ⟨hle, hstart, hpassed⟩ := ih
    rw [runeCut]
    split_ifs with hs
    · exact ⟨Nat.le_refl _, .inr hs, fun j h h' => absurd h (Nat.not_lt.mpr h')⟩
    · refine ⟨Nat.le_succ_of_le hle, hstart, fun j h h' => ?_⟩
      rcases Nat.lt_or_eq_of_le h' with hlt | rfl
      · exact hpassed j h (Nat.le_of_lt_succ hlt)
      · simpa [runeStart] using hs

theorem runeCut_eq_zero (ht : ∀ x ∈ t, isCont x) {i : ℕ} (hi : i ≤ t.length) (s : List UInt8) :
    runeCut (b :: (t ++ s)) i = 0 := by
  induction i with
  | zero => rfl
  | succ i ih =>
    have hget : (b :: (t ++ s)).getD (i + 1) 0 ∈ t := by
      simp only [List.getD, List.getElem?_cons_succ, List.getElem?_append_left hi,
        List.getElem?_eq_getElem hi, Option.getD_some]
      exact List.getElem_mem hi
    rw [runeCut, runeStart, ht _ hget]
    exact ih (by omega)

/-- **A cut at the last start of a character keeps the longest text that fits.** -/
theorem take_runeCut (h : room < (encode cs).length) :
    (encode cs).take (runeCut (encode cs) room) = encode (takeOctets room cs) := by
  induction cs generalizing room with
  | nil => simp at h
  | cons c cs ih =>
    obtain ⟨b, t, henc, -, ht⟩ := encodeChar_eq_cons c
    simp only [encode_cons, List.length_append] at h ⊢
    rw [takeOctets]
    split_ifs with hc
    · -- the cut lies in the characters that follow
      have hrest : room - (String.utf8EncodeChar c).length < (encode cs).length := by omega
      have hcut : runeCut (String.utf8EncodeChar c ++ encode cs) room =
          (String.utf8EncodeChar c).length +
            runeCut (encode cs) (room - (String.utf8EncodeChar c).length) := by
        cases cs with
        | nil => simp at hrest
        | cons d ds =>
          obtain ⟨b', t', henc', hb', -⟩ := encodeChar_eq_cons d
          rw [encode_cons, henc', List.cons_append,
            ← runeCut_append String.utf8EncodeChar_ne_nil hb', Nat.add_sub_cancel' hc]
      rw [hcut, List.take_length_add_append, ih hrest, encode_cons]
    · rw [henc, List.cons_append, runeCut_eq_zero ht (by rw [henc, List.length_cons] at hc; omega)]
      rfl

/-! ## Octets of US-ASCII in a text -/

theorem encodeChar_ascii (hx : x.toNat < 0x80) : String.utf8EncodeChar (Char.ofNat x.toNat) = [x] :=
  encode_of_lead (t := []) (l := ⟨x.toNat, 0, x.toNat⟩) (by simp [lead, hx]) rfl rfl

theorem eq_of_mem_encodeChar (hx : x.toNat < 0x80) (h : x ∈ String.utf8EncodeChar c) :
    c = Char.ofNat x.toNat := by
  have hc : Char.ofNat c.val.toNat = c := Char.ofNat_toNat c
  simp only [String.utf8EncodeChar] at h
  -- the octets of a longer encoding are not of US-ASCII
  have hcont : ∀ n, n < 256 → 0x80 ≤ n → x ≠ UInt8.ofNat n := by
    rintro n hn hle rfl
    rw [toNat_ofNat_of_lt hn] at hx
    omega
  split_ifs at h
  · rw [List.mem_singleton.mp h, toNat_ofNat_of_lt (by omega), hc]
  all_goals simp only [List.mem_cons, List.not_mem_nil, or_false] at h
  · rcases h with h | h <;> exact absurd h (hcont _ (by omega) (by omega))
  · rcases h with h | h | h <;> exact absurd h (hcont _ (by omega) (by omega))
  · rcases h with h | h | h | h <;> exact absurd h (hcont _ (by omega) (by omega))

theorem not_mem_encodeChar (hx : x.toNat < 0x80) (h : c ≠ Char.ofNat x.toNat) :
    x ∉ String.utf8EncodeChar c := fun hmem =>
  h (eq_of_mem_encodeChar hx hmem)

theorem takeWhile_encode (hx : x.toNat < 0x80) (cs : List Char) :
    (encode cs).takeWhile (· ≠ x) = encode (cs.takeWhile (· ≠ Char.ofNat x.toNat)) ∧
      (encode cs).dropWhile (· ≠ x) = encode (cs.dropWhile (· ≠ Char.ofNat x.toNat)) := by
  induction cs with
  | nil => exact ⟨rfl, rfl⟩
  | cons c cs ih =>
    by_cases hc : c = Char.ofNat x.toNat
    · subst hc
      simp [encodeChar_ascii hx]
    · have hall : ∀ b ∈ String.utf8EncodeChar c, decide (b ≠ x) = true := by
        intro b hb
        rw [decide_eq_true_eq]
        rintro rfl
        exact not_mem_encodeChar hx hc hb
      rw [encode_cons, List.takeWhile_append_of_pos hall, List.dropWhile_append_of_pos hall, ih.1,
        ih.2]
      simp [hc]

/-! ## Texts inside a text -/

theorem encode_prefix_iff {p : List Char} : encode p <+: encode cs ↔ p <+: cs := by
  constructor
  · rintro ⟨t, ht⟩
    have hrunes := congrArg runes ht
    rw [runes_encode_append, ← List.append_nil (encode cs), runes_encode_append] at hrunes
    have hchars := congrArg (List.filterMap fun r : Rune => match r with
      | .char c => some c
      | .bad _ => none) hrunes
    refine ⟨characters t, ?_⟩
    simpa [characters] using hchars
  · rintro ⟨t, rfl⟩
    exact ⟨encode t, by simp⟩

/-- **An encoded text is found where its characters are found.** -/
theorem occursAt_encode {needle : List Char} (hne : needle ≠ []) {i : ℕ} :
    OccursAt (encode needle) (encode cs) i ↔
      ∃ j, OccursAt needle cs j ∧ (encode (cs.take j)).length = i := by
  constructor
  · intro h
    induction cs generalizing i with
    | nil =>
      have hlen := h.length_le
      have := length_le_length_encode needle
      have := List.length_pos_iff.mpr hne
      rw [encode_nil, List.length_nil] at hlen
      omega
    | cons c cs ih =>
      by_cases hi : i = 0
      · subst hi
        exact ⟨0, occursAt_zero.mpr (encode_prefix_iff.mp (occursAt_zero.mp h)), by simp⟩
      by_cases hin : i < (String.utf8EncodeChar c).length
      · -- inside the first character no character starts
        obtain ⟨d, ds, rfl⟩ := List.exists_cons_of_ne_nil hne
        obtain ⟨b, t, henc, -, ht⟩ := encodeChar_eq_cons c
        obtain ⟨b', t', henc', hb', -⟩ := encodeChar_eq_cons d
        obtain ⟨r, hr⟩ := h.2
        have hget := congrArg (fun l => l[0]?) hr
        rw [encode_cons, henc', encode_cons, henc] at hget
        obtain ⟨k, rfl⟩ : ∃ k, i = k + 1 := ⟨i - 1, by omega⟩
        rw [henc, List.length_cons] at hin
        have hk : k < t.length := by omega
        simp only [List.cons_append, List.getElem?_cons_zero, List.getElem?_drop, Nat.add_zero,
          List.getElem?_cons_succ] at hget
        rw [List.getElem?_append_left hk] at hget
        have hcont := ht b' (List.mem_of_getElem? hget.symm)
        rw [runeStart, hcont] at hb'
        cases hb'
      · have hrest : OccursAt (encode needle) (encode cs)
            (i - (String.utf8EncodeChar c).length) := by
          refine ⟨?_, ?_⟩
          · have := h.1
            rw [encode_cons, List.length_append] at this
            omega
          · have := h.2
            rwa [encode_cons, List.drop_append, List.drop_eq_nil_of_le (by omega)] at this
        obtain ⟨j, hj, hlen⟩ := ih hrest
        refine ⟨j + 1, occursAt_succ.mpr hj, ?_⟩
        rw [List.take_succ_cons, encode_cons, List.length_append]
        omega
  · rintro ⟨j, hj, rfl⟩
    obtain ⟨a, b, rfl, rfl⟩ := occursAt_iff.mp hj
    rw [List.append_assoc, List.take_left]
    exact occursAt_iff.mpr ⟨encode a, encode b, by simp, rfl⟩

end NaustJmap.Library.Utf8
