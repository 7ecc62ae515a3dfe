import Mathlib.Data.List.Forall2
import Mathlib.Order.Filter.AtTopBot.Basic
import NaustJmap.Library.DotBlock
import NaustJmap.Library.Utf8

/-!
# JSON Texts

What a JSON text (RFC 8259) denotes.  Strings are read with their escapes resolved, as UTF-8;
numbers are kept as they are written, and the members of an object in the order of the text.

A text is read the same when a delimiter follows it (`isReader_value`), so that texts can be put
together to a larger one (`denotes_array`, `denotes_object`).
-/

namespace NaustJmap.Library.Json

/-- JSON values.  A number is kept as its text, an object as its members in order. -/
inductive Value where
  | null
  | bool (b : Bool)
  | number (text : Octets)
  | string (s : Octets)
  | array (elems : List Value)
  | object (members : List (Octets × Value))

/-! ## Strings -/

/-- What one part of a string literal stands for: an octet, or a UTF-16 code unit. -/
inductive Piece where
  | octet (b : UInt8)
  | unit (u : ℕ)

/-- One half of a surrogate pair. -/
def isSurrogate (u : ℕ) : Bool := 0xD800 ≤ u && u < 0xE000

/-- A code unit of its own; half of a surrogate pair is malformed. -/
def unitText (u : ℕ) : Octets :=
  String.utf8EncodeChar (if isSurrogate u then '�' else Char.ofNat u)

/-- The octets of a string's pieces: a pair of surrogates is one character, a lone one U+FFFD. -/
def text : List Piece → Octets
  | [] => []
  | .octet b :: ps => b :: text ps
  | .unit u :: .unit v :: ps =>
    if 0xD800 ≤ u ∧ u < 0xDC00 ∧ 0xDC00 ≤ v ∧ v < 0xE000 then
      String.utf8EncodeChar (Char.ofNat ((u - 0xD800) * 1024 + (v - 0xDC00) + 0x10000)) ++ text ps
    else unitText u ++ text (.unit v :: ps)
  | .unit u :: ps => unitText u ++ text ps

/-- The value of a hexadecimal digit, in either case. -/
def hexValue (c : UInt8) : Option ℕ :=
  if 48 ≤ c ∧ c ≤ 57 then some (c.toNat - 48)
  else if 97 ≤ c ∧ c ≤ 102 then some (c.toNat - 87)
  else if 65 ≤ c ∧ c ≤ 70 then some (c.toNat - 55)
  else none

/-- The one-letter escapes and what they stand for. -/
def letters : List (UInt8 × UInt8) :=
  [(34, 34), (92, 92), (47, 47), (98, 8), (102, 12), (110, 10), (114, 13), (116, 9)]

/-- The four digits after a backslash and `u`. -/
def codeUnit : Octets → Option (Piece × Octets)
  | a :: b :: c :: d :: s => do
    let a ← hexValue a
    let b ← hexValue b
    let c ← hexValue c
    let d ← hexValue d
    return (.unit (((a * 16 + b) * 16 + c) * 16 + d), s)
  | _ => none

/-- What follows a backslash. -/
def escape : Octets → Option (Piece × Octets)
  | [] => none
  | x :: s => if x = 117 then codeUnit s else (letters.lookup x).map (.octet ·, s)

/-- A string literal after its opening quote, and what follows it. -/
def body : ℕ → Octets → Option (List Piece × Octets)
  | 0, _ => none
  | _ + 1, [] => none
  | n + 1, c :: s =>
    if c = 34 then some ([], s)
    else if c = 92 then do
      let (p, s) ← escape s
      let (ps, s) ← body n s
      return (p :: ps, s)
    else if c < 0x20 then none
    else do
      let (ps, s) ← body n s
      return (.octet c :: ps, s)

/-! ## Values -/

def isSpace (c : UInt8) : Bool := c == 0x20 || c == 9 || c == 10 || c == 13

/-- What is left after white space. -/
def skip (s : Octets) : Octets := s.dropWhile isSpace

def isDigit (c : UInt8) : Bool := 48 ≤ c && c ≤ 57

/-- The octets of numbers and of the three literals. -/
def inToken (c : UInt8) : Bool :=
  isDigit c || (97 ≤ c && c ≤ 122) || c == 69 || c == 43 || c == 45 || c == 46

/-- One digit or more, and what follows them. -/
def digits (s : Octets) : Option (Octets) :=
  if s.head?.any isDigit then some (s.dropWhile isDigit) else none

/-- The grammar of numbers: no leading zero and no plus in front. -/
def isNumber (tok : Octets) : Bool := Option.isSome do
  let s := if tok.head? = some 45 then tok.tail else tok
  let s ← if s.head? = some 48 then some s.tail else digits s
  let s ← if s.head? = some 46 then digits s.tail else some s
  let s ← if s.head? = some 101 ∨ s.head? = some 69 then
      digits (if s.tail.head? = some 43 ∨ s.tail.head? = some 45 then s.tail.tail else s.tail)
    else some s
  guard (s = [])

/-- A literal or a number. -/
def scalar (tok : Octets) : Option Value :=
  if tok = [110, 117, 108, 108] then some .null
  else if tok = [116, 114, 117, 101] then some (.bool true)
  else if tok = [102, 97, 108, 115, 101] then some (.bool false)
  else if isNumber tok then some (.number tok)
  else none

/-- Items with commas between them, up to the octet that closes them. -/
def items {α : Type} (item : Octets → Option (α × Octets)) (close : UInt8) :
    ℕ → Octets → Option (List α × Octets)
  | 0, _ => none
  | n + 1, s => do
    let (a, r) ← item s
    if r.head? = some 44 then
      let (as, r) ← items item close n r.tail
      return (a :: as, r)
    else if r.head? = some close then return ([a], skip r.tail)
    else none

/-- The items of an array or an object up to its closing bracket. -/
def container {α : Type} (item : Octets → Option (α × Octets)) (close : UInt8) (n : ℕ)
    (s : Octets) : Option (List α × Octets) :=
  if (skip s).head? = some close then some ([], skip (skip s).tail) else items item close n s

/-- A member of an object: its name, a colon, its value. -/
def entry (n : ℕ) (val : Octets → Option (Value × Octets)) (s : Octets) :
    Option ((Octets × Value) × Octets) :=
  if (skip s).head? = some 34 then do
    let (ps, r) ← body n (skip s).tail
    if (skip r).head? = some 58 then
      let (v, r) ← val (skip r).tail
      return ((text ps, v), r)
    else none
  else none

/-- The value a text begins with, and what follows it and the white space after it. -/
def value : ℕ → Octets → Option (Value × Octets)
  | 0, _ => none
  | n + 1, s =>
    match skip s with
    | [] => none
    | c :: t =>
      if c = 34 then do
        let (ps, r) ← body n t
        return (.string (text ps), skip r)
      else if c = 91 then do
        let (vs, r) ← container (value n) 93 n t
        return (.array vs, r)
      else if c = 123 then do
        let (ms, r) ← container (entry n (value n)) 125 n t
        return (.object ms, r)
      else do
        let v ← scalar ((c :: t).takeWhile inToken)
        return (v, skip ((c :: t).dropWhile inToken))

/-! ## Texts in texts -/

/-- What can follow a value inside a text. -/
def Ends (t : Octets) : Prop :=
  t = [] ∨ t.head? = some 44 ∨ t.head? = some 93 ∨ t.head? = some 125

section Append

variable {s t r : Octets}

theorem codeUnit_append {p : Piece} (h : codeUnit s = some (p, r)) :
    codeUnit (s ++ t) = some (p, r ++ t) := by
  rcases s with _ | ⟨a, _ | ⟨b, _ | ⟨c, _ | ⟨d, s⟩⟩⟩⟩ <;> try cases h
  simp only [codeUnit, List.cons_append, Option.bind_eq_bind, Option.bind_eq_some_iff] at h ⊢
  obtain ⟨a', ha, b', hb, c', hc, d', hd, heq⟩ := h
  cases heq
  exact ⟨a', ha, b', hb, c', hc, d', hd, rfl⟩

theorem escape_append {p : Piece} (h : escape s = some (p, r)) :
    escape (s ++ t) = some (p, r ++ t) := by
  rcases s with _ | ⟨x, s⟩
  · cases h
  rw [escape] at h
  rw [List.cons_append, escape]
  split_ifs at h ⊢
  · exact codeUnit_append h
  · obtain ⟨b, hb, heq⟩ := Option.map_eq_some_iff.mp h
    cases heq
    rw [hb]
    rfl

theorem body_append {n : ℕ} {ps : List Piece} (h : body n s = some (ps, r)) :
    body n (s ++ t) = some (ps, r ++ t) := by
  induction n generalizing s ps with
  | zero => cases h
  | succ n ih =>
    rcases s with _ | ⟨c, s⟩
    · cases h
    rw [body] at h
    rw [List.cons_append, body]
    split_ifs at h ⊢
    · cases h
      rfl
    · simp only [Option.bind_eq_bind, Option.bind_eq_some_iff] at h
      obtain ⟨⟨p, s'⟩, hp, ⟨ps', r'⟩, hps, heq⟩ := h
      cases heq
      simp [escape_append hp, ih hps]
    · simp only [Option.bind_eq_bind, Option.bind_eq_some_iff] at h
      obtain ⟨⟨ps', r'⟩, hps, heq⟩ := h
      cases heq
      simp [ih hps]

theorem Ends.skip (ht : Ends t) : skip t = t := by
  rcases t with _ | ⟨c, t⟩
  · rfl
  · rcases ht with h | h | h | h <;> cases h <;> rfl

theorem Ends.skip_append (ht : Ends t) (s : Octets) : Json.skip (s ++ t) = Json.skip s ++ t := by
  unfold Json.skip
  rw [List.dropWhile_append]
  split_ifs with hs
  · rw [List.isEmpty_iff.mp hs]
    exact ht.skip
  · rfl

theorem head?_append {c : UInt8} (h : r.head? = some c) : (r ++ t).head? = some c := by
  rw [List.head?_append, h]
  rfl

theorem tail_append {c : UInt8} (h : r.head? = some c) : (r ++ t).tail = r.tail ++ t :=
  List.tail_append_of_ne_nil (by rintro rfl; cases h)

theorem Ends.token (ht : Ends t) (u : Octets) :
    (u ++ t).takeWhile inToken = u.takeWhile inToken ∧
      (u ++ t).dropWhile inToken = u.dropWhile inToken ++ t := by
  have hnone : t.takeWhile inToken = [] ∧ t.dropWhile inToken = t := by
    rcases t with _ | ⟨c, t⟩
    · exact ⟨rfl, rfl⟩
    · rcases ht with h | h | h | h <;> cases h <;> exact ⟨rfl, rfl⟩
  induction u with
  | nil => exact hnone
  | cons c u ih =>
    simp only [List.cons_append, List.takeWhile_cons, List.dropWhile_cons]
    split
    · exact ⟨congrArg _ ih.1, ih.2⟩
    · exact ⟨rfl, rfl⟩

end Append

/-- A reader that does not mind a delimiter behind what it reads. -/
structure IsReader {α : Type} (close : UInt8) (f : Octets → Option (α × Octets)) : Prop where
  head : ∀ {s x}, f s = some x → ∃ c u, skip s = c :: u ∧ c ≠ close
  append : ∀ {s t a r}, Ends t → f s = some (a, r) → f (s ++ t) = some (a, r ++ t)

section IsReader

variable {α : Type} {close : UInt8} {f : Octets → Option (α × Octets)}
  (hf : IsReader close f)
include hf

theorem IsReader.items {s t r : Octets} {as : List α} {n : ℕ} (ht : Ends t)
    (h : items f close n s = some (as, r)) : Json.items f close n (s ++ t) = some (as, r ++ t) := by
  induction n generalizing s as with
  | zero => cases h
  | succ n ih =>
    rw [Json.items] at h ⊢
    obtain ⟨⟨a, r'⟩, ha, h⟩ := Option.bind_eq_some_iff.mp h
    rw [hf.append ht ha]
    dsimp only [Option.bind_eq_bind, Option.bind_some] at h ⊢
    split_ifs at h with hcomma hclose
    · obtain ⟨⟨as', r''⟩, has, heq⟩ := Option.bind_eq_some_iff.mp h
      cases heq
      simp [head?_append hcomma, tail_append hcomma, ih has]
    · cases h
      have hne : close ≠ 44 := by
        rintro rfl
        exact hcomma hclose
      simp [head?_append hclose, tail_append hclose, ht.skip_append, hne]

theorem IsReader.head_items {s t : Octets} {n : ℕ} {x : List α × Octets}
    (h : Json.items f close n s = some x) : (skip s ++ t).head? ≠ some close := by
  rcases n with _ | n
  · cases h
  obtain ⟨y, hy, -⟩ := Option.bind_eq_some_iff.mp h
  obtain ⟨c, u, hs, hne⟩ := hf.head hy
  rw [hs]
  simpa using hne

theorem IsReader.container {s t r : Octets} {as : List α} {n : ℕ} (ht : Ends t)
    (h : container f close n s = some (as, r)) :
    Json.container f close n (s ++ t) = some (as, r ++ t) := by
  unfold Json.container at h ⊢
  rw [ht.skip_append]
  split_ifs at h with hclose
  · cases h
    rw [if_pos (head?_append hclose), tail_append hclose, ht.skip_append]
  · rw [if_neg (hf.head_items h)]
    exact hf.items ht h

end IsReader

theorem isReader_entry {n : ℕ} {val : Octets → Option (Value × Octets)}
    (hval : IsReader 93 val) : IsReader 125 (entry n val) where
  head := by
    intro s x h
    unfold entry at h
    split_ifs at h with hq
    obtain ⟨u, hu⟩ := List.head?_eq_some_iff.mp hq
    exact ⟨34, u, hu, by decide⟩
  append := by
    intro s t m r ht h
    unfold entry at h ⊢
    split_ifs at h with hq
    obtain ⟨⟨ps, r'⟩, hps, h⟩ := Option.bind_eq_some_iff.mp h
    dsimp only at h
    split_ifs at h with hcolon
    obtain ⟨⟨v, r''⟩, hv, heq⟩ := Option.bind_eq_some_iff.mp h
    cases heq
    rw [ht.skip_append, if_pos (head?_append hq), tail_append hq, body_append hps]
    simp [ht.skip_append, head?_append hcolon, tail_append hcolon, hval.append ht hv]

theorem isReader_value (n : ℕ) : IsReader 93 (value n) := by
  induction n with
  | zero => exact ⟨fun h => (by cases h), fun _ h => (by cases h)⟩
  | succ n ih =>
    refine ⟨fun {s x} h => ?_, fun {s t v r} ht h => ?_⟩
    · rw [value] at h
      split at h
      · cases h
      · next c u hs =>
        refine ⟨c, u, hs, ?_⟩
        rintro rfl
        cases h
    · rw [value] at h ⊢
      rw [ht.skip_append]
      rcases hs : skip s with _ | ⟨c, u⟩
      · rw [hs] at h
        cases h
      simp only [hs, List.cons_append] at h ⊢
      split_ifs at h ⊢
      · obtain ⟨⟨ps, r'⟩, hps, heq⟩ := Option.bind_eq_some_iff.mp h
        cases heq
        simp [body_append hps, ht.skip_append]
      · obtain ⟨⟨vs, r'⟩, hvs, heq⟩ := Option.bind_eq_some_iff.mp h
        cases heq
        simp [ih.container ht hvs]
      · obtain ⟨⟨ms, r'⟩, hms, heq⟩ := Option.bind_eq_some_iff.mp h
        cases heq
        simp [(isReader_entry ih).container ht hms]
      · obtain ⟨v', hv, heq⟩ := Option.bind_eq_some_iff.mp h
        cases heq
        rw [← List.cons_append, (ht.token _).1, (ht.token _).2, hv]
        simp [ht.skip_append]

/-! ## What a text denotes -/

/-- What a reader returns once it has fuel enough. -/
def Reads {α : Type} (p : ℕ → Option α) (x : α) : Prop := ∀ᶠ n in Filter.atTop, p n = some x

/-- The text is a JSON text, of this value. -/
def Denotes (s : Octets) (v : Value) : Prop := Reads (value · s) (v, [])

theorem Reads.unique {α : Type} {p : ℕ → Option α} {x y : α} (hx : Reads p x) (hy : Reads p y) :
    x = y := by
  obtain ⟨n, hn, hn'⟩ := (hx.and hy).exists
  exact Option.some.inj (hn.symm.trans hn')

theorem Reads.step {α : Type} {P : ℕ → Prop} {q : ℕ → Option α} {y : α}
    (h : ∀ᶠ n in Filter.atTop, P n) (hq : ∀ n, P n → q (n + 1) = some y) : Reads q y := by
  rw [Reads, ← Filter.map_add_atTop_eq_nat 1]
  exact h.mono hq

theorem Denotes.unique {s : Octets} {v w : Value} (hv : Denotes s v) (hw : Denotes s w) :
    v = w :=
  congrArg Prod.fst (Reads.unique hv hw)

/-! ## Quoting -/

def hexDigit (n : ℕ) : UInt8 := UInt8.ofNat (if n < 10 then 48 + n else 87 + n)

/-- The escape of a code unit as `encoding/json` writes it. -/
def escaped (u : ℕ) : Octets :=
  [92, 117, hexDigit (u / 4096), hexDigit (u / 256 % 16), hexDigit (u / 16 % 16), hexDigit (u % 16)]

def shortEscapes : List (ℕ × UInt8) :=
  [(34, 34), (92, 92), (8, 98), (12, 102), (10, 110), (13, 114), (9, 116)]

/-- A character inside a string, escaped where `encoding/json` escapes it. -/
def quoteChar (c : Char) : Octets :=
  match shortEscapes.lookup c.toNat with
  | some x => [92, x]
  | none =>
    if c.toNat < 0x20 ∨ c.toNat ∈ [38, 60, 62, 0x2028, 0x2029] then escaped c.toNat
    else String.utf8EncodeChar c

/-- One rune of a string as `encoding/json` writes it. -/
def quoteRune : Utf8.Rune → Octets
  | .bad _ => escaped 0xFFFD
  | .char c => quoteChar c

/-- `json.Marshal` of a string. -/
def quote (s : Octets) : Octets := 34 :: ((Utf8.runes s).flatMap quoteRune ++ [34])

/-- The value of a string: what is not UTF-8 is replaced. -/
def validText (s : Octets) : Octets :=
  (Utf8.runes s).flatMap fun r => String.utf8EncodeChar r.value

theorem hexValue_hexDigit : ∀ n < 16, hexValue (hexDigit n) = some n := by decide

theorem letters_of_shortEscapes : ∀ e ∈ shortEscapes,
    letters.lookup e.2 = some (UInt8.ofNat e.1) ∧ e.2 ≠ 117 ∧ e.1 < 0x80 := by decide

theorem text_unit {u : ℕ} (hu : u < 0xD800 ∨ 0xE000 ≤ u) (ps : List Piece) :
    text (.unit u :: ps) = String.utf8EncodeChar (Char.ofNat u) ++ text ps := by
  have hs : isSurrogate u = false := by
    simp only [isSurrogate, Bool.and_eq_false_iff, decide_eq_false_iff_not]
    omega
  have hpair : ∀ v, ¬ (0xD800 ≤ u ∧ u < 0xDC00 ∧ 0xDC00 ≤ v ∧ v < 0xE000) := fun v => by omega
  rcases ps with _ | ⟨⟨b⟩ | ⟨v⟩, ps⟩ <;> simp [text, unitText, hs, hpair]

theorem text_octets (bs : Octets) (ps : List Piece) :
    text (bs.map .octet ++ ps) = bs ++ text ps := by
  induction bs with
  | nil => rfl
  | cons b bs ih => simp [text, ih]

section Quote

variable {s t : Octets} {ps : List Piece} (h : Reads (body · s) (ps, t))
include h

theorem reads_plain {bs : Octets} (hbs : ∀ b ∈ bs, b ≠ 34 ∧ b ≠ 92 ∧ ¬ b < 0x20) :
    Reads (body · (bs ++ s)) (bs.map .octet ++ ps, t) := by
  induction bs with
  | nil => exact h
  | cons b bs ih =>
    obtain ⟨hq, hb, hlow⟩ := hbs b List.mem_cons_self
    exact .step (ih fun x hx => hbs x (List.mem_cons_of_mem b hx)) fun n hn => by
      simp [body, hq, hb, hlow, hn]

theorem reads_letter {c b : UInt8} (hc : letters.lookup c = some b) (hu : c ≠ 117) :
    Reads (body · (92 :: c :: s)) (.octet b :: ps, t) :=
  .step h fun n hn => by simp [body, escape, hc, hu, hn]

theorem reads_escaped {u : ℕ} (hu : u < 0x10000) :
    Reads (body · (escaped u ++ s)) (.unit u :: ps, t) :=
  .step h fun n hn => by
    have hdigits : (((u / 4096) * 16 + u / 256 % 16) * 16 + u / 16 % 16) * 16 + u % 16 = u := by
      omega
    simp [body, escaped, escape, codeUnit, hexValue_hexDigit _ (show u / 4096 < 16 by omega),
      hexValue_hexDigit _ (Nat.mod_lt _ (show 0 < 16 by decide)), hdigits, hn]

theorem reads_quoteRune (r : Utf8.Rune) :
    ∃ p, Reads (body · (quoteRune r ++ s)) (p ++ ps, t) ∧
      text (p ++ ps) = String.utf8EncodeChar r.value ++ text ps := by
  cases r with
  | bad b => exact ⟨[.unit 0xFFFD], reads_escaped h (by decide), text_unit (by decide) ps⟩
  | char c =>
    have hc : Char.ofNat c.toNat = c := Char.ofNat_toNat c
    show ∃ p, Reads (body · (quoteChar c ++ s)) (p ++ ps, t) ∧
      text (p ++ ps) = String.utf8EncodeChar c ++ text ps
    unfold quoteChar
    split
    · next x hx =>
      obtain ⟨l, l', hl, -⟩ := List.lookup_eq_some_iff.mp hx
      obtain ⟨hletter, hu, hlow⟩ := letters_of_shortEscapes (c.toNat, x) (by rw [hl]; simp)
      refine ⟨[.octet (UInt8.ofNat c.toNat)], reads_letter h hletter hu, ?_⟩
      have hascii := Utf8.encodeChar_ascii (x := UInt8.ofNat c.toNat)
        (by rw [Utf8.toNat_ofNat_of_lt (by omega)]; exact hlow)
      rw [Utf8.toNat_ofNat_of_lt (by omega), hc] at hascii
      rw [hascii]
      rfl
    · next hx =>
      split_ifs with hlow
      · have hbound : c.toNat < 0xD800 := by
          simp only [List.mem_cons, List.not_mem_nil, or_false] at hlow
          omega
        refine ⟨[.unit c.toNat], reads_escaped h (by omega), ?_⟩
        rw [List.singleton_append, text_unit (.inl hbound), hc]
      · refine ⟨_, reads_plain h fun b hb => ?_, text_octets _ ps⟩
        -- an octet of US-ASCII in the encoding is the character itself
        have hself : b.toNat < 0x80 → c.toNat = b.toNat := fun hlt => by
          rw [Utf8.eq_of_mem_encodeChar hlt hb]
          exact Utf8.toNat_val_ofNat (Or.inl (by omega))
        refine ⟨?_, ?_, fun hlt => ?_⟩
        · rintro rfl
          rw [hself (by decide)] at hx
          cases hx
        · rintro rfl
          rw [hself (by decide)] at hx
          cases hx
        · exact hlow (.inl ((hself (hlt.trans (by decide))).trans_lt hlt))

end Quote

theorem reads_quoted (s t : Octets) :
    ∃ ps, Reads (body · ((Utf8.runes s).flatMap quoteRune ++ 34 :: t)) (ps, t) ∧
      text ps = validText s := by
  unfold validText
  induction Utf8.runes s with
  | nil => exact ⟨[], .step (.of_forall fun _ => trivial) fun n _ => by simp [body], rfl⟩
  | cons r rs ih =>
    obtain ⟨ps, hps, htext⟩ := ih
    obtain ⟨p, hp, hr⟩ := reads_quoteRune hps r
    refine ⟨p ++ ps, ?_, ?_⟩
    · rwa [List.flatMap_cons, List.append_assoc]
    · rw [hr, htext, List.flatMap_cons]

theorem denotes_quote (s : Octets) : Denotes (quote s) (.string (validText s)) := by
  obtain ⟨ps, hps, htext⟩ := reads_quoted s []
  rw [← htext]
  exact .step hps fun n hn => by simp [quote, value, skip, isSpace, hn]

/-! ## Containers -/

def commas (xs : List (Octets)) : Octets := [44].intercalate xs

theorem commas_singleton (x : Octets) : commas [x] = x := by
  simp [commas, List.intercalate, List.intersperse]

theorem commas_cons_cons (x y : Octets) (xs : List (Octets)) :
    commas (x :: y :: xs) = x ++ 44 :: commas (y :: xs) := by
  simp [commas, List.intercalate, List.intersperse]

def array (xs : List (Octets)) : Octets := 91 :: (commas xs ++ [93])

def member (k x : Octets) : Octets := quote k ++ 58 :: x

def object (xs : List (Octets)) : Octets := 123 :: (commas xs ++ [125])

section Commas

variable {α : Type} {close : UInt8} {f : Octets → Option (α × Octets)}
  (hf : IsReader close f) (hclose : Ends [close]) (hne : close ≠ 44)
include hf hclose hne

theorem IsReader.items_commas {x : Octets} {a : α} (hx : f x = some (a, []))
    {xs : List (Octets)} {as : List α}
    (h : List.Forall₂ (fun x a => f x = some (a, [])) xs as) {n : ℕ} (hn : xs.length < n) :
    Json.items f close n (commas (x :: xs) ++ [close]) = some (a :: as, []) := by
  induction h generalizing x a n with
  | nil =>
    obtain ⟨n, rfl⟩ := Nat.exists_eq_add_one.mpr hn
    simp [commas_singleton, Json.items, hf.append hclose hx, hne, skip]
  | @cons y b ys bs hy hys ih =>
    obtain ⟨n, rfl⟩ := Nat.exists_eq_add_one.mpr (Nat.zero_lt_of_lt hn)
    have hcomma := hf.append (t := 44 :: (commas (y :: ys) ++ [close])) (by simp [Ends]) hx
    simp [commas_cons_cons, Json.items, hcomma, ih hy (Nat.lt_of_succ_lt_succ hn)]

theorem IsReader.container_commas {xs : List (Octets)} {as : List α}
    (h : List.Forall₂ (fun x a => f x = some (a, [])) xs as) {n : ℕ} (hn : xs.length ≤ n) :
    Json.container f close n (commas xs ++ [close]) = some (as, []) := by
  cases h with
  | nil =>
    have hempty : commas [] ++ [close] = [close] := rfl
    rw [Json.container, hempty, hclose.skip]
    exact if_pos rfl
  | cons hx hxs =>
    have hread := hf.items_commas hclose hne hx hxs hn
    have hhead := hf.head_items (t := []) hread
    rw [List.append_nil] at hhead
    rw [Json.container, if_neg hhead, hread]

end Commas

theorem eventually_forall₂ {α β : Type} {R : ℕ → α → β → Prop} {xs : List α} {ys : List β}
    (h : List.Forall₂ (fun x y => ∀ᶠ n in Filter.atTop, R n x y) xs ys) :
    ∀ᶠ n in Filter.atTop, List.Forall₂ (R n) xs ys := by
  induction h with
  | nil => exact .of_forall fun _ => .nil
  | cons hx _ ih => exact (hx.and ih).mono fun n hn => .cons hn.1 hn.2

/-- **An array of texts denotes the array of what they denote.** -/
theorem denotes_array {xs : List (Octets)} {vs : List Value} (h : List.Forall₂ Denotes xs vs) :
    Denotes (array xs) (.array vs) := by
  refine .step ((eventually_forall₂ h).and (Filter.eventually_ge_atTop xs.length)) fun n hn => ?_
  have hread := (isReader_value n).container_commas (by simp [Ends]) (by decide) hn.1 hn.2
  simp [array, value, show skip (91 :: _) = 91 :: _ from rfl, hread]

def IsMember (x : Octets) (m : Octets × Value) : Prop :=
  ∃ k y, x = member k y ∧ m.1 = validText k ∧ Denotes y m.2

theorem IsMember.reads {x : Octets} {m : Octets × Value} (h : IsMember x m) :
    Reads (fun n => entry n (value n) x) (m, []) := by
  obtain ⟨k, y, rfl, hk, hy⟩ := h
  obtain ⟨ps, hps, htext⟩ := reads_quoted k (58 :: y)
  refine (Filter.Eventually.and hps hy).mono fun n hn => ?_
  simp [member, quote, entry, skip, isSpace, hn.1, hn.2, htext, ← hk]

/-- **An object of texts denotes the object of what they denote.** -/
theorem denotes_object {xs : List (Octets)} {ms : List (Octets × Value)}
    (h : List.Forall₂ IsMember xs ms) : Denotes (object xs) (.object ms) := by
  have hreads := eventually_forall₂ (List.Forall₂.imp (fun _ _ => IsMember.reads) h)
  refine .step (hreads.and (Filter.eventually_ge_atTop xs.length)) fun n hn => ?_
  have hread := (isReader_entry (isReader_value n)).container_commas (by simp [Ends]) (by decide)
    hn.1 hn.2
  simp [object, value, show skip (123 :: _) = 123 :: _ from rfl, hread]

end NaustJmap.Library.Json
