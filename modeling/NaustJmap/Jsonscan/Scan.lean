import NaustJmap.Library.Map

/-!
# The JSON Scanner

`core/internal/jsonscan`: one validating pass over a buffer.  The position is the list of bytes
left, and an error carries how many they were.  The readers of objects and arrays run the loops
`scanMembers` and `scanElems`, whose fuel is never used up beyond the length of the buffer
(`skipValue_fuel`).
-/

namespace NaustJmap.Jsonscan

/-- A buffer, from the scanner's position on. -/
abbrev Bytes := List UInt8

def maxDepth : ℕ := 10000

/-- The error of `errAt`: the text, and the bytes left where it happened. -/
structure ScanError where
  left : ℕ
  msg : String
  deriving DecidableEq, Repr

def errAt {α : Type} (s : Bytes) (msg : String) : Except ScanError α := .error ⟨s.length, msg⟩

/-! ## Bytes -/

def quote : UInt8 := 0x22
def backslash : UInt8 := 0x5c
def lbrace : UInt8 := 0x7b
def rbrace : UInt8 := 0x7d
def lbracket : UInt8 := 0x5b
def rbracket : UInt8 := 0x5d
def comma : UInt8 := 0x2c
def colon : UInt8 := 0x3a
def minus : UInt8 := 0x2d

def wordNull : Bytes := [0x6e, 0x75, 0x6c, 0x6c]
def wordTrue : Bytes := [0x74, 0x72, 0x75, 0x65]
def wordFalse : Bytes := [0x66, 0x61, 0x6c, 0x73, 0x65]

def isSpace (c : UInt8) : Bool := c == 0x20 || c == 0x09 || c == 0x0a || c == 0x0d

def isDigit (c : UInt8) : Bool := 0x30 ≤ c && c ≤ 0x39

def isHex (c : UInt8) : Bool :=
  isDigit c || (0x61 ≤ c && c ≤ 0x66) || (0x41 ≤ c && c ≤ 0x46)

/-- What stands for itself or for a control character after a backslash. -/
def simpleEscape (c : UInt8) : Option Char :=
  if c = 0x22 then some '"'
  else if c = 0x5c then some '\\'
  else if c = 0x2f then some '/'
  else if c = 0x62 then some (Char.ofNat 8)
  else if c = 0x66 then some (Char.ofNat 12)
  else if c = 0x6e then some '\n'
  else if c = 0x72 then some '\r'
  else if c = 0x74 then some '\t'
  else none

/-! ## Tokens -/

def skipSpace (s : Bytes) : Bytes := s.dropWhile isSpace

def endOfInput (s : Bytes) : Except ScanError Unit :=
  match skipSpace s with
  | [] => .ok ()
  | c :: r => errAt (c :: r) "trailing data"

def literal (want s : Bytes) : Except ScanError Bytes :=
  if want.isPrefixOf s then .ok (s.drop want.length) else errAt s "invalid literal"

/-- The bytes between two positions, `s.buf[start:s.pos]`. -/
def walked (s r : Bytes) : Bytes := s.take (s.length - r.length)

/-- The body of a string between its quotes, `s.buf[start+1 : s.pos-1]`. -/
def spanOf (s r : Bytes) : Bytes := (walked s r).tail.dropLast

/-- The loop of `skipString` after the opening quote, with `skipEscape`. -/
def skipBody : Bytes → Except ScanError Bytes
  | [] => errAt [] "unterminated string"
  | c :: r =>
    if c = quote then .ok r
    else if c = backslash then
      match r with
      | [] => errAt [c] "unterminated escape"
      | e :: r' =>
        if (simpleEscape e).isSome then skipBody r'
        else if e = 0x75 then
          match r' with
          | h1 :: h2 :: h3 :: h4 :: r'' =>
            if [h1, h2, h3, h4].all isHex then skipBody r''
            else errAt (c :: r) "invalid \\u escape"
          | _ => errAt (c :: r) "truncated \\u escape"
        else errAt (c :: r) "invalid escape character"
    else if c < 0x20 then errAt (c :: r) "control character in string"
    else skipBody r

def skipString (s : Bytes) : Except ScanError Bytes :=
  match s with
  | [] => errAt [] "expected string"
  | c :: r => if c = quote then skipBody r else errAt s "expected string"

def skipDigits (s : Bytes) : Except ScanError Bytes :=
  match s with
  | [] => errAt [] "invalid number"
  | c :: r => if isDigit c then .ok (r.dropWhile isDigit) else errAt s "invalid number"

def skipFraction (s : Bytes) : Except ScanError Bytes :=
  match s with
  | [] => .ok []
  | c :: r => if c = 0x2e then skipDigits r else .ok s

def skipExponent (s : Bytes) : Except ScanError Bytes :=
  match s with
  | [] => .ok []
  | c :: r =>
    if c = 0x65 || c = 0x45 then
      match r with
      | [] => skipDigits r
      | d :: r' => if d = 0x2b || d = minus then skipDigits r' else skipDigits r
    else .ok s

def skipInteger (s : Bytes) : Except ScanError Bytes :=
  match s with
  | [] => errAt [] "invalid number"
  | c :: r => if c = 0x30 then .ok r else skipDigits s

def skipSign (s : Bytes) : Bytes :=
  match s with
  | [] => []
  | c :: r => if c = minus then r else s

/-- `scanner.skipNumber`; the first byte is a minus sign or a digit. -/
def skipNumber (s : Bytes) : Except ScanError Bytes := do
  let s ← skipInteger (skipSign s)
  let s ← skipFraction s
  skipExponent s

def expectColon (s : Bytes) : Except ScanError Bytes :=
  match s with
  | [] => errAt [] "expected ':' after member name"
  | c :: r => if c = colon then .ok r else errAt s "expected ':' after member name"

/-! ## Containers -/

/-- The loop over the members of an object; `member` takes a name's span and a value's bytes. -/
def scanMembers {α : Type} (value : Bytes → Except ScanError Bytes)
    (member : α → Bytes → Bytes → α) :
    ℕ → α → Bytes → Except ScanError (α × Bytes)
  | 0, _, s => errAt s "unterminated object"
  | fuel + 1, acc, s => do
    let afterName ← skipString (skipSpace s)
    let afterColon ← expectColon (skipSpace afterName)
    let afterValue ← value (skipSpace afterColon)
    let acc := member acc (spanOf (skipSpace s) afterName)
      (walked (skipSpace afterColon) afterValue)
    match skipSpace afterValue with
    | [] => errAt [] "unterminated object"
    | c :: r =>
      if c = comma then scanMembers value member fuel acc r
      else if c = rbrace then .ok (acc, r)
      else errAt (c :: r) "expected ',' or '\x7d' in object"

def scanObject {α : Type} (value : Bytes → Except ScanError Bytes) (member : α → Bytes → Bytes → α)
    (fuel : ℕ) (acc : α) (s : Bytes) : Except ScanError (α × Bytes) :=
  match skipSpace s with
  | [] => scanMembers value member fuel acc []
  | c :: r => if c = rbrace then .ok (acc, r) else scanMembers value member fuel acc (c :: r)

def scanElems {α : Type} (elem : α → Bytes → Except ScanError (α × Bytes)) :
    ℕ → α → Bytes → Except ScanError (α × Bytes)
  | 0, _, s => errAt s "unterminated array"
  | fuel + 1, acc, s => do
    let (acc, afterElem) ← elem acc (skipSpace s)
    match skipSpace afterElem with
    | [] => errAt [] "unterminated array"
    | c :: r =>
      if c = comma then scanElems elem fuel acc r
      else if c = rbracket then .ok (acc, r)
      else errAt (c :: r) "expected ',' or ']' in array"

def scanArray {α : Type} (elem : α → Bytes → Except ScanError (α × Bytes)) (fuel : ℕ) (acc : α)
    (s : Bytes) : Except ScanError (α × Bytes) :=
  match skipSpace s with
  | [] => scanElems elem fuel acc []
  | c :: r => if c = rbracket then .ok (acc, r) else scanElems elem fuel acc (c :: r)

def skipped (value : Bytes → Except ScanError Bytes) (_ : Unit) (s : Bytes) :
    Except ScanError (Unit × Bytes) :=
  (value s).map fun r => ((), r)

/-- `scanner.skipValue`: one JSON value inside `opened` containers. -/
def skipValue : ℕ → ℕ → Bytes → Except ScanError Bytes
  | 0, _, s => errAt s "missing value"
  | _ + 1, _, [] => errAt [] "missing value"
  | fuel + 1, opened, c :: r =>
    if c = lbrace then
      if opened + 1 > maxDepth then errAt (c :: r) "exceeded max nesting depth"
      else (scanObject (skipValue fuel (opened + 1)) (fun _ _ _ => ()) fuel () r).map Prod.snd
    else if c = lbracket then
      if opened + 1 > maxDepth then errAt (c :: r) "exceeded max nesting depth"
      else (scanArray (skipped (skipValue fuel (opened + 1))) fuel () r).map Prod.snd
    else if c = quote then skipString (c :: r)
    else if c = 0x74 then literal wordTrue (c :: r)
    else if c = 0x66 then literal wordFalse (c :: r)
    else if c = 0x6e then literal wordNull (c :: r)
    else if c = minus || isDigit c then skipNumber (c :: r)
    else errAt (c :: r) "invalid value"

/-! ## Every token moves the scanner forward -/

theorem length_skipSpace_le (s : Bytes) : (skipSpace s).length ≤ s.length :=
  (List.dropWhile_suffix isSpace).length_le

variable {α ε β : Type} {s r : Bytes} {fuel n m : ℕ}

theorem errAt_ne_ok {msg : String} {a : α} : errAt s msg ≠ .ok a :=
  fun h => nomatch h

theorem skipBody_lt (h : skipBody s = .ok r) : r.length < s.length := by
  fun_induction skipBody s with
  | case2 =>
    cases h
    simp
  | case4 | case5 | case10 =>
    rename_i ih
    have := ih h
    simp only [List.length_cons] at this ⊢
    omega
  | _ => cases h

theorem skipString_lt (h : skipString s = .ok r) : r.length < s.length := by
  unfold skipString at h
  split at h
  · cases h
  · split at h
    · have := skipBody_lt h
      simp only [List.length_cons]
      omega
    · cases h

theorem literal_lt {want : Bytes} (h : literal want s = .ok r) (hw : want ≠ []) :
    r.length < s.length := by
  unfold literal at h
  split at h
  · rename_i hpre
    cases h
    have hle := (List.isPrefixOf_iff_prefix.mp hpre).length_le
    have := List.length_pos_iff.mpr hw
    rw [List.length_drop]
    omega
  · cases h

theorem skipDigits_lt (h : skipDigits s = .ok r) : r.length < s.length := by
  unfold skipDigits at h
  split at h
  · cases h
  · split at h
    · rename_i c t _
      cases h
      have := (List.dropWhile_suffix (l := t) isDigit).length_le
      simp only [List.length_cons]
      omega
    · cases h

theorem skipInteger_lt (h : skipInteger s = .ok r) : r.length < s.length := by
  unfold skipInteger at h
  split at h
  · cases h
  · split at h
    · cases h
      simp
    · exact skipDigits_lt h

theorem skipFraction_le (h : skipFraction s = .ok r) : r.length ≤ s.length := by
  unfold skipFraction at h
  split at h
  · cases h
    simp
  · split at h
    · have := skipDigits_lt h
      simp only [List.length_cons]
      omega
    · cases h
      simp

theorem skipExponent_le (h : skipExponent s = .ok r) : r.length ≤ s.length := by
  unfold skipExponent at h
  split at h
  · cases h
    simp
  · split at h
    · split at h
      · exact absurd h errAt_ne_ok
      · split at h
        all_goals
          have hlt := skipDigits_lt h
          simp only [List.length_cons] at *
          omega
    · cases h
      simp

theorem ok_bind (a : α) (f : α → Except ε β) : (Except.ok a >>= f) = f a := rfl

theorem error_bind (x : ε) (f : α → Except ε β) : (Except.error x >>= f) = .error x := rfl

theorem bind_eq_ok {x : Except ε α} {f : α → Except ε β} {b : β} (h : x >>= f = .ok b) :
    ∃ a, x = .ok a ∧ f a = .ok b := by
  cases x with
  | error e => cases h
  | ok a => exact ⟨a, rfl, h⟩

theorem map_eq_ok {x : Except ε α} {f : α → β} {b : β} (h : x.map f = .ok b) :
    ∃ a, x = .ok a ∧ f a = b := by
  cases x with
  | error e => cases h
  | ok a => exact ⟨a, rfl, by cases h; rfl⟩

theorem skipNumber_lt (h : skipNumber s = .ok r) : r.length < s.length := by
  obtain ⟨s1, h1, h⟩ := bind_eq_ok h
  obtain ⟨s2, h2, h3⟩ := bind_eq_ok h
  have hf := skipFraction_le h2
  have he := skipExponent_le h3
  have hi := skipInteger_lt h1
  have hs : (skipSign s).length ≤ s.length := by
    unfold skipSign
    split
    · simp
    · split <;> simp
  omega

theorem expectColon_lt (h : expectColon s = .ok r) : r.length < s.length := by
  unfold expectColon at h
  split at h
  · cases h
  · split at h
    · cases h
      simp
    · cases h

/-- Two readers of values do the same on buffers of at most `n` bytes, and move forward. -/
def Same (n : ℕ) (v w : Bytes → Except ScanError Bytes) : Prop :=
  ∀ s : Bytes, s.length ≤ n → v s = w s ∧ ∀ r, v s = .ok r → r.length < s.length

section Loops

variable {v w : Bytes → Except ScanError Bytes} {f : α → Bytes → Bytes → α}
  {g : β → Bytes → Bytes → β} {e : α → Bytes → Except ScanError (α × Bytes)}

theorem scanMembers_ok {acc acc' : α} (h : scanMembers v f (fuel + 1) acc s = .ok (acc', r)) :
    ∃ s1 s2 s3 c s4, skipString (skipSpace s) = .ok s1 ∧ expectColon (skipSpace s1) = .ok s2 ∧
      v (skipSpace s2) = .ok s3 ∧ skipSpace s3 = c :: s4 ∧
      (c = comma ∧ scanMembers v f fuel
          (f acc (spanOf (skipSpace s) s1) (walked (skipSpace s2) s3)) s4 = .ok (acc', r) ∨
        c ≠ comma ∧ c = rbrace ∧
          (f acc (spanOf (skipSpace s) s1) (walked (skipSpace s2) s3), s4) = (acc', r)) := by
  obtain ⟨s1, h1, h⟩ := bind_eq_ok h
  obtain ⟨s2, h2, h⟩ := bind_eq_ok h
  obtain ⟨s3, h3, h⟩ := bind_eq_ok h
  cases h4 : skipSpace s3 with
  | nil =>
    rw [h4] at h
    cases h
  | cons c s4 =>
    refine ⟨s1, s2, s3, c, s4, h1, h2, h3, h4, ?_⟩
    simp only [h4] at h
    by_cases hc : c = comma
    · rw [if_pos hc] at h
      exact .inl ⟨hc, h⟩
    · rw [if_neg hc] at h
      by_cases hb : c = rbrace
      · rw [if_pos hb] at h
        exact .inr ⟨hc, hb, Except.ok.inj h⟩
      · rw [if_neg hb] at h
        cases h

theorem scanMembers_accepts (hvw : ∀ {s r : Bytes}, v s = .ok r → w s = .ok r) {acc acc' : α}
    (h : scanMembers v f fuel acc s = .ok (acc', r)) (b : β) :
    ∃ b', scanMembers w g fuel b s = .ok (b', r) := by
  induction fuel generalizing acc b s with
  | zero => cases h
  | succ fuel ih =>
    obtain ⟨s1, s2, s3, c, s4, h1, h2, h3, h4, hrest⟩ := scanMembers_ok h
    unfold scanMembers
    simp only [h1, h2, hvw h3, ok_bind, h4]
    rcases hrest with ⟨rfl, hrest⟩ | ⟨hc, rfl, heq⟩
    · exact ih hrest _
    · cases heq
      exact ⟨_, rfl⟩

theorem scanObject_accepts (hvw : ∀ {s r : Bytes}, v s = .ok r → w s = .ok r) {acc acc' : α}
    (h : scanObject v f fuel acc s = .ok (acc', r)) (b : β) :
    ∃ b', scanObject w g fuel b s = .ok (b', r) := by
  unfold scanObject at h ⊢
  split at h
  · exact scanMembers_accepts hvw h b
  · split at h
    · rw [if_pos (by assumption)]
      cases h
      exact ⟨b, rfl⟩
    · rw [if_neg (by assumption)]
      exact scanMembers_accepts hvw h b

variable (hvw : Same n v w) (hs : s.length ≤ n) (hfuel : s.length < fuel) (hm : s.length < m)

include hvw hs hfuel hm

/-- Whatever the fuel, the loop computes alike and ends behind where it began. -/
theorem scanMembers_same (acc : α) :
    scanMembers v f fuel acc s = scanMembers w f m acc s ∧
      ∀ acc' r, scanMembers v f fuel acc s = .ok (acc', r) → r.length < s.length := by
  induction fuel generalizing m acc s with
  | zero => omega
  | succ fuel ih =>
    obtain ⟨m, rfl⟩ : ∃ m', m = m' + 1 := ⟨m - 1, by omega⟩
    have hle := length_skipSpace_le s
    unfold scanMembers
    cases h1 : skipString (skipSpace s) with
    | error x => exact ⟨rfl, fun _ _ h => nomatch h⟩
    | ok s1 =>
      have hlt1 := skipString_lt h1
      have hle1 := length_skipSpace_le s1
      cases h2 : expectColon (skipSpace s1) with
      | error x =>
        simp only [ok_bind, h2, error_bind, true_and]
        exact fun _ _ h => nomatch h
      | ok s2 =>
        have hlt2 := expectColon_lt h2
        have hle2 := length_skipSpace_le s2
        obtain ⟨hsame, hforward⟩ := hvw (skipSpace s2) (by omega)
        simp only [ok_bind, h2, ← hsame]
        cases h3 : v (skipSpace s2) with
        | error x => exact ⟨rfl, fun _ _ h => nomatch h⟩
        | ok s3 =>
          have hlt3 := hforward s3 h3
          have hle3 := length_skipSpace_le s3
          simp only [ok_bind]
          cases h4 : skipSpace s3 with
          | nil => exact ⟨rfl, fun _ _ h => nomatch h⟩
          | cons c s4 =>
            rw [h4, List.length_cons] at hle3
            dsimp only
            split
            · obtain ⟨heq, hrest⟩ := ih (s := s4) (m := m) (by omega) (by omega) (by omega) _
              exact ⟨heq, fun acc' r h => (hrest acc' r h).trans (by omega)⟩
            · split
              · exact ⟨rfl, fun _ _ h => by cases h; omega⟩
              · exact ⟨rfl, fun _ _ h => nomatch h⟩

theorem scanElems_same :
    scanElems (skipped v) fuel () s = scanElems (skipped w) m () s ∧
      ∀ acc' r, scanElems (skipped v) fuel () s = .ok (acc', r) → r.length < s.length := by
  induction fuel generalizing m s with
  | zero => omega
  | succ fuel ih =>
    obtain ⟨m, rfl⟩ : ∃ m', m = m' + 1 := ⟨m - 1, by omega⟩
    have hle := length_skipSpace_le s
    obtain ⟨hsame, hforward⟩ := hvw (skipSpace s) (by omega)
    unfold scanElems
    simp only [skipped, ← hsame]
    cases h1 : v (skipSpace s) with
    | error x => exact ⟨rfl, fun _ _ h => nomatch h⟩
    | ok s1 =>
      have hlt1 := hforward s1 h1
      have hle1 := length_skipSpace_le s1
      simp only [Except.map, ok_bind]
      cases h2 : skipSpace s1 with
      | nil => exact ⟨rfl, fun _ _ h => nomatch h⟩
      | cons c s2 =>
        rw [h2, List.length_cons] at hle1
        dsimp only
        split
        · obtain ⟨heq, hrest⟩ := ih (s := s2) (m := m) (by omega) (by omega) (by omega)
          exact ⟨heq, fun acc' r h => (hrest acc' r h).trans (by omega)⟩
        · split
          · exact ⟨rfl, fun _ _ h => by cases h; omega⟩
          · exact ⟨rfl, fun _ _ h => nomatch h⟩

/-! An object or an array from behind its opening byte: either it closes at once, or its loop
    runs on what follows the whitespace. -/

theorem scanObject_same (acc : α) :
    scanObject v f fuel acc s = scanObject w f m acc s ∧
      ∀ acc' r, scanObject v f fuel acc s = .ok (acc', r) → r.length < s.length := by
  have hle := length_skipSpace_le s
  unfold scanObject
  obtain ⟨heq, hrest⟩ := scanMembers_same (s := skipSpace s) (f := f) hvw (hle.trans hs)
    (hle.trans_lt hfuel) (hle.trans_lt hm) acc
  cases h : skipSpace s with
  | nil =>
    rw [h] at heq hrest
    exact ⟨heq, fun acc' r hok => absurd (hrest acc' r hok) (Nat.not_lt_zero _)⟩
  | cons c t =>
    rw [h] at heq hrest hle
    dsimp only
    split
    · exact ⟨rfl, fun _ _ hok => by cases hok; exact hle⟩
    · exact ⟨heq, fun acc' r hok => (hrest acc' r hok).trans_le hle⟩

theorem scanArray_same :
    scanArray (skipped v) fuel () s = scanArray (skipped w) m () s ∧
      ∀ acc' r, scanArray (skipped v) fuel () s = .ok (acc', r) → r.length < s.length := by
  have hle := length_skipSpace_le s
  unfold scanArray
  obtain ⟨heq, hrest⟩ := scanElems_same (s := skipSpace s) hvw (hle.trans hs)
    (hle.trans_lt hfuel) (hle.trans_lt hm)
  cases h : skipSpace s with
  | nil =>
    rw [h] at heq hrest
    exact ⟨heq, fun acc' r hok => absurd (hrest acc' r hok) (Nat.not_lt_zero _)⟩
  | cons c t =>
    rw [h] at heq hrest hle
    dsimp only
    split
    · exact ⟨rfl, fun _ _ hok => by cases hok; exact hle⟩
    · exact ⟨heq, fun acc' r hok => (hrest acc' r hok).trans_le hle⟩

end Loops

/-! ## Values -/

theorem skipValue_same (opened : ℕ) (hn : s.length < n) (hm : s.length < m) :
    skipValue n opened s = skipValue m opened s ∧
      ∀ r, skipValue n opened s = .ok r → r.length < s.length := by
  induction n generalizing m opened s with
  | zero => omega
  | succ n ih =>
    obtain ⟨m, rfl⟩ : ∃ m', m = m' + 1 := ⟨m - 1, by omega⟩
    cases s with
    | nil => exact ⟨rfl, fun _ h => nomatch h⟩
    | cons c t =>
      simp only [List.length_cons] at hn hm ⊢
      have hvw : Same t.length (skipValue n (opened + 1)) (skipValue m (opened + 1)) :=
        fun s' hs' => ih (opened + 1) (by omega) (by omega)
      obtain ⟨hobj, hobj'⟩ := scanObject_same (f := fun _ _ _ => ()) hvw le_rfl
        (show t.length < n by omega) (show t.length < m by omega) ()
      obtain ⟨harr, harr'⟩ := scanArray_same hvw le_rfl (show t.length < n by omega)
        (show t.length < m by omega)
      unfold skipValue
      rw [hobj, harr]
      refine ⟨rfl, fun r h => ?_⟩
      split_ifs at h
      · cases h
      · obtain ⟨⟨_, _⟩, hok, rfl⟩ := map_eq_ok h
        exact (hobj' _ _ (hobj.trans hok)).trans (Nat.lt_succ_self _)
      · cases h
      · obtain ⟨⟨_, _⟩, hok, rfl⟩ := map_eq_ok h
        exact (harr' _ _ (harr.trans hok)).trans (Nat.lt_succ_self _)
      · exact skipString_lt h
      · exact literal_lt h (by simp [wordTrue])
      · exact literal_lt h (by simp [wordFalse])
      · exact literal_lt h (by simp [wordNull])
      · exact skipNumber_lt h
      · cases h

/-- Fuel beyond the length of the buffer is never used up. -/
theorem skipValue_fuel (opened : ℕ) (hn : s.length < n) (hm : s.length < m) :
    skipValue n opened s = skipValue m opened s :=
  (skipValue_same opened hn hm).1

end NaustJmap.Jsonscan
