import NaustJmap.Jsonscan.Scan

/-!
# Decoding Values and Records

The entry points of `core/internal/jsonscan`: each of them reads one complete JSON value from
a buffer.  Strings come out decoded; as every rune the decoder appends is a valid one, Go's
strings are Lean's here.

`strings.ToLower` and `time.Parse` are the standard library's (`Stdlib`).
-/

namespace NaustJmap.Jsonscan

open Library

/-! ## Strings -/

def cleanASCII (span : Bytes) : Bool := span.all fun c => c != backslash && c < 0x80

def asciiText (span : Bytes) : String := String.ofList (span.map fun c => Char.ofNat c.toNat)

def hexDigit (c : UInt8) : ℕ :=
  if isDigit c then c.toNat - 0x30
  else if 0x61 ≤ c && c ≤ 0x66 then c.toNat - 0x61 + 10
  else c.toNat - 0x41 + 10

def hex4 (digits : Bytes) : ℕ := digits.foldl (fun v c => v * 16 + hexDigit c) 0

def isSurrogate (r : ℕ) : Bool := 0xd800 ≤ r && r < 0xe000

/-- `utf16.DecodeRune`; `none` is `utf8.RuneError`. -/
def decodeSurrogates (hi lo : ℕ) : Option Char :=
  if 0xd800 ≤ hi && hi < 0xdc00 && 0xdc00 ≤ lo && lo < 0xe000 then
    some (Char.ofNat ((hi - 0xd800) * 0x400 + (lo - 0xdc00) + 0x10000))
  else none

def runeError : Char := Char.ofNat 0xfffd

def tailBits (c : UInt8) : ℕ := c.toNat - 0x80

def within (lo hi c : UInt8) : Bool := lo ≤ c && c ≤ hi

/-- `utf8.DecodeRune` at a byte from 0x80 on: the rune and the bytes behind it. -/
def decodeRune (c : UInt8) (r : Bytes) : Char × Bytes :=
  match r with
  | b1 :: r1 =>
    if within 0xc2 0xdf c && within 0x80 0xbf b1 then
      (Char.ofNat ((c.toNat - 0xc0) * 0x40 + tailBits b1), r1)
    else
      match r1 with
      | b2 :: r2 =>
        if (c == 0xe0 && within 0xa0 0xbf b1 || c == 0xed && within 0x80 0x9f b1 ||
            (within 0xe1 0xec c || within 0xee 0xef c) && within 0x80 0xbf b1) &&
            within 0x80 0xbf b2 then
          (Char.ofNat ((c.toNat - 0xe0) * 0x1000 + tailBits b1 * 0x40 + tailBits b2), r2)
        else
          match r2 with
          | b3 :: r3 =>
            if (c == 0xf0 && within 0x90 0xbf b1 || within 0xf1 0xf3 c && within 0x80 0xbf b1 ||
                c == 0xf4 && within 0x80 0x8f b1) &&
                within 0x80 0xbf b2 && within 0x80 0xbf b3 then
              (Char.ofNat ((c.toNat - 0xf0) * 0x40000 + tailBits b1 * 0x1000 +
                tailBits b2 * 0x40 + tailBits b3), r3)
            else (runeError, r)
          | [] => (runeError, r)
      | [] => (runeError, r)
  | [] => (runeError, r)

/-- A `\u` escape from its digits on; a lone surrogate is `utf8.RuneError`. -/
def decodeUnicode (r : Bytes) : Char × Bytes :=
  let u := hex4 (r.take 4)
  let rest := r.drop 4
  if isSurrogate u then
    if 6 ≤ rest.length && rest.take 2 == [backslash, 0x75] then
      match decodeSurrogates u (hex4 ((rest.drop 2).take 4)) with
      | some c => (c, rest.drop 6)
      | none => (runeError, rest)
    else (runeError, rest)
  else (Char.ofNat u, rest)

/-- The loop of `unquoteBytes`, on a body whose escapes are well formed. -/
def unquoteRunes : ℕ → Bytes → List Char
  | 0, _ => []
  | _, [] => []
  | fuel + 1, c :: r =>
    if c = backslash then
      match r with
      | [] => []
      | e :: r' =>
        match simpleEscape e with
        | some ch => ch :: unquoteRunes fuel r'
        | none => (decodeUnicode r').1 :: unquoteRunes fuel (decodeUnicode r').2
    else if c < 0x80 then Char.ofNat c.toNat :: unquoteRunes fuel r
    else (decodeRune c r).1 :: unquoteRunes fuel (decodeRune c r).2

def unquote (span : Bytes) : String := String.ofList (unquoteRunes span.length span)

def decodeSpan (span : Bytes) : String :=
  if cleanASCII span then asciiText span else unquote span

def parseString (s : Bytes) : Except ScanError (String × Bytes) :=
  (skipString s).map fun r => (decodeSpan (spanOf s r), r)

/-- `strings.ToLower`, as bytes, and `time.Parse(time.RFC3339, s)`, in Unix nanoseconds. -/
structure Stdlib where
  toLower : String → Bytes
  parseTime : String → Option Int

def string (raw : Bytes) : Option String :=
  match parseString (skipSpace raw) with
  | .error _ => none
  | .ok (v, r) => if (endOfInput r).isOk then some v else none

def lowerByte (c : UInt8) : UInt8 := if 0x41 ≤ c && c ≤ 0x5a then c + 0x20 else c

def stringFolded (std : Stdlib) (raw : Bytes) : Option Bytes :=
  match skipString (skipSpace raw) with
  | .error _ => none
  | .ok r =>
    let span := spanOf (skipSpace raw) r
    if (endOfInput r).isOk then
      if cleanASCII span then some (span.map lowerByte) else some (std.toLower (unquote span))
    else none

def validString (raw : Bytes) : Bool :=
  match skipString (skipSpace raw) with
  | .error _ => false
  | .ok r => (endOfInput r).isOk

/-! ## Scalars -/

/-- The magnitude of `math.MinInt64`, the most either sign can need. -/
def cutoff : ℕ := 2 ^ 63

/-- One digit of `accumulate`. -/
def digitStep (u : ℕ) (c : UInt8) : Option ℕ :=
  if isDigit c then
    let d := c.toNat - 0x30
    if (cutoff - d) / 10 < u then none else some (u * 10 + d)
  else none

/-- The digits of an integer token, capped at `cutoff`. -/
def accumulate (tok : Bytes) : Option ℕ := tok.foldlM digitStep 0

/-- The value of a number token that is an exact `int64`. -/
def intOfToken (tok : Bytes) : Option Int :=
  if tok.head? = some minus then (accumulate tok.tail).map fun u => -(u : Int)
  else
    match accumulate tok with
    | none => none
    | some u => if cutoff - 1 < u then none else some (u : Int)

def int (raw : Bytes) : Option Int :=
  match skipSpace raw with
  | [] => none
  | c :: t =>
    if c = minus || isDigit c then
      match skipNumber (c :: t) with
      | .error _ => none
      | .ok r => if (endOfInput r).isOk then intOfToken (walked (c :: t) r) else none
    else none

def isWord (want raw : Bytes) : Bool :=
  match literal want (skipSpace raw) with
  | .error _ => false
  | .ok r => (endOfInput r).isOk

def bool (raw : Bytes) : Option Bool :=
  if (skipSpace raw).head? = some 0x74 then
    if isWord wordTrue raw then some true else none
  else if isWord wordFalse raw then some false
  else none

/-! ## Containers -/

/-- `validContainer`: the container is the outermost value. -/
def validContainer (opening : UInt8) (raw : Bytes) : Bool :=
  match skipSpace raw with
  | [] => false
  | c :: t =>
    if c = opening then
      match skipValue (t.length + 2) 0 (c :: t) with
      | .error _ => false
      | .ok r => (endOfInput r).isOk
    else false

def validObject (raw : Bytes) : Bool := validContainer lbrace raw

def validArray (raw : Bytes) : Bool := validContainer lbracket raw

/-- The check of `EncodeObject`: one JSON value, its nesting counted from inside the record. -/
def validValue (raw : Bytes) : Bool :=
  match skipSpace raw with
  | [] => false
  | c :: t =>
    match skipValue (t.length + 2) 1 (c :: t) with
    | .error _ => false
    | .ok r => (endOfInput r).isOk

def readNull {α : Type} (a : α) (s : Bytes) : Except ScanError α := do
  let r ← literal wordNull s
  endOfInput r
  return a

/-- The rest of an object from behind its opening brace, with nothing behind it. -/
def readObject {α : Type} (member : α → Bytes → Bytes → α) (acc : α) (t : Bytes) :
    Except ScanError α := do
  let (acc, r) ← scanObject (skipValue (t.length + 1) 1) member (t.length + 1) acc t
  endOfInput r
  return acc

/-- `EachKey`: the member names in document order, duplicates included. -/
def eachKey (raw : Bytes) : Except ScanError (List String) :=
  match skipSpace raw with
  | [] => errAt [] "not an object"
  | c :: t =>
    if c = 0x6e then readNull [] (c :: t)
    else if c = lbrace then readObject (fun names name _ => names ++ [decodeSpan name]) [] t
    else errAt (c :: t) "not an object"

/-- An element of `EachString`: a null element is the empty string. -/
def stringElem (elems : List String) (s : Bytes) : Except ScanError (List String × Bytes) :=
  if s.head? = some 0x6e then (literal wordNull s).map fun r => (elems ++ [""], r)
  else (parseString s).map fun er => (elems ++ [er.1], er.2)

def eachString (raw : Bytes) : Except ScanError (List String) :=
  match skipSpace raw with
  | [] => errAt [] "not an array"
  | c :: t =>
    if c = 0x6e then readNull [] (c :: t)
    else if c = lbracket then do
      let (elems, r) ← scanArray stringElem (t.length + 1) [] t
      endOfInput r
      return elems
    else errAt (c :: t) "not an array"

/-! ## Records -/

/-- An interning dictionary: what it shares for a name is the name. -/
structure Names where
  shared : Map String String
  interns : ∀ {name s : String}, shared[name]? = some s → s = name

def Names.intern (names : Names) (name : String) : String := names.shared[name]?.getD name

/-- What `DecodeObject` does before and after its loop; a null decodes as the nil map. -/
def decodeWith (member : Map String Bytes → Bytes → Bytes → Map String Bytes) (raw : Bytes) :
    Except ScanError (Option (Map String Bytes)) :=
  match skipSpace raw with
  | [] => errAt [] "empty input"
  | c :: t =>
    if c = 0x6e then readNull none (c :: t)
    else if c = lbrace then (readObject member ∅ t).map some
    else errAt (c :: t) "record is not a JSON object"

/-- A member in the loop of `DecodeObject`; a duplicated name keeps the last value. -/
def keepMember (names : Names) (obj : Map String Bytes) (name v : Bytes) : Map String Bytes :=
  obj.insert (names.intern (decodeSpan name)) v

/-- What the loop of `DecodeObjectSubset` does with a member. -/
def keepWanted (names : Names) (wanted : String → Bool) (obj : Map String Bytes)
    (name v : Bytes) : Map String Bytes :=
  if wanted (decodeSpan name) then obj.insert (names.intern (decodeSpan name)) v else obj

def decodeObject (names : Names) (raw : Bytes) : Except ScanError (Option (Map String Bytes)) :=
  decodeWith (keepMember names) raw

def decodeObjectSubset (names : Names) (wanted : String → Bool) (raw : Bytes) :
    Except ScanError (Option (Map String Bytes)) :=
  decodeWith (keepWanted names wanted) raw

variable {α β : Type} {raw r t : Bytes} {c : UInt8}

/-! ## The subset decoder restricts the decoder -/

theorem scanMembers_map {v : Bytes → Except ScanError Bytes} {f : α → Bytes → Bytes → α}
    {g : β → Bytes → Bytes → β} {φ : α → β}
    (hφ : ∀ acc name value, φ (f acc name value) = g (φ acc) name value) (fuel : ℕ) (acc : α)
    (s : Bytes) :
    scanMembers v g fuel (φ acc) s = (scanMembers v f fuel acc s).map (Prod.map φ id) := by
  induction fuel generalizing acc s with
  | zero => rfl
  | succ fuel ih =>
    unfold scanMembers
    cases h1 : skipString (skipSpace s) with
    | error x => rfl
    | ok s1 =>
      cases h2 : expectColon (skipSpace s1) with
      | error x => simp only [ok_bind, h2, error_bind, Except.map]
      | ok s2 =>
        cases h3 : v (skipSpace s2) with
        | error x => simp only [ok_bind, h2, h3, error_bind, Except.map]
        | ok s3 =>
          simp only [ok_bind, h2, h3, ← hφ]
          cases skipSpace s3 with
          | nil => rfl
          | cons c s4 =>
            by_cases hc : c = comma
            · simp only [if_pos hc]
              exact ih _ _
            · by_cases hb : c = rbrace
              · simp only [if_neg hc, if_pos hb]
                rfl
              · simp only [if_neg hc, if_neg hb]
                rfl

theorem readObject_map {f : α → Bytes → Bytes → α} {g : β → Bytes → Bytes → β} {φ : α → β}
    (hφ : ∀ acc name value, φ (f acc name value) = g (φ acc) name value) (acc : α) (t : Bytes) :
    readObject g (φ acc) t = (readObject f acc t).map φ := by
  have hscan : scanObject (skipValue (t.length + 1) 1) g (t.length + 1) (φ acc) t =
      (scanObject (skipValue (t.length + 1) 1) f (t.length + 1) acc t).map (Prod.map φ id) := by
    unfold scanObject
    split
    · exact scanMembers_map hφ _ _ _
    · split
      · rfl
      · exact scanMembers_map hφ _ _ _
  unfold readObject
  rw [hscan]
  cases scanObject (skipValue (t.length + 1) 1) f (t.length + 1) acc t with
  | error x => rfl
  | ok ar =>
    obtain ⟨a, r⟩ := ar
    show (endOfInput r >>= fun _ => pure (φ a)) =
      Except.map φ (endOfInput r >>= fun _ => pure a)
    cases endOfInput r <;> rfl

theorem Names.intern_eq (names : Names) (name : String) : names.intern name = name := by
  unfold Names.intern
  cases h : names.shared[name]? with
  | none => rfl
  | some s => exact names.interns h

def restrict (wanted : String → Bool) (obj : Map String Bytes) : Map String Bytes :=
  obj.filter fun name _ => wanted name

theorem getElem?_restrict (wanted : String → Bool) (obj : Map String Bytes) (name : String) :
    (restrict wanted obj)[name]? = if wanted name then obj[name]? else none := by
  unfold restrict
  rw [Std.ExtTreeMap.getElem?_filter']
  cases obj[name]? <;> simp [Option.filter]

theorem restrict_keepMember (names : Names) (wanted : String → Bool) (obj : Map String Bytes)
    (name v : Bytes) : restrict wanted (keepMember names obj name v) =
      keepWanted names wanted (restrict wanted obj) name v := by
  unfold keepMember keepWanted
  rw [names.intern_eq]
  apply Std.ExtTreeMap.ext_getElem?
  intro k
  rw [getElem?_restrict, Map.getElem?_insert]
  by_cases hk : decodeSpan name = k
  · subst hk
    by_cases hw : wanted (decodeSpan name)
    · simp [hw]
    · simp [hw, getElem?_restrict]
  · by_cases hw : wanted (decodeSpan name)
    · simp [hw, hk, getElem?_restrict, Map.getElem?_insert]
    · simp [hw, hk, getElem?_restrict]

/-- `DecodeObjectSubset` is `DecodeObject` restricted to the wanted names, errors included. -/
theorem decodeObjectSubset_eq (names : Names) (wanted : String → Bool) (raw : Bytes) :
    decodeObjectSubset names wanted raw =
      (decodeObject names raw).map (Option.map (restrict wanted)) := by
  have hempty : restrict wanted ∅ = ∅ := by
    apply Std.ExtTreeMap.ext_getElem?
    simp [getElem?_restrict]
  unfold decodeObjectSubset decodeObject decodeWith
  cases skipSpace raw with
  | nil => rfl
  | cons c t =>
    by_cases hn : c = 0x6e
    · simp only [if_pos hn, readNull]
      cases literal wordNull (c :: t) with
      | error x => rfl
      | ok r =>
        simp only [ok_bind]
        cases endOfInput r <;> rfl
    · by_cases hb : c = lbrace
      · simp only [if_neg hn, if_pos hb]
        have hread := readObject_map (restrict_keepMember names wanted) ∅ t
        rw [hempty] at hread
        rw [hread]
        cases readObject (keepMember names) ∅ t <;> rfl
      · simp only [if_neg hn, if_neg hb]
        rfl

/-! ## What the readers agree on

    A value that one reader accepts as a scalar is one JSON value to `EncodeObject`; an
    object accepted whole has its names read; and null, spelled as JSON spells it, is read by
    `EachKey` and `EachString` alike. -/

theorem validValue_of_token (hs : skipSpace raw = c :: t)
    (hv : skipValue (t.length + 2) 1 (c :: t) = .ok r) (hend : (endOfInput r).isOk) :
    validValue raw := by
  unfold validValue
  rw [hs]
  simp only [hv, hend]

theorem skipString_head {s : Bytes} (h : skipString s = .ok r) : ∃ t, s = quote :: t := by
  unfold skipString at h
  split at h
  · cases h
  · rename_i c t
    split at h
    · rename_i hc
      exact ⟨t, by rw [hc]⟩
    · cases h

theorem validValue_of_validString (h : validString raw) : validValue raw := by
  unfold validString at h
  split at h
  · cases h
  · rename_i r hr
    obtain ⟨t, ht⟩ := skipString_head hr
    rw [ht] at hr
    apply validValue_of_token ht _ h
    exact hr

theorem validString_of_string (h : (string raw).isSome) : validString raw := by
  unfold string parseString at h
  unfold validString
  cases hs : skipString (skipSpace raw) with
  | error x =>
    rw [hs] at h
    cases h
  | ok r =>
    rw [hs] at h
    simp only [Except.map] at h ⊢
    split at h
    · assumption
    · cases h

theorem stringFolded_of_validString (std : Stdlib) (h : validString raw) :
    (stringFolded std raw).isSome := by
  unfold validString at h
  unfold stringFolded
  split at h
  · cases h
  · rename_i r hr
    rw [if_pos h]
    split <;> rfl

theorem skipValue_number {fuel opened : ℕ} (hc : (c = minus || isDigit c) = true) :
    skipValue (fuel + 1) opened (c :: t) = skipNumber (c :: t) := by
  have hne : ∀ d : UInt8, (d = minus || isDigit d) = false → c ≠ d := by
    rintro d hd rfl
    rw [hd] at hc
    cases hc
  unfold skipValue
  rw [if_neg (hne _ (by decide)), if_neg (hne _ (by decide)), if_neg (hne _ (by decide)),
    if_neg (hne _ (by decide)), if_neg (hne _ (by decide)), if_neg (hne _ (by decide)), if_pos hc]

theorem validValue_of_int (h : (int raw).isSome) : validValue raw := by
  unfold int at h
  split at h
  · cases h
  · rename_i c t ht
    split at h
    · rename_i hc
      split at h
      · cases h
      · rename_i r hr
        split at h
        · rename_i hend
          apply validValue_of_token ht _ hend
          rw [skipValue_number hc, hr]
        · cases h
    · cases h

theorem isWord_inv {want : Bytes} (h : isWord want raw) :
    ∃ r, literal want (skipSpace raw) = .ok r ∧ (endOfInput r).isOk := by
  unfold isWord at h
  split at h
  · cases h
  · exact ⟨_, by assumption, h⟩

theorem literal_head {want s : Bytes} (h : literal (c :: want) s = .ok r) : ∃ t, s = c :: t := by
  unfold literal at h
  split at h
  · rename_i hpre
    obtain ⟨t, rfl⟩ := List.isPrefixOf_iff_prefix.mp hpre
    exact ⟨want ++ t, rfl⟩
  · cases h

theorem validValue_of_bool (h : (bool raw).isSome) : validValue raw := by
  unfold bool at h
  split at h
  · split at h
    · rename_i hw
      obtain ⟨r, hr, hend⟩ := isWord_inv hw
      obtain ⟨t, ht⟩ := literal_head hr
      rw [ht] at hr
      exact validValue_of_token ht hr hend
    · cases h
  · split at h
    · rename_i hw
      obtain ⟨r, hr, hend⟩ := isWord_inv hw
      obtain ⟨t, ht⟩ := literal_head hr
      rw [ht] at hr
      exact validValue_of_token ht hr hend
    · cases h

theorem readObject_accepts {f : α → Bytes → Bytes → α} {g : β → Bytes → Bytes → β} {acc acc' : α}
    (h : scanObject (skipValue (t.length + 1) 1) f (t.length + 1) acc t = .ok (acc', r))
    (hend : (endOfInput r).isOk) (b : β) : (readObject g b t).isOk := by
  obtain ⟨b', hb⟩ := scanObject_accepts (fun h => h) h b
  unfold readObject
  rw [hb, ok_bind]
  cases he : endOfInput r with
  | error x =>
    rw [he] at hend
    cases hend
  | ok u =>
    simp only [he]
    rfl

theorem eachKey_of_validObject (h : validObject raw) : (eachKey raw).isOk := by
  unfold validObject validContainer at h
  unfold eachKey
  split at h
  · cases h
  · rename_i c t ht
    split at h
    · rename_i hc
      subst hc
      split at h
      · cases h
      · rename_i r hr
        obtain ⟨⟨u, r'⟩, hscan, rfl⟩ := map_eq_ok hr
        exact readObject_accepts hscan h []
    · cases h

theorem readNull_of_validValue (h : validValue raw) (hs : skipSpace raw = 0x6e :: t) (a : α) :
    readNull a (0x6e :: t) = .ok a := by
  unfold validValue at h
  rw [hs] at h
  simp only at h
  split at h
  · cases h
  · rename_i r hr
    have hlit : literal wordNull (0x6e :: t) = .ok r := hr
    unfold readNull
    rw [hlit, ok_bind]
    cases he : endOfInput r with
    | error x =>
      rw [he] at h
      cases h
    | ok u => rfl

theorem eachKey_null (h : validValue raw) (hs : skipSpace raw = 0x6e :: t) :
    eachKey raw = .ok [] := by
  unfold eachKey
  rw [hs]
  exact readNull_of_validValue h hs []

theorem eachString_null (h : validValue raw) (hs : skipSpace raw = 0x6e :: t) :
    eachString raw = .ok [] := by
  unfold eachString
  rw [hs]
  exact readNull_of_validValue h hs []

end NaustJmap.Jsonscan
