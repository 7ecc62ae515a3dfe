import NaustJmap.Library.Map

/-!
# Type Descriptors and Property Values

The description of a record type (`core/descriptor`) and the identifiers of `core/jmap`.  A stored
value is the text of one JSON value (`Raw`, Go's `json.RawMessage`), with any space around it.
The JSON scanner and `time.Parse` enter as a parameter, the record `Scanner`.
-/

namespace NaustJmap.ObjectDB

open Library

/-- A record or account identifier (`jmap.Id`). -/
abbrev JmapId := String

/-- The text of one JSON value (`json.RawMessage`). -/
abbrev Raw := String

/-- Byte strings: encoded values and backend keys. -/
abbrev Bytes := List UInt8

/-- Go's `[]byte(s)`. -/
def bytesOf (s : String) : Bytes := s.toByteArray.data.toList

/-- `jmap.Id.Valid` (RFC 8620 section 1.2). -/
def JmapId.valid (id : JmapId) : Bool :=
  let n := (bytesOf id).length
  1 ≤ n && n ≤ 255 && id.toList.all fun c => c.isAlphanum || c == '-' || c == '_'

/-! ## The JSON scanner -/

/-- `core/internal/jsonscan` and `time.Parse`, as the object database calls them. -/
structure Scanner where
  /-- `String`: one complete JSON string value, decoded. -/
  string : Raw → Option String
  /-- `StringFolded`: the decoded value lowercased, as bytes. -/
  stringFolded : Raw → Option Bytes
  /-- `ValidString`. -/
  validString : Raw → Bool
  /-- `Bool`. -/
  bool : Raw → Option Bool
  /-- `Int`: an exact `int64`. -/
  int : Raw → Option Int
  /-- `ValidObject`. -/
  validObject : Raw → Bool
  /-- `ValidArray`. -/
  validArray : Raw → Bool
  /-- `EachKey`: the member names in document order, `none` on a malformed object. -/
  eachKey : Raw → Option (List String)
  /-- `EachString`: the elements in order, `none` unless all are strings. -/
  eachString : Raw → Option (List String)
  /-- The validation `EncodeObject` makes of every value it copies. -/
  validValue : Raw → Bool
  /-- `time.Parse(time.RFC3339, s)`, in nanoseconds since the Unix epoch. -/
  parseTime : String → Option Int

/-- `unicode.IsSpace`, the characters `bytes.TrimSpace` cuts off. -/
def isSpace (c : Char) : Bool :=
  c.toNat ∈ [0x09, 0x0a, 0x0b, 0x0c, 0x0d, 0x20, 0x85, 0xa0, 0x1680, 0x2028, 0x2029, 0x202f,
    0x205f, 0x3000] || (0x2000 ≤ c.toNat && c.toNat ≤ 0x200a)

/-- `string(bytes.TrimSpace(raw)) == "null"`. -/
def isNull (raw : Raw) : Bool :=
  ((raw.toList.dropWhile isSpace).reverse.dropWhile isSpace).reverse == "null".toList

/-! ## Properties and types -/

/-- The property kinds a descriptor may declare. -/
inductive Kind where
  | string | bool | int | unsignedInt | date | id | object | array
  deriving DecidableEq, Repr

def Kind.composite : Kind → Bool
  | .object | .array => true
  | _ => false

structure Property where
  kind : Kind
  immutable : Bool := false
  serverSet : Bool := false
  indexed : Bool := false
  orderBy : List String := []
  setIndexed : Bool := false
  blobRef : Bool := false
  nullable : Bool := false
  internal : Bool := false
  default : Option Raw := none
  deriving DecidableEq, Repr

def maxInt : Int := 2 ^ 53 - 1

def minInt : Int := -(2 ^ 53 - 1)

def validInt (v : Int) : Bool := minInt ≤ v && v ≤ maxInt

def validUnsignedInt (v : Int) : Bool := 0 ≤ v && v ≤ maxInt

/-- `jmap.ValidDate`: RFC 3339 with upper-case letters and no zero fractional second. -/
def validDate (sc : Scanner) (s : String) : Bool :=
  match sc.parseTime s with
  | none => false
  | some nanos =>
    !s.toList.any (fun c => c == 't' || c == 'z') &&
      !(nanos % 1000000000 == 0 && s.toList.any (· == '.'))

/-- `Property.CheckValue`: the errors carry the source's texts. -/
def Property.checkValue (sc : Scanner) (p : Property) (raw : Raw) : Except String Unit :=
  if isNull raw then
    if p.nullable then .ok () else .error "null is not allowed"
  else
    match p.kind with
    | .string => if sc.validString raw then .ok () else .error "not a string"
    | .bool => if (sc.bool raw).isSome then .ok () else .error "not a boolean"
    | .unsignedInt =>
      match sc.int raw with
      | none => .error "not an integer"
      | some n => if validUnsignedInt n then .ok () else .error "out of UnsignedInt range"
    | .int =>
      match sc.int raw with
      | none => .error "not an integer"
      | some n => if validInt n then .ok () else .error "out of Int range"
    | .date =>
      match sc.string raw with
      | some s => if validDate sc s then .ok () else .error "not a Date"
      | none => .error "not a Date"
    | .id =>
      match sc.string raw with
      | some s => if JmapId.valid s then .ok () else .error "not an Id"
      | none => .error "not an Id"
    | .object => if sc.validObject raw then .ok () else .error "not an object"
    | .array => if sc.validArray raw then .ok () else .error "not an array"

/-- `descriptor.Type`. -/
structure TypeDesc where
  name : String
  capability : String
  properties : Map String Property
  internal : Bool := false

/-- One round of the property loop of `Type.Validate`. -/
def TypeDesc.validateProperty (sc : Scanner) (t : TypeDesc) (name : String) (p : Property) :
    Except String Unit := do
  let at_ := "descriptor: " ++ t.name ++ "." ++ name
  if name = "" then throw ("descriptor: " ++ t.name ++ " has an empty property name")
  if p.blobRef ∧ p.kind ≠ .id then throw (at_ ++ " is BlobRef but not KindId")
  if p.indexed ∧ p.kind.composite then
    throw (at_ ++ " is a composite kind and cannot be Indexed")
  if p.setIndexed ∧ ¬ p.kind.composite then
    throw (at_ ++ " is SetIndexed but not a composite kind")
  if p.indexed ∧ p.setIndexed then throw (at_ ++ " cannot be both Indexed and SetIndexed")
  if p.orderBy ≠ [] ∧ ¬ p.indexed then throw (at_ ++ " declares OrderBy but is not Indexed")
  p.orderBy.forM fun ob => do
    if ob = "id" ∨ ob = name then throw (at_ ++ " cannot order by \"" ++ ob ++ "\"")
    match t.properties[ob]? with
    | none => throw (at_ ++ " orders by undeclared property \"" ++ ob ++ "\"")
    | some op =>
      if op.kind.composite then
        throw (at_ ++ " orders by composite property \"" ++ ob ++ "\"")
      if ¬ op.immutable then
        throw (at_ ++ " orders by mutable property \"" ++ ob ++ "\"")
  match p.default with
  | none => pure ()
  | some d =>
    match p.checkValue sc d with
    | .ok _ => pure ()
    | .error e => throw (at_ ++ " default: " ++ e)

def TypeDesc.validate (sc : Scanner) (t : TypeDesc) : Except String Unit := do
  if t.name = "" ∨ t.capability = "" then throw "descriptor: type needs Name and Capability"
  if (t.properties[("id" : String)]?).isSome then
    throw ("descriptor: " ++ t.name ++ " declares \"id\"; it is implicit on every type")
  t.properties.toList.forM fun entry => t.validateProperty sc entry.1 entry.2

/-! ## What validation guarantees -/

theorem check_eq_ok {ε α β : Type} {c : Prop} [Decidable c] {e : ε} {f : α → Except ε β}
    {k : Except ε β} {r : β} : (if c then throw e >>= f else k) = .ok r ↔ ¬ c ∧ k = .ok r := by
  by_cases hc : c
  · rw [if_pos hc]
    exact ⟨fun h => (nomatch h), fun h => absurd hc h.1⟩
  · simp [hc]

theorem forM_eq_ok {α ε : Type} {f : α → Except ε Unit} {l : List α} (h : forM l f = .ok ())
    {a : α} (ha : a ∈ l) : f a = .ok () := by
  induction l with
  | nil => simp at ha
  | cons b l ih =>
    cases hb : f b with
    | error e =>
      rw [List.forM_cons, hb] at h
      exact nomatch h
    | ok u =>
      rw [List.forM_cons, hb] at h
      rcases List.mem_cons.mp ha with rfl | ha
      · exact hb
      · exact ih h ha

theorem TypeDesc.validate_exclusive {sc : Scanner} {t : TypeDesc} (h : t.validate sc = .ok ())
    {name : String} {p : Property} (hp : t.properties[name]? = some p) :
    ¬ (p.indexed = true ∧ p.setIndexed = true) := by
  simp only [TypeDesc.validate, check_eq_ok] at h
  have := forM_eq_ok h.2.2 ((Map.mem_toList _ _ _).mpr hp)
  simp only [TypeDesc.validateProperty, check_eq_ok] at this
  exact this.2.2.2.2.1

theorem TypeDesc.validate_id {sc : Scanner} {t : TypeDesc} (h : t.validate sc = .ok ()) :
    t.properties[("id" : String)]? = none := by
  simp only [TypeDesc.validate, check_eq_ok] at h
  exact Option.not_isSome_iff_eq_none.mp h.2.1

theorem TypeDesc.validate_default {sc : Scanner} {t : TypeDesc} (h : t.validate sc = .ok ())
    {name : String} {p : Property} (hp : t.properties[name]? = some p) {d : Raw}
    (hd : p.default = some d) : (p.checkValue sc d).isOk := by
  simp only [TypeDesc.validate, check_eq_ok] at h
  have := forM_eq_ok h.2.2 ((Map.mem_toList _ _ _).mpr hp)
  simp only [TypeDesc.validateProperty, check_eq_ok, hd] at this
  obtain ⟨-, -, -, -, -, -, hrest⟩ := this
  cases hv : p.checkValue sc d with
  | ok _ => rfl
  | error e =>
    rw [hv] at hrest
    -- the loop over `orderBy` comes first, and then the error of the default
    revert hrest
    generalize (p.orderBy.forM _ : Except String Unit) = loop
    intro hrest
    cases loop <;> cases hrest

end NaustJmap.ObjectDB
