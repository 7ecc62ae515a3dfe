import NaustJmap.ObjectDB.KeyEnc

/-!
# Key Layout and Index Values

`core/objectdb/keys.go`: how a property value is encoded for the indexes and where the index entries
live, together with the errors of package `objectdb`.

- `{acct} x {type} {prop} {value} {order…} {id}`: property and membership index;
- `{acct} r {blobId} {type} {id}`: blob reference index;
- `{acct} p {blobId}`: blob pending-collection hint.
-/

namespace NaustJmap.ObjectDB

/-! ## Errors -/

inductive Err where
  | notFound
  | unknownType
  | cannotCalculateChanges
  | unknownKind
  | badIndexValue
  | badTime
  | createCarriesId
  | putIdMismatch
  | putInternalVisible (typeName : String) (id : JmapId) (name : String)
  | unknownProperty (name typeName : String)
  | badProperty (name reason : String)
  | malformedValue (name : String)
  | malformedComposite
  | notIndexed (typeName prop : String)
  | notSetIndexed (typeName prop : String)
  | notSetIndexable
  | emptyTag
  | registryTag
  /-- An error the callback of `DB.Update` returns of its own. -/
  | callback (text : String)
  deriving DecidableEq, Repr

def Err.text : Err → String
  | .notFound => "objectdb: record not found"
  | .unknownType => "objectdb: unknown type"
  | .cannotCalculateChanges => "objectdb: cannot calculate changes from that state"
  | .unknownKind => "objectdb: unknown property kind"
  | .badIndexValue => "objectdb: value does not match the property's kind"
  | .badTime => "parsing time"
  | .createCarriesId => "objectdb: create must not carry an id"
  | .putIdMismatch => "objectdb: put object id mismatch"
  | .putInternalVisible typeName id name =>
    "objectdb: PutInternal(" ++ typeName ++ "/" ++ id ++ ") changes non-Internal property \"" ++
      name ++ "\""
  | .unknownProperty name typeName =>
    "objectdb: unknown property \"" ++ name ++ "\" on " ++ typeName
  | .badProperty name reason => "objectdb: property \"" ++ name ++ "\": " ++ reason
  | .malformedValue name => "jsonscan: property \"" ++ name ++ "\""
  | .malformedComposite => "jsonscan"
  | .notIndexed typeName prop =>
    "objectdb: property " ++ typeName ++ "." ++ prop ++ " is not indexed"
  | .notSetIndexed typeName prop =>
    "objectdb: property " ++ typeName ++ "." ++ prop ++ " is not set-indexed"
  | .notSetIndexable => "objectdb: kind is not set-indexable"
  | .emptyTag => "objectdb: empty tag name"
  | .registryTag => "objectdb: the account registry tag cannot be cleared"
  | .callback text => text

/-! ## Index values -/

/-- `n` as `width` big-endian bytes. -/
def bigEndian : ℕ → ℕ → Bytes
  | 0, _ => []
  | width + 1, n => UInt8.ofNat (n / 256 ^ width) :: bigEndian width n

/-- `backend.EncodeInt64`: eight big-endian bytes with the sign bit flipped. -/
def encodeInt64 (v : Int) : Bytes := bigEndian 8 ((v + 2 ^ 63) % 2 ^ 64).toNat

/-- Decimal digits as the number scanner of `utcDateMicros` reads them. -/
def digits (bs : Bytes) : Option ℕ :=
  bs.foldlM (fun v c =>
    if '0'.toUInt8 ≤ c ∧ c ≤ '9'.toUInt8 then some (v * 10 + (c - '0'.toUInt8).toNat) else none) 0

def daysInMonth (year month : ℕ) : ℕ :=
  if month = 2 then
    if year % 4 = 0 ∧ (year % 100 ≠ 0 ∨ year % 400 = 0) then 29 else 28
  else if month ∈ [4, 6, 9, 11] then 30
  else 31

def unixDays (year month day : ℕ) : Int :=
  (365 * year + (year + 3) / 4 - (year + 99) / 100 + (year + 399) / 400 : ℕ) - (719528 : Int) +
    ((List.range (month - 1)).map fun m => daysInMonth year (m + 1)).sum + (day - 1 : ℕ)

/-- `utcDateMicros`: the canonical UTC form of a stored date, straight from its bytes. -/
def utcDateMicros (raw : Raw) : Option Int := do
  let b := bytesOf raw
  guard (b.length = 22 ∧ b[0]? = some '"'.toUInt8 ∧ b[21]? = some '"'.toUInt8)
  let s := (b.drop 1).take 20
  guard (s[4]? = some '-'.toUInt8 ∧ s[7]? = some '-'.toUInt8 ∧ s[10]? = some 'T'.toUInt8 ∧
    s[13]? = some ':'.toUInt8 ∧ s[16]? = some ':'.toUInt8 ∧ s[19]? = some 'Z'.toUInt8)
  let num := fun (start width : ℕ) => digits ((s.drop start).take width)
  let year ← num 0 4
  let month ← num 5 2
  let day ← num 8 2
  let hour ← num 11 2
  let minute ← num 14 2
  let second ← num 17 2
  guard (1 ≤ month ∧ month ≤ 12 ∧ 1 ≤ day ∧ hour ≤ 23 ∧ minute ≤ 59 ∧ second ≤ 60)
  let secs := hour * 3600 + minute * 60 + second
  -- time.Date normalizes; a date that moved is refused
  guard (day ≤ daysInMonth year month ∧ secs < 86400)
  return (unixDays year month day * 86400 + secs) * 1000000

def bareIndexValue (sc : Scanner) (kind : Kind) (raw : Raw) : Except Err Bytes :=
  match kind with
  | .string =>
    match sc.stringFolded raw with
    | some k => .ok k
    | none => .error .badIndexValue
  | .bool =>
    match sc.bool raw with
    | some true => .ok [1]
    | some false => .ok [0]
    | none => .error .badIndexValue
  | .int | .unsignedInt =>
    match sc.int raw with
    | some n => .ok (encodeInt64 n)
    | none => .error .badIndexValue
  | .date =>
    match utcDateMicros raw with
    | some micros => .ok (encodeInt64 micros)
    | none =>
      match sc.string raw with
      | none => .error .badIndexValue
      | some s =>
        match sc.parseTime s with
        | none => .error .badTime
        | some nanos => .ok (encodeInt64 (nanos / 1000))
  | .id =>
    match sc.string raw with
    | some s => .ok (bytesOf s)
    | none => .error .badIndexValue
  | .object | .array => .error .unknownKind

/-- Values of a Nullable property carry a tag byte, so that null comes before them. -/
def indexValue (sc : Scanner) (p : Property) (raw : Raw) : Except Err Bytes :=
  if p.nullable then
    if isNull raw then .ok [0]
    else
      match bareIndexValue sc p.kind raw with
      | .ok v => .ok (1 :: v)
      | .error e => .error e
  else bareIndexValue sc p.kind raw

/-! ## Key layout -/

/-- The segments every key of the property index of one property starts with. -/
def idxPrefix (acct : JmapId) (typeName prop : String) : List Bytes :=
  [bytesOf acct, bytesOf "x", bytesOf typeName, bytesOf prop]

def idxKey (acct : JmapId) (typeName prop : String) (value : Bytes) (order : List Bytes)
    (id : JmapId) : Bytes :=
  key (idxPrefix acct typeName prop ++ value :: (order ++ [bytesOf id]))

def refKey (acct blobID : JmapId) (typeName : String) (id : JmapId) : Bytes :=
  key [bytesOf acct, bytesOf "r", bytesOf blobID, bytesOf typeName, bytesOf id]

def pendingKey (acct blobID : JmapId) : Bytes :=
  key [bytesOf acct, bytesOf "p", bytesOf blobID]

/-- The loop of `idFromObjKey`, on the reversed key without its last terminator. -/
def lastSegment (acc : Bytes) : Bytes → Bytes
  | b1 :: b0 :: rest =>
    if b0 = 0x00 ∧ b1 = 0x01 then acc else lastSegment (b1 :: acc) (b0 :: rest)
  | _ => acc

/-- Go's `string(b)`. -/
def stringOf (b : Bytes) : String := (String.fromUTF8? ⟨b.toArray⟩).getD ""

def idFromObjKey (k : Bytes) : JmapId :=
  stringOf (lastSegment [] (k.take (k.length - 2)).reverse)

/-! ## Bytes of strings -/

theorem stringOf_bytesOf (s : String) : stringOf (bytesOf s) = s := by
  have h : (⟨(bytesOf s).toArray⟩ : ByteArray) = s.toByteArray := by
    simp [bytesOf]
  rw [stringOf, h, String.fromUTF8?, dif_pos s.isValidUTF8]
  rfl

theorem bytesOf_injective : Function.Injective bytesOf := fun a b h => by
  rw [← stringOf_bytesOf a, h, stringOf_bytesOf]

end NaustJmap.ObjectDB
