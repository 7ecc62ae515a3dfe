import NaustJmap.ObjectDB.Callback
import NaustJmap.Runtime.Method

/-!
# Client Values of a `/set`

What `core/runtime/standard.go` does with the values a client sends before it stages
anything: references to creation ids are resolved (RFC 8620 section 5.3), values are checked
against their kinds, and a PatchObject is applied to the current record.
-/

namespace NaustJmap.Runtime

open Library ObjectDB

/-! ## Rejections -/

/-- The types of a `jmap.SetError`; `extension` are those a data type defines. -/
inductive SetErrorType where
  | forbidden | overQuota | tooLarge | rateLimit | notFound | invalidPatch | willDestroy
  | invalidProperties | singleton | alreadyExists
  | extension (name : String)
  deriving DecidableEq, Repr

structure SetError where
  type : SetErrorType
  description : String := ""
  properties : List String := []
  deriving DecidableEq, Repr

def invalidProperties (names : List String) : SetError :=
  { type := .invalidProperties, properties := names.insertionSort (· ≤ ·) }

/-! ## JSON -/

/-- `encoding/json`, as the handlers call it. -/
structure Json where
  /-- `Unmarshal` into a string; `null` leaves it empty. -/
  string : Raw → Option String
  /-- `Unmarshal` into a map of raw values; `null` leaves it without members. -/
  object : Raw → Option Object
  /-- `Marshal` of a string. -/
  quote : String → Raw
  /-- `Marshal` of a map of raw values, or the text of its error. -/
  encode : Object → Except String Raw
  /-- Both values decode, to deeply equal values. -/
  equal : Raw → Raw → Bool

def jsonEqual (j : Json) : Option Raw → Option Raw → Bool
  | none, none => true
  | some a, some b => j.equal a b
  | _, _ => false

/-! ## Creation ids -/

/-- The creation ids of a request and the records they stand for. -/
abbrev CreatedIds := Map JmapId JmapId

/-- The creation id in `#creationId`. -/
def creationRef (s : String) : Option JmapId :=
  match s.toList with
  | '#' :: rest => some (String.ofList rest)
  | _ => none

variable (sc : Scanner) (j : Json) (t : TypeDesc) (createdIds : CreatedIds)

/-- `resolveIdValue`: values that are no reference pass through. -/
def resolveIdValue (raw : Raw) : Option Raw :=
  match (j.string raw).bind creationRef with
  | none => some raw
  | some cid => createdIds[cid]?.map j.quote

def resolveIdArg (id : JmapId) : Option JmapId :=
  match creationRef id with
  | none => some id
  | some cid => createdIds[cid]?

def resolveIdRef (st : Object × List String) (entry : String × Property) : Object × List String :=
  if entry.2.kind ≠ .id then st
  else
    match st.1[entry.1]? with
    | none => st
    | some raw =>
      match resolveIdValue j createdIds raw with
      | none => (st.1, st.2 ++ [entry.1])
      | some resolved => (st.1.insert entry.1 resolved, st.2)

/-- `resolveIdRefs`: the object, and the names of the references that do not resolve. -/
def resolveIdRefs (obj : Object) (createdIds : CreatedIds) : Object × List String :=
  t.properties.toList.foldl (resolveIdRef j createdIds) (obj, [])

/-! ## Checks -/

def checkValues (obj : Object) : List String :=
  (obj.toList.filter fun entry =>
    entry.1 ≠ "id" && !(t.properties[entry.1]?).any fun p =>
      (p.checkValue sc entry.2).isOk).map Prod.fst

/-- The loop of `checkBlobRefs`; `exist` is `Update.BlobExists`. -/
def checkBlobRefs (exist : JmapId → Callback (Except Err Bool)) (obj : Object) :
    List (String × Property) → List String → Callback (Except Err (List String))
  | [], bad => pure (.ok bad)
  | entry :: rest, bad =>
    match if entry.2.blobRef then obj[entry.1]?.bind j.string else none with
    | none => checkBlobRefs exist obj rest bad
    | some id =>
      exist id >>= fun
        | .error e => pure (.error e)
        | .ok ok => checkBlobRefs exist obj rest (if ok then bad else bad ++ [entry.1])

/-! ## Patches -/

/-- `strings.ReplaceAll` of a two-character text by one character. -/
def replacePair (a b c : Char) : List Char → List Char
  | x :: y :: rest =>
    if x = a ∧ y = b then c :: replacePair a b c rest else x :: replacePair a b c (y :: rest)
  | l => l

/-- The segments of a patch path, unescaped: `~1` first, then `~0` (RFC 6901). -/
def pathSegments (path : String) : List String :=
  (path.toList.splitOn '/').map fun seg =>
    String.ofList (replacePair '~' '0' '~' (replacePair '~' '1' '/' seg))

structure PatchEntry where
  path : String
  segments : List String
  value : Raw

def patchEntries (patch : Object) : List PatchEntry :=
  patch.toList.map fun entry => ⟨entry.1, pathSegments entry.1, entry.2⟩

/-- The pointer of the patch, if any, that a proper prefix of `e` spells. -/
def overlapOf (entries : List PatchEntry) (e : PatchEntry) : Option String :=
  (List.range e.segments.length).findSome? fun n =>
    if n = 0 then none
    else (entries.reverse.find? fun other => other.segments = e.segments.take n).map (·.path)

/-- No patch pointer may be the prefix of another. -/
def patchOverlap (entries : List PatchEntry) : Option SetError :=
  entries.findSome? fun e => (overlapOf entries e).map fun other =>
    { type := .invalidPatch
      description := "pointer " ++ quoteId e.path ++ " overlaps pointer " ++ quoteId other }

def patchMember (e : PatchEntry) (name : String) (obj : Object) : Except SetError Object :=
  match e.segments, t.properties[name]? with
  | [_, key], some p =>
    if p.internal ∨ p.kind ≠ .object then .error
      { type := .invalidPatch
        description := "pointer " ++ quoteId e.path ++ " references inside a non-object property" }
    else
      match (obj[name]?.filter (!isNull ·)).elim (some ∅) j.object with
      | none => .error
        { type := .invalidPatch, description := "property " ++ quoteId name ++ " is not an object" }
      | some members =>
        -- null removes the member
        let members := if isNull e.value then members.erase key else members.insert key e.value
        match j.encode members with
        | .error text => .error { type := .invalidPatch, description := text }
        | .ok raw => .ok (obj.insert name raw)
  | _, _ => .error
    { type := .invalidPatch
      description := "pointer " ++ quoteId e.path ++ " references inside a non-object property" }

/-- A pointer to a whole property: the new object, `none` where the value is invalid. -/
def patchProperty (e : PatchEntry) (name : String) (obj : Object) : Option Object :=
  if name = "id" then
    -- left to the check of the fixed properties
    some (if isNull e.value then obj.erase "id" else obj.insert "id" e.value)
  else
    match t.properties[name]? with
    | none => none
    | some p =>
      if p.internal then none
      else if isNull e.value then
        some (match p.default with
          | some d => obj.insert name d
          | none => obj.erase name)
      else
        match if p.kind = .id then resolveIdValue j createdIds e.value else some e.value with
        | none => none
        | some value => if (p.checkValue sc value).isOk then some (obj.insert name value) else none

/-- The loop of `applyPatch` over the entries. -/
def patchLoop : List PatchEntry → Object → List String → Except SetError (Object × List String)
  | [], obj, invalid => .ok (obj, invalid)
  | e :: rest, obj, invalid =>
    match e.segments with
    | [name] =>
      match patchProperty sc j t createdIds e name obj with
      | none => patchLoop rest obj (invalid ++ [name])
      | some obj' => patchLoop rest obj' invalid
    | segments =>
      match patchMember j t e (segments.headD "") obj with
      | .error serr => .error serr
      | .ok obj' => patchLoop rest obj' invalid

/-- The properties a patch may only name with their current value. -/
def fixedProps : List String :=
  "id" :: (t.properties.toList.filter fun entry => entry.2.serverSet || entry.2.immutable).map
    Prod.fst

def applyPatch (current patch : Object) (createdIds : CreatedIds) : Except SetError Object :=
  match patchOverlap (patchEntries patch) with
  | some serr => .error serr
  | none =>
    match patchLoop sc j t createdIds (patchEntries patch) current [] with
    | .error serr => .error serr
    | .ok (obj, invalid) =>
      let changed := (fixedProps t).filter fun name => !jsonEqual j obj[name]? current[name]?
      if invalid ++ changed = [] then .ok obj else .error (invalidProperties (invalid ++ changed))

end NaustJmap.Runtime
