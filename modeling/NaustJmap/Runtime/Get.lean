import NaustJmap.ObjectDB.Get
import NaustJmap.Runtime.Method

/-!
# `Foo/get`

`stdType.get` reads, in this order: the list of ids if the client named none, the records in
batches, whatever the hook for computed properties reads, and the type state.  The records
are therefore older than the state that is returned with them.
-/

namespace NaustJmap.Runtime

open Library ObjectDB

/-! ## Hooks -/

/-- `ComputedProperties`; `resolve` fails with the text of its error. -/
structure Computed where
  accepts : String → Bool
  resolve : Object → List String → ReadM String Store Object

/-- What `/get` uses of `Extensions`. -/
structure GetExt where
  defaultGetProperties : Option (List String) := none
  computed : Option Computed := none

/-! ## Properties -/

def maxRequestedProperties : ℕ := 512

/-- The loop of `get` over the requested names: those kept, and those computed. -/
def requestProps (t : TypeDesc) (ext : GetExt) :
    List String → Map String Unit → List String → Except MethodErr (Map String Unit × List String)
  | [], props, computed => .ok (props, computed)
  | name :: rest, props, computed =>
    if (t.properties[name]?).any (!·.internal) || name = "id" then
      requestProps t ext rest (props.insert name ()) computed
    else if ext.computed.any (·.accepts name) then
      requestProps t ext rest (props.insert name ())
        (if name ∈ props then computed else computed ++ [name])
    else .error (.invalidArguments ("unknown property " ++ quoteId name))

def visibleProps (t : TypeDesc) : Map String Unit :=
  t.properties.toList.foldl
    (fun props entry => if entry.2.internal then props else props.insert entry.1 ())
    ((∅ : Map String Unit).insert "id" ())

/-- The properties `get` answers, and those of them that are computed. -/
def getProps (t : TypeDesc) (ext : GetExt) (properties : Option (List String)) :
    Except MethodErr (Map String Unit × List String) :=
  if properties.any (maxRequestedProperties < ·.length) then
    .error (.invalidArguments ("more than 512 properties requested"))
  else
    match properties <|> ext.defaultGetProperties with
    | some names => requestProps t ext names ((∅ : Map String Unit).insert "id" ()) []
    | none => .ok (visibleProps t, [])

def copyProps (src : Object) : List String → Object → Object
  | [], out => out
  | name :: rest, out =>
    match src[name]? with
    | some v => copyProps src rest (out.insert name v)
    | none => copyProps src rest out

/-- The stored properties of a record that the response keeps. -/
def project (props : Map String Unit) (obj : Object) : Object := copyProps obj props.keys ∅

/-! ## The call -/

/-- `getResponse`; every entry is given with the id it is for. -/
structure GetResponse where
  state : ℕ := 0
  list : List (JmapId × Object) := []
  notFound : List JmapId := []

def dropRepeated : List JmapId → List JmapId → List JmapId
  | [], out => out
  | id :: rest, out => dropRepeated rest (if id ∈ out then out else out ++ [id])

/-- The ids `get` loads: those the client named, or all. -/
def getIds (typeName : String) (maxGet : ℕ) : Option (List JmapId) →
    ReadM MethodErr Store (List JmapId)
  | none => do
    let all ← ReadM.get fun s : Store => (s.allIds typeName).take (maxGet + 1)
    ReadM.ensure (all.length ≤ maxGet) .requestTooLarge
    return all
  | some ids => do
    ReadM.ensure (ids.length ≤ maxGet) .requestTooLarge
    return dropRepeated ids []

/-- The properties of one entry: what is stored, and on top of it what is computed. -/
def entryWith (props : Map String Unit) (computed : List String) (obj resolved : Object) :
    Object :=
  copyProps resolved computed (project props obj)

def getEntry (ext : GetExt) (props : Map String Unit) (computed : List String) (obj : Object) :
    ReadM MethodErr Store Object :=
  match ext.computed with
  | none => pure (project props obj)
  | some c =>
    if computed = [] then pure (project props obj)
    else do
      let resolved ← ReadM.mapError .serverFail (c.resolve obj computed)
      return entryWith props computed obj resolved

def getLoop (ext : GetExt) (props : Map String Unit) (computed : List String)
    (explicitIds : Bool) : List (JmapId × Option Object) → GetResponse →
      ReadM MethodErr Store GetResponse
  | [], resp => pure resp
  | (id, none) :: rest, resp =>
    -- the server chose the ids of a call without them: what has gone since is left out
    getLoop ext props computed explicitIds rest
      (if explicitIds then { resp with notFound := resp.notFound ++ [id] } else resp)
  | (id, some obj) :: rest, resp => do
    let entry ← getEntry ext props computed obj
    getLoop ext props computed explicitIds rest { resp with list := resp.list ++ [(id, entry)] }

/-- `stdType.get`; `maxGet` is `maxObjectsInGet`. -/
def fooGet (db : DB) (batch : ℕ+) (t : TypeDesc) (ext : GetExt) (maxGet : ℕ)
    (ids : Option (List JmapId)) (properties : Option (List String)) :
    ReadM MethodErr Store GetResponse := do
  let (props, computed) ← ReadM.ofExcept (getProps t ext properties)
  let wanted ← getIds t.name maxGet ids
  let objs ← ReadM.mapError .ofErr (db.getMany batch t.name wanted)
  let resp ← getLoop ext props computed ids.isSome (wanted.zip objs) {}
  let state ← ReadM.get fun s : Store => s.typeState t.name
  return { resp with state := state }

end NaustJmap.Runtime
