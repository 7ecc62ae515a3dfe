import NaustJmap.ObjectDB.Store

/-!
# Staging Mutations

`objectdb.Update`: the mutations of one commit are staged in memory, keyed by record.  Each
operation is a program of atomic reads (`Reads Store`), whether or not the account's lease still
holds.  The callback is an arbitrary tree `Callback` of operations.
-/

namespace NaustJmap.ObjectDB

open Library

/-! ## The database -/

/-- `objectdb.DB`: types are registered validated, under their own name. -/
structure DB where
  scan : Scanner
  types : Map String TypeDesc
  registered : ∀ {name : String} {t : TypeDesc}, types[name]? = some t →
    t.name = name ∧ t.validate scan = .ok ()

@[simps]
def DB.new (sc : Scanner) : DB where
  scan := sc
  types := ∅
  registered h := by simp at h

/-- The database with one more type, whose description was validated. -/
@[simps]
def DB.add (db : DB) (t : TypeDesc) (hvalid : t.validate db.scan = .ok ()) : DB where
  scan := db.scan
  types := db.types.insert t.name t
  registered := by
    intro name t' h
    rw [Map.getElem?_insert] at h
    split at h
    · cases h
      exact ⟨by assumption, hvalid⟩
    · exact db.registered h

theorem DB.types_add {db : DB} {t : TypeDesc} {hvalid : t.validate db.scan = .ok ()} :
    (db.add t hvalid).types[t.name]? = some t :=
  Std.ExtTreeMap.getElem?_insert_self

def DB.registerType (db : DB) (t : TypeDesc) : Except String DB :=
  match hv : t.validate db.scan with
  | .error e => .error e
  | .ok () =>
    if (db.types[t.name]?).isSome then
      .error ("objectdb: type " ++ t.name ++ " already registered")
    else .ok (db.add t hv)

/-! ## Staged records -/

/-- `stagedRecord`: without `old` it is new, without `new` destroyed; `quiet` if `PutInternal`. -/
structure StagedRecord where
  old : Option Object := none
  new : Option Object := none
  created : Bool := false
  quiet : Bool := false

/-- `objectdb.Update`.  `createSeq` counts the ids drawn so far, whatever the id scheme. -/
structure Update where
  sequence : ℕ
  staged : Map RecKey StagedRecord := ∅
  bumped : Map String Unit := ∅
  tagOps : Map String Bool := ∅
  createSeq : ℕ := 0
  /-- The cache of committed reads. -/
  read : Map RecKey Object := ∅

def Update.stage (u : Update) (k : RecKey) (st : StagedRecord) : Update :=
  { u with staged := u.staged.insert k st }

/-- `checkKinds`: a property is declared and, unless unchanged from `prior`, of its kind. -/
def checkKinds (sc : Scanner) (t : TypeDesc) (obj : Object) (prior : Option Object) :
    Except Err Unit :=
  obj.toList.forM fun entry =>
    if entry.1 = "id" then .ok ()
    else
      match t.properties[entry.1]? with
      | none => .error (.unknownProperty entry.1 t.name)
      | some p =>
        -- `bytes.Equal` does not tell an absent value from an empty one
        if prior.any fun o => o[entry.1]?.getD "" = entry.2 then .ok ()
        else
          match p.checkValue sc entry.2 with
          | .ok () => .ok ()
          | .error e => .error (.badProperty entry.1 e)

/-- `diffProps`: the property names whose raw values differ. -/
def diffProps (old new : Object) : List String :=
  (new.toList.filter fun entry => old[entry.1]? ≠ some entry.2).map Prod.fst ++
    old.keys.filter fun name => new[name]? = none

def TypeDesc.hides (t : TypeDesc) (name : String) : Bool :=
  t.properties[name]?.any (·.internal)

/-- `json.Marshal(id)`, and `%q` of a name in the text of an error, without the escapes of either:
    an id has no character that needs one. -/
def quoteId (id : JmapId) : Raw := "\"" ++ id ++ "\""

/-- `jsonscan.String(obj["id"])`. -/
def objectId (sc : Scanner) (obj : Object) : Option JmapId :=
  obj[("id" : String)]?.bind sc.string

/-! ## Operations of a callback -/

def tagExists : String := "exists"

namespace Update

variable (db : DB) (typeName : String) (id : JmapId) (obj : Object) (u : Update)

-- an operation returns its answer and the update as it leaves it

/-- `Update.getCommitted`: the committed record, through the read cache. -/
def getCommitted : Reads Store (Except Err Object × Update) :=
  match u.read[RecKey.mk typeName id]? with
  | some obj => pure (.ok obj, u)
  | none =>
    match db.types[typeName]? with
    | none => pure (.error .unknownType, u)
    | some _ =>
      Reads.get (fun s : Store => s.objs[RecKey.mk typeName id]?) >>= fun
        | none => pure (.error .notFound, u)
        | some obj => pure (.ok obj, { u with read := u.read.insert ⟨typeName, id⟩ obj })

/-- `Update.Get`: staged changes first, then committed state. -/
def get : Reads Store (Except Err Object × Update) :=
  match u.staged[RecKey.mk typeName id]? with
  | some st =>
    match st.new with
    | none => pure (.error .notFound, u)
    | some obj => pure (.ok obj, u)
  | none => getCommitted db typeName id u

/-- `Update.Create`; `draw` are the ids the commit's id scheme yields, in order. -/
def create (draw : ℕ → JmapId) (typeName : String) (obj : Object) (u : Update) :
    Reads Store (Except Err JmapId × Update) :=
  match db.types[typeName]? with
  | none => pure (.error .unknownType, u)
  | some t =>
    if (obj[("id" : String)]?).isSome then pure (.error .createCarriesId, u)
    else
      match checkKinds db.scan t obj none with
      | .error e => pure (.error e, u)
      | .ok () =>
        let id := draw u.createSeq
        let stored := obj.insert "id" (quoteId id)
        pure (.ok id,
          { u with createSeq := u.createSeq + 1 }.stage ⟨typeName, id⟩
            { new := some stored, created := true })

def put : Reads Store (Except Err Unit × Update) :=
  match db.types[typeName]? with
  | none => pure (.error .unknownType, u)
  | some t =>
    if objectId db.scan obj ≠ some id then pure (.error .putIdMismatch, u)
    else
      match u.staged[RecKey.mk typeName id]? with
      | some st =>
        match st.new with
        | none => pure (.error .notFound, u)
        | some cur =>
          match checkKinds db.scan t obj (some cur) with
          | .error e => pure (.error e, u)
          | .ok () =>
            -- an ordinary write makes the record loud
            pure (.ok (), u.stage ⟨typeName, id⟩ { st with new := some obj, quiet := false })
      | none =>
        getCommitted db typeName id u >>= fun
          | (.error e, u) => pure (.error e, u)
          | (.ok old, u) =>
            match checkKinds db.scan t obj (some old) with
            | .error e => pure (.error e, u)
            | .ok () =>
              pure (.ok (), u.stage ⟨typeName, id⟩ { old := some old, new := some obj })

/-- `Update.PutInternal`: a bookkeeping write that may only change Internal properties. -/
def putInternal : Reads Store (Except Err Unit × Update) :=
  match db.types[typeName]? with
  | none => pure (.error .unknownType, u)
  | some t =>
    if objectId db.scan obj ≠ some id then pure (.error .putIdMismatch, u)
    else
      get db typeName id u >>= fun
        | (.error e, u) => pure (.error e, u)
        | (.ok prior, u) =>
          match checkKinds db.scan t obj (some prior) with
          | .error e => pure (.error e, u)
          | .ok () =>
            match (diffProps prior obj).find? fun name => !t.hides name with
            | some name => pure (.error (.putInternalVisible typeName id name), u)
            | none =>
              match u.staged[RecKey.mk typeName id]? with
              | some st =>
                -- loud stays loud
                pure (.ok (), u.stage ⟨typeName, id⟩ { st with new := some obj })
              | none =>
                pure (.ok (),
                  u.stage ⟨typeName, id⟩ { old := some prior, new := some obj, quiet := true })

def destroy : Reads Store (Except Err Unit × Update) :=
  match db.types[typeName]? with
  | none => pure (.error .unknownType, u)
  | some _ =>
    match u.staged[RecKey.mk typeName id]? with
    | some st =>
      match st.new with
      | none => pure (.error .notFound, u)
      | some _ => pure (.ok (), u.stage ⟨typeName, id⟩ { st with new := none })
    | none =>
      getCommitted db typeName id u >>= fun
        | (.error e, u) => pure (.error e, u)
        | (.ok old, u) => pure (.ok (), u.stage ⟨typeName, id⟩ { old := some old })

def bumpState : Reads Store (Except Err Unit × Update) :=
  match db.types[typeName]? with
  | none => pure (.error .unknownType, u)
  | some _ => pure (.ok (), { u with bumped := u.bumped.insert typeName () })

def setAccountTag (tag : String) (u : Update) : Reads Store (Except Err Unit × Update) :=
  if tag = "" then pure (.error .emptyTag, u)
  else pure (.ok (), { u with tagOps := u.tagOps.insert tag true })

def clearAccountTag (tag : String) (u : Update) : Reads Store (Except Err Unit × Update) :=
  if tag = "" then pure (.error .emptyTag, u)
  else if tag = tagExists then pure (.error .registryTag, u)
  else pure (.ok (), { u with tagOps := u.tagOps.insert tag false })

end Update

/-! ## Callbacks -/

inductive WriteOp where
  | put (typeName : String) (id : JmapId) (obj : Object)
  | putInternal (typeName : String) (id : JmapId) (obj : Object)
  | destroy (typeName : String) (id : JmapId)
  | bumpState (typeName : String)
  | setAccountTag (tag : String)
  | clearAccountTag (tag : String)

/-- Any program over the operations of `Update`, other reads and looks included, with its result. -/
inductive Callback (α : Type) where
  | done (a : α)
  | read (k : Store → Callback α)
  | view (k : Update → Callback α)
  | get (typeName : String) (id : JmapId) (k : Except Err Object → Callback α)
  | create (typeName : String) (obj : Object) (k : Except Err JmapId → Callback α)
  | write (op : WriteOp) (k : Except Err Unit → Callback α)

/-- The callback `DB.Update` runs. -/
abbrev Txn := Callback (Except Err Unit)

def WriteOp.exec (db : DB) : WriteOp → Update → Reads Store (Except Err Unit × Update)
  | .put typeName id obj => Update.put db typeName id obj
  | .putInternal typeName id obj => Update.putInternal db typeName id obj
  | .destroy typeName id => Update.destroy db typeName id
  | .bumpState typeName => Update.bumpState db typeName
  | .setAccountTag tag => Update.setAccountTag tag
  | .clearAccountTag tag => Update.clearAccountTag tag

def Callback.exec {α : Type} (db : DB) (draw : ℕ → JmapId) :
    Callback α → Update → Reads Store (α × Update)
  | .done a, u => pure (a, u)
  | .read k, u => .read fun s => (k s).exec db draw u
  | .view k, u => (k u).exec db draw u
  | .get typeName id k, u =>
    Update.get db typeName id u >>= fun r => (k r.1).exec db draw r.2
  | .create typeName obj k, u =>
    Update.create db draw typeName obj u >>= fun r => (k r.1).exec db draw r.2
  | .write op k, u => op.exec db u >>= fun r => (k r.1).exec db draw r.2

end NaustJmap.ObjectDB
