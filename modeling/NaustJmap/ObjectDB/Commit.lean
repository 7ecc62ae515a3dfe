import NaustJmap.ObjectDB.Update

/-!
# Committing an Update

`Update.buildBatch` and `DB.update`: the staged records become one batch that holds the
object writes, the index maintenance derived from each record's pre-image, the change-log
entry, the type states and the sequence bump.
-/

namespace NaustJmap.ObjectDB

open Library

def collectOps {α : Type} (f : α → Except Err (List BatchOp)) :
    List α → Except Err (List BatchOp)
  | [] => .ok []
  | a :: rest => do
    let ops ← f a
    let more ← collectOps f rest
    return ops ++ more

/-! ## Property index -/

variable (sc : Scanner) (db : DB) (acct : JmapId) (t : TypeDesc) (id : JmapId)
  (old new : Option Object)

/-- `oldVal` and `newVal` of `indexOps`; `none` when the record or the property is absent. -/
def recordValue (p : Property) (name : String) (obj : Option Object) : Except Err (Option Bytes) :=
  match obj.bind (·[name]?) with
  | none => .ok none
  | some raw => some <$> indexValue sc p raw

/-- One segment of `orderSegs`: an absent value encodes as an empty segment. -/
def orderSeg (obj : Option Object) (ob : String) : Except Err Bytes :=
  match obj.bind (·[ob]?) with
  | none => .ok []
  | some raw =>
    match t.properties[ob]? with
    | none => .error .unknownKind
    | some p => indexValue sc p raw

/-- `orderSegs`: the encoded OrderBy siblings of an indexed property. -/
def orderSegs (p : Property) (obj : Option Object) : Except Err (List Bytes) :=
  p.orderBy.mapM (orderSeg sc t obj)

def propertyIndexOps (entry : String × Property) : Except Err (List BatchOp) :=
  let name := entry.1
  let p := entry.2
  if p.indexed then do
    let oldVal ← recordValue sc p name old
    let newVal ← recordValue sc p name new
    match oldVal, newVal with
    | none, none => return []
    | none, some v =>
      let ord ← orderSegs sc t p new
      return [.setIdx (idxKey acct t.name name v ord id)]
    | some v, none =>
      let ord ← orderSegs sc t p old
      return [.deleteIdx (idxKey acct t.name name v ord id)]
    | some v, some w =>
      if v = w then return []
      else
        -- one orderSegs serves both keys: OrderBy properties are Immutable
        let ord ← orderSegs sc t p new
        return [.deleteIdx (idxKey acct t.name name v ord id),
          .setIdx (idxKey acct t.name name w ord id)]
  else .ok []

def indexOps : Except Err (List BatchOp) :=
  collectOps (propertyIndexOps sc acct t id old new) t.properties.toList

/-! ## Membership index -/

/-- The dedup of `setMembers`: duplicate member names collapse to the first. -/
def dedupNames (names : List String) : List String :=
  names.foldl (fun out name => if name ∈ out then out else out ++ [name]) []

/-- `setMembers`: the members of a composite value; null and absent have none. -/
def setMembers (p : Property) (raw : Option Raw) : Except Err (List String) :=
  match raw with
  | none => .ok []
  | some raw =>
    match p.kind with
    | .object =>
      match sc.eachKey raw with
      | some names => .ok (dedupNames names)
      | none => .error .malformedComposite
    | .array =>
      match sc.eachString raw with
      | some elems => .ok elems
      | none => .error .malformedComposite
    | _ => .error .notSetIndexable

def propertySetIndexOps (entry : String × Property) : Except Err (List BatchOp) :=
  let name := entry.1
  let p := entry.2
  let oldRaw := old.bind (·[name]?)
  let newRaw := new.bind (·[name]?)
  if p.setIndexed then
    -- identical bytes are identical members
    if oldRaw = newRaw then .ok []
    else do
      let oldM ← setMembers sc p oldRaw
      let newM ← setMembers sc p newRaw
      return (oldM.filter (· ∉ newM)).map
          (fun m => .deleteIdx (idxKey acct t.name name (bytesOf m) [] id)) ++
        (newM.filter (· ∉ oldM)).map
          (fun m => .setIdx (idxKey acct t.name name (bytesOf m) [] id))
  else .ok []

def setIndexOps : Except Err (List BatchOp) :=
  collectOps (propertySetIndexOps sc acct t id old new) t.properties.toList

/-! ## Blob references -/

/-- `blobRefsOf`: the blobs an object's BlobRef properties name. -/
def blobRefsOf (obj : Option Object) : List JmapId :=
  dedupNames <| t.properties.toList.filterMap fun entry =>
    if entry.2.blobRef then (obj.bind (·[entry.1]?)).bind sc.string else none

/-- `refOps`: the reference index and the pending hints. -/
def refOps : List BatchOp :=
  let oldRefs := blobRefsOf sc t old
  let newRefs := blobRefsOf sc t new
  (oldRefs.filter (· ∉ newRefs)).flatMap
      (fun blobID => [.deleteRef (refKey acct blobID t.name id),
        .setPending (pendingKey acct blobID)]) ++
    (newRefs.filter (· ∉ oldRefs)).flatMap
      (fun blobID => [.setRef (refKey acct blobID t.name id),
        .deletePending (pendingKey acct blobID)])

/-! ## The batch -/

/-- `encodeObject`: every value must be one JSON value. -/
def encodeObject (obj : Object) : Except Err Object :=
  match obj.toList.find? fun entry => !sc.validValue entry.2 with
  | some entry => .error (.malformedValue entry.1)
  | none => .ok obj

def StagedRecord.preImage (st : StagedRecord) : Option Object :=
  if st.created then none else st.old

def maintenanceOps : Except Err (List BatchOp) := do
  let index ← indexOps db.scan acct t id old new
  let sets ← setIndexOps db.scan acct t id old new
  return index ++ refOps db.scan acct t id old new ++ sets

/-- What the loop of `buildBatch` appends to the batch for one staged record. -/
def stagedOps (entry : RecKey × StagedRecord) : Except Err (List BatchOp) :=
  let k := entry.1
  let st := entry.2
  match db.types[k.typeName]? with
  | none => .error .unknownType
  | some t =>
    match st.new with
    | none =>
      -- created and destroyed in one Update: no trace
      if st.created then .ok []
      else do
        let ops ← maintenanceOps db acct t k.id st.preImage none
        return .deleteObj k :: ops
    | some new => do
      let obj ← encodeObject db.scan new
      let ops ← maintenanceOps db acct t k.id st.preImage (some new)
      return .setObj k obj :: ops

/-- `mergeProps`: the union of two name lists, sorted, without duplicates. -/
def mergeProps (a b : List String) : List String := (a ++ b).dedup.insertionSort (· ≤ ·)

/-- What the loop of `buildBatch` does to a type's log entry for one staged record. -/
def logStaged (t : Option TypeDesc) (id : JmapId) (st : StagedRecord) (te : LogTypeEntry) :
    LogTypeEntry :=
  match st.new with
  | none => { te with destroyed := te.destroyed ++ [id] }
  | some new =>
    if st.created then { te with created := te.created ++ [id] }
    else if st.quiet then te
    else
      -- Internal property names stay out of the log
      let visible := (diffProps (st.old.getD ∅) new).filter fun name =>
        !t.any (·.hides name)
      { te with
        updated := te.updated ++ [id]
        updatedProps := some (mergeProps (te.updatedProps.getD []) visible) }

def logStep (types : Map String LogTypeEntry) (entry : RecKey × StagedRecord) :
    Map String LogTypeEntry :=
  let k := entry.1
  let st := entry.2
  if st.created ∧ st.new = none then types
  else
    types.insert k.typeName
      (logStaged db.types[k.typeName]? k.id st (types[k.typeName]?.getD {}))

def LogTypeEntry.isEmpty (te : LogTypeEntry) : Bool :=
  te.created.isEmpty && te.updated.isEmpty && te.destroyed.isEmpty

/-- `entry.Types` after the loop, without the types nothing is reported for. -/
def Update.logTypes (u : Update) : Map String LogTypeEntry :=
  (u.staged.toList.foldl (logStep db) ∅).filter fun _ te => !te.isEmpty

/-- `touched`: the types whose state string the commit moves. -/
def Update.touched (u : Update) : List String :=
  (u.logTypes db).keys ++ u.bumped.keys.filter fun name => (u.logTypes db)[name]? = none

def tagOp (entry : String × Bool) : BatchOp :=
  if entry.2 then .setTag entry.1 else .deleteTag entry.1

/-- `Update.buildBatch`; `now` is the commit's wall clock. -/
def Update.buildBatch (now : Int) (u : Update) :
    Except Err (List BatchOp) := do
  let records ← collectOps (stagedOps db acct) u.staged.toList
  return .setTag tagExists :: u.tagOps.toList.map tagOp ++ records ++
    (u.touched db).map (.setTypeState · u.sequence) ++
    (if (u.logTypes db).isEmpty then []
      else [.setLog u.sequence { types := u.logTypes db, time := now }])

/-! ## `DB.update` -/

/-- The callback, the ids its creates draw and the clock. -/
structure Commit where
  fn : Txn
  draw : ℕ → JmapId
  now : Int

def Update.nothingStaged (u : Update) : Bool :=
  u.staged.isEmpty && u.bumped.isEmpty && u.tagOps.isEmpty

/-- `DB.update` up to the write: the batch, `none` when there is nothing to write. -/
def DB.update (c : Commit) : Reads Store (Except Err (Option (List BatchOp))) :=
  Reads.get (fun s : Store => s.seq) >>= fun current =>
    c.fn.exec db c.draw { sequence := current + 1 } >>= fun
      | (.error e, _) => pure (.error e)
      | (.ok (), u) =>
        if u.nothingStaged then pure (.ok none)
        else
          match u.buildBatch db acct c.now with
          | .error e => pure (.error e)
          | .ok batch => pure (.ok (some (batch ++ [.setSeq u.sequence])))

end NaustJmap.ObjectDB
