import NaustJmap.Runtime.Patch

/-!
# `Foo/set`

`stdType.set`: all creates, updates and destroys of one call run in the callback of one `DB.Update`;
an error of the callback or of the commit fails the whole method.  The response and the creation ids
are built while the callback runs, so they are the state of its program (`CallM`).
-/

namespace NaustJmap.Runtime

open Library ObjectDB

/-! ## The program of a call -/

/-- `errStateMismatch`, an error of the database or of a hook, a panic. -/
inductive CallErr where
  | stateMismatch
  | failed (e : Err)
  | panicked
  deriving DecidableEq, Repr

def CallErr.answer : CallErr → MethodErr
  | .stateMismatch => .stateMismatch
  | .failed e => .serverFail e.text
  | .panicked => .serverFail "internal error"

structure CallState where
  createdIds : CreatedIds
  created : Map JmapId Object := ∅
  updated : Map JmapId (Option Object) := ∅
  destroyed : List JmapId := []
  notCreated : Map JmapId SetError := ∅
  notUpdated : Map JmapId SetError := ∅
  notDestroyed : Map JmapId SetError := ∅
  copiedFrom : List JmapId := []

abbrev CallM := ExceptT CallErr (StateT CallState Callback)

namespace CallM

variable {α : Type}

def ofCallback (c : Callback (Except Err α)) : CallM α :=
  ExceptT.mk fun st => c >>= fun r => pure (r.mapError .failed, st)

def modify (f : CallState → CallState) : CallM Unit :=
  ExceptT.mk fun st => pure (.ok (), f st)

def createdIds : CallM CreatedIds := ExceptT.mk fun st => pure (.ok st.createdIds, st)

end CallM

namespace CallState

def rejectCreate (cid : JmapId) (serr : SetError) (st : CallState) : CallState :=
  { st with notCreated := st.notCreated.insert cid serr }

def rejectUpdate (id : JmapId) (serr : SetError) (st : CallState) : CallState :=
  { st with notUpdated := st.notUpdated.insert id serr }

def rejectDestroy (id : JmapId) (serr : SetError) (st : CallState) : CallState :=
  { st with notDestroyed := st.notDestroyed.insert id serr }

def publish (cid id : JmapId) (st : CallState) : CallState :=
  { st with createdIds := st.createdIds.insert cid id }

def echoCreated (cid : JmapId) (echo : Object) (fromId : Option JmapId) (st : CallState) :
    CallState :=
  { st with
    created := st.created.insert cid echo
    copiedFrom := st.copiedFrom ++ fromId.toList }

end CallState

/-! ## Types and their hooks -/

/-- The verdict on one record: an error of the call, a rejection, or what is accepted. -/
abbrev Verdict (α : Type) := Except Err (Except SetError α)

/-- A program that creates one record, given as its id and its echo, or rejects it. -/
abbrev CommitCreate := Callback (Verdict (JmapId × Object))

/-- `PrepareCreate`, which returns `CommitCreate` of the value it prepared. -/
abbrev PrepareCreate :=
  CreatedIds → JmapId → Raw → ReadM Err Store (Except SetError CommitCreate)

/-- `SetHooks`.  `validate` returns the object as it leaves it. -/
structure SetHooks where
  validate : Option (Option Object → Object → Callback (Verdict Object)) := none
  destroy : Option (JmapId → Callback (Except Err (Option SetError))) := none
  prepareCreate : Option PrepareCreate := none

/-- `stdType`: a registered type with what its `/set` and `/copy` use. -/
structure StdType where
  desc : TypeDesc
  hooks : SetHooks := {}
  json : Json
  blobExists : JmapId → Callback (Except Err Bool)
  maxObjectsInSet : ℕ

/-! ## Creates -/

/-- `pendingCreate` and `pendingCopy`: an object, the names sent, and what it is a copy of. -/
structure Pending where
  obj : Object
  sent : List String
  fromId : Option JmapId := none

def withDefaults (t : TypeDesc) (obj : Object) : Object :=
  t.properties.toList.foldl (fun obj entry =>
    match entry.2.default with
    | none => obj
    | some d => if entry.1 ∈ obj then obj else obj.insert entry.1 d) obj

/-- The names a create must not carry: `id`, and what is not the client's to set. -/
def forbiddenInCreate (t : TypeDesc) (obj : Object) : List String :=
  obj.keys.filter fun name =>
    name = "id" || !(t.properties[name]?).any fun p => !p.serverSet && !p.internal

section Creates

variable (sc : Scanner) (st : StdType)

def prepareCreates : List (JmapId × Raw) → List (JmapId × Pending) →
    CallM (List (JmapId × Pending))
  | [], pending => pure pending
  | (cid, raw) :: rest, pending =>
    match st.json.object raw with
    | none => do
      CallM.modify (.rejectCreate cid
        { type := .invalidProperties, description := "create value is not an object" })
      prepareCreates rest pending
    | some obj =>
      if forbiddenInCreate st.desc obj ≠ [] then do
        CallM.modify (.rejectCreate cid (invalidProperties (forbiddenInCreate st.desc obj)))
        prepareCreates rest pending
      else if isNull raw ∧ withDefaults st.desc obj ≠ obj then
        -- null decodes to a nil map, and a default is assigned into it
        throw .panicked
      else
        prepareCreates rest
          (pending ++ [(cid, { obj := withDefaults st.desc obj, sent := obj.keys })])

/-- The checks one create goes through before it is staged. -/
def admitCreate (hooks : SetHooks) (obj : Object) : Callback (Verdict Object) :=
  if checkValues sc st.desc obj ≠ [] then
    pure (.ok (.error (invalidProperties (checkValues sc st.desc obj))))
  else
    checkBlobRefs st.json st.blobExists obj st.desc.properties.toList [] >>= fun
      | .error e => pure (.error e)
      | .ok bad =>
        if bad ≠ [] then pure (.ok (.error (invalidProperties bad)))
        else
          match hooks.validate with
          | none => pure (.ok (.ok obj))
          | some validate => validate none obj

/-- Stage a create that passed its checks, and publish its id. -/
def landCreate (cid : JmapId) (p : Pending) (obj : Object) : CallM Unit := do
  let id ← CallM.ofCallback (.create st.desc.name obj .done)
  CallM.modify (.publish cid id)
  let stored ← CallM.ofCallback (.get st.desc.name id .done)
  -- the response carries every property the client did not send
  CallM.modify (.echoCreated cid (stored.filter fun name _ => name ∉ p.sent) p.fromId)

/-- One pending create; it is returned if it waits. -/
def createStep (hooks : SetHooks) (cid : JmapId) (p : Pending) :
    CallM (List (JmapId × Pending)) := do
  let ids ← CallM.createdIds
  let r := resolveIdRefs st.json st.desc p.obj ids
  if r.2 ≠ [] then
    return [(cid, { p with obj := r.1 })]
  else
    match ← CallM.ofCallback (admitCreate sc st hooks r.1) with
    | .error serr => CallM.modify (.rejectCreate cid serr)
    | .ok obj => landCreate st cid p obj
    return []

def createPass (hooks : SetHooks) : List (JmapId × Pending) → CallM (List (JmapId × Pending))
  | [] => pure []
  | (cid, p) :: rest => do
    let waiting ← createStep sc st hooks cid p
    let left ← createPass hooks rest
    return waiting ++ left

def rejectUnresolved : List (JmapId × Pending) → CallM Unit
  | [] => pure ()
  | (cid, p) :: rest => do
    let ids ← CallM.createdIds
    CallM.modify
      (.rejectCreate cid (invalidProperties (resolveIdRefs st.json st.desc p.obj ids).2))
    rejectUnresolved rest

/-- The passes; every one but the last creates or rejects, so the number of creates suffices. -/
def createRounds (hooks : SetHooks) : ℕ → List (JmapId × Pending) → CallM Unit
  | 0, _ => pure ()
  | fuel + 1, pending =>
    if pending = [] then pure ()
    else do
      let left ← createPass sc st hooks pending
      if left.length = pending.length then rejectUnresolved st left
      else createRounds hooks fuel left

def processCreates (creates : Map JmapId Raw) : CallM Unit := do
  let pending ← prepareCreates st creates.toList []
  createRounds sc st st.hooks (pending.length + 1) pending

end Creates

/-- A create whose preparation is done: rejected, or ready to commit. -/
structure Prepared where
  cid : JmapId
  commit : Except SetError CommitCreate
  fromId : Option JmapId := none

def commitPrepared (p : Prepared) : CallM Unit :=
  match p.commit with
  | .error serr => CallM.modify (.rejectCreate p.cid serr)
  | .ok commit => do
    match ← CallM.ofCallback commit with
    | .error serr => CallM.modify (.rejectCreate p.cid serr)
    | .ok (id, echo) => do
      CallM.modify (.publish p.cid id)
      CallM.modify (.echoCreated p.cid echo p.fromId)

/-- `commitPreparedCreates`, and the loops of `Email/import` and `Email/copy`. -/
def commitPreparedCreates : List Prepared → CallM Unit
  | [] => pure ()
  | p :: rest => do
    commitPrepared p
    commitPreparedCreates rest

/-! ## Updates -/

/-- `hookSideEffects`: what a hook changed of an object, without Internal properties. -/
def hookSideEffects (j : Json) (t : TypeDesc) (before after : Object) : Option Object :=
  let changed := after.filter fun name v => !jsonEqual j before[name]? (some v) && !t.hides name
  let side := before.keys.foldl (fun side name =>
    if name ∈ after ∨ t.hides name then side else side.insert name "null") changed
  if side.isEmpty then none else some side

section Changes

variable (sc : Scanner) (st : StdType)

/-- The `Validate` hook of an update: the object to store and the echo. -/
def validateUpdate (current new : Object) : Callback (Verdict (Object × Option Object)) :=
  match st.hooks.validate with
  | none => pure (.ok (.ok (new, none)))
  | some validate =>
    validate (some current) new >>= fun
      | .error e => pure (.error e)
      | .ok (.error serr) => pure (.ok (.error serr))
      | .ok (.ok obj) => pure (.ok (.ok (obj, hookSideEffects st.json st.desc new obj)))

def admitUpdate (current : Object) (raw : Raw) (createdIds : CreatedIds) :
    Callback (Verdict (Object × Option Object)) :=
  match st.json.object raw with
  | none => pure (.ok (.error
      { type := .invalidPatch, description := "update value is not a PatchObject" }))
  | some patch =>
    match applyPatch sc st.json st.desc current patch createdIds with
    | .error serr => pure (.ok (.error serr))
    | .ok new =>
      checkBlobRefs st.json st.blobExists new st.desc.properties.toList [] >>= fun
        | .error e => pure (.error e)
        | .ok bad =>
          if bad ≠ [] then pure (.ok (.error (invalidProperties bad)))
          else validateUpdate st current new

/-- A record as the update sees it, `none` when it is not there. -/
def CallM.find (typeName : String) (id : JmapId) : CallM (Option Object) :=
  CallM.ofCallback (.get typeName id fun
    | .ok obj => .done (.ok (some obj))
    | .error .notFound => .done (.ok none)
    | .error e => .done (.error e))

def storeUpdate (uid realId : JmapId) : Except SetError (Object × Option Object) → CallM Unit
  | .error serr => CallM.modify (.rejectUpdate uid serr)
  | .ok (obj, side) => do
    CallM.ofCallback (.write (.put st.desc.name realId obj) .done)
    CallM.modify fun c => { c with updated := c.updated.insert realId side }

def processUpdate (uid : JmapId) (raw : Raw) : CallM Unit := do
  let ids ← CallM.createdIds
  match resolveIdArg ids uid with
  | none => CallM.modify (.rejectUpdate uid { type := .notFound })
  | some realId => do
    match ← CallM.find st.desc.name realId with
    | none => CallM.modify (.rejectUpdate uid { type := .notFound })
    | some current => do
      let verdict ← CallM.ofCallback (admitUpdate sc st current raw ids)
      storeUpdate st uid realId verdict

def processUpdates : List (JmapId × Raw) → CallM Unit
  | [] => pure ()
  | (uid, raw) :: rest => do
    processUpdate sc st uid raw
    processUpdates rest

/-! ## Destroys -/

/-- The `Destroy` hook, which only runs for a record that is there. -/
def destroyHook (id : JmapId) : CallM (Option SetError) :=
  match st.hooks.destroy with
  | none => pure none
  | some hook => do
    match ← CallM.find st.desc.name id with
    | none => pure none
    | some _ => CallM.ofCallback (hook id)

/-- `Update.Destroy`; whether the record was there. -/
def CallM.destroy (typeName : String) (id : JmapId) : CallM Bool :=
  CallM.ofCallback (.write (.destroy typeName id) fun
    | .ok () => .done (.ok true)
    | .error .notFound => .done (.ok false)
    | .error e => .done (.error e))

def processDestroy (did : JmapId) : CallM Unit := do
  let ids ← CallM.createdIds
  match resolveIdArg ids did with
  | none => CallM.modify (.rejectDestroy did { type := .notFound })
  | some realId => do
    match ← destroyHook st realId with
    | some serr => CallM.modify (.rejectDestroy did serr)
    | none => do
      match ← CallM.destroy st.desc.name realId with
      | true => CallM.modify fun c => { c with destroyed := c.destroyed ++ [realId] }
      | false => CallM.modify (.rejectDestroy did { type := .notFound })

def processDestroys : List JmapId → CallM Unit
  | [] => pure ()
  | did :: rest => do
    processDestroy st did
    processDestroys rest

end Changes

/-! ## The call -/

/-- What the rest of the system contributes to one commit. -/
structure CommitEnv where
  db : DB
  acct : JmapId
  schedule : ℕ → Store
  draw : ℕ → JmapId
  now : Int
  acquired : Except Err Unit := .ok ()
  written : Except Err Unit := .ok ()

/-- The program of a call: result, what it built, update and the index of the next read. -/
def CallM.exec {α : Type} (env : CommitEnv) (m : CallM α) (c : CallState) (u : Update) (n : ℕ) :
    (Except CallErr α × CallState) × Update × ℕ :=
  Callback.runAt env.db env.draw env.schedule (ExceptT.run m c) u n

/-- The commit after the callback: the number of the new state, if the type's state moved. -/
def commitUpdate (env : CommitEnv) (typeName : String) (u : Update) : Except Err (Option ℕ) := do
  if u.nothingStaged then return none
  let _batch ← u.buildBatch env.db env.acct env.now
  env.written
  return if typeName ∈ u.touched env.db then some u.sequence else none

/-- `DB.Update` of a method of the type: an error, or the type's new state. -/
def CallM.update (env : CommitEnv) (typeName : String) (m : CallM Unit) (c : CallState) (n : ℕ) :
    Except CallErr (Option ℕ) × CallState :=
  match env.acquired with
  | .error e => (.error (.failed e), c)
  | .ok () =>
    match m.exec env c { sequence := (env.schedule n).seq + 1 } (n + 1) with
    | ((.error e, c'), _) => (.error e, c')
    | ((.ok (), c'), u, _) => ((commitUpdate env typeName u).mapError .failed, c')

def CallM.checkState (typeName : String) (ifInState : Option ℕ) : CallM ℕ := do
  let state ← CallM.ofCallback (.read fun s => .done (.ok (s.typeState typeName)))
  if ifInState.any (· ≠ state) then throw .stateMismatch
  return state

structure SetArgs where
  ifInState : Option ℕ := none
  create : Map JmapId Raw := ∅
  update : Map JmapId Raw := ∅
  destroy : List JmapId := []

/-- The answer of one method: `resp` is what the callback built. -/
structure SetResponse where
  oldState : ℕ
  newState : ℕ
  resp : CallState

/-- The loop of `set` over the creates that `PrepareCreate` handles, outside the lease. -/
def prepareAll (prepare : PrepareCreate) (createdIds : CreatedIds) :
    List (JmapId × Raw) → ReadM Err Store (List Prepared)
  | [] => pure []
  | (cid, raw) :: rest => do
    let commit ← prepare createdIds cid raw
    let others ← prepareAll prepare createdIds rest
    return { cid := cid, commit := commit } :: others

/-- The creates of a call, for a type with create hooks those prepared before. -/
def stageCreates (sc : Scanner) (st : StdType) (create : Map JmapId Raw)
    (prepared : List Prepared) : CallM Unit :=
  match st.hooks.prepareCreate with
  | some _ => commitPreparedCreates prepared
  | none => processCreates sc st create

def setCallback (sc : Scanner) (st : StdType) (a : SetArgs) (prepared : List Prepared) :
    CallM Unit := do
  let _ ← CallM.checkState st.desc.name a.ifInState
  stageCreates sc st a.create prepared
  processUpdates sc st a.update.toList
  processDestroys st a.destroy

/-- What `set` prepares before it takes the lease. -/
def prepareSet (st : StdType) (a : SetArgs) (createdIds : CreatedIds) :
    ReadM Err Store (List Prepared) :=
  match st.hooks.prepareCreate with
  | some prepare => prepareAll prepare createdIds a.create.toList
  | none => pure []

/-- A method's answer; `oldState` is the state the callback saw. -/
def answerOf (oldState : ℕ) (r : Except CallErr (Option ℕ) × CallState) :
    Except MethodErr SetResponse :=
  match r.1 with
  | .error e => .error e.answer
  | .ok newState =>
    .ok { oldState := oldState, newState := newState.getD oldState, resp := r.2 }

/-- `stdType.set`: the answer and the creation ids of the request after it. -/
def fooSet (env : CommitEnv) (st : StdType) (a : SetArgs) (createdIds : CreatedIds) :
    Except MethodErr SetResponse × CreatedIds :=
  if st.maxObjectsInSet < a.create.size + a.update.size + a.destroy.length then
    (.error .requestTooLarge, createdIds)
  else
    match (prepareSet st a createdIds).runAt env.schedule 0 with
    | (.error e, _) => (.error (.serverFail e.text), createdIds)
    | (.ok prepared, n) =>
      let r := (setCallback env.db.scan st a prepared).update env st.desc.name
        { createdIds := createdIds } n
      -- the callback's first read is the type state
      (answerOf ((env.schedule (n + 1)).typeState st.desc.name) r, r.2.createdIds)

end NaustJmap.Runtime
