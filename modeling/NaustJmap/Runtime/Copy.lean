import NaustJmap.Runtime.Get
import NaustJmap.Runtime.Set

/-!
# `Foo/copy`

`stdType.copy`: the originals are read in the from account while the target account's lease
is held, pushed through the create pipeline of `/set`, and optionally destroyed by an
implicit `Foo/set` afterwards.
-/

namespace NaustJmap.Runtime

open Library ObjectDB

structure CopyArgs where
  ifFromInState : Option ℕ := none
  ifInState : Option ℕ := none
  create : Map JmapId Raw := ∅
  onSuccessDestroyOriginal : Bool := false
  destroyFromIfInState : Option ℕ := none

/-- The from account: its type state, and the original each create asks for. -/
structure CopySource where
  state : ℕ
  original : JmapId → JmapId → Except Err Object

/-- The original without `id` and server-set properties, under what the client sent. -/
def copyCandidate (t : TypeDesc) (original overlay : Object) : Object :=
  overlay.toList.foldl (fun obj entry => obj.insert entry.1 entry.2)
    (original.filter fun name _ => name ≠ "id" && !(t.properties[name]?).any (·.serverSet))

def forbiddenInCopy (t : TypeDesc) (overlay : Object) : List String :=
  overlay.keys.filter fun name => !(t.properties[name]?).any fun p => !p.serverSet

def prepareCopies (st : StdType) (source : CopySource) :
    List (JmapId × Raw) → List (JmapId × Pending) → CallM (List (JmapId × Pending))
  | [], pending => pure pending
  | (cid, raw) :: rest, pending =>
    match st.json.object raw with
    | none => do
      CallM.modify (.rejectCreate cid
        { type := .invalidProperties, description := "create value is not an object" })
      prepareCopies st source rest pending
    | some sent => do
      let ids ← CallM.createdIds
      match ((sent[("id" : String)]?.bind (resolveIdValue st.json ids)).bind
          st.json.string).filter (· ≠ "") with
      | none =>
        CallM.modify (.rejectCreate cid (invalidProperties ["id"]))
        prepareCopies st source rest pending
      | some fromId =>
        let overlay := sent.erase "id"
        if forbiddenInCopy st.desc overlay ≠ [] then
          CallM.modify (.rejectCreate cid (invalidProperties (forbiddenInCopy st.desc overlay)))
          prepareCopies st source rest pending
        else
          match source.original cid fromId with
          | .error .notFound =>
            CallM.modify (.rejectCreate cid { type := .notFound })
            prepareCopies st source rest pending
          | .error e => throw (.failed e)
          | .ok original =>
            let obj := copyCandidate st.desc original overlay
            prepareCopies st source rest (pending ++ [(cid,
              { obj := withDefaults st.desc obj, sent := obj.keys, fromId := some fromId })])

/-- `processCopies`: no hook validates a copy. -/
def processCopies (sc : Scanner) (st : StdType) (source : CopySource)
    (creates : Map JmapId Raw) : CallM Unit := do
  let pending ← prepareCopies st source creates.toList []
  createRounds sc st {} (pending.length + 1) pending

def copyCallback (sc : Scanner) (st : StdType) (source : CopySource) (a : CopyArgs) :
    CallM Unit := do
  if a.ifFromInState.any (· ≠ source.state) then throw .stateMismatch
  let _ ← CallM.checkState st.desc.name a.ifInState
  processCopies sc st source a.create

/-- `stdType.copy` up to the implicit destroy. -/
def fooCopy (env : CommitEnv) (st : StdType) (source : CopySource) (a : CopyArgs)
    (createdIds : CreatedIds) : Except MethodErr SetResponse × CreatedIds :=
  if st.maxObjectsInSet < a.create.size then (.error .requestTooLarge, createdIds)
  else
    let r := (copyCallback env.db.scan st source a).update env st.desc.name
      { createdIds := createdIds } 0
    (answerOf ((env.schedule 1).typeState st.desc.name) r, r.2.createdIds)

/-- The implicit `Foo/set` after a copy: it destroys each original once. -/
def destroyOriginals (destroyFromIfInState : Option ℕ) (resp : CallState) : SetArgs where
  ifInState := destroyFromIfInState
  destroy := dropRepeated resp.copiedFrom []

end NaustJmap.Runtime
