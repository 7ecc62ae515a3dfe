import NaustJmap.Runtime.Copy

/-!
# `Email/import` and `Email/copy`

The two handlers that create Emails from message blobs.  Each parses its messages before it
takes the lease (`preflight`) and inserts them in one commit (`Materializer.commit`); both
halves are parameters here, the second one as the program the first one returns.
-/

namespace NaustJmap.Mail

open Library ObjectDB NaustJmap.Runtime

def typeEmail : String := "Email"

structure ImportArgs where
  ifInState : Option ℕ := none
  emails : Map JmapId Raw := ∅

/-- The commit of prepared Emails, shared by the two handlers. -/
def ingestCallback (ifInState : Option ℕ) (preps : List Prepared) : CallM Unit := do
  let _ ← CallM.checkState typeEmail ifInState
  commitPreparedCreates preps

/-- The part of a handler after its preflight, which ended before read `n`. -/
def ingest (env : CommitEnv) (ifInState : Option ℕ) (createdIds : CreatedIds)
    (preps : Except Err (List Prepared) × ℕ) : Except MethodErr SetResponse × CreatedIds :=
  match preps with
  | (.error e, _) => (.error (.serverFail e.text), createdIds)
  | (.ok preps, n) =>
    let r := (ingestCallback ifInState preps).update env typeEmail { createdIds := createdIds } n
    (answerOf ((env.schedule (n + 1)).typeState typeEmail) r, r.2.createdIds)

def emailImport (env : CommitEnv) (maxObjectsInSet : ℕ)
    (preflight : JmapId → Raw → ReadM Err Store (Except SetError CommitCreate)) (a : ImportArgs)
    (createdIds : CreatedIds) : Except MethodErr SetResponse × CreatedIds :=
  if maxObjectsInSet < a.emails.size then (.error .requestTooLarge, createdIds)
  else
    ingest env a.ifInState createdIds
      ((prepareAll (fun _ => preflight) createdIds a.emails.toList).runAt env.schedule 0)

/-- `EmailCopy.preflight`: a copy that is ready names its original. -/
abbrev PreflightCopy :=
  CreatedIds → JmapId → Raw → ReadM Err Store (Except SetError (CommitCreate × JmapId))

/-- The preflight loop of `Email/copy`. -/
def preflightCopies (preflight : PreflightCopy) (createdIds : CreatedIds) :
    List (JmapId × Raw) → ReadM Err Store (List Prepared)
  | [] => pure []
  | (cid, raw) :: rest => do
    let p ← preflight createdIds cid raw
    let others ← preflightCopies preflight createdIds rest
    return {
      cid := cid
      commit := p.map Prod.fst
      fromId := p.toOption.map Prod.snd } :: others

/-- `EmailCopy.Handle` up to the implicit destroy. -/
def emailCopy (env : CommitEnv) (maxObjectsInSet : ℕ) (fromState : ℕ)
    (preflight : PreflightCopy) (a : CopyArgs) (createdIds : CreatedIds) :
    Except MethodErr SetResponse × CreatedIds :=
  if maxObjectsInSet < a.create.size then (.error .requestTooLarge, createdIds)
  else if a.ifFromInState.any (· ≠ fromState) then (.error .stateMismatch, createdIds)
  else
    ingest env a.ifInState createdIds
      ((preflightCopies preflight createdIds a.create.toList).runAt env.schedule 0)

end NaustJmap.Mail
