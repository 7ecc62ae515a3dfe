import NaustJmap.Submit.Sender

/-!
# `MDN/send`

`capabilities/mdn/send.go`: every entry is checked outside the lease, composed and committed through
`submit.Sender`, which stores the message as an Email, queues an EmailSubmission and runs the
`Before` and `After` hooks in the same commit.  The patches of `onSuccessUpdateEmail` are applied by
one implicit `Email/set` at the end.  What becomes of the message itself is `SendConfig.compose`.
-/

namespace NaustJmap.Mdn

open Library ObjectDB NaustJmap.Runtime Mail
open Submit (OpM Outgoing errSkipSend errNoRoleMailbox senderCommit commitOf)

/-! ## Marks on an Email -/

def issuedAtProperty : String := "mdnIssuedAt"

def emailInternalProperties : Map String Property :=
  (∅ : Map String Property).insert issuedAtProperty { kind := .date, nullable := true }

def mdnSent : String := "$mdnsent"

def recHasIssuedMDN (rec : Object) : Bool := rec[issuedAtProperty]?.any (· ≠ "null")

def recHasKeyword (j : MailJson) (rec : Object) (k : String) : Bool :=
  (rec["keywords"]?.bind j.bools).any fun kw => kw[k]? = some true

/-- `EmailView.HasKeyword`: a key of the stored object, whatever its value. -/
def viewHasKeyword (j : MailJson) (rec : Object) (k : String) : Bool :=
  (rec["keywords"]?.bind j.object).any fun kw => k ∈ kw

/-- `patchSetsMdnSent`: as a pointer, or in a whole replacement of the keywords. -/
def patchSetsMdnSent (j : MailJson) (patch : Option Raw) : Bool :=
  match patch.bind j.object with
  | none => false
  | some m =>
    m[("keywords/" ++ mdnSent : String)]?.bind j.bool = some true ||
      ((m["keywords"]?.bind j.object).bind fun kw => kw[mdnSent]?.bind j.bool) = some true

/-! ## The commit of one send -/

section Commit

variable (es : EmailStore)

/-- The `Before` hook: the duplicate checks under the lease. -/
def beforeSend (j : MailJson) (emailId : JmapId) : OpM Unit := do
  let rec ← OpM.get typeEmail emailId
  if recHasIssuedMDN rec || recHasKeyword j rec mdnSent then throw errSkipSend

/-- The `After` hook: the issue mark, stamped with the time of the send. -/
def afterSend (stamp : String) (emailId : JmapId) : OpM Unit := do
  let rec ← OpM.get typeEmail emailId
  OpM.write (.putInternal typeEmail emailId (rec.insert issuedAtProperty (quoteId stamp)))

/-- The commit of one notification about `emailId`. -/
def mdnCommit (j : MailJson) (stamp : String) (emailId : JmapId) (out : Outgoing) : OpM JmapId :=
  senderCommit es out "sent" (beforeSend j emailId) (afterSend stamp emailId)

end Commit

/-! ## One entry -/

def sendProperties : List String :=
  ["forEmailId", "subject", "textBody", "includeOriginalMessage", "reportingUA", "disposition",
    "finalRecipient", "extensionFields"]

/-- The call an entry belongs to: its map of creation ids, and the record of its Identity. -/
structure SendCall where
  createdIds : CreatedIds := ∅
  identity : Object := ∅

/-- `sendMDN`, as far as the handler looks at it itself. -/
structure SendMdn where
  forEmailId : JmapId
  hasDisposition : Bool

abbrev Headers := List (String × String)

structure SendConfig where
  email : EmailConfig
  maxObjectsInSet : ℕ
  /-- `Unmarshal` into `sendMDN`, or the text of its error. -/
  decode : Raw → Except String SendMdn
  /-- The headers of the message blob of an Email. -/
  readHeaders : Object → ReadM Err Store Headers
  /-- The checks on the message, the Identity of the call and the policy, and the composed
      report. -/
  compose : Object → JmapId → Raw → Headers → ReadM Err Store (Except SetError Outgoing)
  /-- `time.RFC3339` of a time. -/
  format : Int → String

def internalError : SetError := { type := .extension "serverFail", description := "internal error" }

def alreadySent (description : String) : SetError :=
  { type := .extension "mdnAlreadySent", description := description }

def alreadySentDescription : String :=
  "the server's record shows an MDN was already sent for this message"

section Entry

variable (db : DB) (cfg : SendConfig)

/-- The checks of `sendOne` that need no lookup: the entry. -/
def decodeEntry (raw : Raw) (patch : Option Raw) : Except SetError SendMdn := do
  match cfg.email.json.object raw with
  | none => throw { type := .invalidProperties, description := "an MDN creation must be an object" }
  | some props =>
    let bad := props.keys.filter (· ∉ sendProperties)
    if bad ≠ [] then
      throw { type := .invalidProperties, properties := bad
              description := "unknown or server-set properties" }
  match cfg.decode raw with
  | .error text => throw { type := .invalidProperties, description := text }
  | .ok m =>
    if m.forEmailId = "" then
      throw (invalidProp "forEmailId" "forEmailId must not be null")
    if !m.hasDisposition then
      throw (invalidProp "disposition" "disposition must not be null")
    if !patchSetsMdnSent cfg.email.json patch then
      throw (invalidProp "onSuccessUpdateEmail"
        "the onSuccessUpdateEmail patch for this entry must set keywords/$mdnsent true")
    return m

/-- `ReadEmail`: what is not found is `none`. -/
def readEmail (id : JmapId) : ReadM Err Store (Option Object) :=
  ExceptT.mk do
    let r ← ExceptT.run (db.get typeEmail id)
    match r with
    | .ok rec => pure (.ok (some rec))
    | .error .notFound => pure (.ok none)
    | .error e => pure (.error e)

def tryEmail (id : JmapId) : ReadM Err Store (Option Object) :=
  ExceptT.mk do
    let r ← ExceptT.run (db.get typeEmail id)
    pure (.ok r.toOption)

/-- `sendOne` up to the commit: the Email the notification is for, and the message. -/
def preflight (call : SendCall) (raw : Raw) (patch : Option Raw) :
    ReadM Err Store (Except SetError (JmapId × Outgoing)) := do
  match decodeEntry cfg raw patch with
  | .error serr => return .error serr
  | .ok m =>
    let emailId := (resolveIdArg call.createdIds m.forEmailId).getD ""
    match ← readEmail db emailId with
    | none => return .error { type := .notFound, description := "forEmailId not found" }
    | some view =>
      let headers ← cfg.readHeaders view
      if viewHasKeyword cfg.email.json view mdnSent then
        return .error (alreadySent "$mdnsent keyword is already present")
      -- the record is read again for the issue mark
      let rec ← tryEmail db emailId
      if rec.any recHasIssuedMDN then
        return .error (alreadySent alreadySentDescription)
      return (← cfg.compose call.identity emailId raw headers).map (emailId, ·)

/-- How `sendOne` answers an error of the commit. -/
def sendError (e : Err) : SetError :=
  if e = errSkipSend then alreadySent alreadySentDescription
  else if e = .notFound then { type := .notFound, description := "forEmailId not found" }
  else if e = errNoRoleMailbox then
    { type := .extension "serverFail"
      description := "the account has no mailbox with the sent role" }
  else internalError

/-- `sendOne`: the echo and the Email the notification is for, or a rejection. -/
def sendOne (env : CommitEnv) (call : SendCall) (raw : Raw) (patch : Option Raw) :
    Except SetError (Object × JmapId) × List BatchOp :=
  match (preflight env.db cfg call raw patch).runAt env.schedule 0 with
  | (.error _, _) => (.error internalError, [])
  | (.ok (.error serr), _) => (.error serr, [])
  | (.ok (.ok (emailId, out)), n) =>
    match commitOf env (mdnCommit cfg.email.store cfg.email.json (cfg.format env.now) emailId out) n
    with
    | (.error e, written) => (.error (sendError e), written)
    | (.ok _, written) => (.ok (out.echo, emailId), written)

end Entry

/-! ## The call -/

/-- What a call has built: its response and the patches of the implicit `Email/set`. -/
structure SendState where
  sent : Map JmapId Object := ∅
  notSent : Map JmapId SetError := ∅
  updates : Map JmapId Raw := ∅

def SendState.entry (st : SendState) (cid : JmapId) (patch : Option Raw) :
    Except SetError (Object × JmapId) → SendState
  | .error serr => { st with notSent := st.notSent.insert cid serr }
  | .ok (echo, emailId) =>
    { st with
      sent := st.sent.insert cid echo
      updates := patch.elim st.updates (st.updates.insert emailId) }

def implicitSet (st : SendState) : SetArgs := { update := st.updates }

end NaustJmap.Mdn
