import NaustJmap.ObjectDB.Descriptor
import NaustJmap.Library.MapRange
import NaustJmap.Lease.StoreLease

/-!
# EmailSubmission Records and the Transactions on Them

The queue of `datatypes/mail/submit`: four kinds of transaction write to a record, each inside one
`DB.Update`: the worker's claim, check and finalize (`worker.go`), the client's cancel and destroy
(`submission.go`), the ingestion of a DSN or MDN (`reportingest.go`), and the create.  A transaction
is a function of the account's decoded records: `none` where the callback stages nothing.
-/

namespace NaustJmap.Submit

open Library ObjectDB
open Lease (Token mintToken)

/-! ## Records -/

structure DeliveryStatus where
  smtpReply : String
  delivered : String
  displayed : String
  deriving DecidableEq, Repr

structure SubAddress where
  email : String
  parameters : Map String (Option String) := ∅

structure SubEnvelope where
  mailFrom : Option SubAddress
  rcptTo : List SubAddress

structure Submission where
  /-- `none` when the stored value does not decode. -/
  envelope : Option SubEnvelope
  /-- `none` when it is no date. -/
  sendAt : Option Int
  undoStatus : String
  /-- What decodes of it. -/
  deliveryStatus : Map String DeliveryStatus
  /-- All of it decodes. -/
  statusReadable : Bool := true
  attempts : ℕ := 0
  /-- `none` when it is absent or no date. -/
  nextAttemptAt : Option Int
  claimedAt : Option Token := none
  blobId : JmapId
  messageId : Option String := none

/-- `undoStatus` values. -/
def undoPending : String := "pending"

@[inherit_doc undoPending]
def undoFinal : String := "final"

@[inherit_doc undoPending]
def undoCanceled : String := "canceled"

/-- The state-machine slots of a recipient. -/
inductive Slot where
  | interim | terminal | receipt
  deriving DecidableEq, Repr

inductive ReportKind where
  | dsn | mdn
  deriving DecidableEq, Repr

/-- A SubmissionReport record; its blob and time are not read here. -/
structure ReportRow where
  submissionId : JmapId
  kind : ReportKind
  recipient : String
  slot : Slot

structure Account where
  submissions : Map JmapId Submission := ∅
  reports : Map JmapId ReportRow := ∅

/-- `Update.Put` of a submission. -/
def Account.put (a : Account) (id : JmapId) (sub : Submission) : Account :=
  { a with submissions := a.submissions.insert id sub }

@[simp] theorem Account.put_self (a : Account) (id : JmapId) (sub : Submission) :
    (a.put id sub).submissions[id]? = some sub := by
  simp [Account.put]

theorem Account.put_of_ne (a : Account) {id id' : JmapId} (sub : Submission) (h : id ≠ id') :
    (a.put id sub).submissions[id']? = a.submissions[id']? := by
  simp [Account.put, Map.getElem?_insert, h]

/-! ## The worker -/

inductive Outcome where
  | accepted | rejected | tempFailed
  deriving DecidableEq, Repr

structure Result where
  recipient : String
  outcome : Outcome
  reply : String

/-- The part of `WorkerConfig` the transactions read, in nanoseconds. -/
structure WorkerConfig where
  retrySchedule : List Int
  retryPlateau : Int
  giveUpAfter : Int
  minAttempts : ℕ
  claimWindow : Int
  formatTime : Int → List Char

/-- A time written and read back as `time.RFC3339`: whole seconds. -/
def wholeSeconds (t : Int) : Int := t - t % 1000000000

/-- `Worker.claim`, the transaction. -/
def claimTxn (cfg : WorkerConfig) (id : JmapId) (now : Int) (stamp : Token) (a : Account) :
    Option Account :=
  match a.submissions[id]? with
  | none => none
  | some sub =>
    match sub.nextAttemptAt with
    | none => none
    | some due =>
      if now < due then none
      else
        -- parking the record in the same write takes it out of the due scan
        some (a.put id { sub with
          claimedAt := some stamp
          nextAttemptAt := some (wholeSeconds (now + cfg.claimWindow)) })

/-- `Worker.sendOne`, the check: the record, when the claim stands and the envelope is usable. -/
def checkTxn (id : JmapId) (stamp : Token) (a : Account) : Option (Submission × SubEnvelope) :=
  match a.submissions[id]? with
  | none => none
  | some sub =>
    if sub.claimedAt ≠ some stamp then none
    else
      match sub.envelope with
      | none => none
      | some env => if env.mailFrom.isNone then none else some (sub, env)

def queuedRecipients (sub : Submission) (env : SubEnvelope) : List SubAddress :=
  env.rcptTo.filter fun r => (sub.deliveryStatus[r.email]?).any (·.delivered = "queued")

def mergeResults (rcpts : List SubAddress) (results : List Result) (reply : String) :
    List Result :=
  results ++ (rcpts.filter fun r => r.email ∉ results.map (·.recipient)).map fun r =>
    ⟨r.email, .tempFailed, reply⟩

def applyResult (ds : Map String DeliveryStatus) (r : Result) : Map String DeliveryStatus :=
  match ds[r.recipient]? with
  | none => ds
  | some st =>
    -- never regress a final recipient
    if st.delivered ≠ "queued" then ds
    else
      ds.insert r.recipient { st with
        smtpReply := r.reply
        delivered :=
          match r.outcome with
          | .accepted => "unknown"
          | .rejected => "no"
          | .tempFailed => st.delivered }

/-- The recipients given up: finalize's last rewrite of the map. -/
def abandon (ds : Map String DeliveryStatus) : Map String DeliveryStatus :=
  ds.map fun _ st =>
    if st.delivered = "queued" then
      { st with
        delivered := "no"
        smtpReply := "554 5.4.7 delivery attempts abandoned after retry timeout" }
    else st

/-- `Worker.backoff`; `jitter` is what the random spread makes of the delay. -/
def backoff (cfg : WorkerConfig) (jitter : Int → Int) (attempts : ℕ) : Int :=
  jitter (cfg.retrySchedule.getD (attempts - 1) cfg.retryPlateau)

def anyAccepted (ds : Map String DeliveryStatus) : Bool :=
  ds.toList.any fun e => e.2.delivered = "unknown" || e.2.delivered = "yes"

def anyQueued (ds : Map String DeliveryStatus) : Bool :=
  ds.toList.any fun e => e.2.delivered = "queued"

def finalized (cfg : WorkerConfig) (now : Int) (jitter : Int → Int) (results : List Result)
    (sub : Submission) : Submission :=
  let ds := results.foldl applyResult sub.deliveryStatus
  let attempts := sub.attempts + 1
  let giveUp := anyQueued ds && cfg.minAttempts ≤ attempts &&
    sub.sendAt.all fun sendAt => cfg.giveUpAfter < now - sendAt
  let ds' := if giveUp then abandon ds else ds
  let done := { sub with deliveryStatus := ds', attempts := attempts, claimedAt := none }
  if anyQueued ds && !giveUp then
    { done with
      nextAttemptAt := some (wholeSeconds (now + backoff cfg jitter attempts))
      undoStatus := if anyAccepted ds then undoFinal else sub.undoStatus }
  else { done with nextAttemptAt := none, undoStatus := undoFinal }

/-- `Worker.finalize`, the transaction. -/
def finalizeTxn (cfg : WorkerConfig) (id : JmapId) (stamp : Token) (now : Int)
    (jitter : Int → Int) (results : List Result) (a : Account) : Option Account :=
  match a.submissions[id]? with
  | none => none
  | some sub =>
    if sub.claimedAt ≠ some stamp then none
    else if !sub.statusReadable then none
    else some (a.put id (finalized cfg now jitter results sub))

/-! ## The client -/

/-- `cancelDeliveryStatus` of a readable status. -/
def cancelDeliveryStatus (ds : Map String DeliveryStatus) : Map String DeliveryStatus :=
  ds.map fun _ st =>
    { st with smtpReply := "554 5.0.0 sending canceled at user request", delivered := "no" }

/-- The update `undoStatus: newStatus`; `none` covers the rejections. -/
def undoTxn (id : JmapId) (newStatus : String) (a : Account) : Option Account :=
  match a.submissions[id]? with
  | none => none
  | some sub =>
    if newStatus = sub.undoStatus then some a
    else if newStatus ≠ undoCanceled then none
    else if sub.undoStatus ≠ undoPending then none
    -- in an active transmit: the send cannot be recalled
    else if sub.claimedAt.isSome then none
    else if !sub.statusReadable then none
    else
      some (a.put id { sub with
        undoStatus := undoCanceled
        nextAttemptAt := none
        deliveryStatus := cancelDeliveryStatus sub.deliveryStatus })

/-- The destroy, with `submissionDestroy`. -/
def destroyTxn (id : JmapId) (a : Account) : Option Account :=
  match a.submissions[id]? with
  | none => none
  | some _ =>
    some { submissions := a.submissions.erase id
           reports := a.reports.filter fun _ row => row.submissionId ≠ id }

/-! ## Reports -/

/-- A recipient's group of a DSN.  `range` is how the loop of `matchEnvelopeRecipient` goes over the
    recipients for this group, which Go leaves open. -/
structure ReportRecipient where
  addr : String
  action : String
  smtpDiag : String
  range : RangeOrder String := .listed

/-- A report as parsed; `range` is for the recipient of an MDN. -/
structure Inbound where
  kind : ReportKind
  envid : String := ""
  returnedMessageID : String := ""
  rcpts : List ReportRecipient := []
  origMessageID : String := ""
  finalRecipient : String := ""
  disposition : String := ""
  range : RangeOrder String := .listed

/-- How texts compare: `strings.EqualFold`, and equality in the messageId index. -/
structure Folding where
  equalFold : String → String → Bool
  sameIndexed : String → String → Bool

variable (fold : Folding) (rows : List ReportRow) (exact : Bool)

/-- `byMessageId` of `correlateSubmission`: an ambiguous Message-ID matches nothing. -/
def byMessageId (mid : String) (a : Account) : Option (JmapId × Submission) :=
  match a.submissions.toList.filter fun e =>
      e.2.messageId.any (fold.sameIndexed · mid) with
  | [e] => some e
  | _ => none

/-- `correlateSubmission`: the submission a report is about, and whether the key is exact. -/
def correlateSubmission (fallback : Bool) (rep : Inbound) (a : Account) :
    Option (JmapId × Submission × Bool) :=
  match rep.kind with
  | .dsn =>
    match (if rep.envid ≠ "" ∧ JmapId.valid rep.envid then a.submissions[rep.envid]? else none) with
    | some sub => some (rep.envid, sub, true)
    | none =>
      if fallback ∧ rep.returnedMessageID ≠ "" then
        (byMessageId fold rep.returnedMessageID a).map fun e => (e.1, e.2, false)
      else none
  | .mdn => (byMessageId fold rep.origMessageID a).map fun e => (e.1, e.2, true)

/-- The recipient an address is about: itself, or the first equal one that the range finds. -/
def matchEnvelopeRecipient (range : RangeOrder String) (ds : Map String DeliveryStatus)
    (addr : String) : Option String :=
  if addr = "" then none
  else if addr ∈ ds then some addr
  else (range.order ds.keys).find? fun k => fold.equalFold k addr

/-- The deliveryStatus under edit and the slots consumed so far. -/
structure Ingestion where
  ds : Map String DeliveryStatus
  consumed : List (String × Slot) := []

def taken (rcpt : String) (slot : Slot) : Bool :=
  rows.any fun r => r.slot = slot && fold.equalFold r.recipient rcpt

def ingestGroup (st : Ingestion) (g : ReportRecipient) : Ingestion :=
  match matchEnvelopeRecipient fold g.range st.ds g.addr with
  | none => st
  | some rcpt =>
    match st.ds[rcpt]? with
    | none => st
    | some cur =>
      let sealed := cur.delivered = "yes" ∨ cur.delivered = "no" ∨ taken fold rows rcpt .terminal
      if g.action = "delayed" then
        if sealed ∨ taken fold rows rcpt .interim then st
        else
          { ds := if exact ∧ g.smtpDiag ≠ "" then
              st.ds.insert rcpt { cur with smtpReply := g.smtpDiag } else st.ds
            consumed := st.consumed ++ [(rcpt, .interim)] }
      else if g.action = "delivered" ∨ g.action = "failed" then
        if sealed then st
        else
          { ds := if exact then
              st.ds.insert rcpt { cur with
                delivered := if g.action = "delivered" then "yes" else "no"
                smtpReply := if g.smtpDiag ≠ "" then g.smtpDiag else cur.smtpReply }
              else st.ds
            consumed := st.consumed ++ [(rcpt, .terminal)] }
      -- relayed and expanded report a handoff, not an outcome
      else st

def ingestDisposition (rep : Inbound) (ds : Map String DeliveryStatus) : Ingestion :=
  let rcpt? :=
    match matchEnvelopeRecipient fold rep.range ds rep.finalRecipient with
    | some rcpt => some rcpt
    | none => if ds.keys.length = 1 then ds.keys.head? else none
  match rcpt? with
  | none => { ds := ds }
  | some rcpt =>
    if taken fold rows rcpt .receipt then { ds := ds }
    else
      { ds := match ds[rcpt]? with
          | none => ds
          | some st =>
            if rep.disposition = "displayed" then ds.insert rcpt { st with displayed := "yes" }
            else ds
        consumed := [(rcpt, .receipt)] }

/-- The loop and the switch of `IngestReport`. -/
def ingest (rep : Inbound) (ds : Map String DeliveryStatus) : Ingestion :=
  match rep.kind with
  | .dsn => rep.rcpts.foldl (ingestGroup fold rows exact) { ds := ds }
  | .mdn => ingestDisposition fold rows rep ds

/-- `IngestReport`: the submission it matched and the account it leaves. -/
def ingestTxn (fallback : Bool) (rep : Inbound) (draw : ℕ → JmapId) (a : Account) :
    Option (JmapId × Account) :=
  match correlateSubmission fold fallback rep a with
  | none => none
  | some (subId, sub, exact) =>
    if !sub.statusReadable then none
    else
      let rows := (a.reports.toList.map Prod.snd).filter fun r => r.submissionId = subId
      let out := ingest fold rows exact rep sub.deliveryStatus
      if out.consumed = [] then none
      else
        some (subId,
          { submissions := a.submissions.insert subId { sub with deliveryStatus := out.ds }
            reports := out.consumed.zipIdx.foldl (fun reports c =>
              reports.insert (draw c.2) ⟨subId, rep.kind, c.1.1, c.1.2⟩) a.reports })

end NaustJmap.Submit
