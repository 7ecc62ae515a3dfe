import NaustJmap.Library.Threads
import NaustJmap.Submit.Queue

/-!
# Workers, Clients and Reports on One Account

The processes that share an account's submissions, as programs whose operations interleave.  A
transaction is one operation; what a worker does between two of them, the transmission above all, is
outside the lease.  The state carries the history of what was committed and handed over (`Event`).
-/

namespace NaustJmap.Submit

open Library ObjectDB
open Lease (Token mintToken mintToken_inj)

/-! ## The shared state -/

inductive Event where
  /-- A claim was committed. -/
  | claimed (tok : Token) (id : JmapId) (before after : Submission)
  /-- A pre-transmit check succeeded on the committed record `seen`. -/
  | checked (tok : Token) (id : JmapId) (seen : Submission)
  /-- Recipients were handed to the Submitter. -/
  | handed (tok : Token) (id : JmapId) (rcpts : List SubAddress)
  /-- A finalize was committed. -/
  | finalized (tok : Token) (id : JmapId) (before after : Submission)
  | canceled (id : JmapId) (before : Submission)
  | destroyed (id : JmapId)

/-- One account and the workers' memory. -/
structure Sys where
  account : Account := {}
  /-- The ids given to submissions so far. -/
  ids : List JmapId := []
  /-- Each worker's claim counter, by its nonce. -/
  seqs : Map (List Char) ℕ := ∅
  /-- The claim tokens minted so far, and by which process. -/
  tokens : Map Token ℕ := ∅
  log : List Event := []

def Sys.note (s : Sys) (e : Event) : Sys := { s with log := s.log ++ [e] }

/-! ## Operations -/

inductive Op where
  /-- `Worker.claimToken`, with the clock reading it starts from. -/
  | mint (nonce : List Char)
  | claim (id : JmapId) (now : Int) (tok : Token)
  | check (id : JmapId) (tok : Token)
  /-- Opening the message's blob. -/
  | openBlob (blobId : JmapId)
  | submit (id : JmapId) (tok : Token) (rcpts : List SubAddress)
  | finalize (id : JmapId) (tok : Token) (results : List Result)
  | create (sub : Submission)
  | undo (id : JmapId) (newStatus : String)
  | destroy (id : JmapId)
  | ingest (rep : Inbound) (fallback : Bool)

def Ans : Op → Type
  | .mint _ => Int × Token
  | .claim .. => Bool
  | .check .. => Option (Submission × SubEnvelope)
  | .openBlob _ => Bool
  -- the results, and whether an error came with them
  | .submit .. => List Result × Bool
  | .finalize .. => Unit
  | .create _ => Unit
  | .undo .. => Unit
  | .destroy _ => Unit
  | .ingest .. => Unit

/-- What is assumed: the workers' settings and how texts compare. -/
structure Assumed where
  cfg : WorkerConfig
  fold : Folding

section

variable (A : Assumed)

/-- One operation of process `i`.  A transaction may also fail and leave nothing behind. -/
inductive Exec (i : ℕ) : (o : Op) → Sys → Ans o → Sys → Prop where
  | mint {nonce : List Char} {s : Sys} {n : ℕ} {tok : Token} (now : Int)
      (hn : n = s.seqs.getD nonce 0 + 1) (htok : tok = mintToken A.cfg.formatTime nonce n now) :
      Exec i (.mint nonce) s (now, tok)
        { s with seqs := s.seqs.insert nonce n, tokens := s.tokens.insert tok i }
  | claim {id : JmapId} {now : Int} {tok : Token} {s : Sys} {a : Account}
      {before after : Submission} (h : claimTxn A.cfg id now tok s.account = some a)
      (hbefore : s.account.submissions[id]? = some before)
      (hafter : a.submissions[id]? = some after) :
      Exec i (.claim id now tok) s true
        ({ s with account := a }.note (.claimed tok id before after))
  | claimFails {id : JmapId} {now : Int} {tok : Token} {s : Sys} :
      Exec i (.claim id now tok) s false s
  /-- The commit is applied and reported as failed. -/
  | claimUnnoticed {id : JmapId} {now : Int} {tok : Token} {s : Sys} {a : Account}
      {before after : Submission} (h : claimTxn A.cfg id now tok s.account = some a)
      (hbefore : s.account.submissions[id]? = some before)
      (hafter : a.submissions[id]? = some after) :
      Exec i (.claim id now tok) s false
        ({ s with account := a }.note (.claimed tok id before after))
  | check {id : JmapId} {tok : Token} {s : Sys} {seen : Submission} {env : SubEnvelope}
      (h : checkTxn id tok s.account = some (seen, env)) :
      Exec i (.check id tok) s (some (seen, env)) (s.note (.checked tok id seen))
  | checkFails {id : JmapId} {tok : Token} {s : Sys} : Exec i (.check id tok) s none s
  | openBlob {blobId : JmapId} {s : Sys} (ok : Bool) : Exec i (.openBlob blobId) s ok s
  | submit {id : JmapId} {tok : Token} {rcpts : List SubAddress} {s : Sys}
      (results : List Result) (err : Bool) :
      Exec i (.submit id tok rcpts) s (results, err) (s.note (.handed tok id rcpts))
  | finalize {id : JmapId} {tok : Token} {results : List Result} {s : Sys} {a : Account}
      {before after : Submission} (now : Int) (jitter : Int → Int)
      (h : finalizeTxn A.cfg id tok now jitter results s.account = some a)
      (hbefore : s.account.submissions[id]? = some before)
      (hafter : a.submissions[id]? = some after) :
      Exec i (.finalize id tok results) s ()
        ({ s with account := a }.note (.finalized tok id before after))
  | finalizeFails {id : JmapId} {tok : Token} {results : List Result} {s : Sys} :
      Exec i (.finalize id tok results) s () s
  /-- A prepared record carries no claim. -/
  | create {sub : Submission} {s : Sys} (id : JmapId) (hnew : id ∉ s.ids) :
      Exec i (.create sub) s ()
        { s with account := s.account.put id { sub with claimedAt := none }
                 ids := s.ids ++ [id] }
  | createFails {sub : Submission} {s : Sys} : Exec i (.create sub) s () s
  | cancel {id : JmapId} {newStatus : String} {s : Sys} {a : Account} {before : Submission}
      (h : undoTxn id newStatus s.account = some a)
      (hbefore : s.account.submissions[id]? = some before)
      (hmoves : newStatus ≠ before.undoStatus) :
      Exec i (.undo id newStatus) s () ({ s with account := a }.note (.canceled id before))
  /-- No change of the status, a rejection or a failure. -/
  | undoKeeps {id : JmapId} {newStatus : String} {s : Sys} : Exec i (.undo id newStatus) s () s
  | destroy {id : JmapId} {s : Sys} {a : Account} (h : destroyTxn id s.account = some a) :
      Exec i (.destroy id) s () ({ s with account := a }.note (.destroyed id))
  | destroyFails {id : JmapId} {s : Sys} : Exec i (.destroy id) s () s
  | ingest {rep : Inbound} {fallback : Bool} {s : Sys} {a : Account} {id : JmapId}
      (draw : ℕ → JmapId) (h : ingestTxn A.fold fallback rep draw s.account = some (id, a)) :
      Exec i (.ingest rep fallback) s () { s with account := a }
  | ingestFails {rep : Inbound} {fallback : Bool} {s : Sys} : Exec i (.ingest rep fallback) s () s

inductive Choice where
  | now (t : Int)
  | fine
  | fails
  | replies (results : List Result) (err : Bool)
  | drawn (id : JmapId)

/-- The outcome of an operation under a choice; `none` when the choice does not apply, and for
    reports and destroys, which the runs computed below do not have. -/
def eval (i : ℕ) : (o : Op) → Choice → Sys → Option (Ans o × Sys)
  | .mint nonce, .now t, s =>
    let n := s.seqs.getD nonce 0 + 1
    let tok := mintToken A.cfg.formatTime nonce n t
    some ((t, tok), { s with seqs := s.seqs.insert nonce n, tokens := s.tokens.insert tok i })
  | .claim id now tok, .fine, s =>
    match claimTxn A.cfg id now tok s.account, s.account.submissions[id]? with
    | some a, some before =>
      (a.submissions[id]?).map fun after =>
        (true, { s with account := a }.note (.claimed tok id before after))
    | _, _ => none
  | .check id tok, .fine, s =>
    (checkTxn id tok s.account).map fun out => (some out, s.note (.checked tok id out.1))
  | .check .., .fails, s => some (none, s)
  | .openBlob _, .fine, s => some (true, s)
  | .submit id tok rcpts, .replies results err, s =>
    some ((results, err), s.note (.handed tok id rcpts))
  | .finalize id tok results, .now t, s =>
    match finalizeTxn A.cfg id tok t (fun d => d) results s.account,
      s.account.submissions[id]? with
    | some a, some before =>
      (a.submissions[id]?).map fun after =>
        ((), { s with account := a }.note (.finalized tok id before after))
    | _, _ => none
  | .create sub, .drawn id, s =>
    if id ∈ s.ids then none
    else
      some ((), { s with account := s.account.put id { sub with claimedAt := none }
                         ids := s.ids ++ [id] })
  | .undo id newStatus, .fine, s =>
    match undoTxn id newStatus s.account, s.account.submissions[id]? with
    | some a, some before =>
      if newStatus ≠ before.undoStatus then
        some ((), { s with account := a }.note (.canceled id before))
      else none
    | _, _ => none
  | _, _, _ => none

variable {A} in
theorem eval_exec (i : ℕ) (o : Op) (ch : Choice) (s : Sys) (r : Ans o) (s' : Sys)
    (h : eval A i o ch s = some (r, s')) : Exec A i o s r s' := by
  cases o with
  | mint nonce =>
    cases ch <;> simp only [eval] at h <;> cases h
    exact .mint _ rfl rfl
  | claim id now tok =>
    cases ch <;> simp only [eval] at h <;> try cases h
    split at h
    · next a before htxn hbefore =>
      obtain ⟨after, hafter, heq⟩ := Option.map_eq_some_iff.mp h
      cases heq
      exact .claim htxn hbefore hafter
    · cases h
  | check id tok =>
    cases ch <;> simp only [eval] at h <;> try cases h
    · obtain ⟨out, htxn, heq⟩ := Option.map_eq_some_iff.mp h
      cases heq
      exact .check htxn
    · exact .checkFails
  | openBlob blobId =>
    cases ch <;> simp only [eval] at h <;> cases h
    exact .openBlob true
  | submit id tok rcpts =>
    cases ch <;> simp only [eval] at h <;> cases h
    exact .submit _ _
  | finalize id tok results =>
    cases ch <;> simp only [eval] at h <;> try cases h
    split at h
    · next a before htxn hbefore =>
      obtain ⟨after, hafter, heq⟩ := Option.map_eq_some_iff.mp h
      cases heq
      exact .finalize _ _ htxn hbefore hafter
    · cases h
  | create sub =>
    cases ch <;> simp only [eval] at h <;> try cases h
    split at h
    · cases h
    · next hnew =>
      cases h
      exact .create _ hnew
  | undo id newStatus =>
    cases ch <;> simp only [eval] at h <;> try cases h
    split at h
    · next a before htxn hbefore =>
      split at h
      · next hmoves =>
        cases h
        exact .cancel htxn hbefore hmoves
      · cases h
    · cases h
  | destroy | ingest => cases h

end

/-! ## Programs -/

abbrev QueueProg := Prog Op Ans

/-- `Worker.claimToken`. -/
def mint (nonce : List Char) : QueueProg (Int × Token) := Prog.op (Op.mint nonce)

def claim (id : JmapId) (now : Int) (tok : Token) : QueueProg Bool :=
  Prog.op (Op.claim id now tok)

/-- The check of `Worker.sendOne`. -/
def check (id : JmapId) (tok : Token) : QueueProg (Option (Submission × SubEnvelope)) :=
  Prog.op (Op.check id tok)

/-- `Store.Open`. -/
def openBlob (blobId : JmapId) : QueueProg Bool := Prog.op (Op.openBlob blobId)

def submit (id : JmapId) (tok : Token) (rcpts : List SubAddress) :
    QueueProg (List Result × Bool) := Prog.op (Op.submit id tok rcpts)

def finalize (id : JmapId) (tok : Token) (results : List Result) : QueueProg Unit :=
  Prog.op (Op.finalize id tok results)

def transmit (id : JmapId) (tok : Token) (sub : Submission) (rcpts : List SubAddress) :
    QueueProg (List Result) :=
  openBlob sub.blobId >>= fun opened =>
    if opened then
      submit id tok rcpts >>= fun out =>
        pure (mergeResults rcpts out.1 (if out.2 then "451 4.4.1 could not transmit to smarthost"
          else "451 4.4.1 no result reported for recipient"))
    else pure (mergeResults rcpts [] "451 4.2.0 message content unavailable")

def sendOne (id : JmapId) (tok : Token) : QueueProg Unit :=
  check id tok >>= fun
    | none => pure ()
    | some (sub, env) =>
      let rcpts := queuedRecipients sub env
      if rcpts.isEmpty then finalize id tok []
      else transmit id tok sub rcpts >>= fun results => finalize id tok results

/-- A worker that goes for the given records one after another: `claim`, then `sendOne`. -/
def workerRun (nonce : List Char) : List JmapId → QueueProg Unit
  | [] => pure ()
  | id :: rest =>
    mint nonce >>= fun m =>
      claim id m.1 m.2 >>= fun won =>
        if won then sendOne id m.2 >>= fun _ => workerRun nonce rest
        else workerRun nonce rest

inductive Request where
  | create (sub : Submission)
  | undo (id : JmapId) (newStatus : String)
  | destroy (id : JmapId)
  | report (rep : Inbound) (fallback : Bool)

def Request.prog : Request → QueueProg Unit
  | .create sub => Prog.op (Op.create sub)
  | .undo id newStatus => Prog.op (Op.undo id newStatus)
  | .destroy id => Prog.op (Op.destroy id)
  | .report rep fallback => Prog.op (Op.ingest rep fallback)

def requests : List Request → QueueProg Unit
  | [] => pure ()
  | r :: rest => r.prog >>= fun _ => requests rest

/-- What a process does.  Several processes may share a worker's nonce and counter. -/
inductive Job where
  | worker (nonce : List Char) (ids : List JmapId)
  | outside (rs : List Request)

def Job.prog : Job → QueueProg Unit
  | .worker nonce ids => workerRun nonce ids
  | .outside rs => requests rs

def Job.Hex : Job → Prop
  | .worker nonce _ => '|' ∉ nonce
  | .outside _ => True

def start (jobs : ℕ → Job) : Config ℕ Sys Op Ans := ⟨{}, fun i => (jobs i).prog⟩

end NaustJmap.Submit
