import NaustJmap.Submit.Finality

/-!
# The Queue's Worklist

A worker finds work by the accounts in the tag set `submissionQueueTag`, and in each of them by the
submissions that carry nextAttemptAt.  Commits that queue a record set the tag in the same
transaction; `clearDrainedTag` takes it back after it has looked for a record that is still
scheduled.  Along every sequence of commits nothing queued drops off (`worklist_complete`).
-/

namespace NaustJmap.Submit

open Library ObjectDB
open Lease (Token)

/-! ## Transactions with the tag -/

/-- An account and its membership in the tag set `submissionQueueTag`. -/
structure QueueAccount where
  account : Account := {}
  tagged : Bool := false

/-- deliveryStatus of a record that was not attempted yet. -/
def queuedStatus (rcptTo : List SubAddress) : Map String DeliveryStatus :=
  rcptTo.foldl (fun ds r =>
    ds.insert r.email ⟨"250 2.0.0 message queued for delivery", "queued", "unknown"⟩) ∅

/-- The record that `submissionCreate.prepare` and `Sender.commit` build. -/
def queuedSubmission (env : SubEnvelope) (sendAt : Int) (blobId : JmapId)
    (messageId : Option String) : Submission where
  envelope := some env
  sendAt := some (wholeSeconds sendAt)
  undoStatus := undoPending
  deliveryStatus := queuedStatus env.rcptTo
  nextAttemptAt := some (wholeSeconds sendAt)
  blobId := blobId
  messageId := messageId

/-- `Update.Create` of a record and `SetAccountTag`, staged together. -/
def enqueue (id : JmapId) (sub : Submission) (q : QueueAccount) : Option QueueAccount :=
  if id ∈ q.account.submissions then none
  else some { account := q.account.put id sub, tagged := true }

/-- `submissionCreate.commit`; `sendAt` is the time the envelope's hold asks for. -/
def createTxn (id : JmapId) (env : SubEnvelope) (sendAt : Int) (blobId : JmapId)
    (messageId : Option String) : QueueAccount → Option QueueAccount :=
  enqueue id (queuedSubmission env sendAt blobId messageId)

/-- `Sender.commit`: due at once. -/
def sendTxn (id : JmapId) (env : SubEnvelope) (now : Int) (blobId : JmapId)
    (messageId : Option String) : QueueAccount → Option QueueAccount :=
  enqueue id (queuedSubmission env now blobId messageId)

/-- `Worker.finalize` with the tag it sets. -/
def finalizeTagTxn (cfg : WorkerConfig) (id : JmapId) (stamp : Token) (now : Int)
    (jitter : Int → Int) (results : List Result) (q : QueueAccount) : Option QueueAccount :=
  (finalizeTxn cfg id stamp now jitter results q.account).map fun a =>
    { account := a
      -- `SetAccountTag` stands in the branch that writes nextAttemptAt
      tagged := q.tagged || (a.submissions[id]?).any (·.nextAttemptAt.isSome) }

/-- `IdsWhereAtMost` over nextAttemptAt, without a bound, finds something. -/
def Account.scheduled (a : Account) : Bool :=
  a.submissions.toList.any fun e => e.2.nextAttemptAt.isSome

def clearDrainedTag (q : QueueAccount) : Option QueueAccount :=
  if q.account.scheduled then none else some { q with tagged := false }

/-- The commit of `Worker.healTags` on one account. -/
def healTag (q : QueueAccount) : Option QueueAccount := some { q with tagged := true }

/-- The commits on an account's queue, by whichever worker or client. -/
inductive QueueTxn where
  | create (id : JmapId) (env : SubEnvelope) (sendAt : Int) (blobId : JmapId)
      (messageId : Option String)
  | send (id : JmapId) (env : SubEnvelope) (now : Int) (blobId : JmapId)
      (messageId : Option String)
  | claim (cfg : WorkerConfig) (id : JmapId) (now : Int) (stamp : Token)
  | finalize (cfg : WorkerConfig) (id : JmapId) (stamp : Token) (now : Int)
      (jitter : Int → Int) (results : List Result)
  | undo (id : JmapId) (newStatus : String)
  | destroy (id : JmapId)
  | ingest (rep : Inbound) (fallback : Bool) (draw : ℕ → JmapId)
  | clearDrainedTag
  | healTag

/-- What a commit leaves; `none` where it stages nothing or is rejected. -/
def QueueTxn.commit (fold : Folding) (q : QueueAccount) : QueueTxn → Option QueueAccount
  | .create id env sendAt blobId messageId => createTxn id env sendAt blobId messageId q
  | .send id env now blobId messageId => sendTxn id env now blobId messageId q
  | .claim cfg id now stamp =>
    (claimTxn cfg id now stamp q.account).map fun a => { q with account := a }
  | .finalize cfg id stamp now jitter results =>
    finalizeTagTxn cfg id stamp now jitter results q
  | .undo id newStatus => (undoTxn id newStatus q.account).map fun a => { q with account := a }
  | .destroy id => (destroyTxn id q.account).map fun a => { q with account := a }
  | .ingest rep fallback draw =>
    (ingestTxn fold fallback rep draw q.account).map fun out => { q with account := out.2 }
  | .clearDrainedTag => Submit.clearDrainedTag q
  | .healTag => Submit.healTag q

/-- All accounts of a store; one without records is the empty one. -/
abbrev QueueStore := JmapId → QueueAccount

/-- One commit on one account.  A transaction that fails is no step. -/
inductive QueueStep (fold : Folding) (s : QueueStore) : QueueStore → Prop where
  | commit (acct : JmapId) (txn : QueueTxn) {q : QueueAccount}
      (h : txn.commit fold (s acct) = some q) : QueueStep fold s (Function.update s acct q)

/-- The states that commits lead to, in whatever order they come. -/
abbrev QueueRun (fold : Folding) : QueueStore → QueueStore → Prop :=
  Relation.ReflTransGen (QueueStep fold)

/-! ## Records -/

def Unqueued (ds : Map String DeliveryStatus) : Prop :=
  ∀ (rcpt : String) (st : DeliveryStatus), ds[rcpt]? = some st → st.delivered ≠ "queued"

/-- A record is scheduled while it has to be, and not after a cancel. -/
structure Submission.Scheduled (sub : Submission) : Prop where
  of_queued : ¬ Unqueued sub.deliveryStatus → sub.nextAttemptAt.isSome
  of_canceled : sub.undoStatus = undoCanceled → sub.nextAttemptAt = none

variable {ds : Map String DeliveryStatus} {sub : Submission}

theorem anyQueued_eq_false_iff : anyQueued ds = false ↔ Unqueued ds := by
  simp only [anyQueued, List.any_eq_false, decide_eq_true_eq, Unqueued]
  exact ⟨fun h rcpt st hst => h (rcpt, st) ((Map.mem_toList _ _ _).mpr hst),
    fun h e he => h e.1 e.2 ((Map.mem_toList _ _ _).mp he)⟩

theorem Unqueued.insert {rcpt : String} {st : DeliveryStatus} (h : Unqueued ds)
    (hst : st.delivered ≠ "queued") : Unqueued (ds.insert rcpt st) := by
  intro rcpt' st' hst'
  rw [Map.getElem?_insert] at hst'
  split at hst'
  · cases hst'
    exact hst
  · exact h rcpt' st' hst'

theorem applyResult_unqueued (h : Unqueued ds) (r : Result) : applyResult ds r = ds := by
  unfold applyResult
  split
  · rfl
  · next st hst => exact if_pos (h _ _ hst)

theorem foldl_applyResult_unqueued (h : Unqueued ds) (results : List Result) :
    results.foldl applyResult ds = ds := by
  induction results with
  | nil => rfl
  | cons r rest ih => rw [List.foldl_cons, applyResult_unqueued h, ih]

theorem unqueued_abandon (ds : Map String DeliveryStatus) : Unqueued (abandon ds) := by
  intro rcpt st hst
  simp only [abandon, Std.ExtTreeMap.getElem?_map, Option.map_eq_some_iff] at hst
  obtain ⟨old, -, rfl⟩ := hst
  split
  · simp
  · assumption

theorem unqueued_cancelDeliveryStatus (ds : Map String DeliveryStatus) :
    Unqueued (cancelDeliveryStatus ds) := by
  intro rcpt st hst
  rw [cancelDeliveryStatus_getElem?] at hst
  obtain ⟨old, -, rfl⟩ := Option.map_eq_some_iff.mp hst
  simp

theorem ingest_unqueued (fold : Folding) (rows : List ReportRow) (exact : Bool) (rep : Inbound)
    (h : Unqueued ds) : Unqueued (ingest fold rows exact rep ds).ds := by
  refine ingest_induct (fun ds rcpt cur st hcur hst h => h.insert ?_) fold rows
    exact rep h
  cases hst with
  | settled hopen hfinal => exact hfinal.ne_queued
  | delayed | displayed => exact h rcpt cur hcur

/-! ## What the transactions make of a record -/

theorem queuedSubmission_scheduled (env : SubEnvelope) (sendAt : Int) (blobId : JmapId)
    (messageId : Option String) : (queuedSubmission env sendAt blobId messageId).Scheduled where
  of_queued _ := rfl
  of_canceled h := absurd h (by simp [queuedSubmission, undoPending, undoCanceled])

theorem Submission.Scheduled.claim (h : sub.Scheduled) {due : Int}
    (hdue : sub.nextAttemptAt = some due) (tok : Token) (parked : Int) :
    Submission.Scheduled { sub with claimedAt := some tok, nextAttemptAt := some parked } where
  of_queued _ := rfl
  -- a record that was due is not canceled
  of_canceled hc := absurd ((h.of_canceled hc).symm.trans hdue) (by simp)

theorem Submission.Scheduled.finalize (h : sub.Scheduled) (cfg : WorkerConfig) (now : Int)
    (jitter : Int → Int) (results : List Result) :
    (finalized cfg now jitter results sub).Scheduled := by
  unfold finalized
  dsimp only
  split
  · next hleft =>
    refine ⟨fun _ => rfl, fun hc => ?_⟩
    -- a canceled record has no queued recipient, and results queue none
    exfalso
    have hcanceled : sub.undoStatus = undoCanceled := by
      dsimp only at hc
      split at hc
      · exact absurd hc (by decide)
      · exact hc
    have hunqueued : Unqueued sub.deliveryStatus := by
      by_contra hq
      have := h.of_queued hq
      simp [h.of_canceled hcanceled] at this
    rw [foldl_applyResult_unqueued hunqueued, anyQueued_eq_false_iff.mpr hunqueued] at hleft
    simp at hleft
  · next hleft =>
    refine ⟨fun hq => absurd ?_ hq, fun _ => rfl⟩
    split
    · exact unqueued_abandon _
    · next hkept =>
      refine anyQueued_eq_false_iff.mp (Bool.eq_false_iff.mpr fun hany => hleft ?_)
      rw [hany, Bool.true_and, Bool.not_eq_true']
      simpa [hany] using hkept

theorem canceled_scheduled (sub : Submission) : (canceled sub).Scheduled where
  of_queued hq := absurd (unqueued_cancelDeliveryStatus _) hq
  of_canceled _ := rfl

theorem Submission.Scheduled.report (h : sub.Scheduled) (fold : Folding) (rows : List ReportRow)
    (exact : Bool) (rep : Inbound) :
    Submission.Scheduled { sub with
      deliveryStatus := (ingest fold rows exact rep sub.deliveryStatus).ds } where
  of_queued hq := h.of_queued fun hun => hq (ingest_unqueued fold rows exact rep hun)
  of_canceled := h.of_canceled

/-! ## The worklist -/

/-- The queue of an account is where the workers look for it. -/
structure QueueAccount.Listed (q : QueueAccount) : Prop where
  /-- An account with a submission that carries nextAttemptAt is in the tag set. -/
  tagged : ∀ (id : JmapId) (sub : Submission), q.account.submissions[id]? = some sub →
    sub.nextAttemptAt.isSome → q.tagged
  /-- A submission with a queued recipient carries nextAttemptAt. -/
  queued : ∀ (id : JmapId) (sub : Submission), q.account.submissions[id]? = some sub →
    ∀ (rcpt : String) (st : DeliveryStatus), sub.deliveryStatus[rcpt]? = some st →
      st.delivered = "queued" → sub.nextAttemptAt.isSome
  /-- A canceled one does not. -/
  canceled : ∀ (id : JmapId) (sub : Submission), q.account.submissions[id]? = some sub →
    sub.undoStatus = undoCanceled → sub.nextAttemptAt = none

variable {q q' : QueueAccount} {id : JmapId}

theorem QueueAccount.listed_iff : q.Listed ↔
    ∀ (id : JmapId) (sub : Submission), q.account.submissions[id]? = some sub →
      sub.Scheduled ∧ (sub.nextAttemptAt.isSome → q.tagged) := by
  constructor
  · intro h id sub hsub
    refine ⟨⟨fun hq => ?_, h.canceled id sub hsub⟩, h.tagged id sub hsub⟩
    simp only [Unqueued, not_forall, not_not] at hq
    obtain ⟨rcpt, st, hst, hqueued⟩ := hq
    exact h.queued id sub hsub rcpt st hst hqueued
  · intro h
    exact
      { tagged := fun id sub hsub => (h id sub hsub).2
        queued := fun id sub hsub rcpt st hst hqueued =>
          (h id sub hsub).1.of_queued fun hun => hun rcpt st hst hqueued
        canceled := fun id sub hsub => (h id sub hsub).1.of_canceled }

theorem undoTxn_cases {newStatus : String} {a a' : Account}
    (h : undoTxn id newStatus a = some a') :
    ∃ sub, a.submissions[id]? = some sub ∧ (a' = a ∨ a' = a.put id (canceled sub)) := by
  cases hsub : a.submissions[id]? with
  | none => simp [undoTxn, hsub] at h
  | some sub =>
    refine ⟨sub, rfl, ?_⟩
    by_cases hmoves : newStatus = sub.undoStatus
    · simp only [undoTxn, hsub, hmoves, if_true] at h
      exact .inl (Option.some.inj h).symm
    · obtain ⟨-, -, rfl⟩ := undoTxn_eq h hsub hmoves
      exact .inr rfl

theorem QueueAccount.Listed.put (h : q.Listed) {a : Account} {tag : Bool}
    (ha : a.submissions = q.account.submissions.insert id sub) (hsub : sub.Scheduled)
    (htag : sub.nextAttemptAt.isSome → tag) (hkeep : q.tagged → tag) :
    QueueAccount.Listed ⟨a, tag⟩ := by
  refine QueueAccount.listed_iff.mpr fun id' sub' hsub' => ?_
  rw [ha, Map.getElem?_insert] at hsub'
  split at hsub'
  · cases hsub'
    exact ⟨hsub, htag⟩
  · obtain ⟨hsched, htagged⟩ := QueueAccount.listed_iff.mp h id' sub' hsub'
    exact ⟨hsched, fun hnext => hkeep (htagged hnext)⟩

theorem QueueAccount.Listed.enqueue (h : q.Listed) (hsub : sub.Scheduled)
    (he : enqueue id sub q = some q') : q'.Listed := by
  unfold Submit.enqueue at he
  split at he
  · cases he
  · cases he
    exact h.put rfl hsub (fun _ => rfl) fun _ => rfl

theorem QueueTxn.commit_listed (fold : Folding) {txn : QueueTxn} (h : q.Listed)
    (hc : txn.commit fold q = some q') : q'.Listed := by
  have hrecord : ∀ {id : JmapId} {sub : Submission}, q.account.submissions[id]? = some sub →
      sub.Scheduled ∧ (sub.nextAttemptAt.isSome → q.tagged) :=
    fun {id sub} => QueueAccount.listed_iff.mp h id sub
  cases txn with
  | create | send => exact h.enqueue (queuedSubmission_scheduled ..) hc
  | claim cfg id now stamp =>
    obtain ⟨a, htxn, rfl⟩ := Option.map_eq_some_iff.mp hc
    obtain ⟨sub, due, hsub, hdue, rfl⟩ := claimTxn_eq (A := ⟨cfg, fold⟩) htxn
    obtain ⟨hsched, htagged⟩ := hrecord hsub
    exact h.put rfl (hsched.claim hdue _ _) (fun _ => htagged (by simp [hdue]))
      fun htag => htag
  | finalize cfg id stamp now jitter results =>
    obtain ⟨a, htxn, rfl⟩ := Option.map_eq_some_iff.mp hc
    obtain ⟨sub, hsub, -, rfl⟩ := finalizeTxn_eq (A := ⟨cfg, fold⟩) htxn
    refine h.put rfl ((hrecord hsub).1.finalize cfg now jitter results) (fun hnext => ?_)
      fun htag => ?_
    · simp [hnext]
    · simp [htag]
  | undo id newStatus =>
    obtain ⟨a, htxn, rfl⟩ := Option.map_eq_some_iff.mp hc
    obtain ⟨sub, hsub, rfl | rfl⟩ := undoTxn_cases htxn
    · exact h
    · exact h.put rfl (canceled_scheduled sub) (fun hnext => by simp [canceled] at hnext)
        fun htag => htag
  | destroy id =>
    obtain ⟨a, htxn, rfl⟩ := Option.map_eq_some_iff.mp hc
    obtain ⟨-, ha⟩ := destroyTxn_eq htxn
    refine QueueAccount.listed_iff.mpr fun id' sub' hsub' => ?_
    rw [ha, Map.getElem?_erase] at hsub'
    split at hsub'
    · cases hsub'
    · exact hrecord hsub'
  | ingest rep fallback draw =>
    obtain ⟨⟨id, a⟩, htxn, rfl⟩ := Option.map_eq_some_iff.mp hc
    obtain ⟨sub, rows, exact, hsub, ha⟩ := ingestTxn_eq htxn
    obtain ⟨hsched, htagged⟩ := hrecord hsub
    exact h.put ha (hsched.report fold rows exact rep) htagged fun htag => htag
  | clearDrainedTag =>
    change (if _ then none else _) = some q' at hc
    split at hc
    · cases hc
    · next hdrained =>
      cases hc
      refine QueueAccount.listed_iff.mpr fun id sub hsub => ⟨(hrecord hsub).1, fun hnext => ?_⟩
      -- the probe under the lease would have found the record
      exact absurd (List.any_eq_true.mpr ⟨(id, sub), (Map.mem_toList _ _ _).mpr hsub, hnext⟩)
        hdrained
  | healTag =>
    cases hc
    exact QueueAccount.listed_iff.mpr fun id sub hsub => ⟨(hrecord hsub).1, fun _ => rfl⟩

/-- Whatever workers, clients, senders and reports commit, in any order and on any accounts: in
    every state reached from one whose worklist is complete, an account with a submission that
    carries nextAttemptAt is in the tag set, a submission with a queued recipient carries
    nextAttemptAt, and a canceled one does not. -/
theorem worklist_complete (fold : Folding) {s s' : QueueStore} (hstart : ∀ acct, (s acct).Listed)
    (hrun : QueueRun fold s s') (acct : JmapId) : (s' acct).Listed := by
  induction hrun with
  | refl => exact hstart acct
  | tail _ hstep ih =>
    obtain ⟨changed, txn, hc⟩ := hstep
    by_cases heq : acct = changed
    · subst heq
      rw [Function.update_self]
      exact txn.commit_listed fold ih hc
    · rw [Function.update_of_ne heq]
      exact ih

/-! ## A run -/

/-- Commits one after another; `none` when one of them is refused. -/
def QueueStore.commits (fold : Folding) : List (JmapId × QueueTxn) → QueueStore →
    Option QueueStore
  | [], s => some s
  | (acct, txn) :: rest, s =>
    (txn.commit fold (s acct)).bind fun q => commits fold rest (Function.update s acct q)

theorem QueueStore.commits_run {fold : Folding} {txns : List (JmapId × QueueTxn)}
    {s s' : QueueStore} (h : s.commits fold txns = some s') : QueueRun fold s s' := by
  induction txns generalizing s with
  | nil =>
    cases h
    exact .refl
  | cons head rest ih =>
    obtain ⟨q, hq, hrest⟩ := Option.bind_eq_some_iff.mp h
    exact .head (.commit head.1 head.2 hq) (ih hrest)

theorem QueueAccount.listed_empty : QueueAccount.Listed {} :=
  QueueAccount.listed_iff.mpr fun _ _ hsub => by simp at hsub

def deferredOnce : List (JmapId × QueueTxn) :=
  [("u", .send "s1" ⟨some ⟨"b@x", ∅⟩, [⟨"a@x", ∅⟩]⟩ 0 "blob" none),
    ("u", .claim Assumed.plain.cfg "s1" 0 ['t']),
    ("u", .finalize Assumed.plain.cfg "s1" ['t'] 0 (fun d => d)
      [⟨"a@x", .tempFailed, "451 4.7.1 later"⟩])]

theorem scheduled_of_deferred :
    (QueueStore.commits Assumed.plain.fold deferredOnce fun _ => {}).any fun s =>
      (s "u").account.scheduled := by
  decide +kernel

theorem worklist_complete_deferred : ∃ s : QueueStore,
    QueueRun Assumed.plain.fold (fun _ => {}) s ∧ (s "u").account.scheduled ∧
      (s "u").Listed := by
  obtain ⟨s, hs, hscheduled⟩ := (Option.any_eq_true _ _).mp scheduled_of_deferred
  have hrun := QueueStore.commits_run hs
  exact ⟨s, hrun, hscheduled,
    worklist_complete Assumed.plain.fold (fun _ => QueueAccount.listed_empty) hrun "u"⟩

end NaustJmap.Submit
