import NaustJmap.Mail.Email
import NaustJmap.ObjectDB.Get

/-!
# The Sender

`submit/sender.go`: a message the server writes itself is stored as an Email and queued as an
EmailSubmission in one commit, between the `Before` and `After` hooks of its caller.  Nothing else
of the account is written, so that what a caller keeps to itself changes in its hooks only.
-/

namespace NaustJmap.Submit

open Library ObjectDB NaustJmap.Runtime Mail

def typeEmailSubmission : String := "EmailSubmission"

def typeEmailDelivery : String := "EmailDelivery"

def submissionQueueTag : String := "mail:submission-queued"

/-- `ErrSkipSend`: what a `Before` hook returns to call the send off. -/
def errSkipSend : Err := .callback "mail: send skipped"

def errNoRoleMailbox : Err := .callback "mail: no mailbox with the requested role"

/-- A program of a commit that stops at its first error. -/
abbrev OpM := ExceptT Err Callback

namespace OpM

def get (typeName : String) (id : JmapId) : OpM Object := ExceptT.mk (.get typeName id .done)

def create (typeName : String) (obj : Object) : OpM JmapId :=
  ExceptT.mk (.create typeName obj .done)

def write (op : WriteOp) : OpM Unit := ExceptT.mk (.write op .done)

end OpM

/-- What a composed message brings to its commit. -/
structure Outgoing where
  /-- `assignThread` on its headers. -/
  assignThread : Callback (Except Err JmapId)
  /-- `BuildEmailRecord`, from the thread and the mailbox. -/
  emailRecord : JmapId → JmapId → Object
  /-- The record of the queue, from the stored Email and its id. -/
  submission : JmapId → Object → Object
  /-- The properties the server set, for the response. -/
  echo : Object

section Commit

variable (es : EmailStore) (out : Outgoing)

/-- Stages the sent copy: its thread, its record and the mailbox counters. -/
def insertEmail (mailbox : JmapId) : OpM JmapId := do
  let thread ← ExceptT.mk out.assignThread
  let id ← OpM.create typeEmail (out.emailRecord thread mailbox)
  OpM.write (.bumpState typeEmailDelivery)
  let stored ← OpM.get typeEmail id
  ExceptT.mk (es.adjustCounters none (some stored))
  return id

/-- The end of `Sender.commit` before its `After` hook: the submission of the stored Email. -/
def queueSubmission (emailId : JmapId) : OpM JmapId := do
  let email ← OpM.get typeEmail emailId
  let submissionId ← OpM.create typeEmailSubmission (out.submission emailId email)
  OpM.write (.setAccountTag submissionQueueTag)
  return submissionId

/-- `Sender.commit`: the id of the queued submission. -/
def senderCommit (mailboxRole : String) (before after : OpM Unit) : OpM JmapId := do
  before
  let mailbox ← ExceptT.mk (es.roleMailboxId mailboxRole)
  if mailbox = "" then throw errNoRoleMailbox
  let emailId ← insertEmail es out mailbox
  let submissionId ← queueSubmission out emailId
  after
  return submissionId

end Commit

/-- `DB.Update` with a callback that returns a value: the result and what is written. -/
def commitOf {α : Type} (env : CommitEnv) (m : OpM α) (n : ℕ) : Except Err α × List BatchOp :=
  match env.acquired with
  | .error e => (.error e, [])
  | .ok () =>
    match env.run m.run { sequence := (env.schedule n).seq + 1 } (n + 1) with
    | (.error e, _) => (.error e, [])
    | (.ok a, u, _) =>
      if u.nothingStaged then (.ok a, [])
      else
        match u.buildBatch env.db env.acct env.now, env.written with
        | .ok batch, .ok () => (.ok a, batch ++ [.setSeq u.sequence])
        | .error e, _ => (.error e, [])
        | .ok _, .error e => (.error e, [])

section Runs

variable {typeName : String} {id emailId : JmapId} {env : CommitEnv} {s : Store} {u u' : Update}
  {n n' : ℕ} {α β : Type}

/-! ## Single operations -/

/-- A program that came to its end went through its first part. -/
theorem OpM.run_bind_ok {m : OpM α} {f : α → OpM β} {b : β}
    (h : env.run (m >>= f).run u n = (.ok b, u', n')) :
    ∃ a u1 n1, env.run m.run u n = (.ok a, u1, n1) ∧ env.run (f a).run u1 n1 = (.ok b, u', n') := by
  obtain ⟨r, u1, n1, hr, h⟩ := run_bind_eq h
  cases r with
  | error e => cases h
  | ok a => exact ⟨a, u1, n1, hr, h⟩

theorem OpM.run_pure_ok {a b : α} (h : env.run (pure a : OpM α).run u n = (.ok b, u', n')) :
    a = b ∧ u = u' ∧ n = n' := by
  have heq : ((.ok a : Except Err α), u, n) = (.ok b, u', n') := h
  simpa using heq

theorem OpM.quiet_bind {m : OpM α} {f : α → OpM β} (hm : Quiet env typeName m.run)
    (hf : ∀ a, Quiet env typeName (f a).run) : Quiet env typeName (m >>= f).run := by
  refine Unmoved.bind hm fun r => ?_
  cases r with
  | error e => exact .pure _
  | ok a => exact hf a

theorem quiet_create {typeName' : String} (hne : typeName' ≠ typeName) (obj : Object) :
    Quiet env typeName (OpM.create typeName' obj).run := by
  intro s u n _
  simp only [OpM.create, ExceptT.run_mk, CommitEnv.run, Callback.runAt, Callback.exec,
    Update.create]
  split
  · rfl
  split
  · rfl
  split
  · rfl
  funext id
  refine (Leased.view_of_insert rfl _).trans (if_neg fun heq => hne ?_)
  exact (RecKey.mk.inj heq).1

theorem quiet_bumpState (typeName typeName' : String) :
    Quiet env typeName (OpM.write (.bumpState typeName')).run := by
  intro s u n _
  simp only [OpM.write, ExceptT.run_mk, CommitEnv.run, Callback.runAt, Callback.exec, WriteOp.exec,
    Update.bumpState]
  split <;> rfl

theorem quiet_setAccountTag (typeName tag : String) :
    Quiet env typeName (OpM.write (.setAccountTag tag)).run := by
  intro s u n _
  simp only [OpM.write, ExceptT.run_mk, CommitEnv.run, Callback.runAt, Callback.exec, WriteOp.exec,
    Update.setAccountTag]
  split <;> rfl

theorem OpM.quiet_get (typeName typeName' : String) (id : JmapId) :
    Quiet env typeName (OpM.get typeName' id).run :=
  Mail.quiet_get typeName typeName' id fun r => .pure r

theorem leased_of_run (hl : Leased env s u n) {cb : Callback α} {r : α}
    (hr : env.run cb u n = (r, u', n')) : Leased env s u' n' := by
  have hl' := (hl.run cb).1
  rwa [hr] at hl'

theorem Quiet.leaves {cb : Callback α} (hq : Quiet env typeName cb) (hl : Leased env s u n)
    {r : α} (hr : env.run cb u n = (r, u', n')) :
    Leased env s u' n' ∧ recordsOf typeName s u' = recordsOf typeName s u := by
  have hrec := hq s u n hl
  rw [hr] at hrec
  exact ⟨leased_of_run hl hr, hrec⟩

theorem OpM.get_ok (hl : Leased env s u n) {obj : Object}
    (h : env.run (OpM.get typeName id).run u n = (.ok obj, u', n')) :
    Leased env s u' n' ∧ recordsOf typeName s u' = recordsOf typeName s u ∧
      recordsOf typeName s u id = some obj := by
  obtain ⟨hl', hrec⟩ := Quiet.leaves (OpM.quiet_get typeName typeName id) hl h
  refine ⟨hl', hrec, ?_⟩
  have heq := @Leased.runAt_eq env s u n _ (Update.get env.db typeName id u) hl
  obtain ⟨hobj, -⟩ := get_spec hl.cache heq.symm
  simp only [OpM.get, ExceptT.run_mk, CommitEnv.run, Callback.runAt, Callback.exec,
    Reads.runAt_bind] at h
  generalize (Update.get env.db typeName id u).runAt env.schedule n = g at *
  obtain ⟨⟨r, u1⟩, n1⟩ := g
  cases h
  exact hobj obj rfl

/-! ## Between the hooks -/

/-- What the commit asks of the rest of the server leaves the records of a type alone. -/
structure SendsQuietly (env : CommitEnv) (es : EmailStore) (out : Outgoing) (typeName : String) :
    Prop where
  role : ∀ role, Quiet env typeName (es.roleMailboxId role)
  thread : Quiet env typeName out.assignThread
  adjust : ∀ old new, Quiet env typeName (es.adjustCounters old new)

/-- Between its hooks the commit stores one Email and one submission, under new ids. -/
structure Sent (env : CommitEnv) (es : EmailStore) (out : Outgoing) (s : Store) (u u' : Update) :
    Prop where
  others : ∀ T, T ≠ typeEmail → T ≠ typeEmailSubmission → SendsQuietly env es out T →
    recordsOf T s u' = recordsOf T s u
  email : (∀ old new, Quiet env typeEmail (es.adjustCounters old new)) →
    ∃ i, s.objs[RecKey.mk typeEmail (env.draw i)]? = none ∧
      (recordsOf typeEmail s u' (env.draw i)).isSome ∧
      (SendsQuietly env es out typeEmail → recordsOf typeEmail s u (env.draw i) = none ∧
        ∀ id ≠ env.draw i, recordsOf typeEmail s u' id = recordsOf typeEmail s u id)
  submission : ∃ id, s.objs[RecKey.mk typeEmailSubmission id]? = none ∧
    (recordsOf typeEmailSubmission s u' id).isSome

variable {es : EmailStore} {out : Outgoing}

theorem quiet_insertEmail (hne : typeName ≠ typeEmail) (hq : SendsQuietly env es out typeName)
    (mailbox : JmapId) : Quiet env typeName (insertEmail es out mailbox).run :=
  OpM.quiet_bind hq.thread fun _ => OpM.quiet_bind (quiet_create hne.symm _) fun _ =>
    OpM.quiet_bind (quiet_bumpState _ _) fun _ => OpM.quiet_bind (OpM.quiet_get _ _ _) fun _ =>
      OpM.quiet_bind (hq.adjust _ _) fun _ => .pure _

theorem quiet_queueSubmission (hne : typeName ≠ typeEmailSubmission) (emailId : JmapId) :
    Quiet env typeName (queueSubmission out emailId).run :=
  OpM.quiet_bind (OpM.quiet_get _ _ _) fun _ => OpM.quiet_bind (quiet_create hne.symm _) fun _ =>
    OpM.quiet_bind (quiet_setAccountTag _ _) fun _ => .pure _

theorem insertEmail_ok (hinj : Function.Injective env.draw) (hl : Leased env s u n)
    {mailbox : JmapId}
    (h : env.run (insertEmail es out mailbox).run u n = (.ok id, u', n'))
    (hadjust : ∀ old new, Quiet env typeEmail (es.adjustCounters old new)) :
    ∃ i, id = env.draw i ∧ s.objs[RecKey.mk typeEmail id]? = none ∧
      (recordsOf typeEmail s u' id).isSome ∧
      (Quiet env typeEmail out.assignThread → recordsOf typeEmail s u id = none ∧
        ∀ id' ≠ id, recordsOf typeEmail s u' id' = recordsOf typeEmail s u id') := by
  obtain ⟨thread, u1, n1, hassign, h⟩ := OpM.run_bind_ok h
  obtain ⟨newId, u2, n2, hcreate, h⟩ := OpM.run_bind_ok h
  have hl1 := leased_of_run hl hassign
  obtain ⟨hl2, hid, -, hnone, hrec2⟩ := hl1.create hinj hcreate
  obtain ⟨⟨⟩, u3, n3, hbump, h⟩ := OpM.run_bind_ok h
  obtain ⟨hl3, hrec3⟩ := Quiet.leaves (quiet_bumpState typeEmail _) hl2 hbump
  obtain ⟨stored, u4, n4, hstored, h⟩ := OpM.run_bind_ok h
  obtain ⟨hl4, hrec4, -⟩ := OpM.get_ok hl3 hstored
  obtain ⟨⟨⟩, u5, n5, hcount, h⟩ := OpM.run_bind_ok h
  obtain ⟨-, hrec5⟩ := Quiet.leaves (hadjust _ _) hl4 hcount
  obtain ⟨rfl, rfl, rfl⟩ := OpM.run_pure_ok h
  have hafter := hrec5.trans (hrec4.trans (hrec3.trans hrec2))
  refine ⟨u1.createSeq, hid, ?_, by rw [hafter, Function.update_self]; rfl, fun hthread => ?_⟩
  · rw [hid]
    exact hl1.fresh _ _ (Nat.lt_succ_self _) _
  · have hrec1 := (Quiet.leaves hthread hl hassign).2
    refine ⟨hrec1 ▸ hnone, fun id' hne => ?_⟩
    rw [hafter, Function.update_of_ne hne, hrec1]

theorem queueSubmission_ok (hinj : Function.Injective env.draw) (hl : Leased env s u n)
    (h : env.run (queueSubmission out emailId).run u n = (.ok id, u', n')) :
    s.objs[RecKey.mk typeEmailSubmission id]? = none ∧
      (recordsOf typeEmailSubmission s u' id).isSome := by
  obtain ⟨email, u1, n1, hget, h⟩ := OpM.run_bind_ok h
  have hl1 := leased_of_run hl hget
  obtain ⟨newId, u2, n2, hcreate, h⟩ := OpM.run_bind_ok h
  obtain ⟨hl2, hid, -, -, hrec2⟩ := hl1.create hinj hcreate
  obtain ⟨⟨⟩, u3, n3, htag, h⟩ := OpM.run_bind_ok h
  obtain ⟨-, hrec3⟩ := Quiet.leaves (quiet_setAccountTag typeEmailSubmission _) hl2 htag
  obtain ⟨rfl, rfl, rfl⟩ := OpM.run_pure_ok h
  constructor
  · rw [hid]
    exact hl1.fresh _ _ (Nat.lt_succ_self _) _
  · rw [hrec3, hrec2, Function.update_self]
    rfl

/-- **A send that is committed** ran both hooks, and between them stored the message. -/
theorem senderCommit_ok {role : String} {before after : OpM Unit}
    (hinj : Function.Injective env.draw) (hl : Leased env s u n)
    (h : env.run (senderCommit es out role before after).run u n = (.ok id, u', n')) :
    ∃ u1 n1 u2 n2, env.run before.run u n = (.ok (), u1, n1) ∧ Leased env s u2 n2 ∧
      Sent env es out s u1 u2 ∧ env.run after.run u2 n2 = (.ok (), u', n') := by
  obtain ⟨⟨⟩, u1, n1, hbefore, h⟩ := OpM.run_bind_ok h
  have hl1 := leased_of_run hl hbefore
  obtain ⟨mailbox, u2, n2, hrole, h⟩ := OpM.run_bind_ok h
  have hl2 := leased_of_run hl1 hrole
  split at h
  · cases h
  obtain ⟨emailId, u3, n3, hinsert, h⟩ := OpM.run_bind_ok h
  have hl3 := leased_of_run hl2 hinsert
  obtain ⟨sub, u4, n4, hqueue, h⟩ := OpM.run_bind_ok h
  obtain ⟨⟨⟩, u5, n5, hafter, h⟩ := OpM.run_bind_ok h
  obtain ⟨rfl, rfl, rfl⟩ := OpM.run_pure_ok h
  refine ⟨u1, n1, u4, n4, hbefore, leased_of_run hl3 hqueue, ⟨fun T hT hT' hq => ?_,
    fun hadjust => ?_, sub, queueSubmission_ok hinj hl3 hqueue⟩, hafter⟩
  · rw [(Quiet.leaves (quiet_queueSubmission hT' _) hl3 hqueue).2,
      (Quiet.leaves (quiet_insertEmail hT hq _) hl2 hinsert).2,
      (Quiet.leaves (hq.role _) hl1 hrole).2]
  · obtain ⟨i, rfl, hfree, hsome, hrest⟩ := insertEmail_ok hinj hl2 hinsert hadjust
    have hother : typeEmail ≠ typeEmailSubmission := by decide
    have hrec4 := (Quiet.leaves (quiet_queueSubmission hother _) hl3 hqueue).2
    refine ⟨i, hfree, by rwa [hrec4], fun hq => ?_⟩
    rw [hrec4, ← (Quiet.leaves (hq.role _) hl1 hrole).2]
    exact hrest hq.thread

/-! ## What is written -/

variable {m : OpM α}

theorem commitOf_error {e : Err} (h : (commitOf env m n).1 = .error e) :
    (commitOf env m n).2 = [] := by
  unfold commitOf at h ⊢
  split
  · rfl
  rename_i hacquired
  split
  · rfl
  · rename_i a u n' hrun
    split
    · rfl
    rename_i hstaged
    split <;> simp_all

theorem commitOf_ok {a : α} {w : List BatchOp} (h : commitOf env m n = (.ok a, w)) :
    ∃ u n', env.run m.run { sequence := (env.schedule n).seq + 1 } (n + 1) = (.ok a, u, n') ∧
      ∀ s, Leased env s u n' → ∀ k : RecKey, (applyBatch w s).objs[k]? = u.view s k := by
  unfold commitOf at h
  split at h
  · cases h
  split at h
  · cases h
  rename_i a' u n' hrun
  refine ⟨u, n', ?_, fun s hl k => ?_⟩
  · split at h
    · cases h
      exact hrun
    · split at h <;> cases h
      exact hrun
  · unfold Update.view
    split at h
    · rename_i hn
      cases h
      have hnone : u.staged[k]? = none := by
        simp only [Update.nothingStaged, Bool.and_eq_true] at hn
        exact (Map.isEmpty_iff_forall u.staged).mp hn.1.1 k
      rw [hnone]
      rfl
    · split at h <;> cases h
      rename_i batch hbatch hwritten
      refine (objs_of_stagedOk hl.staged (applyBatch_buildBatch hbatch s).2.2.1 k).trans ?_
      cases u.staged[k]? <;> rfl

end Runs

end NaustJmap.Submit
