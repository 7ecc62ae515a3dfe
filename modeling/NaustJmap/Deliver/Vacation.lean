import NaustJmap.Mdn.Once
import NaustJmap.ObjectDB.Overlay

/-!
# The Vacation Responder

`deliver/vacationresponder.go`: the reply to a sender is committed by `submit.Sender`, and a ledger
keeps a sender from being answered twice within a week.  It is looked up in the `Before` hook of the
commit, under the lease, and written in its `After` hook.  Any number of deliveries run at once;
what a delivery reads before it has the lease may be from any time.
-/

namespace NaustJmap.Deliver

open Library ObjectDB NaustJmap.Runtime Mail
open Submit (OpM Outgoing Quiet.leaves quiet_create senderCommit senderCommit_ok errSkipSend
  typeEmailSubmission typeEmailDelivery)
open Mdn (bareType lettersOf lettersOf_inj)

/-! ## The ledger -/

def typeVacationNotified : String := "VacationNotified"

/-- `vacationSuppressPeriod`: seven days, in nanoseconds. -/
def vacationSuppressPeriod : Int := 7 * 24 * 3600 * 1000000000

def senderProperty : Property := { kind := .string, internal := true, indexed := true }

def vacationNotifiedType : TypeDesc where
  name := typeVacationNotified
  capability := "urn:ietf:params:jmap:vacationresponse"
  properties := ((∅ : Map String Property).insert "sender" senderProperty).insert "sentAt"
    { kind := .date, internal := true }

/-- `json.Marshal` of a string, and a time as `time.RFC3339` writes it. -/
structure Texts where
  mustJSON : String → Raw
  format : Int → String

def parseUTCDateValue (sc : Scanner) (raw : Raw) : Option Int := (sc.string raw).bind sc.parseTime

def sentAt (sc : Scanner) (rec : Object) : Option Int :=
  rec["sentAt"]?.bind (parseUTCDateValue sc)

def suppresses (sc : Scanner) (now : Int) (rec : Object) : Bool :=
  (sentAt sc rec).any fun at_ => now - at_ < vacationSuppressPeriod

/-! ## One reply -/

structure Responder where
  texts : Texts
  store : EmailStore

section Reply

variable (db : DB) (acct : JmapId) (r : Responder) (sender : String) (now : Int)

/-- The loop of the check before the lease: a record that is not found is passed over. -/
def anySuppresses : List JmapId → Reads Store Bool
  | [] => pure false
  | id :: rest => ExceptT.run (db.get typeVacationNotified id) >>= fun found =>
    if found.toOption.any (suppresses db.scan now) then pure true else anySuppresses rest

/-- The check before the lease; it answers no if the lookup fails. -/
def preCheck : Reads Store Bool :=
  ExceptT.run (db.idsWhereEqual acct typeVacationNotified "sender" (r.texts.mustJSON sender) 0)
    >>= fun
      | .error _ => pure false
      | .ok ids => anySuppresses db now ids

/-- `maybeVacationReply` up to `Send`; `compose` stands for the rules of RFC 3834 and the text. -/
def prepareReply (compose : Reads Store (Option Outgoing)) : Reads Store (Option Outgoing) :=
  compose >>= fun
    | none => pure none
    | some out => preCheck db acct r sender now >>= fun suppressed =>
      pure (if suppressed then none else some out)

/-- `Update.IdsWhereEqual` in the sender of the ledger. -/
def ledgerRows : OpM (List JmapId) :=
  ExceptT.mk (.view fun u => .ofReads
    (u.idsWhereEqual db acct typeVacationNotified "sender" (r.texts.mustJSON sender)))

/-- The loop of `Before`: a record still in force skips the send, others are cleared away. -/
def clearRows : List JmapId → OpM Unit
  | [] => pure ()
  | id :: rest => do
    let rec ← OpM.get typeVacationNotified id
    if suppresses db.scan now rec then throw errSkipSend
    OpM.write (.destroy typeVacationNotified id)
    clearRows rest

def beforeReply : OpM Unit := do
  let rows ← ledgerRows db acct r sender
  clearRows db now rows

def notice : Object :=
  ((∅ : Object).insert "sender" (r.texts.mustJSON sender)).insert "sentAt"
    (r.texts.mustJSON (r.texts.format now))

def afterReply : OpM Unit := do
  let _ ← OpM.create typeVacationNotified (notice r sender now)
  return ()

def replyProgram (out : Outgoing) : OpM JmapId :=
  senderCommit r.store out "sent" (beforeReply db acct r sender now) (afterReply r sender now)

/-- The commit of a send, which draws its ids from `draw`. -/
def replyCommit (out : Outgoing) (draw : ℕ → JmapId) : Commit where
  fn := (replyProgram db acct r sender now out).run >>= fun res => pure (res.map fun _ => ())
  draw := draw
  now := now

end Reply

/-! ## The account -/

def wholeSeconds (now : Int) : Int := now / 1000000000 * 1000000000

def senderKey (db : DB) (r : Responder) (sender : String) : Except Err Bytes :=
  indexValue db.scan senderProperty (r.texts.mustJSON sender)

/-- The account, and the replies that were committed: to whom, and when by the ledger. -/
structure Account where
  world : World
  replies : List (String × Int) := []

/-- The environment of a commit that holds the lease of the account. -/
def leasedEnv (db : DB) (acct : JmapId) (draw : ℕ → JmapId) (now : Int) (s : Store) :
    CommitEnv where
  db := db
  acct := acct
  schedule _ := s
  draw := draw
  now := now

/-- Ids are drawn once, times are read back to the second, filing keeps to its own types. -/
structure Sends (db : DB) (acct : JmapId) (r : Responder) (out : Outgoing) (now : Int)
    (draw : ℕ → JmapId) (w : World) : Prop where
  injective : Function.Injective draw
  unseen : ∀ i, draw i ∉ w.issued
  stamp : parseUTCDateValue db.scan (r.texts.mustJSON (r.texts.format now)) =
    some (wholeSeconds now)
  roleMailboxId : ∀ role, Quiet (leasedEnv db acct draw now w.store) typeVacationNotified
    (r.store.roleMailboxId role)
  assignThread : Quiet (leasedEnv db acct draw now w.store) typeVacationNotified out.assignThread
  adjustCounters : ∀ old new, Quiet (leasedEnv db acct draw now w.store) typeVacationNotified
    (r.store.adjustCounters old new)
  adjustsOthers : ∀ old new, Quiet (leasedEnv db acct draw now w.store) typeEmail
    (r.store.adjustCounters old new)

def ledger (s : Store) (id : JmapId) : Option Object :=
  s.objs[RecKey.mk typeVacationNotified id]?

inductive Move (db : DB) (acct : JmapId) (r : Responder) (w : Account) : Account → Prop where
  /-- A delivery has its reply committed.  The reads before the lease saw the states `σ`. -/
  | reply {sender : String} {now : Int} {compose : Reads Store (Option Outgoing)} {out : Outgoing}
      {draw : ℕ → JmapId} {σ : ℕ → Store} {n m : ℕ} {w' : World}
      (hprepared : (prepareReply db acct r sender now compose).runAt σ n = (some out, m))
      (hsends : Sends db acct r out now draw w.world)
      (hstep : Step db acct w.world (.commit (replyCommit db acct r sender now out draw)) w')
      (hkeep : KeepsOrder db w.world.store w'.store) :
      Move db acct r w ⟨w', w.replies ++ [(sender, wholeSeconds now)]⟩
  /-- Any other commit, which leaves the ledger alone. -/
  | other {w' : World} (hmove : OrderedMoves db acct w.world w')
      (hledger : ∀ id, ledger w'.store id = ledger w.world.store id) :
      Move db acct r w ⟨w', w.replies⟩

/-! ## What a reply does to the ledger -/

section Commit

variable {env : CommitEnv} {s : Store} {u u' : Update} {n n' : ℕ} {r : Responder}
  {sender : String} {now : Int}

theorem ledgerRows_ok (hdb : env.db.types[typeVacationNotified]? = some vacationNotifiedType)
    (hexact : IndexesExact env.db env.acct s) (hl : Leased env s u n)
    (hstaged : u.staged = ∅) {rows : List JmapId}
    (h : env.run (ledgerRows env.db env.acct r sender).run u n = (.ok rows, u', n')) :
    Leased env s u' n' ∧ u'.staged = u.staged ∧
      ∃ key, senderKey env.db r sender = .ok key ∧ ∀ id, id ∈ rows ↔
        ∃ rec, ledger s id = some rec ∧
          indexedValue env.db.scan senderProperty "sender" rec = some key := by
  have hl' := (hl.run (ledgerRows env.db env.acct r sender).run).1
  rw [h] at hl'
  have hview : ∀ k, s.objs[k]? = u.view s k := fun k => by simp [Update.view, hstaged]
  have hlands : u.Lands env.db env.acct s s :=
    ⟨fun k st hst => by simp [hstaged] at hst, hl.cache, hview, hexact, hexact⟩
  have hread : (Callback.runAt env.db env.draw env.schedule (.ofReads
      (u.idsWhereEqual env.db env.acct typeVacationNotified "sender" (r.texts.mustJSON sender)))
      u n) = (.ok rows, u', n') := h
  rw [Callback.runAt_ofReads, Prod.mk.injEq] at hread
  obtain ⟨hrows, rfl, -⟩ := hread
  refine ⟨hl', rfl, ?_⟩
  have hrun : (u.idsWhereEqual env.db env.acct typeVacationNotified "sender"
      (r.texts.mustJSON sender)).run s = .ok rows := by
    rw [← hrows]
    exact hl.runAt_eq.symm
  have hprop : env.db.indexedProperty typeVacationNotified "sender" = .ok senderProperty := by
    have hsender : vacationNotifiedType.properties[("sender" : String)]? = some senderProperty := by
      rw [vacationNotifiedType, Map.getElem?_insert, if_neg (by decide), Map.getElem?_insert,
        if_pos rfl]
    simp only [DB.indexedProperty, DB.propertyWith, hdb, hsender]
    rfl
  have hequal : Matches List.Perm
      ((u.idsWhereEqual env.db env.acct typeVacationNotified "sender"
        (r.texts.mustJSON sender)).run s)
      ((env.db.idsWhereEqual env.acct typeVacationNotified "sender"
        (r.texts.mustJSON sender) 0).run s) := hlands.equal _
  rw [hrun] at hequal
  cases hkey : indexValue env.db.scan senderProperty (r.texts.mustJSON sender) with
  | error e => simp [Update.idsWhereEqual, ReadM.run_bind, hprop, hkey] at hrun
  | ok key =>
    refine ⟨key, hkey, fun id => ?_⟩
    obtain ⟨found, hperm, hfound, -⟩ := hexact.lookups.equal hprop hkey
    rw [hfound] at hequal
    rw [hequal.mem_iff, hperm.mem_iff, mem_idsWhere]
    refine exists_congr fun rec => and_congr_right fun _ => ?_
    cases indexedValue env.db.scan senderProperty "sender" rec <;> simp

theorem clearRows_ok (hl : Leased env s u n) {rows : List JmapId}
    (h : env.run (clearRows env.db now rows).run u n = (.ok (), u', n')) :
    Leased env s u' n' ∧
      (∀ id ∈ rows, ∃ rec, recordsOf typeVacationNotified s u id = some rec ∧
        suppresses env.db.scan now rec = false) ∧
      recordsOf typeVacationNotified s u' =
        fun id => if id ∈ rows then none else recordsOf typeVacationNotified s u id := by
  induction rows generalizing u n with
  | nil =>
    have h : ((.ok () : Except Err Unit), u, n) = (.ok (), u', n') := h
    cases h
    exact ⟨hl, by simp, by simp⟩
  | cons id rest ih =>
    obtain ⟨rec, u1, n1, hget, h⟩ := OpM.run_bind_ok h
    obtain ⟨hl1, hrec1, hfound⟩ := OpM.get_ok hl hget
    split at h
    · cases h
    rename_i hclear
    obtain ⟨⟨⟩, u2, n2, hdestroy, h⟩ := OpM.run_bind_ok h
    obtain ⟨hl2, -, -, hrec2⟩ := hl1.destroy hdestroy
    obtain ⟨hl', hold, hrec'⟩ := ih hl2 h
    rw [hrec2, hrec1] at hold hrec'
    refine ⟨hl', fun id' hid' => ?_, ?_⟩
    · rcases List.mem_cons.mp hid' with rfl | hid'
      · exact ⟨rec, hfound, by simpa using hclear⟩
      · obtain ⟨rec', hrec', hclear'⟩ := hold id' hid'
        rw [Function.update_apply] at hrec'
        split at hrec'
        · cases hrec'
        · exact ⟨rec', hrec', hclear'⟩
    · rw [hrec']
      funext id'
      by_cases hhead : id' = id
      · simp [hhead]
      · simp [hhead]

def Added (typeName : String) (id : JmapId) (s s' : Store) : Prop :=
  s.objs[RecKey.mk typeName id]? = none ∧ (s'.objs[RecKey.mk typeName id]?).isSome

/-- The sender's records in the ledger were out of force and are replaced by a new one. -/
structure Replied (env : CommitEnv) (r : Responder) (sender : String) (now : Int) (s : Store)
    (u : Update) : Prop where
  notified : ∃ (rows : List JmapId) (key : Bytes) (noticeId : JmapId),
    senderKey env.db r sender = .ok key ∧
    (∀ id, id ∈ rows ↔ ∃ rec, ledger s id = some rec ∧
      indexedValue env.db.scan senderProperty "sender" rec = some key) ∧
    (∀ id ∈ rows, ∃ rec, ledger s id = some rec ∧ suppresses env.db.scan now rec = false) ∧
    ledger s noticeId = none ∧
    recordsOf typeVacationNotified s u = Function.update
      (fun id => if id ∈ rows then none else ledger s id) noticeId
      (some ((notice r sender now).insert "id" (quoteId noticeId)))
  email : ∃ id, s.objs[RecKey.mk typeEmail id]? = none ∧ (recordsOf typeEmail s u id).isSome
  submission : ∃ id, s.objs[RecKey.mk typeEmailSubmission id]? = none ∧
    (recordsOf typeEmailSubmission s u id).isSome

theorem replyProgram_ok {out : Outgoing} {sub : JmapId} {sequence : ℕ}
    (hdb : env.db.types[typeVacationNotified]? = some vacationNotifiedType)
    (hexact : IndexesExact env.db env.acct s) (hinj : Function.Injective env.draw)
    (hrole : ∀ role, Quiet env typeVacationNotified (r.store.roleMailboxId role))
    (hthread : Quiet env typeVacationNotified out.assignThread)
    (hadjust : ∀ old new, Quiet env typeVacationNotified (r.store.adjustCounters old new))
    (hemails : ∀ old new, Quiet env typeEmail (r.store.adjustCounters old new))
    (hl : Leased env s { sequence := sequence } n)
    (h : env.run (replyProgram env.db env.acct r sender now out).run { sequence := sequence } n =
      (.ok sub, u', n')) : Replied env r sender now s u' := by
  obtain ⟨u1, n1, u2, n2, hbefore, hl2, hsent, hafter⟩ := senderCommit_ok hinj hl h
  -- `Before`
  obtain ⟨rows, u0, n0, hrows, hclear⟩ := OpM.run_bind_ok hbefore
  obtain ⟨hl0, hstaged0, key, hkey, hall⟩ := ledgerRows_ok hdb hexact hl rfl hrows
  have hrec0 : recordsOf typeVacationNotified s u0 = ledger s := by
    funext id
    rw [recordsOf, Update.view, hstaged0]
    simp [ledger]
  obtain ⟨-, hold, hrec1⟩ := clearRows_ok hl0 hclear
  rw [hrec0] at hold hrec1
  have hrec2 := hsent.others typeVacationNotified (by decide) (by decide) ⟨hrole, hthread, hadjust⟩
  -- `After`
  obtain ⟨noticeId, u3, n3, hnotice, hafter⟩ := OpM.run_bind_ok hafter
  obtain ⟨-, rfl, rfl⟩ := OpM.run_pure_ok hafter
  have hother : ∀ T, typeVacationNotified ≠ T → recordsOf T s u3 = recordsOf T s u2 :=
    fun T hT => (Quiet.leaves (quiet_create hT _) hl2 hnotice).2
  obtain ⟨-, hnoticeId, -, -, hrec3⟩ := hl2.create hinj hnotice
  refine ⟨⟨rows, key, noticeId, hkey, hall, hold, ?_, ?_⟩, ?_, ?_⟩
  · rw [hnoticeId]
    exact hl2.fresh _ _ (Nat.lt_succ_self _) _
  · rw [hrec3, hrec2, hrec1]
  · obtain ⟨i, hfree, hsome, -⟩ := hsent.email hemails
    exact ⟨_, hfree, by rwa [hother typeEmail (by decide)]⟩
  · rw [hother typeEmailSubmission (by decide)]
    exact hsent.submission

end Commit

/-! ## The commit of a reply -/

section Step

variable {db : DB} {acct : JmapId} {r : Responder} {sender : String} {now : Int} {out : Outgoing}
  {draw : ℕ → JmapId} {w : World} {batch : List BatchOp}

theorem replyProgram_of_update (hfresh : ∀ drawn, FreshDraw draw w.store drawn)
    (h : (db.update acct (replyCommit db acct r sender now out draw)).run w.store =
      .ok (some batch)) :
    ∃ u sub n, (leasedEnv db acct draw now w.store).run (replyProgram db acct r sender now out).run
        { sequence := w.store.seq + 1 } 0 = (.ok sub, u, n) ∧
      ∀ k : RecKey, (applyBatch batch w.store).objs[k]? = u.view w.store k := by
  obtain ⟨u, ops, hexec, hops, rfl⟩ := update_eq_some h
  have hrun := hexec
  change Callback.runOn db draw w.store (_ >>= _) _ = _ at hrun
  rw [Callback.runOn_bind, Callback.runOn_pure, Prod.mk.injEq] at hrun
  -- the callback under the lease is the callback on the one store
  rcases hg : (leasedEnv db acct draw now w.store).run
    (replyProgram db acct r sender now out).run { sequence := w.store.seq + 1 } 0 with ⟨a, u1, n⟩
  have hleased : Leased (leasedEnv db acct draw now w.store) w.store
      { sequence := w.store.seq + 1 } 0 := leased_opened (fun _ _ => rfl) hfresh
  have hon : (replyProgram db acct r sender now out).run.runOn db draw w.store
      { sequence := w.store.seq + 1 } = (a, u1) := hleased.runOn_eq hg
  rw [hon] at hrun
  obtain ⟨hok, rfl⟩ := hrun
  cases a with
  | error e => cases hok
  | ok sub =>
    refine ⟨u1, sub, n, rfl, fun k => ?_⟩
    obtain ⟨hstaged, -, -⟩ := exec_stagedOk (hfresh _) hexec
    refine (objs_of_stagedOk hstaged (applyBatch_buildBatch hops w.store).2.2.1 k).trans ?_
    unfold Update.view
    cases u1.staged[k]? <;> rfl

structure Delivered (db : DB) (r : Responder) (sender : String) (now : Int) (s s' : Store) :
    Prop where
  notified : ∃ (rows : List JmapId) (key : Bytes) (noticeId : JmapId),
    senderKey db r sender = .ok key ∧
    (∀ id, id ∈ rows ↔ ∃ rec, ledger s id = some rec ∧
      indexedValue db.scan senderProperty "sender" rec = some key) ∧
    (∀ id ∈ rows, ∃ rec, ledger s id = some rec ∧ suppresses db.scan now rec = false) ∧
    Added typeVacationNotified noticeId s s' ∧
    ledger s' = Function.update (fun id => if id ∈ rows then none else ledger s id) noticeId
      (some ((notice r sender now).insert "id" (quoteId noticeId)))
  email : ∃ id, Added typeEmail id s s'
  submission : ∃ id, Added typeEmailSubmission id s s'

theorem delivered_of_update
    (hdb : db.types[typeVacationNotified]? = some vacationNotifiedType) (hw : w.Ok)
    (hexact : IndexesExact db acct w.store) (hsends : Sends db acct r out now draw w)
    (h : (db.update acct (replyCommit db acct r sender now out draw)).run w.store =
      .ok (some batch)) :
    Delivered db r sender now w.store (applyBatch batch w.store) := by
  have hfresh : ∀ drawn, FreshDraw draw w.store drawn := fun _ =>
    hw.freshDraw fun i _ => hsends.unseen i
  obtain ⟨u, sub, n, hrun, hobjs⟩ := replyProgram_of_update hfresh h
  have hreplied : Replied (leasedEnv db acct draw now w.store) r sender now w.store u :=
    replyProgram_ok hdb hexact hsends.injective hsends.roleMailboxId hsends.assignThread
      hsends.adjustCounters hsends.adjustsOthers (leased_opened (fun _ _ => rfl) hfresh) hrun
  obtain ⟨⟨rows, key, noticeId, hkey, hall, hold, hnone, hledger⟩, hemail, hsub⟩ := hreplied
  have hafter : ledger (applyBatch batch w.store) = recordsOf typeVacationNotified w.store u := by
    funext id
    exact hobjs ⟨typeVacationNotified, id⟩
  refine ⟨⟨rows, key, noticeId, hkey, hall, hold, ⟨hnone, ?_⟩, hafter.trans hledger⟩, ?_, ?_⟩
  · have := congrFun (hafter.trans hledger) noticeId
    rw [Function.update_self] at this
    exact Option.isSome_iff_exists.mpr ⟨_, this⟩
  · obtain ⟨id, hnone, hsome⟩ := hemail
    exact ⟨id, hnone, by rw [hobjs]; exact hsome⟩
  · obtain ⟨id, hnone, hsome⟩ := hsub
    exact ⟨id, hnone, by rw [hobjs]; exact hsome⟩

end Step

/-! ## Replies are a period apart -/

/-- Of two replies to senders the ledger files together, the second is a period later. -/
def Apart (db : DB) (r : Responder) (first second : String × Int) : Prop :=
  senderKey db r first.1 = senderKey db r second.1 →
    first.2 + vacationSuppressPeriod ≤ second.2

/-- A record of the ledger that stands for a reply or a later one to the same sender. -/
structure Covers (db : DB) (r : Responder) (s : Store) (reply : String × Int) (id : JmapId)
    (rec : Object) (key : Bytes) (at_ : Int) : Prop where
  found : ledger s id = some rec
  owner : senderKey db r reply.1 = .ok key
  filed : indexedValue db.scan senderProperty "sender" rec = some key
  written : sentAt db.scan rec = some at_
  later : reply.2 ≤ at_
  whole : wholeSeconds at_ = at_

/-- The replies are apart, and the ledger covers each of them. -/
structure Account.Spaced (db : DB) (r : Responder) (w : Account) : Prop where
  apart : w.replies.Pairwise (Apart db r)
  covered : ∀ reply ∈ w.replies, ∃ id rec key at_, Covers db r w.world.store reply id rec key at_

section Run

variable {db : DB} {acct : JmapId} {r : Responder}

theorem wholeSeconds_idem (now : Int) : wholeSeconds (wholeSeconds now) = wholeSeconds now := by
  unfold wholeSeconds
  omega

/-- The period is in whole seconds, so that rounding down keeps it. -/
theorem le_wholeSeconds {at_ now : Int} (hwhole : wholeSeconds at_ = at_)
    (h : at_ + vacationSuppressPeriod ≤ now) : at_ + vacationSuppressPeriod ≤ wholeSeconds now := by
  unfold wholeSeconds vacationSuppressPeriod at *
  omega

theorem covers_notice {sender : String} {now : Int} {key : Bytes} {s : Store}
    {noticeId : JmapId}
    (hstamp : parseUTCDateValue db.scan (r.texts.mustJSON (r.texts.format now)) =
      some (wholeSeconds now)) (hkey : senderKey db r sender = .ok key)
    (hfound : ledger s noticeId = some ((notice r sender now).insert "id" (quoteId noticeId)))
    {reply : String × Int} (hsame : senderKey db r reply.1 = .ok key)
    (hle : reply.2 ≤ wholeSeconds now) :
    Covers db r s reply noticeId ((notice r sender now).insert "id" (quoteId noticeId)) key
      (wholeSeconds now) where
  found := hfound
  owner := hsame
  filed := by
    have hraw : ((notice r sender now).insert "id" (quoteId noticeId))[("sender" : String)]? =
        some (r.texts.mustJSON sender) := by
      rw [Map.getElem?_insert, if_neg (by decide), notice, Map.getElem?_insert,
        if_neg (by decide), Map.getElem?_insert, if_pos rfl]
    have hval : indexValue db.scan senderProperty (r.texts.mustJSON sender) = .ok key := hkey
    simp only [indexedValue, recordValue, Option.bind_some, hraw, hval]
    rfl
  written := by
    exact hstamp
  later := hle
  whole := wholeSeconds_idem now

theorem Account.Spaced.reply {w : Account} (h : w.Spaced db r) {sender : String} {now : Int}
    {w' : World}
    (hstamp : parseUTCDateValue db.scan (r.texts.mustJSON (r.texts.format now)) =
      some (wholeSeconds now))
    (hdelivered : Delivered db r sender now w.world.store w'.store) :
    Account.Spaced db r ⟨w', w.replies ++ [(sender, wholeSeconds now)]⟩ := by
  obtain ⟨rows, key, noticeId, hkey, hall, hold, hadded, hledger⟩ := hdelivered.notified
  have hfound : ledger w'.store noticeId =
      some ((notice r sender now).insert "id" (quoteId noticeId)) := by
    rw [hledger, Function.update_self]
  -- an earlier reply to the sender is covered by a record that `Before` found out of force
  have hearlier : ∀ reply ∈ w.replies, senderKey db r reply.1 = .ok key →
      reply.2 + vacationSuppressPeriod ≤ wholeSeconds now := by
    intro reply hreply hsame
    obtain ⟨id, rec, key', at_, hcovers⟩ := h.covered reply hreply
    cases hsame.symm.trans hcovers.owner
    obtain ⟨rec', hrec', hclear⟩ := hold id ((hall id).mpr ⟨rec, hcovers.found, hcovers.filed⟩)
    cases hcovers.found.symm.trans hrec'
    simp only [suppresses, hcovers.written, Option.any_some, decide_eq_false_iff_not] at hclear
    have hle := le_wholeSeconds hcovers.whole (show at_ + vacationSuppressPeriod ≤ now by omega)
    have := hcovers.later
    omega
  constructor
  · refine List.pairwise_append.mpr ⟨h.apart, List.pairwise_singleton _ _, ?_⟩
    intro reply hreply new hnew hsame
    obtain rfl := List.mem_singleton.mp hnew
    exact hearlier reply hreply (hsame.trans hkey)
  · intro reply hreply
    rcases List.mem_append.mp hreply with hreply | hnew
    · obtain ⟨id, rec, key', at_, hcovers⟩ := h.covered reply hreply
      by_cases hsame : key' = key
      · subst hsame
        have hle := hearlier reply hreply hcovers.owner
        exact ⟨noticeId, _, _, _, covers_notice hstamp hkey hfound hcovers.owner (by
          unfold vacationSuppressPeriod at hle
          omega)⟩
      · -- the record of another sender stays
        have hrow : id ∉ rows := by
          rw [hall]
          rintro ⟨rec', hrec', hfiled⟩
          cases hcovers.found.symm.trans hrec'
          exact hsame (Option.some.inj (hcovers.filed.symm.trans hfiled))
        have hne : id ≠ noticeId := by
          rintro rfl
          have hnone := hadded.1
          rw [show w.world.store.objs[RecKey.mk typeVacationNotified id]? = some rec from
            hcovers.found] at hnone
          cases hnone
        refine ⟨id, rec, key', at_, { hcovers with found := ?_ }⟩
        show ledger w'.store id = some rec
        rw [hledger, Function.update_of_ne hne, if_neg hrow, hcovers.found]
    · obtain rfl := List.mem_singleton.mp hnew
      exact ⟨noticeId, _, _, _, covers_notice hstamp hkey hfound hkey le_rfl⟩

theorem Move.orderedMoves {w w' : Account} (h : Move db acct r w w') :
    OrderedMoves db acct w.world w'.world := by
  cases h with
  | reply hprepared hsends hstep hkeep => exact ⟨⟨_, hstep⟩, hkeep⟩
  | other hmove hledger => exact hmove

theorem Account.Spaced.step {w w' : Account} (h : w.Spaced db r)
    (hdb : db.types[typeVacationNotified]? = some vacationNotifiedType)
    (hw : w.world.Ok) (hexact : IndexesExact db acct w.world.store) (hmove : Move db acct r w w') :
    w'.Spaced db r := by
  cases hmove with
  | reply hprepared hsends hstep hkeep =>
    apply h.reply hsends.stamp
    cases hstep with
    | commit hfresh hvalid hupdate => exact delivered_of_update hdb hw hexact hsends hupdate
  | other hmove hledger =>
    refine ⟨h.apart, fun reply hreply => ?_⟩
    obtain ⟨id, rec, key, at_, hcovers⟩ := h.covered reply hreply
    exact ⟨id, rec, key, at_, { hcovers with found := (hledger id).trans hcovers.found }⟩

/-- All three records of a reply are new, or nothing happened. -/
def Together (w w' : World) : Prop :=
  w' = w ∨ ∃ emailId submissionId noticeId, Added typeEmail emailId w.store w'.store ∧
    Added typeEmailSubmission submissionId w.store w'.store ∧
    Added typeVacationNotified noticeId w.store w'.store

/-- **Replies to one sender are a period apart**, whatever else is committed in between and
    however many deliveries compete; and a reply is committed with its Email, its submission
    and its notice, or not at all. -/
theorem vacation_replies_apart
    (hdb : db.types[typeVacationNotified]? = some vacationNotifiedType) {w0 : World}
    (hstart : Relation.ReflTransGen (OrderedMoves db acct) World.init w0) {w : Account}
    (hrun : Relation.ReflTransGen (Move db acct r) ⟨w0, []⟩ w) :
    w.replies.Pairwise (Apart db r) ∧
      ∀ {sender : String} {now : Int} {out : Outgoing} {draw : ℕ → JmapId},
        Sends db acct r out now draw w.world →
          Together w.world
            (w.world.commit db acct (replyCommit db acct r sender now out draw)) := by
  have hinv : Relation.ReflTransGen (OrderedMoves db acct) World.init w.world ∧ w.Spaced db r := by
    induction hrun with
    | refl => exact ⟨hstart, ⟨List.Pairwise.nil, by simp⟩⟩
    | tail _ hmove ih =>
      exact ⟨ih.1.tail hmove.orderedMoves,
        ih.2.step hdb (ok_of_orderedMoves ih.1) (.run ih.1) hmove⟩
  refine ⟨hinv.2.apart, fun hsends => ?_⟩
  unfold World.commit
  split
  · rename_i batch hbatch
    obtain ⟨⟨-, -, noticeId, -, -, -, hnotice, -⟩, ⟨emailId, hemail⟩, subId, hsub⟩ :=
      delivered_of_update hdb (ok_of_orderedMoves hinv.1) (.run hinv.1) hsends hbatch
    exact .inr ⟨emailId, subId, noticeId, hemail, hsub, hnotice⟩
  · exact .inl rfl

end Run

/-! ## An account that answers twice -/

def weekScanner : Scanner :=
  { lettersScanner with
    parseTime := fun s =>
      if s = "1970-01-01" then some 0
      else if s = "1970-01-08" then some vacationSuppressPeriod else none }

def weekDB : DB :=
  DB.new weekScanner
    |>.add (bareType typeEmail) (by decide +kernel)
    |>.add (bareType typeEmailSubmission) (by decide +kernel)
    |>.add (bareType typeEmailDelivery) (by decide +kernel)
    |>.add vacationNotifiedType (by decide +kernel)

def weekResponder : Responder where
  texts := {
    mustJSON := quoteId
    format := fun now => if now < vacationSuppressPeriod then "1970-01-01" else "1970-01-08" }
  store := {
    adjustCounters := fun _ _ => pure (.ok ())
    removeEmailFromThread := fun _ => pure (.ok ())
    roleMailboxId := fun _ => pure (.ok "M") }

def weekOut : Outgoing where
  assignThread := pure (.ok "T")
  emailRecord _ _ := ∅
  submission _ _ := ∅
  echo := ∅

def firstReply : Commit := replyCommit weekDB "u" weekResponder "a@b" 0 weekOut (lettersOf 'n')

def secondReply : Commit :=
  replyCommit weekDB "u" weekResponder "a@b" vacationSuppressPeriod weekOut (lettersOf 'm')

theorem weekDB_types : weekDB.types[typeVacationNotified]? = some vacationNotifiedType :=
  DB.types_add

theorem weekDB_keepsOrder (s s' : Store) : KeepsOrder weekDB s s' := by
  intro k t old new ht _ _ name p hp ob hob
  simp only [weekDB, DB.add_types, DB.new_types, Map.getElem?_insert,
    Std.ExtTreeMap.getElem?_empty] at ht
  split_ifs at ht <;> cases ht
  · simp only [vacationNotifiedType, senderProperty, Map.getElem?_insert,
      Std.ExtTreeMap.getElem?_empty] at hp
    split_ifs at hp <;> cases hp <;> cases hob
  · simp [bareType] at hp
  · simp [bareType] at hp
  · simp [bareType] at hp

/-- A delivery of the account: its check before the lease finds nothing, and its commit runs. -/
theorem week_move {now : Int} {c : Char} {w : Account} {issued : List JmapId}
    (hstamp : parseUTCDateValue weekScanner (quoteId (weekResponder.texts.format now)) =
      some (wholeSeconds now))
    (hunseen : ∀ i, lettersOf c i ∉ w.world.issued) (hissued : ∀ id ∈ w.world.issued, id ∈ issued)
    (hclear : ((preCheck weekDB "u" weekResponder "a@b" now).runAt (fun _ => w.world.store) 0).1 =
      false)
    (hruns : runsOn weekDB "u" w.world.store issued
      [replyCommit weekDB "u" weekResponder "a@b" now weekOut (lettersOf c)] = true) :
    Move weekDB "u" weekResponder w
      ⟨w.world.commit weekDB "u"
        (replyCommit weekDB "u" weekResponder "a@b" now weekOut (lettersOf c)),
        w.replies ++ [("a@b", wholeSeconds now)]⟩ := by
  have hprepared : (prepareReply weekDB "u" weekResponder "a@b" now (pure (some weekOut))).runAt
      (fun _ => w.world.store) 0 = (some weekOut,
        ((preCheck weekDB "u" weekResponder "a@b" now).runAt (fun _ => w.world.store) 0).2) := by
    simp only [prepareReply, Reads.runAt_bind, Reads.runAt_pure, hclear]
    rfl
  refine .reply hprepared ?_ (runsOn_cons hissued hruns).1 (weekDB_keepsOrder _ _)
  exact {
    injective := fun i j h => (lettersOf_inj h).2
    unseen := hunseen
    stamp := hstamp
    roleMailboxId := fun _ => .pure _
    assignThread := .pure _
    adjustCounters := fun _ _ => .pure _
    adjustsOthers := fun _ _ => .pure _ }

def weekAnswered : World := World.init.commit weekDB "u" firstReply

theorem weekAnswered_issued (i : ℕ) : lettersOf 'm' i ∉ weekAnswered.issued := by
  unfold weekAnswered World.commit
  split
  · rintro (h | ⟨j, -, h⟩)
    · exact h
    · exact absurd (lettersOf_inj h).1 (by decide)
  · exact id

theorem vacation_replies_apart_week :
    ∃ w : Account, Relation.ReflTransGen (Move weekDB "u" weekResponder) ⟨World.init, []⟩ w ∧
      w.replies = [("a@b", 0), ("a@b", vacationSuppressPeriod)] ∧
      w.replies.Pairwise (Apart weekDB weekResponder) := by
  have hruns : runsOn weekDB "u" {} [] [firstReply, secondReply] = true := by decide +kernel
  obtain ⟨-, issued, hissued, hruns'⟩ :=
    runsOn_cons (w := World.init) (fun _ h => nomatch h) hruns
  have hfirst := week_move (w := ⟨World.init, []⟩) (by decide +kernel)
    (fun _ h => nomatch h) (fun _ h => nomatch h) (by decide +kernel)
    (show runsOn weekDB "u" {} [] [firstReply] = true by decide +kernel)
  have hsecond := week_move (w := ⟨weekAnswered, [("a@b", 0)]⟩) (by decide +kernel)
    weekAnswered_issued hissued (by decide +kernel) hruns'
  have hrun := (Relation.ReflTransGen.single hfirst).tail hsecond
  exact ⟨_, hrun, by decide +kernel, (vacation_replies_apart weekDB_types .refl hrun).1⟩

end NaustJmap.Deliver
