import NaustJmap.Mdn.Send

/-!
# One Notification for One Email

RFC 8098 allows one notification for one message: the commit that queues one also marks the Email,
and it queues none if the mark is there.  Clients cannot reach the mark.  The account takes the
commits of any number of calls in any order.
-/

namespace NaustJmap.Mdn

open Library ObjectDB NaustJmap.Runtime Mail
open Submit (OpM Outgoing senderCommit_ok commitOf commitOf_ok commitOf_error typeEmailSubmission
  typeEmailDelivery)

variable {typeName : String} {id emailId : JmapId} {s : Store} {env : CommitEnv} {ids : CreatedIds}
  {call : SendCall} {raw : Raw} {patch : Option Raw}

/-! ## What a commit of a send does to the Emails -/

section Commit

variable {u u' : Update} {n n' : ℕ}

theorem putInternal_ok (hl : Leased env s u n) {obj : Object}
    (h : env.run (OpM.write (.putInternal typeName id obj)).run u n = (.ok (), u', n')) :
    Leased env s u' n' ∧
      recordsOf typeName s u' = Function.update (recordsOf typeName s u) id (some obj) := by
  obtain ⟨hl', -, hstep⟩ := hl.write h
  refine ⟨hl', ?_⟩
  generalize hstaged : u'.staged = staged at hstep
  generalize u'.createSeq = drawn at hstep
  cases hstep with
  | same hsame => exact absurd (hsame _ (List.mem_singleton.mpr rfl)) (by simp [WriteOp.target])
  | putInternal => exact Leased.recordsOf_insert hstaged

/-- A notification stores an Email, and marks one that had neither mark nor keyword. -/
structure Notifies (env : CommitEnv) (j : MailJson) (emailId : JmapId)
    (before after : JmapId → Option Object) : Prop where
  found : ∃ rec stamp, before emailId = some rec ∧ recHasIssuedMDN rec = false ∧
    recHasKeyword j rec mdnSent = false ∧
    after emailId = some (rec.insert issuedAtProperty (quoteId stamp))
  stored : ∃ i, before (env.draw i) = none ∧
    ∀ id, id ≠ emailId → id ≠ env.draw i → after id = before id

theorem mdnCommit_ok {es : EmailStore} {j : MailJson} {stamp : String} {sub : JmapId}
    {out : Outgoing} (hadjust : ∀ old new, Quiet env typeEmail (es.adjustCounters old new))
    (hrole : ∀ role, Quiet env typeEmail (es.roleMailboxId role))
    (hthread : Quiet env typeEmail out.assignThread) (hinj : Function.Injective env.draw)
    (hl : Leased env s u n)
    (h : env.run (mdnCommit es j stamp emailId out).run u n = (.ok sub, u', n')) :
    Leased env s u' n' ∧
      Notifies env j emailId (recordsOf typeEmail s u) (recordsOf typeEmail s u') := by
  obtain ⟨u1, n1, u2, n2, hbefore, hl2, hsent, hafter⟩ := senderCommit_ok hinj hl h
  -- `Before`: the record is there, unmarked
  obtain ⟨rec, u0, n0, hget, hbefore⟩ := OpM.run_bind_ok hbefore
  obtain ⟨-, hrec0, hfound⟩ := OpM.get_ok hl hget
  split at hbefore
  · cases hbefore
  rename_i hclean
  obtain ⟨-, rfl, rfl⟩ := OpM.run_pure_ok hbefore
  obtain ⟨i, -, -, hrest⟩ := hsent.email hadjust
  obtain ⟨hnone, hothers⟩ := hrest ⟨hrole, hthread, hadjust⟩
  rw [hrec0] at hnone hothers
  have hne : emailId ≠ env.draw i := by
    rintro rfl
    rw [hfound] at hnone
    cases hnone
  -- `After`: the mark
  obtain ⟨rec', u3, n3, hget', hafter⟩ := OpM.run_bind_ok hafter
  obtain ⟨hl3, hrec3, hfound'⟩ := OpM.get_ok hl2 hget'
  obtain ⟨hl', hrec'⟩ := putInternal_ok hl3 hafter
  rw [hothers emailId hne, hfound] at hfound'
  cases hfound'
  refine ⟨hl', ?_⟩
  rw [hrec', hrec3]
  simp only [Bool.or_eq_true, not_or, Bool.not_eq_true] at hclean
  refine ⟨⟨rec, stamp, hfound, hclean.1, hclean.2, Function.update_self _ _ _⟩, i, hnone,
    fun id hid1 hid2 => ?_⟩
  rw [Function.update_of_ne hid1, hothers id hid2]

end Commit

/-! ## What a call writes -/

def emails (s : Store) (id : JmapId) : Option Object := s.objs[RecKey.mk typeEmail id]?

/-! ## The account -/

/-- The commits of `MDN/send` and `Email/set` keep to the Email records of their own. -/
structure SendConfig.Quiet (env : CommitEnv) (cfg : SendConfig) : Prop where
  email : cfg.email.Quiet env
  threads : ∀ identity emailId raw headers n out m,
    (cfg.compose identity emailId raw headers).runAt env.schedule n = (.ok (.ok out), m) →
      Runtime.Quiet env typeEmail out.assignThread

/-- The store, the Emails a notification was committed for, and the ids Emails have had. -/
structure Account where
  store : Store
  sent : List JmapId := []
  past : JmapId → Prop

def Account.start (s : Store) : Account := { store := s, past := fun id => (emails s id).isSome }

def Account.after (w : Account) (s : Store) (sent : List JmapId) : Account where
  store := s
  sent := w.sent ++ sent
  past := fun id => w.past id ∨ (emails s id).isSome

/-- The commit has the lease from read `n` on, and draws ids that no Email has had. -/
structure Works (cfg : SendConfig) (env : CommitEnv) (w : Account) (n : ℕ) : Prop where
  quiet : cfg.Quiet env
  held : ∀ m, n ≤ m → env.schedule m = w.store
  injective : Function.Injective env.draw
  unused : ∀ drawn, FreshDraw env.draw w.store drawn
  unseen : ∀ i, ¬ w.past (env.draw i)

def sentFor : Except SetError (Object × JmapId) → List JmapId
  | .ok (_, emailId) => [emailId]
  | .error _ => []

/-- One commit; what its call read before it had the lease may be from any time. -/
inductive Step (cfg : SendConfig) (w : Account) : Account → Prop where
  /-- An entry of `MDN/send`. -/
  | send {env : CommitEnv} {call : SendCall} {raw : Raw} {patch : Option Raw}
      (hworks : Works cfg env w ((preflight env.db cfg call raw patch).runAt env.schedule 0).2) :
      Step cfg w (w.after (applyBatch (sendOne cfg env call raw patch).2 w.store)
        (sentFor (sendOne cfg env call raw patch).1))
  /-- An `Email/set` of a client, or one that a call implies. -/
  | emailSet {env : CommitEnv} {ids : CreatedIds} {a : SetArgs}
      (hworks : Works cfg env w ((prepareSet cfg.email.std a ids).runAt env.schedule 0).2) :
      Step cfg w (w.after (applyBatch (fooSetWrites env cfg.email.std a ids) w.store) [])
  /-- Any other commit: an Email it leaves is a new one or has the mark it had. -/
  | other {s : Store}
      (hkeep : ∀ id rec, emails s id = some rec → ¬ w.past id ∨
        ∃ old, emails w.store id = some old ∧ rec[issuedAtProperty]? = old[issuedAtProperty]?) :
      Step cfg w (w.after s [])

abbrev Run (cfg : SendConfig) : Account → Account → Prop := Relation.ReflTransGen (Step cfg)

/-- A notification is committed once for an Email, which stays marked. -/
structure Account.Settled (w : Account) : Prop where
  known : ∀ id, (emails w.store id).isSome → w.past id
  once : ∀ e, w.sent.count e ≤ 1
  marked : ∀ e ∈ w.sent, w.past e ∧
    ∀ rec, emails w.store e = some rec → recHasIssuedMDN rec = true

section Invariant

variable {cfg : SendConfig} {w w' : Account}

theorem quoteId_ne_null (s : String) : quoteId s ≠ "null" := by
  intro h
  have hlist : (quoteId s).toList = '"' :: (s.toList ++ ['"']) := by simp [quoteId]
  rw [h] at hlist
  exact absurd (List.cons.inj hlist).1 (by decide)

theorem recHasIssuedMDN_insert (rec : Object) (stamp : String) :
    recHasIssuedMDN (rec.insert issuedAtProperty (quoteId stamp)) = true := by
  simp [recHasIssuedMDN, quoteId_ne_null]

theorem recHasIssuedMDN_congr {rec rec' : Object}
    (h : rec[issuedAtProperty]? = rec'[issuedAtProperty]?) :
    recHasIssuedMDN rec = recHasIssuedMDN rec' := by
  rw [recHasIssuedMDN, recHasIssuedMDN, h]

theorem Account.Settled.after_nil (h : w.Settled)
    (hmarked : ∀ e ∈ w.sent, ∀ rec, emails s e = some rec → recHasIssuedMDN rec = true) :
    (w.after s []).Settled where
  known := fun _ hid => .inr hid
  once := fun e => by
    rw [Account.after, List.append_nil]
    exact h.once e
  marked := fun e he => by
    rw [Account.after, List.append_nil] at he
    exact ⟨.inl (h.marked e he).1, hmarked e he⟩

theorem Account.Settled.after_send (h : w.Settled) {j : MailJson}
    (hunseen : ∀ i, ¬ w.past (env.draw i))
    (hnotifies : Notifies env j emailId (emails w.store) (emails s)) :
    (w.after s [emailId]).Settled := by
  obtain ⟨rec, stamp, hrec, hclean, -, hafter⟩ := hnotifies.found
  obtain ⟨i, -, hothers⟩ := hnotifies.stored
  have hnew : emailId ∉ w.sent := by
    intro he
    rw [(h.marked emailId he).2 rec hrec] at hclean
    cases hclean
  refine ⟨fun _ hid => .inr hid, fun e => ?_, fun e he => ?_⟩
  · rw [Account.after, List.count_append]
    have hold := h.once e
    by_cases heq : e = emailId
    · subst heq
      rw [List.count_eq_zero_of_not_mem hnew, List.count_singleton_self]
    · rw [List.count_eq_zero_of_not_mem (l := [emailId]) (by simpa using heq)]
      exact hold
  · rcases List.mem_append.mp he with he | he
    · obtain ⟨hpast, hmarked⟩ := h.marked e he
      have hne : e ≠ emailId := fun heq => hnew (heq ▸ he)
      have hne' : e ≠ env.draw i := fun heq => hunseen i (heq ▸ hpast)
      refine ⟨.inl hpast, fun rec' hrec' => hmarked rec' ?_⟩
      rw [← hothers e hne hne']
      exact hrec'
    · obtain rfl := List.mem_singleton.mp he
      refine ⟨.inl (h.known e (by rw [hrec]; rfl)), fun rec' hrec' => ?_⟩
      cases hafter.symm.trans hrec'
      exact recHasIssuedMDN_insert rec stamp

theorem preflight_ok {db : DB} {σ : ℕ → Store} {n m : ℕ} {out : Outgoing}
    (h : (preflight db cfg call raw patch).runAt σ n = (.ok (.ok (emailId, out)), m)) :
    patchSetsMdnSent cfg.email.json patch = true ∧
      ∃ headers k m', (cfg.compose call.identity emailId raw headers).runAt σ k =
        (.ok (.ok out), m') := by
  unfold preflight at h
  split at h
  · cases h
  rename_i entry hentry
  have hpatch : patchSetsMdnSent cfg.email.json patch = true := by
    by_contra hno
    simp only [decodeEntry] at hentry
    split at hentry
    · cases hentry
    split at hentry
    · cases hentry
    split at hentry
    · cases hentry
    split at hentry
    · cases hentry
    split at hentry
    · cases hentry
    split at hentry
    · cases hentry
    · rename_i hyes
      exact hno (by simpa using hyes)
  refine ⟨hpatch, ?_⟩
  obtain ⟨view, n1, -, h⟩ := ReadM.runAt_bind_eq_ok.mp h
  cases view with
  | none => cases h
  | some view =>
    obtain ⟨headers, n2, -, h⟩ := ReadM.runAt_bind_eq_ok.mp h
    split at h
    · cases h
    obtain ⟨rec, n3, -, h⟩ := ReadM.runAt_bind_eq_ok.mp h
    split at h
    · cases h
    obtain ⟨composed, n4, hcompose, h⟩ := ReadM.runAt_bind_eq_ok.mp h
    rw [ReadM.runAt_pure, Prod.mk.injEq, Except.ok.injEq] at h
    obtain ⟨out', rfl, heq⟩ := Except.map_eq_ok h.1
    obtain ⟨rfl, rfl⟩ := Prod.mk.inj heq
    exact ⟨headers, n3, n4, hcompose⟩

theorem sendOne_error {serr : SetError} (h : (sendOne cfg env call raw patch).1 = .error serr) :
    (sendOne cfg env call raw patch).2 = [] := by
  unfold sendOne at h ⊢
  split
  · rfl
  · rfl
  · rename_i emailId out n hpre
    rw [hpre] at h
    dsimp only at h ⊢
    split
    · rename_i e written hcommit
      have := commitOf_error (congrArg Prod.fst hcommit)
      rwa [hcommit] at this
    · rename_i hcommit
      rw [hcommit] at h
      cases h

theorem sendOne_ok
    (hworks : Works cfg env w ((preflight env.db cfg call raw patch).runAt env.schedule 0).2)
    {echo : Object} (h : (sendOne cfg env call raw patch).1 = .ok (echo, emailId)) :
    Notifies env cfg.email.json emailId (emails w.store)
      (emails (applyBatch (sendOne cfg env call raw patch).2 w.store)) := by
  unfold sendOne at h ⊢
  rcases hpre : (preflight env.db cfg call raw patch).runAt env.schedule 0 with
    ⟨e | serr | ⟨emailId', out⟩, n⟩
  · rw [hpre] at h
    cases h
  · rw [hpre] at h
    cases h
  · rw [hpre] at h hworks
    dsimp only at h hworks ⊢
    generalize hcommit : commitOf env (mdnCommit cfg.email.store cfg.email.json
      (cfg.format env.now) emailId' out) n = r at h ⊢
    obtain ⟨e | sub, written⟩ := r
    · cases h
    cases h
    obtain ⟨-, headers, k, m, hcompose⟩ := preflight_ok hpre
    obtain ⟨u, n', hrun, hobjs⟩ := commitOf_ok hcommit
    obtain ⟨hl, hnotifies⟩ := mdnCommit_ok hworks.quiet.email.adjustCounters
      hworks.quiet.email.roleMailboxId (hworks.quiet.threads _ _ _ _ _ _ _ hcompose)
      hworks.injective
      (leased_opened (fun m hm => hworks.held m (Nat.le_of_succ_le hm)) hworks.unused) hrun
    have hafter : recordsOf typeEmail w.store u = emails (applyBatch written w.store) := by
      funext id
      exact (hobjs w.store hl ⟨typeEmail, id⟩).symm
    rw [hafter] at hnotifies
    exact hnotifies

/-- `Email/set` leaves marked what it leaves, on Emails whose ids it does not draw. -/
theorem marked_foldl {a : SetArgs} (sent : JmapId → Prop)
    (hname : (cfg.email.desc.properties[issuedAtProperty]?).any (·.internal) = true)
    {ops : List DoneOp} (hdrawn : ∀ cid id obj, DoneOp.create cid id obj ∈ ops → ¬ sent id)
    {records : JmapId → Option Object} (hexplained : Explained env cfg.email.std a records ops)
    (h : ∀ e, sent e → ∀ rec, records e = some rec → recHasIssuedMDN rec = true) {e : JmapId}
    (he : sent e) {rec : Object} (hrec : ops.foldl DoneOp.apply records e = some rec) :
    recHasIssuedMDN rec = true := by
  induction ops generalizing records with
  | nil => exact h e he rec hrec
  | cons op ops ih =>
    refine ih (fun cid id obj hop => hdrawn cid id obj (List.mem_cons_of_mem _ hop)) hexplained.2
      (fun e' he' rec' hrec' => ?_) hrec
    rw [DoneOp.apply, Function.update_apply] at hrec'
    split at hrec'
    · rename_i heq
      subst heq
      cases op with
      | create cid id obj => exact absurd he' (hdrawn cid id obj List.mem_cons_self)
      | update uid id obj =>
        cases hrec'
        obtain ⟨raw, current, -, hcurrent, ids, side, u, n, u', n', haccept⟩ := hexplained.1
        obtain ⟨patch, new, -, hnew, hvalid⟩ := admitUpdate_ok haccept
        obtain ⟨members, lowered, -, -, rfl⟩ := validateKeywords_ok hvalid
        have hkept : (new.insert "keywords" (cfg.email.json.encodeBools lowered))[
            issuedAtProperty]? = current[issuedAtProperty]? := by
          rw [Map.getElem?_insert]
          exact applyPatch_internal (by decide) hname hnew
        rw [recHasIssuedMDN_congr hkept]
        exact h id he' current hcurrent
      | destroy did id => cases hrec'
    · exact h e' he' rec' hrec'

theorem fooSetWrites_of_error {st : StdType} {a : SetArgs} {e : MethodErr}
    (h : (fooSet env st a ids).1 = .error e) : fooSetWrites env st a ids = [] := by
  unfold fooSet at h
  unfold fooSetWrites
  split
  · rfl
  rename_i hsize
  rw [if_neg hsize] at h
  split
  · rfl
  rename_i prepared n hprepared
  rw [hprepared] at h
  dsimp only at h
  unfold CallM.writes
  unfold CallM.update at h
  split
  · rfl
  rename_i hacquired
  rw [hacquired] at h
  split
  · rfl
  rename_i c u n' hexec
  rw [hexec] at h
  dsimp only at h
  unfold commitUpdate at h
  split
  · rfl
  rename_i hstaged
  rw [if_neg hstaged] at h
  split
  · rename_i batch hbatch hwritten
    rw [hbatch, hwritten] at h
    cases h
  · rfl

theorem Account.Settled.step (h : w.Settled)
    (hname : (cfg.email.desc.properties[issuedAtProperty]?).any (·.internal) = true)
    (hstep : Step cfg w w') : w'.Settled := by
  cases hstep with
  | @send env call raw patch hworks =>
    cases hr : (sendOne cfg env call raw patch).1 with
    | error serr =>
      rw [sendOne_error hr]
      exact h.after_nil fun e he => (h.marked e he).2
    | ok sent =>
      exact h.after_send hworks.unseen (sendOne_ok hworks hr)
  | @emailSet env ids a hworks =>
    refine h.after_nil fun e he rec hrec => ?_
    cases hr : (fooSet env cfg.email.std a ids).1 with
    | error err =>
      rw [fooSetWrites_of_error hr] at hrec
      exact (h.marked e he).2 rec hrec
    | ok resp =>
      obtain ⟨call⟩ := fooSet_turns hworks.quiet.email.hooks hworks.held hworks.injective
        hworks.unused hr
      have hname' : cfg.email.std.desc.name = typeEmail := hworks.quiet.email.name
      have hcommitted := call.committed e
      have hexplained := call.explained
      rw [hname'] at hcommitted hexplained
      rw [emails, hcommitted] at hrec
      refine marked_foldl (· ∈ w.sent) hname (fun cid id obj hop hid => ?_) hexplained
        (fun e he => (h.marked e he).2) he hrec
      -- only the create phase creates, and it draws its ids
      have hmade : .create cid id obj ∈ call.made := by
        simp only [List.mem_append, List.mem_filterMap] at hop
        rcases hop with (hop | ⟨⟨x, o⟩, hx, ho⟩) | ⟨⟨x, o⟩, hx, ho⟩
        · exact hop
        · subst ho
          obtain ⟨⟨_, _, heq⟩, -⟩ := call.updateTurns.named x _ hx
          cases heq
        · subst ho
          obtain ⟨⟨_, heq⟩, -⟩ := call.destroyTurns.named x _ hx
          cases heq
      obtain ⟨_, _, _, i, heq, hdraw, -⟩ := call.creates.made _ hmade
      cases heq
      exact hworks.unseen i (hdraw ▸ (h.marked id hid).1)
  | other hkeep =>
    refine h.after_nil fun e he rec hrec => ?_
    obtain ⟨hpast, hmarked⟩ := h.marked e he
    rcases hkeep e rec hrec with hnew | ⟨old, hold, heq⟩
    · exact absurd hpast hnew
    · rw [recHasIssuedMDN_congr heq]
      exact hmarked old hold

theorem Account.settled_start (s : Store) : (Account.start s).Settled where
  known := fun _ hid => hid
  once := fun e => by simp [Account.start]
  marked := fun e he => by simp [Account.start] at he

end Invariant

/-! ## An account with one Email -/

def letterType : TypeDesc := (emailType emailInternalProperties).get (by decide +kernel)

def bareType (name : String) : TypeDesc :=
  { name := name, capability := capabilityURI, properties := ∅ }

def lettersDB : DB :=
  DB.new lettersScanner
    |>.add letterType (by decide +kernel)
    |>.add (bareType typeEmailSubmission) (by decide +kernel)
    |>.add (bareType typeEmailDelivery) (by decide +kernel)
    |>.add (bareType typeMailbox) (by decide +kernel)

def letter (mailbox : JmapId) : Object :=
  ((∅ : Object).insert "keywords" (letterEncode ∅)).insert "mailboxIds"
    (letterEncode ((∅ : Map String Bool).insert mailbox true))

def letterStore : Store where
  objs := ((∅ : Map RecKey Object).insert ⟨typeEmail, "E"⟩
    ((letter "M").insert "id" "\"E\"")).insert
    ⟨typeMailbox, "M"⟩ ((∅ : Object).insert "id" "\"M\"")

/-- Ids that are drawn one after another: `n`, `nn`, `nnn` and so on. -/
def lettersOf (c : Char) (i : ℕ) : JmapId := String.ofList (List.replicate (i + 1) c)

def letterEnv (s : Store) (c : Char) : CommitEnv where
  db := lettersDB
  acct := "u"
  schedule _ := s
  draw := lettersOf c
  now := 0

def letterEmail (objects : List (Raw × Object)) : EmailConfig where
  desc := letterType
  json := letterJson objects
  store := {
    adjustCounters := fun _ _ => pure (.ok ())
    removeEmailFromThread := fun _ => pure (.ok ())
    roleMailboxId := fun _ => pure (.ok "M") }
  maxMailboxesPerEmail := none
  maxObjectsInSet := 10
  blobExists _ := pure (.ok true)
  prepareCreate _ _ _ := pure (.error internalError)

def letterOut : Outgoing where
  assignThread := pure (.ok "T")
  emailRecord _ mailbox := letter mailbox
  submission _ _ := ∅
  echo := ∅

def letterSend : SendConfig where
  email := letterEmail [("mdn", (∅ : Object).insert "forEmailId" "\"E\""),
    ("patch", (∅ : Object).insert "keywords/$mdnsent" "true")]
  maxObjectsInSet := 10
  decode _ := .ok { forEmailId := "E", hasDisposition := true }
  readHeaders _ := pure []
  compose _ _ _ _ := pure (.ok letterOut)
  format _ := "1970-01-01T00:00:00Z"

theorem lettersOf_toList (c : Char) (i : ℕ) :
    (lettersOf c i).toList = List.replicate (i + 1) c := String.toList_ofList

theorem lettersOf_inj {c d : Char} {i j : ℕ} (h : lettersOf c i = lettersOf d j) :
    c = d ∧ i = j := by
  have hlist := (lettersOf_toList c i).symm.trans ((congrArg _ h).trans (lettersOf_toList d j))
  have hlen : i = j := by simpa using congrArg List.length hlist
  subst hlen
  exact ⟨(List.cons.inj hlist).1, rfl⟩

/-- No id of the store starts with the letter. -/
def lacks (s : Store) (c : Char) : Bool := s.objs.keys.all fun k => k.id.toList.head? ≠ some c

theorem unused_of_lacks {c : Char} (h : lacks s c = true) (i : ℕ) (T : String) :
    s.objs[RecKey.mk T (lettersOf c i)]? = none := by
  refine Std.ExtTreeMap.getElem?_eq_none fun hmem => ?_
  have hhead := List.all_eq_true.mp h _ (Std.ExtTreeMap.mem_keys.mpr hmem)
  rw [decide_eq_true_iff, lettersOf_toList] at hhead
  exact hhead rfl

theorem unseen_of_lacks {c : Char} (h : lacks s c = true) (i : ℕ) :
    ¬ (emails s (lettersOf c i)).isSome := by
  rw [emails, unused_of_lacks h]
  exact Bool.false_ne_true

theorem letterEnv_works {cfg : SendConfig} {w : Account} {c : Char}
    (hquiet : cfg.Quiet (letterEnv w.store c)) (h : lacks w.store c = true)
    (hpast : ∀ i, ¬ w.past (lettersOf c i)) (n : ℕ) : Works cfg (letterEnv w.store c) w n where
  quiet := hquiet
  held := fun _ _ => rfl
  injective := fun _ _ h => (lettersOf_inj h).2
  unused := fun _ i _ T => unused_of_lacks h i T
  unseen := hpast

theorem letterSend_quiet (env : CommitEnv) : letterSend.Quiet env where
  email := {
    name := by decide +kernel
    adjustCounters := fun _ _ => .pure _
    removeEmailFromThread := fun _ => .pure _
    roleMailboxId := fun _ => .pure _
    blobExists := fun _ => .pure _
    prepareCreate := fun _ _ _ _ _ _ h => nomatch h }
  threads _ _ _ _ _ out _ h := by
    cases h
    exact .pure _

end NaustJmap.Mdn
