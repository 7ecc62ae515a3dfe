import NaustJmap.Runtime.Patch
import NaustJmap.Submit.Window

/-!
# Held Submissions

`submissionCreate.applyHold` turns the `HOLDFOR` or `HOLDUNTIL` of an envelope (RFC 4865) into the
record's sendAt and nextAttemptAt.  The release time is stored without a fraction of a second:
`hold_kept_iff` says for which creations no transmission starts before the time asked for.
-/

namespace NaustJmap.Submit

open Library ObjectDB
open Lease (Token)
open NaustJmap.Runtime (SetError SetErrorType)

/-! ## The create -/

structure Limits where
  maxRecipients : ℕ
  maxMessageBytes : ℕ
  maxDelayedSend : Int

def invalidProp (name description : String) : SetError :=
  { type := .invalidProperties, properties := [name], description := description }

/-- `strconv.ParseInt` in base 10 with 64 bits. -/
def parseInt64 (s : String) : Option Int :=
  let (negative, digits) :=
    match s.toList with
    | '-' :: rest => (true, rest)
    | '+' :: rest => (false, rest)
    | chars => (false, chars)
  if digits = [] || !digits.all Char.isDigit then none
  else
    let n : ℕ := digits.foldl (fun acc c => acc * 10 + (c.toNat - '0'.toNat)) 0
    if negative then (if n ≤ 2 ^ 63 then some (-n) else none)
    else if n < 2 ^ 63 then some n else none

/-- `Time.Sub` stops at the ends of the range of a duration. -/
def subTime (t u : Int) : Int := max (-2 ^ 63) (min (2 ^ 63 - 1) (t - u))

/-- `strings.EqualFold` against an upper-case ASCII keyword without K and S. -/
def isKeyword (name keyword : String) : Bool := name.toUpper == keyword

/-- `submissionCreate.applyHold`, in nanoseconds; `parseDate` is `time.Parse`. -/
def applyHold (limits : Limits) (parseDate : String → Option Int) (mailFrom : SubAddress)
    (now : Int) : Except SetError (Int × Bool × SubAddress) :=
  match mailFrom.parameters.keys.filter
      (fun name => isKeyword name "HOLDFOR" || isKeyword name "HOLDUNTIL") with
  | [] => .ok (now, false, mailFrom)
  | key :: more =>
    if more ≠ [] then
      .error (invalidProp "envelope" "more than one FUTURERELEASE hold parameter")
    else if limits.maxDelayedSend ≤ 0 then
      .error (invalidProp "envelope" "delayed send is not supported")
    else
      let stripped := { mailFrom with parameters := mailFrom.parameters.erase key }
      match mailFrom.parameters[key]?.join with
      | none => .error (invalidProp "envelope" (key ++ " requires a value"))
      | some val =>
        if isKeyword key "HOLDFOR" then
          match parseInt64 val with
          | none => .error (invalidProp "envelope" "HOLDFOR is not a valid interval")
          | some secs =>
            if secs < 1 ∨ 999999999 < secs then
              .error (invalidProp "envelope" "HOLDFOR is not a valid interval")
            else if limits.maxDelayedSend < secs then
              .error (invalidProp "envelope" ("HOLDFOR exceeds maxDelayedSend (" ++
                toString limits.maxDelayedSend ++ " seconds)"))
            else .ok (now + secs * 1000000000, true, stripped)
        else
          match parseDate val with
          | none => .error (invalidProp "envelope" "HOLDUNTIL is not a valid date-time")
          | some t =>
            if wrapDuration (limits.maxDelayedSend * 1000000000) < subTime t now then
              .error (invalidProp "envelope" ("HOLDUNTIL exceeds maxDelayedSend (" ++
                toString limits.maxDelayedSend ++ " seconds)"))
            -- a time already past just releases immediately
            else .ok (t, true, stripped)

/-- What `submissionCreate` asks of its surroundings. -/
structure Gates where
  limits : Limits
  /-- `time.Parse` at `time.RFC3339`. -/
  parseDate : String → Option Int
  /-- `addr.Split` finds an address. -/
  isAddress : String → Bool
  /-- The policy gates: CanSendAs, the Identity's From, CanSend. -/
  refuse : SubEnvelope → Option SetError

/-- The create, with its references resolved, its message parsed and its envelope decoded. -/
structure CreateRequest where
  env : SubEnvelope
  blobId : JmapId
  messageId : Option String
  size : ℕ

def checkRecipients (g : Gates) (env : SubEnvelope) : Option SetError :=
  let invalid := (env.rcptTo.map (·.email)).filter fun email => !g.isAddress email
  if env.rcptTo = [] then
    some { type := .extension "noRecipients", description := "the envelope has no recipients" }
  else if 0 < g.limits.maxRecipients ∧ g.limits.maxRecipients < env.rcptTo.length then
    some { type := .extension "tooManyRecipients"
           description := "too many envelope recipients" }
  else if invalid ≠ [] then
    some { type := .extension "invalidRecipients"
           description := "some recipients are not valid email addresses" }
  else none

/-- `preparedSubmission`, before its dates are formatted. -/
structure Prepared where
  env : SubEnvelope
  sendAt : Int
  blobId : JmapId
  messageId : Option String

/-- `submissionCreate.prepare` from the envelope on, at the clock reading `now`. -/
def prepare (g : Gates) (req : CreateRequest) (now : Int) : Except SetError Prepared :=
  match req.env.mailFrom with
  | none => .error (invalidProp "envelope" "mailFrom is required")
  | some mailFrom =>
    match checkRecipients g req.env with
    | some e => .error e
    | none =>
      if 0 < g.limits.maxMessageBytes ∧ g.limits.maxMessageBytes < req.size then
        .error { type := .tooLarge, description := "message exceeds the maximum sendable size" }
      else
        match g.refuse req.env with
        | some e => .error e
        | none =>
          match applyHold g.limits g.parseDate mailFrom now with
          | .error e => .error e
          | .ok (sendAt, _, mailFrom) =>
            .ok { env := { req.env with mailFrom := some mailFrom }
                  sendAt := sendAt
                  blobId := req.blobId
                  messageId := req.messageId }

/-- The times whose UTC date has a year of four digits. -/
def storable (t : Int) : Bool :=
  decide (-62167219200000000000 ≤ t) && decide (t < 253402300800000000000)

/-- The time a create asks to be held until, read off its parameters. -/
inductive Asks (g : Gates) (req : CreateRequest) (now : Int) : Int → Prop where
  | holdFor {mailFrom : SubAddress} {name val : String} {secs : Int}
      (hfrom : req.env.mailFrom = some mailFrom) (hname : isKeyword name "HOLDFOR" = true)
      (hval : mailFrom.parameters[name]? = some (some val)) (hsecs : parseInt64 val = some secs) :
      Asks g req now (now + secs * 1000000000)
  | holdUntil {mailFrom : SubAddress} {name val : String} {t : Int}
      (hfrom : req.env.mailFrom = some mailFrom) (hname : isKeyword name "HOLDUNTIL" = true)
      (hval : mailFrom.parameters[name]? = some (some val)) (ht : g.parseDate val = some t) :
      Asks g req now t

variable {fold : Folding} {q q' : QueueAccount} {clock now : Int} {id : JmapId} {sub : Submission}
  {req : CreateRequest}

section

variable {g : Gates} {T : Int} {p : Prepared}

theorem prepare_ok (h : prepare g req now = .ok p) :
    ∃ (mailFrom mailFrom' : SubAddress) (stripped : Bool), req.env.mailFrom = some mailFrom ∧
      req.env.rcptTo ≠ [] ∧
      applyHold g.limits g.parseDate mailFrom now = .ok (p.sendAt, stripped, mailFrom') ∧
      p.env = { req.env with mailFrom := some mailFrom' } := by
  unfold prepare at h
  cases hfrom : req.env.mailFrom with
  | none => simp [hfrom] at h
  | some mailFrom =>
    simp only [hfrom] at h
    cases hrcpts : checkRecipients g req.env with
    | some e => simp [hrcpts] at h
    | none =>
      simp only [hrcpts] at h
      split at h
      · cases h
      · cases hrefuse : g.refuse req.env with
        | some e => simp [hrefuse] at h
        | none =>
          simp only [hrefuse] at h
          cases hhold : applyHold g.limits g.parseDate mailFrom now with
          | error e => simp [hhold] at h
          | ok out =>
            obtain ⟨sendAt, stripped, mailFrom'⟩ := out
            simp only [hhold, Except.ok.injEq] at h
            subst h
            refine ⟨mailFrom, mailFrom', stripped, rfl, fun hnil => ?_, hhold, rfl⟩
            simp [checkRecipients, hnil] at hrcpts

theorem applyHold_unique {limits : Limits} {parseDate : String → Option Int}
    {mailFrom : SubAddress} {name : String} {val : Option String} {out : Int × Bool × SubAddress}
    (h : applyHold limits parseDate mailFrom now = .ok out)
    (hval : mailFrom.parameters[name]? = some val)
    (hkey : (isKeyword name "HOLDFOR" || isKeyword name "HOLDUNTIL") = true) :
    mailFrom.parameters.keys.filter
      (fun name => isKeyword name "HOLDFOR" || isKeyword name "HOLDUNTIL") = [name] := by
  have hmem : name ∈ mailFrom.parameters.keys.filter
      (fun name => isKeyword name "HOLDFOR" || isKeyword name "HOLDUNTIL") :=
    List.mem_filter.mpr ⟨(Map.mem_keys_iff _ _).mpr ⟨val, hval⟩, hkey⟩
  unfold applyHold at h
  cases hkeys : mailFrom.parameters.keys.filter
      (fun name => isKeyword name "HOLDFOR" || isKeyword name "HOLDUNTIL") with
  | nil =>
    rw [hkeys] at hmem
    cases hmem
  | cons key more =>
    rw [hkeys] at hmem
    simp only [hkeys] at h
    split at h
    · cases h
    · next hmore =>
      obtain rfl := not_ne_iff.mp hmore
      rw [List.mem_singleton.mp hmem]

theorem sendAt_of_asks (h : prepare g req now = .ok p) (hasks : Asks g req now T) :
    p.sendAt = T := by
  obtain ⟨mailFrom, mailFrom', stripped, hfrom, -, hhold, -⟩ := prepare_ok h
  cases hasks with
  | @holdFor from' name val secs hfrom' hname hval hsecs =>
    cases hfrom.symm.trans hfrom'
    have hkeys := applyHold_unique hhold hval (by simp [hname])
    unfold applyHold at hhold
    simp only [hkeys, hval, hname, hsecs, Option.join_some, ne_eq, not_true_eq_false, if_false,
      if_true] at hhold
    split at hhold
    · cases hhold
    · split at hhold
      · cases hhold
      · split at hhold
        · cases hhold
        · simp only [Except.ok.injEq, Prod.mk.injEq] at hhold
          exact hhold.1.symm
  | @holdUntil from' name val t hfrom' hname hval ht =>
    cases hfrom.symm.trans hfrom'
    have hkeys := applyHold_unique hhold hval (by simp [hname])
    -- the two keywords differ, so this is the branch of the other one
    have hother : isKeyword name "HOLDFOR" = false := by
      simp only [isKeyword, beq_iff_eq, beq_eq_false_iff_ne] at hname ⊢
      rw [hname]
      decide
    unfold applyHold at hhold
    simp only [hkeys, hval, hother, ht, Option.join_some, ne_eq, not_true_eq_false, if_false,
      Bool.false_eq_true] at hhold
    split at hhold
    · cases hhold
    · split at hhold
      · cases hhold
      · simp only [Except.ok.injEq, Prod.mk.injEq] at hhold
        exact hhold.1.symm

end

/-! ## The queue under one clock -/

/-- An account's queue at an instant of the clock that all its processes read. -/
structure Timed where
  clock : Int
  queue : QueueAccount := {}
  /-- The ids given to submissions so far. -/
  ids : List JmapId := []
  /-- The creates that are prepared, with the reading each was prepared at. -/
  prepared : List (CreateRequest × Int × Prepared) := []
  /-- What the workers' scans returned. -/
  due : List JmapId := []
  /-- The claims workers hold. -/
  claims : List (JmapId × Token) := []
  /-- The claims that passed the check before a transmission. -/
  ready : List (JmapId × Token) := []
  /-- The create a submission came from, and the instant it was created at. -/
  created : Map JmapId (CreateRequest × Int) := ∅
  /-- The transmissions, with the instant each started at. -/
  started : List (JmapId × Int) := []

/-- `IdsWhereAtMost` over nextAttemptAt: the records due at the reading `now`, by date and id. -/
def dueIds (a : Account) (now : Int) (quota : ℕ) : List JmapId :=
  let due := a.submissions.toList.filterMap fun (id, sub) =>
    sub.nextAttemptAt.bind fun t => if t ≤ wholeSeconds now then some (t, id) else none
  ((due.mergeSort fun x y => compare x.1 y.1 |>.then (compare x.2 y.2) |>.isLE).take quota).map
    Prod.snd

/-- The commits other than creates, by processes that read the clock before they commit. -/
def QueueTxn.ReadBy (clock : Int) : QueueTxn → Prop
  | .create .. | .send .. => False
  | .claim _ _ now _ => now ≤ clock
  | .finalize _ _ _ now _ _ => now ≤ clock
  | _ => True

/-- One step of the clock, a client or a worker; `P` bounds the creates. -/
inductive Timed.Step (g : Gates) (fold : Folding) (P : CreateRequest → Int → Prop) (s : Timed) :
    Timed → Prop where
  | tick (t : Int) (h : s.clock ≤ t) : Timed.Step g fold P s { s with clock := t }
  | prepare {req : CreateRequest} {p : Prepared} (hreq : P req s.clock)
      (h : prepare g req s.clock = .ok p) :
      Timed.Step g fold P s { s with prepared := (req, s.clock, p) :: s.prepared }
  /-- `submissionCreate.commit`. -/
  | commit {req : CreateRequest} {now : Int} {p : Prepared} {q : QueueAccount} (id : JmapId)
      (hp : (req, now, p) ∈ s.prepared) (hnew : id ∉ s.ids) (hdate : storable p.sendAt = true)
      (h : (QueueTxn.create id p.env p.sendAt p.blobId p.messageId).commit fold s.queue = some q) :
      Timed.Step g fold P s { s with
        queue := q, ids := id :: s.ids, created := s.created.insert id (req, now) }
  /-- `Sender.commit`: a message without a hold. -/
  | send {env : SubEnvelope} {now : Int} {blobId : JmapId} {messageId : Option String}
      {q : QueueAccount} (id : JmapId) (hnew : id ∉ s.ids)
      (h : (QueueTxn.send id env now blobId messageId).commit fold s.queue = some q) :
      Timed.Step g fold P s { s with queue := q, ids := id :: s.ids }
  /-- The scan of `Worker.processAccount`. -/
  | scan (quota : ℕ) :
      Timed.Step g fold P s { s with due := s.due ++ dueIds s.queue.account s.clock quota }
  /-- `Worker.claim` of a record the scan found. -/
  | claim {cfg : WorkerConfig} {id : JmapId} {now : Int} {stamp : Token} {q : QueueAccount}
      (hdue : id ∈ s.due) (hread : now ≤ s.clock)
      (h : (QueueTxn.claim cfg id now stamp).commit fold s.queue = some q) :
      Timed.Step g fold P s { s with queue := q, claims := (id, stamp) :: s.claims }
  /-- The check of `Worker.sendOne`, with a recipient left to try. -/
  | check {id : JmapId} {stamp : Token} {sub : Submission} {env : SubEnvelope}
      (hclaim : (id, stamp) ∈ s.claims) (h : checkTxn id stamp s.queue.account = some (sub, env))
      (hrcpts : queuedRecipients sub env ≠ []) :
      Timed.Step g fold P s { s with ready := (id, stamp) :: s.ready }
  | transmit {id : JmapId} {stamp : Token} (hready : (id, stamp) ∈ s.ready) :
      Timed.Step g fold P s { s with started := (id, s.clock) :: s.started }
  /-- Any other commit, a claim that is reported as failed among them. -/
  | txn (txn : QueueTxn) (hread : txn.ReadBy s.clock) {q : QueueAccount}
      (h : txn.commit fold s.queue = some q) : Timed.Step g fold P s { s with queue := q }

def Timed.Reaches (g : Gates) (fold : Folding) (P : CreateRequest → Int → Prop) (s : Timed) :
    Prop :=
  ∃ clock : Int, Relation.ReflTransGen (Timed.Step g fold P) { clock := clock } s

/-- No transmission of a submission starts before the time its create asks for. -/
def Timed.HoldsKept (g : Gates) (s : Timed) : Prop :=
  ∀ (id : JmapId) (req : CreateRequest) (now T : Int), s.created[id]? = some (req, now) →
    Asks g req now T → ∀ t, (id, t) ∈ s.started → T ≤ t

/-! ## Records that nobody may send yet -/

/-- The record, if it is there, is unclaimed and not due before `T`. -/
def Account.Unsent (a : Account) (id : JmapId) (T : Int) : Prop :=
  ∀ sub, a.submissions[id]? = some sub →
    sub.claimedAt = none ∧ ∀ due, sub.nextAttemptAt = some due → T ≤ due

theorem Account.Unsent.put {a a' : Account} {id id' : JmapId} {T : Int} (h : a.Unsent id T)
    (ha : a'.submissions = a.submissions.insert id' sub)
    (hsub : id' = id → sub.claimedAt = none ∧ ∀ due, sub.nextAttemptAt = some due → T ≤ due) :
    a'.Unsent id T := by
  intro sub' hget
  rw [ha, Map.getElem?_insert] at hget
  split at hget
  · next heq =>
    cases hget
    exact hsub heq
  · exact h sub' hget

/-- What a commit does to the record it is about. -/
inductive Touched (clock : Int) (sub sub' : Submission) : Prop where
  | claimed {due : Int} (hdue : sub.nextAttemptAt = some due) (hle : due ≤ clock)
  | finalized (h : sub.claimedAt ≠ none)
  | kept (hclaim : sub'.claimedAt = sub.claimedAt)
      (hnext : sub'.nextAttemptAt = sub.nextAttemptAt ∨ sub'.nextAttemptAt = none)

/-- The commits other than creates: a record is touched, destroyed, or none is concerned. -/
theorem QueueTxn.commit_cases {txn : QueueTxn} (hread : txn.ReadBy clock)
    (h : txn.commit fold q = some q') :
    q'.account.submissions = q.account.submissions ∨
      (∃ id, q'.account.submissions = q.account.submissions.erase id) ∨
      ∃ id sub sub', q.account.submissions[id]? = some sub ∧
        q'.account.submissions = q.account.submissions.insert id sub' ∧
        Touched clock sub sub' := by
  cases txn with
  | create | send => cases hread
  | claim cfg id now stamp =>
    obtain ⟨a, htxn, rfl⟩ := Option.map_eq_some_iff.mp h
    obtain ⟨sub, due, hsub, hdue, hle⟩ := claimTxn_due htxn
    obtain ⟨sub', -, hsub', -, rfl⟩ := claimTxn_eq (A := ⟨cfg, fold⟩) htxn
    have hnow : now ≤ clock := hread
    exact .inr (.inr ⟨id, sub, _, hsub, rfl, .claimed hdue (by omega)⟩)
  | finalize cfg id stamp now jitter results =>
    obtain ⟨a, htxn, rfl⟩ := Option.map_eq_some_iff.mp h
    obtain ⟨sub, hsub, hclaimed, rfl⟩ := finalizeTxn_eq (A := ⟨cfg, fold⟩) htxn
    exact .inr (.inr ⟨id, sub, _, hsub, rfl, .finalized (by simp [hclaimed])⟩)
  | undo id newStatus =>
    obtain ⟨a, htxn, rfl⟩ := Option.map_eq_some_iff.mp h
    obtain ⟨sub, hsub, rfl | rfl⟩ := undoTxn_cases htxn
    · exact .inl rfl
    · exact .inr (.inr ⟨id, sub, _, hsub, rfl, .kept rfl (.inr rfl)⟩)
  | destroy id =>
    obtain ⟨a, htxn, rfl⟩ := Option.map_eq_some_iff.mp h
    exact .inr (.inl ⟨id, (destroyTxn_eq htxn).2⟩)
  | ingest rep fallback draw =>
    obtain ⟨⟨id, a⟩, htxn, rfl⟩ := Option.map_eq_some_iff.mp h
    obtain ⟨sub, rows, exact, hsub, ha⟩ := ingestTxn_eq htxn
    exact .inr (.inr ⟨id, sub, _, hsub, ha, .kept rfl (.inl rfl)⟩)
  | clearDrainedTag =>
    change (if _ then none else _) = some q' at h
    split at h
    · cases h
    · cases h
      exact .inl rfl
  | healTag =>
    cases h
    exact .inl rfl

theorem QueueTxn.commit_unsent {txn : QueueTxn} {T : Int} (hread : txn.ReadBy clock)
    (h : txn.commit fold q = some q') (hunsent : q.account.Unsent id T) (hearly : clock < T) :
    q'.account.Unsent id T := by
  rcases txn.commit_cases hread h with heq | ⟨id', heq⟩ | ⟨id', sub, sub', hsub, heq, htouch⟩
  · intro sub hsub
    exact hunsent sub (heq ▸ hsub)
  · intro sub hsub
    rw [heq, Map.getElem?_erase] at hsub
    split at hsub
    · cases hsub
    · exact hunsent sub hsub
  · apply hunsent.put heq
    intro hid
    subst hid
    obtain ⟨hfree, hlate⟩ := hunsent sub hsub
    cases htouch with
    | claimed hdue hle =>
      -- the claim would be of a record that is due by the clock
      have hT := hlate _ hdue
      omega
    | finalized hclaimed => exact absurd hfree hclaimed
    | kept hclaim hnext =>
      refine ⟨hclaim.trans hfree, fun due hdue => ?_⟩
      rcases hnext with hnext | hnext
      · exact hlate due (hnext ▸ hdue)
      · rw [hnext] at hdue
        cases hdue

theorem QueueTxn.commit_ids {txn : QueueTxn} (hread : txn.ReadBy clock)
    (h : txn.commit fold q = some q') (hid : id ∈ q'.account.submissions) :
    id ∈ q.account.submissions := by
  rcases txn.commit_cases hread h with heq | ⟨id', heq⟩ | ⟨id', sub, sub', hsub, heq, -⟩
  · exact heq ▸ hid
  · rw [heq, Map.mem_erase_iff] at hid
    exact hid.1
  · rw [heq, Map.mem_insert_iff] at hid
    rcases hid with hid | rfl
    · exact hid
    · exact Map.mem_of_getElem? hsub

theorem enqueue_eq (h : enqueue id sub q = some q') :
    q'.account.submissions = q.account.submissions.insert id sub := by
  unfold enqueue at h
  split at h
  · cases h
  · cases h
    rfl

theorem wholeSeconds_eq_self {t : Int} (h : t % 1000000000 = 0) : wholeSeconds t = t := by
  unfold wholeSeconds
  omega

/-! ## Runs -/

/-- Every hold that is honoured ends on a full second, or is over at its creation. -/
def WholeHolds (g : Gates) (P : CreateRequest → Int → Prop) : Prop :=
  ∀ (req : CreateRequest) (now : Int) (p : Prepared) (T : Int), P req now →
    prepare g req now = .ok p → storable p.sendAt = true → Asks g req now T →
    T % 1000000000 = 0 ∨ T ≤ now

/-- Before `T` nobody has taken the submission up, and no transmission of it started. -/
structure Timed.Held (s : Timed) (id : JmapId) (T : Int) : Prop where
  unsent : s.clock < T → s.queue.account.Unsent id T
  unclaimed : s.clock < T → ∀ stamp, (id, stamp) ∉ s.claims
  unready : s.clock < T → ∀ stamp, (id, stamp) ∉ s.ready
  started : ∀ t, (id, t) ∈ s.started → T ≤ t

/-- The invariant of the runs whose holds are whole. -/
structure Timed.Inv (g : Gates) (s : Timed) : Prop where
  created_ids : ∀ id, id ∈ s.created → id ∈ s.ids
  claims_ids : ∀ id stamp, (id, stamp) ∈ s.claims → id ∈ s.ids
  ready_ids : ∀ id stamp, (id, stamp) ∈ s.ready → id ∈ s.ids
  started_ids : ∀ id t, (id, t) ∈ s.started → id ∈ s.ids
  recorded_ids : ∀ id, id ∈ s.queue.account.submissions → id ∈ s.ids
  prepared : ∀ req now p, (req, now, p) ∈ s.prepared → storable p.sendAt = true →
    ∀ T, Asks g req now T → p.sendAt = T ∧ (T % 1000000000 = 0 ∨ T ≤ s.clock)
  held : ∀ id req now T, s.created[id]? = some (req, now) → Asks g req now T → s.Held id T

section

variable {g : Gates} {P : CreateRequest → Int → Prop} {s s' : Timed} {T : Int}

theorem Timed.Held.txn {txn : QueueTxn} (h : s.Held id T) (hread : txn.ReadBy s.clock)
    (hc : txn.commit fold s.queue = some q) : Timed.Held { s with queue := q } id T where
  unsent hearly := txn.commit_unsent hread hc (h.unsent hearly) hearly
  unclaimed := h.unclaimed
  unready := h.unready
  started := h.started

theorem Timed.Held.enqueue {id' : JmapId} (h : s.Held id T) (hne : id' ≠ id)
    (hc : Submit.enqueue id' sub s.queue = some q) : Timed.Held { s with queue := q } id T where
  unsent hearly := (h.unsent hearly).put (enqueue_eq hc) fun heq => absurd heq hne
  unclaimed := h.unclaimed
  unready := h.unready
  started := h.started

theorem Timed.Inv.held_new {p : Prepared} (h : s.Inv g) (hp : (req, now, p) ∈ s.prepared)
    (hnew : id ∉ s.ids) (hdate : storable p.sendAt = true)
    (hc : createTxn id p.env p.sendAt p.blobId p.messageId s.queue = some q)
    (hasks : Asks g req now T) : Timed.Held { s with queue := q } id T where
  unsent hearly := by
    obtain ⟨hsend, hwhole⟩ := h.prepared req now p hp hdate T hasks
    have hwhole : T % 1000000000 = 0 := hwhole.resolve_right (not_le.mpr hearly)
    intro sub hsub
    rw [enqueue_eq hc, Map.getElem?_insert, if_pos rfl] at hsub
    cases hsub
    refine ⟨rfl, fun due hdue => ?_⟩
    -- the stored date has lost nothing
    have hdue : wholeSeconds p.sendAt = due := Option.some.inj hdue
    rw [hsend, wholeSeconds_eq_self hwhole] at hdue
    exact hdue.le
  unclaimed _ stamp hmem := hnew (h.claims_ids id stamp hmem)
  unready _ stamp hmem := hnew (h.ready_ids id stamp hmem)
  started t hmem := absurd (h.started_ids id t hmem) hnew

theorem Timed.Held.tick (h : s.Held id T) {t : Int} (hle : s.clock ≤ t) :
    Timed.Held { s with clock := t } id T where
  unsent hearly := h.unsent (lt_of_le_of_lt hle hearly)
  unclaimed hearly := h.unclaimed (lt_of_le_of_lt hle hearly)
  unready hearly := h.unready (lt_of_le_of_lt hle hearly)
  started := h.started

theorem Timed.Held.claim {cfg : WorkerConfig} {id' : JmapId} {stamp : Token} (h : s.Held id T)
    (hread : now ≤ s.clock) (hc : (QueueTxn.claim cfg id' now stamp).commit fold s.queue = some q) :
    Timed.Held { s with queue := q, claims := (id', stamp) :: s.claims } id T := by
  have hread' : (QueueTxn.claim cfg id' now stamp).ReadBy s.clock := hread
  refine { h.txn hread' hc with unclaimed := fun hearly stamp' hmem => ?_ }
  rcases List.mem_cons.mp hmem with heq | hmem
  · obtain ⟨rfl, -⟩ := Prod.mk.inj heq
    obtain ⟨a, htxn, -⟩ := Option.map_eq_some_iff.mp hc
    obtain ⟨sub, due, hsub, hnext, hle⟩ := claimTxn_due htxn
    have hT := (h.unsent hearly sub hsub).2 due hnext
    have hearly : s.clock < T := hearly
    omega
  · exact h.unclaimed hearly stamp' hmem

theorem Timed.Held.check {id' : JmapId} {stamp : Token} (h : s.Held id T)
    (hclaim : (id', stamp) ∈ s.claims) :
    Timed.Held { s with ready := (id', stamp) :: s.ready } id T := by
  refine { h with unready := fun hearly stamp' hmem => ?_ }
  rcases List.mem_cons.mp hmem with heq | hmem
  · obtain ⟨rfl, -⟩ := Prod.mk.inj heq
    exact h.unclaimed hearly stamp hclaim
  · exact h.unready hearly stamp' hmem

theorem Timed.Held.transmit {id' : JmapId} {stamp : Token} (h : s.Held id T)
    (hready : (id', stamp) ∈ s.ready) :
    Timed.Held { s with started := (id', s.clock) :: s.started } id T := by
  refine { h with started := fun t hmem => ?_ }
  rcases List.mem_cons.mp hmem with heq | hmem
  · obtain ⟨rfl, rfl⟩ := Prod.mk.inj heq
    by_contra hearly
    exact h.unready (not_le.mp hearly) stamp hready
  · exact h.started t hmem

theorem Timed.Inv.enqueue {id' : JmapId} {created : Map JmapId (CreateRequest × Int)}
    (h : s.Inv g) (hc : Submit.enqueue id' sub s.queue = some q)
    (hcreated : ∀ id ∈ created, id ∈ s.created ∨ id = id')
    (hheld : ∀ id req now T, created[id]? = some (req, now) → Asks g req now T →
      Timed.Held { s with queue := q } id T) :
    Timed.Inv g { s with queue := q, ids := id' :: s.ids, created := created } where
  created_ids id hid := by
    rcases hcreated id hid with hid | rfl
    · exact List.mem_cons_of_mem _ (h.created_ids id hid)
    · exact List.mem_cons_self
  claims_ids id stamp hmem := List.mem_cons_of_mem _ (h.claims_ids id stamp hmem)
  ready_ids id stamp hmem := List.mem_cons_of_mem _ (h.ready_ids id stamp hmem)
  started_ids id t hmem := List.mem_cons_of_mem _ (h.started_ids id t hmem)
  recorded_ids id hid := by
    rw [enqueue_eq hc, Map.mem_insert_iff] at hid
    rcases hid with hid | rfl
    · exact List.mem_cons_of_mem _ (h.recorded_ids id hid)
    · exact List.mem_cons_self
  prepared := h.prepared
  held id req now T hget hasks := { hheld id req now T hget hasks with }

theorem Timed.Step.inv (hP : WholeHolds g P) (hstep : Timed.Step g fold P s s') (h : s.Inv g) :
    s'.Inv g := by
  cases hstep with
  | tick t hle =>
    refine { h with prepared := fun req now p hp hdate T hasks => ?_, held := ?_ }
    · obtain ⟨hsend, hwhole⟩ := h.prepared req now p hp hdate T hasks
      exact ⟨hsend, hwhole.imp_right fun hT => hT.trans hle⟩
    · exact fun id req now T hcreated hasks => (h.held id req now T hcreated hasks).tick hle
  | @prepare req p hreq hp =>
    refine { h with prepared := fun req' now' p' hp' hdate T hasks => ?_, held := ?_ }
    · rcases List.mem_cons.mp hp' with heq | hp'
      · obtain ⟨rfl, rfl, rfl⟩ : req' = req ∧ now' = s.clock ∧ p' = p := by simpa using heq
        exact ⟨sendAt_of_asks hp hasks, hP _ _ _ _ hreq hp hdate hasks⟩
      · exact h.prepared req' now' p' hp' hdate T hasks
    · exact fun id req now T hcreated hasks => { h.held id req now T hcreated hasks with }
  | @commit req now p q id hp hnew hdate hc =>
    apply h.enqueue hc
    · exact fun id' hid' => (Map.mem_insert_iff _ _ _ _).mp hid'
    · intro id' req' now' T hcreated hasks
      rw [Map.getElem?_insert] at hcreated
      split at hcreated
      · next heq =>
        obtain ⟨rfl, rfl⟩ := Prod.mk.inj (Option.some.inj hcreated)
        exact heq ▸ h.held_new hp hnew hdate hc hasks
      · next hne => exact (h.held id' req' now' T hcreated hasks).enqueue hne hc
  | @send env now blobId messageId q id hnew hc =>
    apply h.enqueue hc
    · exact fun id' hid' => .inl hid'
    · intro id' req' now' T hcreated hasks
      have hid' : id' ∈ s.ids :=
        h.created_ids id' (Map.mem_of_getElem? hcreated)
      apply (h.held id' req' now' T hcreated hasks).enqueue _ hc
      exact fun heq => hnew (heq ▸ hid')
  | scan quota =>
    refine { h with held := ?_ }
    exact fun id req now T hcreated hasks => { h.held id req now T hcreated hasks with }
  | @claim cfg id now stamp q hdue hread hc =>
    have hread' : (QueueTxn.claim cfg id now stamp).ReadBy s.clock := hread
    refine { h with claims_ids := ?_, recorded_ids := ?_, held := ?_ }
    · intro id' stamp' hmem
      rcases List.mem_cons.mp hmem with heq | hmem
      · obtain ⟨rfl, -⟩ := Prod.mk.inj heq
        obtain ⟨a, htxn, -⟩ := Option.map_eq_some_iff.mp hc
        obtain ⟨sub, due, hsub, -⟩ := claimTxn_due htxn
        exact h.recorded_ids id' (Map.mem_of_getElem? hsub)
      · exact h.claims_ids id' stamp' hmem
    · exact fun id' hid' => h.recorded_ids id' (QueueTxn.commit_ids hread' hc hid')
    · exact fun id' req' now' T hcreated hasks =>
        (h.held id' req' now' T hcreated hasks).claim hread hc
  | @check id stamp sub env hclaim hc hrcpts =>
    refine { h with ready_ids := ?_, held := ?_ }
    · intro id' stamp' hmem
      rcases List.mem_cons.mp hmem with heq | hmem
      · exact (Prod.mk.inj heq).1 ▸ h.claims_ids id stamp hclaim
      · exact h.ready_ids id' stamp' hmem
    · exact fun id' req' now' T hcreated hasks =>
        (h.held id' req' now' T hcreated hasks).check hclaim
  | @transmit id stamp hready =>
    refine { h with started_ids := ?_, held := ?_ }
    · intro id' t hmem
      rcases List.mem_cons.mp hmem with heq | hmem
      · exact (Prod.mk.inj heq).1 ▸ h.ready_ids id stamp hready
      · exact h.started_ids id' t hmem
    · exact fun id' req' now' T hcreated hasks =>
        (h.held id' req' now' T hcreated hasks).transmit hready
  | txn txn hread hc =>
    refine { h with recorded_ids := ?_, held := ?_ }
    · exact fun id' hid' => h.recorded_ids id' (txn.commit_ids hread hc hid')
    · exact fun id' req' now' T hcreated hasks =>
        (h.held id' req' now' T hcreated hasks).txn hread hc

theorem Timed.Reaches.inv (hP : WholeHolds g P) (h : Timed.Reaches g fold P s) : s.Inv g := by
  obtain ⟨clock, hrun⟩ := h
  induction hrun with
  | refl => constructor <;> simp
  | tail _ hstep ih => exact hstep.inv hP ih

/-! ## A hold that ends within a second -/

theorem mem_dueIds {a : Account} {due : Int} (hsub : a.submissions[id]? = some sub)
    (hdue : sub.nextAttemptAt = some due) (hle : due ≤ wholeSeconds now) :
    id ∈ dueIds a now a.submissions.toList.length := by
  set found := a.submissions.toList.filterMap fun (e : JmapId × Submission) =>
    e.2.nextAttemptAt.bind fun t => if t ≤ wholeSeconds now then some (t, e.1) else none
    with hfound
  have hmem : (due, id) ∈ found := by
    rw [List.mem_filterMap]
    exact ⟨(id, sub), (Map.mem_toList _ _ _).mpr hsub, by simp [hdue, hle]⟩
  have hroom : found.length ≤ a.submissions.toList.length := List.length_filterMap_le ..
  refine List.mem_map.mpr ⟨(due, id), ?_, rfl⟩
  rw [List.take_of_length_le (by rw [List.length_mergeSort]; exact hroom)]
  exact List.mem_mergeSort.mpr hmem

theorem queuedStatus_getElem? {rcptTo : List SubAddress} {r : SubAddress} (hr : r ∈ rcptTo) :
    (queuedStatus rcptTo)[r.email]? =
      some ⟨"250 2.0.0 message queued for delivery", "queued", "unknown"⟩ := by
  have hfold : ∀ (l : List SubAddress) (ds : Map String DeliveryStatus),
      (r ∈ l ∨ ds[r.email]? =
        some ⟨"250 2.0.0 message queued for delivery", "queued", "unknown"⟩) →
      (l.foldl (fun ds r => ds.insert r.email
        ⟨"250 2.0.0 message queued for delivery", "queued", "unknown"⟩) ds)[r.email]? =
        some ⟨"250 2.0.0 message queued for delivery", "queued", "unknown"⟩ := by
    intro l
    induction l with
    | nil => exact fun ds h => h.resolve_left (by simp)
    | cons x l ih =>
      intro ds h
      apply ih
      rw [Map.getElem?_insert]
      by_cases hx : x.email = r.email
      · exact .inr (if_pos hx)
      · rw [if_neg hx]
        exact h.imp_left fun hmem => (List.mem_cons.mp hmem).resolve_left fun heq => hx (heq ▸ rfl)
  exact hfold rcptTo ∅ (.inl hr)

theorem wholeSeconds_le (t : Int) : wholeSeconds t ≤ t := by
  unfold wholeSeconds
  omega

theorem exists_start_of_due {env : SubEnvelope} {due : Int}
    (hsub : s.queue.account.submissions[id]? = some sub) (hdue : sub.nextAttemptAt = some due)
    (hle : due ≤ wholeSeconds s.clock) (henv : sub.envelope = some env)
    (hfrom : env.mailFrom.isSome) (hrcpts : queuedRecipients sub env ≠ []) :
    ∃ s', Relation.ReflTransGen (Timed.Step g fold P) s s' ∧ s'.created = s.created ∧
      (id, s.clock) ∈ s'.started := by
  set cfg := defaultWorker.settings.toWorkerConfig
  set claimed : Submission := { sub with
    claimedAt := some ['t']
    nextAttemptAt := some (wholeSeconds (s.clock + cfg.claimWindow)) } with hclaimed
  let s1 : Timed := { s with
    due := s.due ++ dueIds s.queue.account s.clock s.queue.account.submissions.toList.length }
  let s2 : Timed := { s1 with
    queue := { s.queue with account := s.queue.account.put id claimed }
    claims := (id, ['t']) :: s.claims }
  let s3 : Timed := { s2 with ready := (id, ['t']) :: s.ready }
  let s4 : Timed := { s3 with started := (id, s.clock) :: s.started }
  have h1 : Timed.Step g fold P s s1 := .scan _
  have h2 : Timed.Step g fold P s1 s2 := by
    refine @Timed.Step.claim g fold P s1 cfg id s.clock ['t'] _
      (List.mem_append_right _ (mem_dueIds hsub hdue hle)) le_rfl ?_
    have hlate : ¬ s.clock < due := not_lt.mpr (hle.trans (wholeSeconds_le _))
    show (claimTxn cfg id s.clock ['t'] s.queue.account).map _ = _
    simp only [claimTxn, hsub, hdue, if_neg hlate]
    rfl
  have h3 : Timed.Step g fold P s2 s3 := by
    refine @Timed.Step.check g fold P s2 id ['t'] claimed env List.mem_cons_self ?_ hrcpts
    show checkTxn id ['t'] (s.queue.account.put id claimed) = _
    have hsome : ¬ env.mailFrom.isNone = true := by
      simpa [Option.isSome_iff_ne_none] using hfrom
    simp only [checkTxn, Account.put_self, hclaimed, henv, if_neg hsome, ne_eq, not_true_eq_false,
      if_false]
  have h4 : Timed.Step g fold P s3 s4 := .transmit List.mem_cons_self
  exact ⟨s4, .head h1 (.head h2 (.head h3 (.single h4))), rfl, List.mem_cons_self⟩

theorem exists_early_start {p : Prepared} (hreq : P req now) (hp : prepare g req now = .ok p)
    (hdate : storable p.sendAt = true) (hasks : Asks g req now T) : ∃ s, Timed.Reaches g fold P s ∧
      s.created["s"]? = some (req, now) ∧ ("s", max now (wholeSeconds T)) ∈ s.started := by
  obtain ⟨mailFrom, mailFrom', stripped, -, hrcpts, -, henv⟩ := prepare_ok hp
  set sub := queuedSubmission p.env p.sendAt p.blobId p.messageId
  let s0 : Timed := { clock := now }
  let s1 : Timed := { s0 with prepared := [(req, now, p)] }
  let s2 : Timed := { s1 with
    queue := { account := ({} : Account).put "s" sub, tagged := true }
    ids := ["s"]
    created := (∅ : Map JmapId (CreateRequest × Int)).insert "s" (req, now) }
  let s3 : Timed := { s2 with clock := max now (wholeSeconds T) }
  have h1 : Timed.Step g fold P s0 s1 := .prepare hreq hp
  have h2 : Timed.Step g fold P s1 s2 :=
    .commit "s" List.mem_cons_self (List.not_mem_nil) hdate rfl
  have h3 : Timed.Step g fold P s2 s3 := .tick _ (le_max_left ..)
  -- the stored date is the whole second, and the scan reads its clock as one, too
  have hdue : wholeSeconds p.sendAt ≤ wholeSeconds s3.clock := by
    rw [sendAt_of_asks hp hasks]
    show wholeSeconds T ≤ wholeSeconds (max now (wholeSeconds T))
    unfold wholeSeconds
    omega
  have hqueued : queuedRecipients sub p.env ≠ [] := by
    obtain ⟨r, rest, hcons⟩ := List.exists_cons_of_ne_nil hrcpts
    have hr : r ∈ p.env.rcptTo := by simp [henv, hcons]
    apply List.ne_nil_of_mem
    refine List.mem_filter.mpr ⟨hr, ?_⟩
    show ((queuedStatus p.env.rcptTo)[r.email]?).any _ = true
    rw [queuedStatus_getElem? hr]
    rfl
  obtain ⟨s4, hrun, hcreated, hstart⟩ := @exists_start_of_due fold "s" sub g P s3 p.env
    (wholeSeconds p.sendAt) (Account.put_self ..) rfl hdue rfl (by simp [henv]) hqueued
  refine ⟨s4, ⟨now, .head h1 (.head h2 (.head h3 hrun))⟩, ?_, hstart⟩
  rw [hcreated]
  simp [s3, s2]

/-! ## The result -/

/-- **When holds are kept.**  `P` says which creates come, and at which instants.  In every run
    of clients and workers under one clock, with creates from `P` only, no transmission of a
    submission starts before the creation instant plus HOLDFOR, respectively before HOLDUNTIL:
    exactly if every hold that the server honours ends on a full second or is over when the
    submission is created. -/
theorem hold_kept_iff (g : Gates) (fold : Folding) (P : CreateRequest → Int → Prop) :
    (∀ s, Timed.Reaches g fold P s → s.HoldsKept g) ↔ WholeHolds g P := by
  constructor
  · intro hkept req now p T hreq hp hdate hasks
    by_contra hnot
    obtain ⟨s, hreach, hcreated, hstart⟩ :=
      @exists_early_start fold now req g P T p hreq hp hdate hasks
    have hT := hkept s hreach "s" req now T hcreated hasks _ hstart
    unfold wholeSeconds at hT
    omega
  · intro hP s hreach id req now T hcreated hasks t hstart
    exact ((hreach.inv hP).held id req now T hcreated hasks).started t hstart

end

/-! ### A hold of one minute -/

def plainGates : Gates where
  limits := { maxRecipients := 100, maxMessageBytes := 75000000, maxDelayedSend := 604800 }
  parseDate _ := none
  isAddress _ := true
  refuse _ := none

def minuteHold : CreateRequest where
  env := {
    mailFrom := some {
      email := "a@example.org"
      parameters := (∅ : Map String (Option String)).insert "HOLDFOR" (some "60") }
    rcptTo := [⟨"b@example.org", ∅⟩] }
  blobId := "m"
  messageId := none
  size := 1

/-- Created half a second past a full second and held for 60 seconds, it is sent half a second
    before the minute is over. -/
theorem hold_cut_short : ∃ s, Timed.Reaches plainGates Assumed.plain.fold (fun _ _ => True) s ∧
    s.created["s"]? = some (minuteHold, 500000000) ∧ ("s", 60000000000) ∈ s.started ∧
    ¬ s.HoldsKept plainGates := by
  have hasks : Asks plainGates minuteHold 500000000 (500000000 + 60 * 1000000000) :=
    @Asks.holdFor _ _ _ _ "HOLDFOR" "60" 60 rfl (by decide +kernel) (by decide +kernel)
      (by decide +kernel)
  have hok : (prepare plainGates minuteHold 500000000).toOption.any
      (fun p => storable p.sendAt) = true := by
    decide +kernel
  obtain ⟨p, hp, hdate⟩ : ∃ p, prepare plainGates minuteHold 500000000 = .ok p ∧
      storable p.sendAt = true := by
    cases hp : prepare plainGates minuteHold 500000000 with
    | error e =>
      rw [hp] at hok
      cases hok
    | ok p =>
      rw [hp] at hok
      exact ⟨p, rfl, hok⟩
  obtain ⟨s, hreach, hcreated, hstart⟩ := @exists_early_start Assumed.plain.fold _ _ plainGates
    (fun _ _ => True) _ p trivial hp hdate hasks
  refine ⟨s, hreach, hcreated, hstart, fun hkept => ?_⟩
  have hT := hkept "s" minuteHold 500000000 _ hcreated hasks 60000000000 hstart
  omega

end NaustJmap.Submit
