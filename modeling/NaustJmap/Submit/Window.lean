import NaustJmap.Submit.Worklist

/-!
# How Long a Claim Excludes Others

A claim parks the record's due time one ClaimWindow ahead, of at least three times TransmitTimeout.
The due time is stored without a fraction of a second, so a claim taken late in a second ends early;
`exclusion_iff` says exactly for which clock readings it excludes every other claim long enough.
-/

namespace NaustJmap.Submit

open Library ObjectDB
open Lease (Token)

/-! ## Workers -/

/-- `WorkerConfig` with the fields that only the constructor and the loops read. -/
structure WorkerSettings extends WorkerConfig where
  transmitTimeout : Int
  batchSize : Int
  queueScanInterval : Int

/-- A `time.Duration` is a 64-bit integer, and so is a multiple of one. -/
def wrapDuration (d : Int) : Int := (d + 2 ^ 63) % 2 ^ 64 - 2 ^ 63

/-- The fields `WorkerConfig.validate` names. -/
def WorkerSettings.badFields (w : WorkerSettings) : List String :=
  (if w.retrySchedule = [] then ["RetrySchedule"] else []) ++
  (if w.retryPlateau ≤ 0 then ["RetryPlateau"] else []) ++
  (if w.giveUpAfter ≤ 0 then ["GiveUpAfter"] else []) ++
  (if w.minAttempts = 0 then ["MinAttempts"] else []) ++
  (if w.claimWindow ≤ 0 then ["ClaimWindow"] else []) ++
  (if w.transmitTimeout ≤ 0 then ["TransmitTimeout"] else []) ++
  (if w.batchSize ≤ 0 then ["BatchSize"] else []) ++
  (if w.queueScanInterval ≤ 0 then ["QueueScanInterval"] else [])

/-- `NewWorker`, its checks of the configuration. -/
def newWorker (w : WorkerSettings) : Except String Unit :=
  if w.badFields ≠ [] then
    .error ("mail: NewWorker: WorkerConfig fields empty or not positive: " ++
      ", ".intercalate w.badFields ++ " (start from DefaultWorkerConfig)")
  else if w.claimWindow < wrapDuration (3 * w.transmitTimeout) then
    .error "mail: ClaimWindow must be at least 3x TransmitTimeout"
  else .ok ()

/-- A worker's configuration: one that `NewWorker` accepts. -/
structure Worker where
  settings : WorkerSettings
  accepted : newWorker settings = .ok ()

theorem Worker.claimWindow_pos (w : Worker) : 0 < w.settings.claimWindow := by
  have h := w.accepted
  unfold newWorker at h
  split at h
  · exact nomatch h
  · next hbad =>
    by_contra hpos
    refine hbad ?_
    simp [WorkerSettings.badFields, not_lt.mp hpos]

/-- The time a claim at reading `now` parks the record at. -/
def Worker.parked (w : Worker) (now : Int) : Int := wholeSeconds (now + w.settings.claimWindow)

/-- The parked time is three times TransmitTimeout ahead of the reading. -/
def Worker.Holds (w : Worker) (now : Int) : Prop :=
  now + 3 * w.settings.transmitTimeout ≤ w.parked now

theorem Worker.holds_of_le (w : Worker)
    (h : 3 * w.settings.transmitTimeout + 999999999 ≤ w.settings.claimWindow) (now : Int) :
    w.Holds now := by
  unfold Worker.Holds Worker.parked wholeSeconds
  omega

/-! ## What happens to a claimed record -/

/-- The commits other than claims and finalizes of the record; its id is not given out again. -/
def QueueTxn.Elsewhere (id : JmapId) : QueueTxn → Prop
  | .create id' .. | .send id' .. | .claim _ id' .. | .finalize _ id' .. => id' ≠ id
  | _ => True

/-- A commit until the claim `stamp` on the record `id` is finalized, with the reading of the last
    claim on the record.  Workers read the same clock, so one that finalizes reads it after its
    claim did; a finalize under a stamp the record no longer has commits nothing. -/
inductive InterimStep (fold : Folding) (id : JmapId) (stamp : Token) :
    QueueAccount × Int → QueueAccount × Int → Prop where
  | claim (w : Worker) {now last : Int} {stamp' : Token} {q q' : QueueAccount}
      (h : (QueueTxn.claim w.settings.toWorkerConfig id now stamp').commit fold q = some q') :
      InterimStep fold id stamp (q, last) (q', now)
  | finalize {cfg : WorkerConfig} {now last : Int} {stamp' : Token} {jitter : Int → Int}
      {results : List Result} {q q' : QueueAccount} (hother : stamp' ≠ stamp) (hlast : last ≤ now)
      (hdelay : ∀ attempts, 0 ≤ backoff cfg jitter attempts)
      (h : (QueueTxn.finalize cfg id stamp' now jitter results).commit fold q = some q') :
      InterimStep fold id stamp (q, last) (q', last)
  | other {txn : QueueTxn} {last : Int} {q q' : QueueAccount} (hother : txn.Elsewhere id)
      (h : txn.commit fold q = some q') : InterimStep fold id stamp (q, last) (q', last)

/-- The record is not due before `t`, and a claim on it that is not `stamp` was taken at `t` or
    later. -/
structure Submission.Excludes (stamp : Token) (t last : Int) (sub : Submission) : Prop where
  parked : ∀ due, sub.nextAttemptAt = some due → t ≤ due
  later : sub.claimedAt = some stamp ∨ t ≤ last

/-- The record under the id, if any, excludes the claims before `t`. -/
def Account.Excludes (a : Account) (id : JmapId) (stamp : Token) (t last : Int) : Prop :=
  ∀ sub : Submission, a.submissions[id]? = some sub → sub.Excludes stamp t last

variable {fold : Folding} {id : JmapId} {stamp : Token} {t last : Int}

theorem claimTxn_due {cfg : WorkerConfig} {now : Int} {a a' : Account}
    (h : claimTxn cfg id now stamp a = some a') :
    ∃ (sub : Submission) (due : Int), a.submissions[id]? = some sub ∧
      sub.nextAttemptAt = some due ∧ due ≤ now := by
  unfold claimTxn at h
  split at h
  · cases h
  · next sub hsub =>
    split at h
    · cases h
    · next due hdue =>
      split at h
      · cases h
      · next hlate => exact ⟨sub, due, hsub, hdue, not_lt.mp hlate⟩

/-- A time behind a whole second is behind it when cut to a whole second. -/
theorem wholeSeconds_le_of_le {x y d : Int} (h : wholeSeconds x ≤ y) (hd : 0 ≤ d) :
    wholeSeconds x ≤ wholeSeconds (y + d) := by
  unfold wholeSeconds at h ⊢
  omega

theorem finalized_due {cfg : WorkerConfig} {now due : Int} {jitter : Int → Int}
    {results : List Result} {sub : Submission}
    (h : (finalized cfg now jitter results sub).nextAttemptAt = some due) :
    due = wholeSeconds (now + backoff cfg jitter (sub.attempts + 1)) := by
  unfold finalized at h
  dsimp only at h
  split at h
  · exact (Option.some.inj h).symm
  · cases h

theorem Account.Excludes.put {a a' : Account} {id' : JmapId} {sub : Submission} {last' : Int}
    (h : a.Excludes id stamp t last) (hlast : id' ≠ id → last' = last)
    (hsub : id' = id → sub.Excludes stamp t last')
    (ha : a'.submissions = a.submissions.insert id' sub) : a'.Excludes id stamp t last' := by
  intro sub' hget
  rw [ha, Map.getElem?_insert] at hget
  split at hget
  · next heq =>
    cases hget
    exact hsub heq
  · next hne =>
    rw [hlast hne]
    exact h sub' hget

theorem QueueTxn.Elsewhere.excludes {txn : QueueTxn} {q q' : QueueAccount}
    (hother : txn.Elsewhere id) (hc : txn.commit fold q = some q')
    (h : q.account.Excludes id stamp t last) : q'.account.Excludes id stamp t last := by
  -- a record changed but for its claim and its due date
  have hput : ∀ {id' : JmapId} {sub sub' : Submission} {a' : Account},
      q.account.submissions[id']? = some sub →
      a'.submissions = q.account.submissions.insert id' sub' → sub'.claimedAt = sub.claimedAt →
      (∀ due, sub'.nextAttemptAt = some due → sub.nextAttemptAt = some due) →
        a'.Excludes id stamp t last := by
    intro id' sub sub' a' hsub ha hclaimed hdue
    refine h.put (fun _ => rfl) (fun heq => ?_) ha
    have hold := h sub (heq ▸ hsub)
    exact ⟨fun due hnext => hold.parked due (hdue due hnext), hclaimed ▸ hold.later⟩
  cases txn with
  | create id' | send id' =>
    change enqueue id' _ q = some q' at hc
    unfold enqueue at hc
    split at hc
    · cases hc
    · cases hc
      exact h.put (fun _ => rfl) (fun heq => absurd heq hother) rfl
  | claim cfg id' now stamp' =>
    obtain ⟨a, htxn, rfl⟩ := Option.map_eq_some_iff.mp hc
    obtain ⟨sub, -, -, -, rfl⟩ := claimTxn_eq (A := ⟨cfg, fold⟩) htxn
    exact h.put (fun _ => rfl) (fun heq => absurd heq hother) rfl
  | finalize cfg id' stamp' now jitter results =>
    obtain ⟨a, htxn, rfl⟩ := Option.map_eq_some_iff.mp hc
    obtain ⟨sub, -, -, rfl⟩ := finalizeTxn_eq (A := ⟨cfg, fold⟩) htxn
    exact h.put (fun _ => rfl) (fun heq => absurd heq hother) rfl
  | undo id' newStatus =>
    obtain ⟨a, htxn, rfl⟩ := Option.map_eq_some_iff.mp hc
    obtain ⟨sub, hsub, rfl | rfl⟩ := undoTxn_cases htxn
    · exact h
    · exact @hput _ _ (canceled sub) _ hsub rfl rfl fun due hdue => by simp [canceled] at hdue
  | destroy id' =>
    obtain ⟨a, htxn, rfl⟩ := Option.map_eq_some_iff.mp hc
    obtain ⟨-, ha⟩ := destroyTxn_eq htxn
    intro sub hsub
    rw [ha, Map.getElem?_erase] at hsub
    split at hsub
    · cases hsub
    · exact h sub hsub
  | ingest rep fallback draw =>
    obtain ⟨⟨id', a⟩, htxn, rfl⟩ := Option.map_eq_some_iff.mp hc
    obtain ⟨sub, rows, exact, hsub, ha⟩ := ingestTxn_eq htxn
    exact hput hsub ha rfl fun _ hdue => hdue
  | clearDrainedTag =>
    change (if _ then none else _) = some q' at hc
    split at hc
    · cases hc
    · cases hc
      exact h
  | healTag =>
    cases hc
    exact h

theorem InterimStep.excludes {c : Int} {x x' : QueueAccount × Int}
    (hstep : InterimStep fold id stamp x x')
    (h : x.1.account.Excludes id stamp (wholeSeconds c) x.2) :
    x'.1.account.Excludes id stamp (wholeSeconds c) x'.2 := by
  cases hstep with
  | claim w hc =>
    obtain ⟨a, htxn, rfl⟩ := Option.map_eq_some_iff.mp hc
    obtain ⟨sub, due, hsub, hdue, hle⟩ := claimTxn_due htxn
    obtain ⟨sub', -, -, -, rfl⟩ := claimTxn_eq (A := ⟨w.settings.toWorkerConfig, fold⟩) htxn
    -- the claim was due at its own reading, and parks the record later than that
    have hnow := ((h sub hsub).parked due hdue).trans hle
    refine h.put (fun hne => absurd rfl hne) (fun _ => ⟨fun parked hparked => ?_, .inr hnow⟩) rfl
    cases hparked
    exact wholeSeconds_le_of_le hnow w.claimWindow_pos.le
  | finalize hother hlast hdelay hc =>
    obtain ⟨a, htxn, rfl⟩ := Option.map_eq_some_iff.mp hc
    obtain ⟨sub, hsub, hclaimed, rfl⟩ := finalizeTxn_eq (A := ⟨_, fold⟩) htxn
    -- it finalizes a claim that was taken later
    have hlater := (h sub hsub).later.resolve_left fun hours =>
      hother (Option.some.inj (hclaimed.symm.trans hours))
    refine h.put (fun _ => rfl) (fun _ => ⟨fun due hdue => ?_, .inr hlater⟩) rfl
    rw [finalized_due hdue]
    exact wholeSeconds_le_of_le (hlater.trans hlast) (hdelay _)
  | other hother hc => exact hother.excludes hc h

theorem excludes_of_run {c : Int} {x x' : QueueAccount × Int}
    (hrun : Relation.ReflTransGen (InterimStep fold id stamp) x x')
    (h : x.1.account.Excludes id stamp (wholeSeconds c) x.2) :
    x'.1.account.Excludes id stamp (wholeSeconds c) x'.2 := by
  induction hrun with
  | refl => exact h
  | tail _ hstep ih => exact hstep.excludes ih

/-! ## The window -/

/-- **How long a claim excludes others.**  After a claim at reading `c`, by a worker whose
    configuration `NewWorker` accepts, and until that claim is finalized, no other claim on the
    record succeeds at a reading before `c` plus three times TransmitTimeout, whatever other
    commits come in between: exactly if the parked time, cut to a whole second, is still that
    far ahead. -/
theorem exclusion_iff (fold : Folding) (w : Worker) (id : JmapId) (c : Int) (stamp : Token)
    (q claimed : QueueAccount)
    (hclaim : (QueueTxn.claim w.settings.toWorkerConfig id c stamp).commit fold q = some claimed) :
    (∀ q' last, Relation.ReflTransGen (InterimStep fold id stamp) (claimed, c) (q', last) →
      ∀ (cfg : WorkerConfig) (c' : Int) (stamp' : Token) (q'' : QueueAccount),
        (QueueTxn.claim cfg id c' stamp').commit fold q' = some q'' →
        c + 3 * w.settings.transmitTimeout ≤ c') ↔ w.Holds c := by
  obtain ⟨a, htxn, rfl⟩ := Option.map_eq_some_iff.mp hclaim
  obtain ⟨sub, due, hsub, -, rfl⟩ := claimTxn_eq (A := ⟨w.settings.toWorkerConfig, fold⟩) htxn
  constructor
  · -- a claim right at the parked time succeeds
    intro hall
    obtain ⟨q'', hnext⟩ : ∃ q'', (QueueTxn.claim w.settings.toWorkerConfig id (w.parked c)
        stamp).commit fold { q with account := q.account.put id { sub with
          claimedAt := some stamp
          nextAttemptAt := some (wholeSeconds (c + w.settings.claimWindow)) } } = some q'' := by
      simp only [QueueTxn.commit, claimTxn, Account.put_self]
      rw [if_neg (show ¬ w.parked c < wholeSeconds (c + w.settings.claimWindow) from lt_irrefl _)]
      exact ⟨_, rfl⟩
    exact hall _ c .refl w.settings.toWorkerConfig (w.parked c) stamp q'' hnext
  · intro hholds q' last hrun cfg c' stamp' q'' hother
    have hparked : q'.account.Excludes id stamp (w.parked c) last := by
      refine excludes_of_run hrun fun sub' hsub' => ?_
      rw [Account.put_self] at hsub'
      cases hsub'
      exact ⟨fun due' hdue' => (Option.some.inj hdue').le, .inl rfl⟩
    obtain ⟨a', htxn', -⟩ := Option.map_eq_some_iff.mp hother
    obtain ⟨sub', due', hsub', hdue', hle⟩ := claimTxn_due htxn'
    exact hholds.trans (((hparked sub' hsub').parked due' hdue').trans hle)

/-! ## Two claims -/

/-- Settings with a lease window and a send timeout, in seconds. -/
def settingsOf (window timeout : Int) : WorkerSettings where
  retrySchedule := [60000000000]
  retryPlateau := 28800000000000
  giveUpAfter := 172800000000000
  minAttempts := 3
  claimWindow := window * 1000000000
  formatTime _ := []
  transmitTimeout := timeout * 1000000000
  batchSize := 16
  queueScanInterval := 60000000000

def defaultWorker : Worker := ⟨settingsOf 900 120, by decide⟩

/-- The shortest window `NewWorker` accepts for a timeout of one second. -/
def tightWorker : Worker := ⟨settingsOf 3 1, by decide⟩

def dueAccount : QueueAccount where
  account := ({} : Account).put "s1" toTwo
  tagged := true

theorem exclusion_iff_default : ∃ claimed : QueueAccount,
    (QueueTxn.claim defaultWorker.settings.toWorkerConfig "s1" 900000000 ['t']).commit
      Assumed.plain.fold dueAccount = some claimed ∧
    ∀ q' last, Relation.ReflTransGen (InterimStep Assumed.plain.fold "s1" ['t'])
        (claimed, 900000000) (q', last) →
      ∀ (cfg : WorkerConfig) (c' : Int) (stamp' : Token) (q'' : QueueAccount),
        (QueueTxn.claim cfg "s1" c' stamp').commit Assumed.plain.fold q' = some q'' →
        900000000 + 3 * defaultWorker.settings.transmitTimeout ≤ c' := by
  refine ⟨_, rfl, ?_⟩
  exact (exclusion_iff Assumed.plain.fold defaultWorker "s1" 900000000 ['t'] dueAccount _ rfl).mpr
    (defaultWorker.holds_of_le (by decide) _)

/-- A claim 0.9 seconds past a full second, with a window of three times the timeout of one
    second: another worker's claim succeeds 0.9 seconds too early. -/
theorem window_cut_short :
    (((QueueTxn.claim tightWorker.settings.toWorkerConfig "s1" 900000000 ['t']).commit
      Assumed.plain.fold dueAccount).bind fun claimed =>
        (QueueTxn.claim tightWorker.settings.toWorkerConfig "s1" 3000000000 ['u']).commit
          Assumed.plain.fold claimed).isSome ∧
      3000000000 < 900000000 + 3 * tightWorker.settings.transmitTimeout := by
  constructor
  · decide +kernel
  · decide

end NaustJmap.Submit
