import NaustJmap.Submit.Safety

/-!
# A Final Recipient Stays as It Is

Finalize and the ingestion of reports pass over a recipient that is "yes" or "no" already; a cancel
rewrites every recipient.  `Exec.edits` says once what an operation can make of a record; every
final recipient keeps its delivered and smtpReply along every run (`final_recipients_kept`),
provided no cancel is committed on a record with such a recipient.
-/

namespace NaustJmap.Submit

open Library ObjectDB
open Lease (Token)

/-! ## Settled recipients -/

/-- The recipient has this delivered and this smtpReply. -/
def Shows (ds : Map String DeliveryStatus) (rcpt delivered reply : String) : Prop :=
  ∃ st, ds[rcpt]? = some st ∧ st.delivered = delivered ∧ st.smtpReply = reply

def Settles (delivered : String) : Prop := delivered = "yes" ∨ delivered = "no"

instance (delivered : String) : Decidable (Settles delivered) :=
  inferInstanceAs (Decidable (_ ∨ _))

theorem Settles.ne_queued {delivered : String} (h : Settles delivered) : delivered ≠ "queued" := by
  rcases h with rfl | rfl <;> decide

variable {ds : Map String DeliveryStatus} {rcpt delivered reply : String}

theorem Shows.insert {key : String} {st : DeliveryStatus} (h : Shows ds rcpt delivered reply)
    (hkey : key = rcpt → st.delivered = delivered ∧ st.smtpReply = reply) :
    Shows (ds.insert key st) rcpt delivered reply := by
  obtain ⟨st', hst', hshows⟩ := h
  by_cases heq : key = rcpt
  · exact ⟨st, by simp [heq], hkey heq⟩
  · exact ⟨st', by simpa [Map.getElem?_insert, heq] using hst', hshows⟩

theorem applyResult_shows (hfinal : Settles delivered) (h : Shows ds rcpt delivered reply)
    (r : Result) : Shows (applyResult ds r) rcpt delivered reply := by
  unfold applyResult
  split
  · exact h
  · next st hst =>
    split
    · exact h
    · next hqueued =>
      -- the recipient of the result is queued, hence another one
      refine h.insert fun heq => ?_
      obtain ⟨st', hst', rfl, rfl⟩ := h
      cases hst'.symm.trans (heq ▸ hst)
      exact absurd (not_not.mp hqueued) hfinal.ne_queued

theorem abandon_shows (hfinal : Settles delivered) (h : Shows ds rcpt delivered reply) :
    Shows (abandon ds) rcpt delivered reply := by
  obtain ⟨st, hst, rfl, rfl⟩ := h
  refine ⟨st, ?_, rfl, rfl⟩
  simp [abandon, hst, hfinal.ne_queued]

theorem finalized_shows (cfg : WorkerConfig) (now : Int) (jitter : Int → Int)
    (results : List Result) {sub : Submission} (hfinal : Settles delivered)
    (h : Shows sub.deliveryStatus rcpt delivered reply) :
    Shows (finalized cfg now jitter results sub).deliveryStatus rcpt delivered reply := by
  have hfold : ∀ (rs : List Result) (ds : Map String DeliveryStatus),
      Shows ds rcpt delivered reply → Shows (rs.foldl applyResult ds) rcpt delivered reply := by
    intro rs
    induction rs with
    | nil => exact fun _ h => h
    | cons r rest ih => exact fun ds h => ih _ (applyResult_shows hfinal h r)
  have hresults := hfold results _ h
  have hds : ∀ giveUp : Bool, Shows (if giveUp then abandon (results.foldl applyResult
      sub.deliveryStatus) else results.foldl applyResult sub.deliveryStatus)
      rcpt delivered reply := by
    intro giveUp
    cases giveUp with
    | false => exact hresults
    | true => exact abandon_shows hfinal hresults
  unfold finalized
  dsimp only
  split <;> exact hds _

inductive ReportEdit (cur : DeliveryStatus) : DeliveryStatus → Prop where
  | delayed (hopen : ¬ Settles cur.delivered) (reply : String) :
      ReportEdit cur { cur with smtpReply := reply }
  | settled (hopen : ¬ Settles cur.delivered) {delivered : String} (h : Settles delivered)
      (reply : String) : ReportEdit cur { cur with delivered := delivered, smtpReply := reply }
  | displayed : ReportEdit cur { cur with displayed := "yes" }

section

variable {P : Map String DeliveryStatus → Prop}
  (hedit : ∀ (ds : Map String DeliveryStatus) (rcpt : String) (cur st : DeliveryStatus),
    ds[rcpt]? = some cur → ReportEdit cur st → P ds → P (ds.insert rcpt st))
  (fold : Folding) (rows : List ReportRow) (exact : Bool) (rep : Inbound)
include hedit

theorem ingestGroup_induct {st : Ingestion} (h : P st.ds) (g : ReportRecipient) :
    P (ingestGroup fold rows exact st g).ds := by
  unfold ingestGroup
  split
  · exact h
  · next rcpt hrcpt =>
    split
    · exact h
    · next cur hcur =>
      -- a group that gets past the seal is about a recipient that is not final
      have hopen : ¬ (cur.delivered = "yes" ∨ cur.delivered = "no" ∨
          taken fold rows rcpt .terminal) → ¬ Settles cur.delivered :=
        fun hsealed hfinal => hsealed (hfinal.elim .inl fun hno => .inr (.inl hno))
      dsimp only
      split
      · split
        · exact h
        · next hsealed =>
          split
          · exact hedit _ _ _ _ hcur (.delayed (hopen fun hs => hsealed (.inl hs)) _) h
          · exact h
      · split
        · split
          · exact h
          · next hsealed =>
            split
            · refine hedit _ _ _ _ hcur (.settled (hopen hsealed) ?_ _) h
              split
              · exact .inl rfl
              · exact .inr rfl
            · exact h
        · exact h

theorem ingestDisposition_induct (h : P ds) : P (ingestDisposition fold rows rep ds).ds := by
  unfold ingestDisposition
  dsimp only
  split
  · exact h
  · split
    · exact h
    · split
      · exact h
      · next st hst =>
        split
        · exact hedit _ _ _ _ hst .displayed h
        · exact h

theorem ingest_induct (h : P ds) : P (ingest fold rows exact rep ds).ds := by
  unfold ingest
  split
  · have hfold : ∀ (gs : List ReportRecipient) (st : Ingestion), P st.ds →
        P (gs.foldl (ingestGroup fold rows exact) st).ds := by
      intro gs
      induction gs with
      | nil => exact fun _ h => h
      | cons g rest ih => exact fun st h => ih _ (ingestGroup_induct hedit fold rows exact h g)
    exact hfold rep.rcpts { ds := ds } h
  · exact ingestDisposition_induct hedit fold rows rep h

end

theorem ingest_shows (fold : Folding) (rows : List ReportRow) (exact : Bool) (rep : Inbound)
    (hfinal : Settles delivered) (h : Shows ds rcpt delivered reply) :
    Shows (ingest fold rows exact rep ds).ds rcpt delivered reply := by
  refine ingest_induct (P := fun ds => Shows ds rcpt delivered reply)
    (fun ds key cur st hcur hst h => h.insert fun heq => ?_) fold rows exact rep h
  obtain ⟨st', hst', rfl, rfl⟩ := h
  cases hst'.symm.trans (heq ▸ hcur)
  cases hst with
  | delayed hopen | settled hopen => exact absurd hfinal hopen
  | displayed => exact ⟨rfl, rfl⟩

/-! ## What an operation makes of a record -/

variable {A : Assumed} {i : ℕ} {s s' : Sys} {id : JmapId} {sub sub' : Submission}

def canceled (sub : Submission) : Submission :=
  { sub with
    undoStatus := undoCanceled
    nextAttemptAt := none
    deliveryStatus := cancelDeliveryStatus sub.deliveryStatus }

/-- The edits of a submission, where `C` is known of a record that is canceled. -/
inductive Edit (A : Assumed) (C : Submission → Prop) (sub : Submission) : Submission → Prop where
  | keep : Edit A C sub sub
  | claim (tok : Token) (due : Int) :
      Edit A C sub { sub with claimedAt := some tok, nextAttemptAt := some due }
  | finalize (now : Int) (jitter : Int → Int) (results : List Result) :
      Edit A C sub (finalized A.cfg now jitter results sub)
  | cancel (h : C sub) : Edit A C sub (canceled sub)
  | report (rows : List ReportRow) (exact : Bool) (rep : Inbound) :
      Edit A C sub { sub with
        deliveryStatus := (ingest A.fold rows exact rep sub.deliveryStatus).ds }

theorem edits_of_insert {C : JmapId → Submission → Prop} {a : Account} {new : Submission}
    (hsub : s.account.submissions[id]? = some sub)
    (ha : a.submissions = s.account.submissions.insert id new) (hedit : Edit A (C id) sub new)
    {id' : JmapId} (hsub' : a.submissions[id']? = some sub') :
    ∃ old, s.account.submissions[id']? = some old ∧ Edit A (C id') old sub' := by
  rw [ha, Map.getElem?_insert] at hsub'
  split at hsub'
  · next heq =>
    cases hsub'
    subst heq
    exact ⟨sub, hsub, hedit⟩
  · exact ⟨sub', hsub', .keep⟩

variable {o : Op} {jobs : ℕ → Job} {c c' : Config ℕ Sys Op Ans}

/-- A record was created by the operation, or is an edit of the one before. -/
theorem Exec.edits {r : Ans o} (hx : Exec A i o s r s') :
    s.ids ⊆ s'.ids ∧ ∀ (id : JmapId) (sub' : Submission),
      s'.account.submissions[id]? = some sub' →
      (id ∉ s.ids ∧ id ∈ s'.ids) ∨
        ∃ sub, s.account.submissions[id]? = some sub ∧
          Edit A (fun before => .canceled id before ∈ s'.log) sub sub' := by
  -- what an operation that replaces one record has to show
  have hput : ∀ {a : Account} {log : List Event} {id : JmapId} {sub new : Submission},
      s.account.submissions[id]? = some sub →
      a.submissions = s.account.submissions.insert id new →
      Edit A (fun before => .canceled id before ∈ log) sub new →
      s.ids ⊆ s.ids ∧ ∀ (id' : JmapId) (sub' : Submission), a.submissions[id']? = some sub' →
        (id' ∉ s.ids ∧ id' ∈ s.ids) ∨ ∃ old, s.account.submissions[id']? = some old ∧
          Edit A (fun before => .canceled id' before ∈ log) old sub' :=
    fun {_ log _ _ _} hsub ha hedit => ⟨fun _ h => h, fun id' sub' h => .inr
      (edits_of_insert (C := fun id before => .canceled id before ∈ log) hsub ha hedit h)⟩
  cases hx with
  | mint | claimFails | check | checkFails | openBlob | submit | finalizeFails | createFails
  | undoKeeps | destroyFails | ingestFails =>
    exact ⟨fun _ h => h, fun id sub' h => .inr ⟨sub', h, .keep⟩⟩
  | claim htxn | claimUnnoticed htxn =>
    obtain ⟨sub, due, hsub, -, rfl⟩ := claimTxn_eq htxn
    exact hput hsub rfl (.claim _ _)
  | finalize now jitter htxn =>
    obtain ⟨sub, hsub, -, rfl⟩ := finalizeTxn_eq htxn
    exact hput hsub rfl (.finalize _ _ _)
  | cancel htxn hbefore hmoves =>
    obtain ⟨-, -, rfl⟩ := undoTxn_eq htxn hbefore hmoves
    exact hput hbefore rfl (.cancel (List.mem_append_right _ (List.mem_singleton_self _)))
  | ingest draw htxn =>
    obtain ⟨sub, rows, exact, hsub, ha⟩ := ingestTxn_eq htxn
    exact hput hsub ha (.report _ _ _)
  | destroy htxn =>
    obtain ⟨-, ha⟩ := destroyTxn_eq htxn
    refine ⟨fun _ h => h, fun id' sub' h => .inr ⟨sub', ?_, .keep⟩⟩
    change _ = some sub' at h
    rw [Sys.note, ha, Map.getElem?_erase] at h
    split at h
    · cases h
    · exact h
  | create id hnew =>
    refine ⟨fun _ h => List.mem_append_left _ h, fun id' sub' h => ?_⟩
    by_cases heq : id = id'
    · subst heq
      exact .inl ⟨hnew, List.mem_append_right _ (List.mem_singleton_self id)⟩
    · rw [Account.put_of_ne _ _ heq] at h
      exact .inr ⟨sub', h, .keep⟩

theorem Exec.logs {r : Ans o} (hx : Exec A i o s r s') :
    ∃ new, s'.log = s.log ++ new ∧ ∀ id before, .canceled id before ∈ new →
      s.account.submissions[id]? = some before ∧
        s'.account.submissions[id]? = some (canceled before) := by
  have hnone : ∃ new : List Event, s.log = s.log ++ new ∧ ∀ id before, .canceled id before ∈ new →
      s.account.submissions[id]? = some before ∧
        s'.account.submissions[id]? = some (canceled before) :=
    ⟨[], by simp, by simp⟩
  cases hx with
  | mint | claimFails | checkFails | openBlob | finalizeFails | create | createFails
  | undoKeeps | destroyFails | ingest | ingestFails => exact hnone
  | claim | claimUnnoticed | check | submit | finalize | destroy => exact ⟨[_], rfl, by simp⟩
  | @cancel id newStatus _ a before htxn hbefore hmoves =>
    refine ⟨[_], rfl, fun id' before' hmem => ?_⟩
    obtain ⟨rfl, rfl⟩ := Event.canceled.inj (List.mem_singleton.mp hmem)
    obtain ⟨-, -, rfl⟩ := undoTxn_eq htxn hbefore hmoves
    exact ⟨hbefore, Account.put_self _ _ _⟩

/-! ## Cancels -/

/-- No recipient is final, unless a cancel leaves it as it is. -/
def Cancelable (sub : Submission) : Prop :=
  ∀ (rcpt : String) (st : DeliveryStatus), sub.deliveryStatus[rcpt]? = some st →
    Settles st.delivered →
    st.delivered = "no" ∧ st.smtpReply = "554 5.0.0 sending canceled at user request"

def KeepsFinal (sub sub' : Submission) : Prop :=
  ∀ rcpt delivered reply, Settles delivered → Shows sub.deliveryStatus rcpt delivered reply →
    Shows sub'.deliveryStatus rcpt delivered reply

theorem cancelDeliveryStatus_getElem? (ds : Map String DeliveryStatus) (rcpt : String) :
    (cancelDeliveryStatus ds)[rcpt]? = (ds[rcpt]?).map fun st =>
      { st with smtpReply := "554 5.0.0 sending canceled at user request", delivered := "no" } := by
  simp [cancelDeliveryStatus]

theorem cancelable_iff (sub : Submission) : Cancelable sub ↔ KeepsFinal sub (canceled sub) := by
  constructor
  · rintro h rcpt delivered reply hfinal ⟨st, hst, rfl, rfl⟩
    obtain ⟨hno, hreply⟩ := h rcpt st hst hfinal
    have hst' : (cancelDeliveryStatus sub.deliveryStatus)[rcpt]? = some { st with
        smtpReply := "554 5.0.0 sending canceled at user request", delivered := "no" } := by
      rw [cancelDeliveryStatus_getElem?, hst]
      rfl
    exact ⟨_, hst', hno.symm, hreply.symm⟩
  · intro h rcpt st hst hfinal
    obtain ⟨st', hst', hdelivered, hreply⟩ := h rcpt _ _ hfinal ⟨st, hst, rfl, rfl⟩
    change (cancelDeliveryStatus sub.deliveryStatus)[rcpt]? = _ at hst'
    rw [cancelDeliveryStatus_getElem?, hst] at hst'
    cases hst'
    exact ⟨hdelivered.symm, hreply.symm⟩

/-! ## Runs -/

theorem Edit.keepsFinal {C : Submission → Prop} (hC : ∀ sub, C sub → Cancelable sub)
    (h : Edit A C sub sub') : KeepsFinal sub sub' := by
  intro rcpt delivered reply hfinal hshows
  cases h with
  | keep => exact hshows
  | claim tok due => exact hshows
  | finalize now jitter results => exact finalized_shows A.cfg now jitter results hfinal hshows
  | cancel hmay => exact (cancelable_iff sub).mp (hC sub hmay) _ _ _ hfinal hshows
  | report rows exact rep => exact ingest_shows A.fold rows exact rep hfinal hshows

/-- The records are under ids that were given out. -/
def Known (s : Sys) : Prop :=
  ∀ (id : JmapId) (sub : Submission), s.account.submissions[id]? = some sub → id ∈ s.ids

theorem Known.step {r : Ans o} (hx : Exec A i o s r s') (h : Known s) : Known s' := by
  intro id sub' hsub'
  rcases hx.edits.2 id sub' hsub' with ⟨-, hmem⟩ | ⟨sub, hsub, -⟩
  · exact hmem
  · exact hx.edits.1 (h id sub hsub)

theorem Known.reaches (hr : Config.Reaches (Exec A) (start jobs) c) : Known c.state := by
  induction hr with
  | refl => exact fun id sub h => by simp [start] at h
  | tail _ hstep ih =>
    obtain ⟨_, _, hx⟩ := hstep
    exact ih.step hx

/-- What is final in a record is the same in the later state, if the record is still there. -/
def Sys.KeepsFinal (s s' : Sys) : Prop :=
  ∀ (id : JmapId) (sub sub' : Submission), s.account.submissions[id]? = some sub →
    s'.account.submissions[id]? = some sub' → Submit.KeepsFinal sub sub'

/-- Every cancel committed so far was of a cancelable record. -/
def CancelsOk (log : List Event) : Prop :=
  ∀ id before, .canceled id before ∈ log → Cancelable before

theorem CancelsOk.of_reaches (hr : Config.Reaches (Exec A) c c') (h : CancelsOk c'.state.log) :
    CancelsOk c.state.log := by
  induction hr with
  | refl => exact h
  | tail _ hstep ih =>
    obtain ⟨_, _, hx⟩ := hstep
    obtain ⟨new, hlog, -⟩ := hx.logs
    refine ih fun id before hmem => h id before ?_
    rw [hlog]
    exact List.mem_append_left _ hmem

/-- As long as the record exists, the recipient has this delivered and this smtpReply. -/
def Settled (id : JmapId) (rcpt delivered reply : String) (s : Sys) : Prop :=
  id ∈ s.ids ∧ ∀ sub : Submission, s.account.submissions[id]? = some sub →
    Shows sub.deliveryStatus rcpt delivered reply

theorem Settled.step {r : Ans o} (hx : Exec A i o s r s') (hok : CancelsOk s'.log)
    (hfinal : Settles delivered) (h : Settled id rcpt delivered reply s) :
    Settled id rcpt delivered reply s' := by
  refine ⟨hx.edits.1 h.1, fun sub' hsub' => ?_⟩
  rcases hx.edits.2 id sub' hsub' with ⟨hnew, -⟩ | ⟨sub, hsub, hedit⟩
  · exact absurd h.1 hnew
  · exact hedit.keepsFinal (hok id) _ _ _ hfinal (h.2 sub hsub)

theorem Settled.reaches (hr : Config.Reaches (Exec A) c c') (hok : CancelsOk c'.state.log)
    (hfinal : Settles delivered) (h : Settled id rcpt delivered reply c.state) :
    Settled id rcpt delivered reply c'.state := by
  induction hr with
  | refl => exact h
  | tail _ hstep ih =>
    have hbefore := CancelsOk.of_reaches (.single hstep) hok
    obtain ⟨_, _, hx⟩ := hstep
    exact (ih hbefore).step hx hok hfinal

theorem Sys.keepsFinal_of_cancelsOk (hr : Config.Reaches (Exec A) (start jobs) c)
    (hr' : Config.Reaches (Exec A) c c') (hok : CancelsOk c'.state.log) :
    c.state.KeepsFinal c'.state := by
  intro id sub sub' hsub hsub' rcpt delivered reply hfinal hshows
  have hsettled : Settled id rcpt delivered reply c.state := by
    refine ⟨Known.reaches hr id sub hsub, fun x hx => ?_⟩
    cases hsub.symm.trans hx
    exact hshows
  exact (hsettled.reaches hr' hok hfinal).2 sub' hsub'

theorem CancelsOk.of_keepsFinal (hr : Config.Reaches (Exec A) (start jobs) c)
    (h : ∀ c1 c2 : Config ℕ Sys Op Ans, Config.Reaches (Exec A) (start jobs) c1 →
      Config.Reaches (Exec A) c1 c2 → Config.Reaches (Exec A) c2 c →
      c1.state.KeepsFinal c2.state) : CancelsOk c.state.log := by
  induction hr with
  | refl => exact fun id before hmem => by simp [start] at hmem
  | @tail b c hb hstep ih =>
    have hold := ih fun c1 c2 h1 h2 h3 => h c1 c2 h1 h2 (h3.tail hstep)
    have hkeeps := h b c hb (.single hstep) .refl
    obtain ⟨_, _, hx⟩ := hstep
    obtain ⟨new, hlog, hnew⟩ := hx.logs
    intro id before hmem
    change _ ∈ Sys.log _ at hmem
    rw [hlog] at hmem
    rcases List.mem_append.mp hmem with hmem | hmem
    · exact hold id before hmem
    · -- the last step is the cancel, and it kept what was final
      obtain ⟨hbefore, hafter⟩ := hnew id before hmem
      exact (cancelable_iff before).mpr (hkeeps id before _ hbefore hafter)

/-- Along a run of workers, reports and clients, a recipient that is "yes" or "no" in one state
    has the same delivered and smtpReply in every later state, as long as the record exists, if
    and only if every cancel was committed on a record without final recipients (or with none
    that a cancel changes). -/
theorem final_recipients_kept (A : Assumed) (jobs : ℕ → Job) {c : Config ℕ Sys Op Ans}
    (hr : Config.Reaches (Exec A) (start jobs) c) :
    (∀ c1 c2 : Config ℕ Sys Op Ans, Config.Reaches (Exec A) (start jobs) c1 →
      Config.Reaches (Exec A) c1 c2 → Config.Reaches (Exec A) c2 c →
      c1.state.KeepsFinal c2.state) ↔ CancelsOk c.state.log :=
  ⟨CancelsOk.of_keepsFinal hr, fun hok _ _ h1 h2 h3 =>
    Sys.keepsFinal_of_cancelsOk h1 h2 (hok.of_reaches h3)⟩

/-! ## A cancel after a refusal

The first attempt is refused for one recipient and put off for the other; then the client
cancels. -/

def refusedOnce : List (ℕ × Choice) :=
  [(0, .drawn "S"), (1, .now 0), (1, .fine), (1, .fine), (1, .fine),
    (1, .replies [⟨"a@x", .rejected, "550 5.1.1 no such user"⟩,
      ⟨"b@x", .tempFailed, "451 4.3.0 later"⟩] false),
    (1, .now 1000000000)]

def outcomeOf (id : JmapId) (rcpt : String) (s : Sys) : Option (String × String) :=
  (s.account.submissions[id]?).bind fun sub =>
    (sub.deliveryStatus[rcpt]?).map fun st => (st.delivered, st.smtpReply)

def uncanceled (log : List Event) : Bool :=
  log.all fun
    | .canceled .. => false
    | _ => true

theorem CancelsOk.of_uncanceled {log : List Event} (h : uncanceled log) : CancelsOk log :=
  fun _ _ hmem => absurd (List.all_eq_true.mp h _ hmem) (by simp)

theorem uncanceled_of_refused :
    (Config.play (eval .plain) refusedOnce (start queueJobs)).any (fun c =>
      outcomeOf "S" "a@x" c.state = some ("no", "550 5.1.1 no such user") &&
        uncanceled c.state.log) := by
  decide +kernel

/-- Up to the cancel nothing final changes. -/
theorem final_recipients_kept_refused : ∃ c : Config ℕ Sys Op Ans,
    Config.Reaches (Exec .plain) (start queueJobs) c ∧
      outcomeOf "S" "a@x" c.state = some ("no", "550 5.1.1 no such user") ∧
      ∀ c1 c2 : Config ℕ Sys Op Ans, Config.Reaches (Exec .plain) (start queueJobs) c1 →
        Config.Reaches (Exec .plain) c1 c2 → Config.Reaches (Exec .plain) c2 c →
        c1.state.KeepsFinal c2.state := by
  obtain ⟨c, hplay, hstate⟩ := (Option.any_eq_true _ _).mp uncanceled_of_refused
  obtain ⟨houtcome, hlog⟩ := Bool.and_eq_true_iff.mp hstate
  have hreach := Config.play_reaches eval_exec hplay
  exact ⟨c, hreach, of_decide_eq_true houtcome,
    (final_recipients_kept .plain queueJobs hreach).mpr (.of_uncanceled hlog)⟩

theorem refused_then_canceled :
    (Config.play (eval .plain) refusedOnce (start queueJobs)).any (fun c =>
      outcomeOf "S" "a@x" c.state = some ("no", "550 5.1.1 no such user") &&
      (Config.play (eval .plain) [(0, .fine)] c).any fun c' =>
        outcomeOf "S" "a@x" c'.state =
          some ("no", "554 5.0.0 sending canceled at user request")) := by
  decide +kernel

/-- A refusal with its reply is overwritten. -/
theorem refusal_overwritten : ∃ c c' : Config ℕ Sys Op Ans,
    Config.Reaches (Exec .plain) (start queueJobs) c ∧ Config.Reaches (Exec .plain) c c' ∧
      outcomeOf "S" "a@x" c.state = some ("no", "550 5.1.1 no such user") ∧
      outcomeOf "S" "a@x" c'.state =
        some ("no", "554 5.0.0 sending canceled at user request") := by
  obtain ⟨c, hplay, hstate⟩ := (Option.any_eq_true _ _).mp refused_then_canceled
  obtain ⟨hbefore, hrest⟩ := Bool.and_eq_true_iff.mp hstate
  obtain ⟨c', hplay', hafter⟩ := (Option.any_eq_true _ _).mp hrest
  exact ⟨c, c', Config.play_reaches eval_exec hplay, Config.play_reaches eval_exec hplay',
    of_decide_eq_true hbefore, of_decide_eq_true hafter⟩

end NaustJmap.Submit
