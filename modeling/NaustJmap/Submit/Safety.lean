import NaustJmap.Library.History
import NaustJmap.Submit.System

/-!
# Claims Are Exclusive

In every interleaving (`claims_exclusive`): a claim token is finalized at most once, a worker edits
deliveryStatus only under its own token, only recipients that were queued at the pre-transmit check
are handed over, no cancel is committed over a claim, and no check succeeds after a cancel or a
destroy.  A worker's token is nobody else's, whatever the clocks read.
-/

namespace NaustJmap.Submit

open Library ObjectDB
open Lease (Token mintToken mintToken_inj)

/-! ## The history -/

def Event.token : Event → Option Token
  | .claimed tok .. | .checked tok .. | .handed tok .. | .finalized tok .. => some tok
  | .canceled .. | .destroyed _ => none

def finalizedTokens (log : List Event) : List Token :=
  log.filterMap fun
    | .finalized tok .. => some tok
    | _ => none

/-- The event takes the record out of the queue for good. -/
def Event.Ends (id : JmapId) : Event → Prop
  | .canceled id' _ | .destroyed id' => id' = id
  | _ => False

theorem finalizedTokens_append (log new : List Event) :
    finalizedTokens (log ++ new) = finalizedTokens log ++ finalizedTokens new :=
  List.filterMap_append

variable {log new : List Event} {seen before sub after : Submission} {now : Int} {a a' : Account}
  {env : SubEnvelope} {jitter : Int → Int} {results : List Result} {newStatus : String}
  {fold : Folding} {fallback : Bool} {rep : Inbound} {draw : ℕ → JmapId} {nonce : List Char}
  {Q : Unit → Sys → Prop}

theorem finalizedTokens_concat {e : Event} (he : finalizedTokens [e] = []) :
    finalizedTokens (log ++ [e]) = finalizedTokens log := by
  rw [finalizedTokens_append, he, List.append_nil]

theorem exists_token_of_mem_finalizedTokens {tok : Token} (h : tok ∈ finalizedTokens log) :
    ∃ e ∈ log, e.token = some tok := by
  obtain ⟨e, he, htok⟩ := List.mem_filterMap.mp h
  refine ⟨e, he, ?_⟩
  cases e <;> simp_all [Event.token]

/-- What was handed over was queued at a check made before. -/
def HandedOk : List Event → Prop :=
  Along fun past e => ∀ tok id rcpts, e = .handed tok id rcpts →
    ∃ seen, .checked tok id seen ∈ past ∧
      ∀ r ∈ rcpts, (seen.deliveryStatus[r.email]?).any (·.delivered = "queued")

/-- No check succeeded on a record that was canceled or destroyed before. -/
def CheckedOk : List Event → Prop :=
  Along fun past e => ∀ tok id seen, e = .checked tok id seen → ∀ e' ∈ past, ¬ e'.Ends id

/-! ## The invariant -/

variable {A : Assumed}

/-- A record that left the queue for good: nobody can claim it any more. -/
def Account.Over (a : Account) (id : JmapId) : Prop :=
  ∀ sub, a.submissions[id]? = some sub → sub.claimedAt = none ∧ sub.nextAttemptAt = none

/-- The invariant of the account's system. -/
structure Inv (A : Assumed) (s : Sys) : Prop where
  /-- Tokens carry a nonce and a counter value that was used. -/
  minted : ∀ (tok : Token) (j : ℕ), s.tokens[tok]? = some j → ∃ nonce n now,
    tok = mintToken A.cfg.formatTime nonce n now ∧ '|' ∉ nonce ∧ n ≤ s.seqs.getD nonce 0
  logged : ∀ e ∈ s.log, ∀ tok : Token, e.token = some tok → ∃ j : ℕ, s.tokens[tok]? = some j
  known : ∀ (id : JmapId) (sub : Submission), s.account.submissions[id]? = some sub → id ∈ s.ids
  /-- A canceled or destroyed record stays out of the queue. -/
  ended : ∀ e ∈ s.log, ∀ id, e.Ends id → id ∈ s.ids ∧ s.account.Over id
  once : (finalizedTokens s.log).Nodup
  handed : HandedOk s.log
  checked : CheckedOk s.log

/-- What process `i` does; `W` are the processes of workers. -/
structure Guar (A : Assumed) (W : ℕ → Prop) (i : ℕ) (s s' : Sys) : Prop where
  inv : Inv A s → Inv A s'
  tokens : ∀ (tok : Token) (j : ℕ), s.tokens[tok]? = some j → s'.tokens[tok]? = some j
  /-- The log grows by events that carry its own tokens. -/
  grows : ∃ new, s'.log = s.log ++ new ∧
    ∀ e ∈ new, ∀ tok : Token, e.token = some tok → s.tokens[tok]? = some i
  /-- A worker edits deliveryStatus only by finalizing the stored token, its own. -/
  status : W i → ∀ (id : JmapId) (sub sub' : Submission),
    s.account.submissions[id]? = some sub → s'.account.submissions[id]? = some sub' →
    sub'.deliveryStatus ≠ sub.deliveryStatus →
    ∃ tok : Token, sub.claimedAt = some tok ∧ s.tokens[tok]? = some i ∧
      s'.log = s.log ++ [.finalized tok id sub sub']
  /-- A cancel is committed over no claim. -/
  cancel : ∀ (id : JmapId) (sub sub' : Submission), s.account.submissions[id]? = some sub →
    s'.account.submissions[id]? = some sub' → sub.undoStatus ≠ undoCanceled →
    sub'.undoStatus = undoCanceled → sub.claimedAt = none

variable {W : ℕ → Prop} {i : ℕ} {s s' : Sys} {tok : Token} {id : JmapId}

theorem Guar.refl : Guar A W i s s where
  inv := fun h => h
  tokens := fun _ _ h => h
  grows := ⟨[], by simp, by simp⟩
  status := fun _ id sub sub' h h' hne => by
    rw [h] at h'
    exact absurd (congrArg Submission.deliveryStatus (Option.some.inj h')).symm hne
  cancel := fun id sub sub' h h' hne heq => by
    rw [h] at h'
    exact absurd (Option.some.inj h' ▸ heq) hne

theorem Inv.stable : Stable (Guar A W) i (Inv A) := fun _ _ _ _ hg => hg.inv

/-! ## What a worker knows about its token -/

/-- The token is the process's own and has not been finalized. -/
structure Mine (A : Assumed) (i : ℕ) (tok : Token) (s : Sys) : Prop where
  inv : Inv A s
  drawn : s.tokens[tok]? = some i
  fresh : tok ∉ finalizedTokens s.log

theorem Mine.stable : Stable (Guar A W) i (Mine A i tok) := by
  intro j hj s s' hg h
  refine ⟨hg.inv h.inv, hg.tokens tok i h.drawn, ?_⟩
  obtain ⟨new, hlog, hown⟩ := hg.grows
  rw [hlog, finalizedTokens_append, List.mem_append]
  rintro (hold | hnew)
  · exact h.fresh hold
  · -- an event with this token would be the other process's
    obtain ⟨e, he, htok⟩ := exists_token_of_mem_finalizedTokens hnew
    exact hj (Option.some.inj ((hown e he tok htok).symm.trans h.drawn))

theorem Mine.step (hg : Guar A W i s s')
    (hfin : finalizedTokens s'.log = finalizedTokens s.log) (h : Mine A i tok s) :
    Mine A i tok s' :=
  ⟨hg.inv h.inv, hg.tokens tok i h.drawn, hfin ▸ h.fresh⟩

def MineChecked (A : Assumed) (i : ℕ) (tok : Token) (id : JmapId) (seen : Submission)
    (s : Sys) : Prop :=
  Mine A i tok s ∧ .checked tok id seen ∈ s.log

theorem MineChecked.stable : Stable (Guar A W) i (MineChecked A i tok id seen) := by
  intro j hj s s' hg h
  refine ⟨Mine.stable j hj s s' hg h.1, ?_⟩
  obtain ⟨new, hlog, -⟩ := hg.grows
  rw [hlog]
  exact List.mem_append_left _ h.2

/-! ## The transactions -/

theorem claimTxn_eq (h : claimTxn A.cfg id now tok a = some a') :
    ∃ (sub : Submission) (due : Int), a.submissions[id]? = some sub ∧
      sub.nextAttemptAt = some due ∧
      a' = a.put id { sub with
        claimedAt := some tok
        nextAttemptAt := some (wholeSeconds (now + A.cfg.claimWindow)) } := by
  unfold claimTxn at h
  split at h
  · cases h
  · next sub hsub =>
    split at h
    · cases h
    · next due hdue =>
      split at h
      · cases h
      · exact ⟨sub, due, hsub, hdue, (Option.some.inj h).symm⟩

theorem checkTxn_eq (h : checkTxn id tok a = some (seen, env)) :
    a.submissions[id]? = some seen ∧ seen.claimedAt = some tok := by
  unfold checkTxn at h
  split at h
  · cases h
  · next sub hsub =>
    split at h
    · cases h
    · next hclaim =>
      split at h
      · cases h
      · split at h
        · cases h
        · obtain ⟨rfl, -⟩ := Prod.mk.inj (Option.some.inj h)
          exact ⟨hsub, by simpa using hclaim⟩

theorem finalizeTxn_eq (h : finalizeTxn A.cfg id tok now jitter results a = some a') :
    ∃ sub : Submission, a.submissions[id]? = some sub ∧ sub.claimedAt = some tok ∧
      a' = a.put id (finalized A.cfg now jitter results sub) := by
  unfold finalizeTxn at h
  split at h
  · cases h
  · next sub hsub =>
    split at h
    · cases h
    · next hclaim =>
      split at h
      · cases h
      · exact ⟨sub, hsub, by simpa using hclaim, (Option.some.inj h).symm⟩

theorem undoTxn_eq (h : undoTxn id newStatus a = some a')
    (hbefore : a.submissions[id]? = some before) (hmoves : newStatus ≠ before.undoStatus) :
    before.claimedAt = none ∧ before.undoStatus = undoPending ∧
      a' = a.put id { before with
        undoStatus := undoCanceled
        nextAttemptAt := none
        deliveryStatus := cancelDeliveryStatus before.deliveryStatus } := by
  unfold undoTxn at h
  rw [hbefore] at h
  dsimp only at h
  rw [if_neg hmoves] at h
  split at h
  · cases h
  split at h
  · cases h
  next hpending =>
  split at h
  · cases h
  next hclaim =>
  split at h
  · cases h
  · exact ⟨by simpa using hclaim, by simpa using hpending, (Option.some.inj h).symm⟩

theorem destroyTxn_eq (h : destroyTxn id a = some a') :
    (∃ sub, a.submissions[id]? = some sub) ∧ a'.submissions = a.submissions.erase id := by
  unfold destroyTxn at h
  split at h
  · cases h
  · next sub hsub =>
    cases h
    exact ⟨⟨sub, hsub⟩, rfl⟩

theorem byMessageId_mem {mid : String} {e : JmapId × Submission}
    (h : byMessageId fold mid a = some e) : a.submissions[e.1]? = some e.2 := by
  unfold byMessageId at h
  split at h
  · next e' heq =>
    obtain rfl := Option.some.inj h
    have hmem : e' ∈ a.submissions.toList.filter fun e =>
        e.2.messageId.any (fold.sameIndexed · mid) := by
      rw [heq]
      exact List.mem_singleton_self e'
    exact (Map.mem_toList _ _ _).mp (List.mem_filter.mp hmem).1
  · cases h

theorem correlateSubmission_mem {exact : Bool}
    (h : correlateSubmission fold fallback rep a = some (id, sub, exact)) :
    a.submissions[id]? = some sub := by
  unfold correlateSubmission at h
  split at h
  · split at h
    · next sub' hsub =>
      obtain ⟨rfl, rfl, -⟩ : rep.envid = id ∧ sub' = sub ∧ true = exact := by simpa using h
      split at hsub
      · exact hsub
      · cases hsub
    · split at h
      · obtain ⟨e, he, heq⟩ := Option.map_eq_some_iff.mp h
        obtain ⟨rfl, rfl, -⟩ : e.1 = id ∧ e.2 = sub ∧ false = exact := by simpa using heq
        exact byMessageId_mem he
      · cases h
  · obtain ⟨e, he, heq⟩ := Option.map_eq_some_iff.mp h
    obtain ⟨rfl, rfl, -⟩ : e.1 = id ∧ e.2 = sub ∧ true = exact := by simpa using heq
    exact byMessageId_mem he

theorem ingestTxn_eq (h : ingestTxn fold fallback rep draw a = some (id, a')) :
    ∃ (sub : Submission) (rows : List ReportRow) (exact : Bool),
      a.submissions[id]? = some sub ∧
      a'.submissions = a.submissions.insert id { sub with
        deliveryStatus := (ingest fold rows exact rep sub.deliveryStatus).ds } := by
  unfold ingestTxn at h
  split at h
  · cases h
  · next subId sub exact hcorr =>
    split at h
    · cases h
    · dsimp only at h
      split at h
      · cases h
      · obtain ⟨rfl, rfl⟩ := Prod.mk.inj (Option.some.inj h)
        exact ⟨sub, _, exact, correlateSubmission_mem hcorr, rfl⟩

/-! ## Steps that keep the guarantee -/

def Event.Plain : Event → Prop
  | .checked .. | .handed .. => False
  | _ => True

theorem handedOk_of_plain (h : HandedOk log) (hnew : new = [] ∨ ∃ e : Event, new = [e] ∧ e.Plain) :
    HandedOk (log ++ new) := by
  obtain rfl | ⟨e, rfl, he⟩ := hnew
  · simpa using h
  · refine along_concat.mpr ⟨h, fun tok id rcpts heq => ?_⟩
    rw [heq] at he
    exact he.elim

theorem checkedOk_of_plain (h : CheckedOk log)
    (hnew : new = [] ∨ ∃ e : Event, new = [e] ∧ e.Plain) : CheckedOk (log ++ new) := by
  obtain rfl | ⟨e, rfl, he⟩ := hnew
  · simpa using h
  · refine along_concat.mpr ⟨h, fun tok id seen heq => ?_⟩
    rw [heq] at he
    exact he.elim

theorem Guar.of_put {sub' : Submission} (hsub : s.account.submissions[id]? = some sub)
    (ha : a.submissions = s.account.submissions.insert id sub')
    (hplain : new = [] ∨ ∃ e : Event, new = [e] ∧ e.Plain)
    (hown : ∀ e ∈ new, ∀ tok : Token, e.token = some tok → s.tokens[tok]? = some i)
    (hover : sub.claimedAt = none → sub.nextAttemptAt = none →
      sub'.claimedAt = none ∧ sub'.nextAttemptAt = none) (hends : ∀ e ∈ new, ∀ id', e.Ends id' →
      id' = id ∧ sub'.claimedAt = none ∧ sub'.nextAttemptAt = none)
    (honce : (finalizedTokens s.log).Nodup → (finalizedTokens (s.log ++ new)).Nodup)
    (hstatus : W i → sub'.deliveryStatus ≠ sub.deliveryStatus →
      ∃ tok : Token, sub.claimedAt = some tok ∧ s.tokens[tok]? = some i ∧
        new = [.finalized tok id sub sub'])
    (hcancel : sub.undoStatus ≠ undoCanceled → sub'.undoStatus = undoCanceled →
      sub.claimedAt = none) : Guar A W i s { s with account := a, log := s.log ++ new } := by
  have hget : ∀ id' : JmapId, a.submissions[id']? =
      if id = id' then some sub' else s.account.submissions[id']? := by
    intro id'
    rw [ha, Map.getElem?_insert]
  refine ⟨fun h => ⟨h.minted, ?_, ?_, ?_, honce h.once, handedOk_of_plain h.handed hplain,
    checkedOk_of_plain h.checked hplain⟩, fun _ _ h => h, ⟨new, rfl, hown⟩, ?_, ?_⟩
  · intro e he tok htok
    rcases List.mem_append.mp he with he | he
    · exact h.logged e he tok htok
    · exact ⟨i, hown e he tok htok⟩
  · intro id' x hx
    rw [hget] at hx
    split at hx
    · next heq => exact heq ▸ h.known id sub hsub
    · exact h.known id' x hx
  · intro e he id' hend
    rcases List.mem_append.mp he with he | he
    · -- a record that was over stays over
      obtain ⟨hmem, hold⟩ := h.ended e he id' hend
      refine ⟨hmem, fun x hx => ?_⟩
      rw [hget] at hx
      split at hx
      · next heq =>
        cases hx
        subst heq
        obtain ⟨hc, hn⟩ := hold sub hsub
        exact hover hc hn
      · exact hold x hx
    · obtain ⟨rfl, hc, hn⟩ := hends e he id' hend
      refine ⟨h.known id' sub hsub, fun x hx => ?_⟩
      rw [hget, if_pos rfl] at hx
      cases hx
      exact ⟨hc, hn⟩
  · intro hw id' x x' hx hx' hne
    rw [hget] at hx'
    split at hx'
    · next heq =>
      subst heq
      cases hsub.symm.trans hx
      cases hx'
      obtain ⟨tok, hclaim, htok, hnew⟩ := hstatus hw hne
      exact ⟨tok, hclaim, htok, by rw [hnew]⟩
    · rw [hx] at hx'
      exact absurd (congrArg Submission.deliveryStatus (Option.some.inj hx')).symm hne
  · intro id' x x' hx hx' hne heq'
    rw [hget] at hx'
    split at hx'
    · next heq =>
      subst heq
      cases hsub.symm.trans hx
      cases hx'
      exact hcancel hne heq'
    · rw [hx] at hx'
      exact absurd (Option.some.inj hx' ▸ heq') hne

theorem Guar.of_note {e : Event}
    (hown : ∀ tok : Token, e.token = some tok → s.tokens[tok]? = some i)
    (hends : ∀ id, ¬ e.Ends id) (hfin : finalizedTokens [e] = [])
    (hhanded : Inv A s → HandedOk (s.log ++ [e]))
    (hchecked : Inv A s → CheckedOk (s.log ++ [e])) :
    Guar A W i s (s.note e) where
  inv h :=
    { minted := h.minted
      logged := by
        intro e' he' tok htok
        rcases List.mem_append.mp he' with he' | he'
        · exact h.logged e' he' tok htok
        · obtain rfl := List.mem_singleton.mp he'
          exact ⟨i, hown tok htok⟩
      known := h.known
      ended := by
        intro e' he' id hend
        rcases List.mem_append.mp he' with he' | he'
        · exact h.ended e' he' id hend
        · obtain rfl := List.mem_singleton.mp he'
          exact absurd hend (hends id)
      once := by
        change (finalizedTokens (s.log ++ [e])).Nodup
        rw [finalizedTokens_concat hfin]
        exact h.once
      handed := hhanded h
      checked := hchecked h }
  tokens := fun _ _ h => h
  grows := ⟨[e], rfl, fun e' he' tok htok => hown tok (by rwa [List.mem_singleton.mp he'] at htok)⟩
  status := fun _ id sub sub' h h' hne =>
    absurd (congrArg Submission.deliveryStatus (Option.some.inj (h.symm.trans h'))).symm hne
  cancel := (@Guar.refl A W i s).cancel

/-! ## The worker's program -/

theorem Inv.mint_fresh (h : Inv A s) (hnonce : '|' ∉ nonce) (now : Int) :
    s.tokens[mintToken A.cfg.formatTime nonce (s.seqs.getD nonce 0 + 1) now]? = none := by
  by_contra hsome
  obtain ⟨j, hj⟩ := Option.ne_none_iff_exists'.mp hsome
  obtain ⟨nonce', n, now', heq, hnonce', hle⟩ := h.minted _ j hj
  obtain ⟨rfl, rfl⟩ := mintToken_inj hnonce hnonce' heq
  omega

theorem wp_mint (hnonce : '|' ∉ nonce) {k : Int × Token → QueueProg Unit} (h : Inv A s)
    (hk : ∀ now tok s, Mine A i tok s → wp (Exec A) (Guar A W) i (k (now, tok)) Q s) :
    wp (Exec A) (Guar A W) i (mint nonce >>= k) Q s := by
  refine wp_call Inv.stable h fun s1 r s2 h1 hx => ?_
  cases (hx : Exec A i (.mint nonce) s1 r s2) with
  | mint now hn htok =>
    subst hn
    rename_i tok
    have hfresh : s1.tokens[tok]? = none := htok ▸ h1.mint_fresh hnonce now
    have hkeep : ∀ (tok' : Token) (j : ℕ), s1.tokens[tok']? = some j →
        (s1.tokens.insert tok i)[tok']? = some j := by
      intro tok' j hj
      have hne : tok ≠ tok' := by
        rintro rfl
        rw [hfresh] at hj
        cases hj
      simpa [Map.getElem?_insert, hne] using hj
    have hinv : Inv A { s1 with
        seqs := s1.seqs.insert nonce (s1.seqs.getD nonce 0 + 1)
        tokens := s1.tokens.insert tok i } := by
      refine { h1 with minted := fun tok' j hj => ?_, logged := fun e he tok' htok' => ?_ }
      · have hj' : (s1.tokens.insert tok i)[tok']? = some j := hj
        rw [Map.getElem?_insert] at hj'
        split at hj'
        · next heq =>
          exact ⟨nonce, _, now, heq ▸ htok, hnonce, by simp⟩
        · obtain ⟨nonce', n, now', heq, hnonce', hle⟩ := h1.minted tok' j hj'
          refine ⟨nonce', n, now', heq, hnonce', ?_⟩
          change n ≤ (s1.seqs.insert nonce (s1.seqs.getD nonce 0 + 1)).getD nonce' 0
          rw [Std.ExtTreeMap.getD_insert]
          split
          · next hcmp =>
            obtain rfl := Std.LawfulEqCmp.eq_of_compare hcmp
            omega
          · exact hle
      · obtain ⟨j, hj⟩ := h1.logged e he tok' htok'
        exact ⟨j, hkeep tok' j hj⟩
    refine ⟨⟨fun _ => hinv, hkeep, ⟨[], by simp, by simp⟩, (@Guar.refl A W i s1).status,
      (@Guar.refl A W i s1).cancel⟩,
      hk now tok _ ⟨hinv, by simp, fun hmem => ?_⟩⟩
    -- nothing in the history can mention a token that did not exist
    obtain ⟨e, he, htok'⟩ := exists_token_of_mem_finalizedTokens hmem
    obtain ⟨j, hj⟩ := h1.logged e he tok htok'
    rw [hfresh] at hj
    cases hj

theorem finalized_undoStatus (cfg : WorkerConfig) (now : Int) (jitter : Int → Int)
    (results : List Result) (sub : Submission) :
    (finalized cfg now jitter results sub).undoStatus = undoFinal ∨
      (finalized cfg now jitter results sub).undoStatus = sub.undoStatus := by
  unfold finalized
  dsimp only
  split
  · split
    · exact .inl rfl
    · exact .inr rfl
  · exact .inl rfl

theorem guar_claim (htok : s.tokens[tok]? = some i)
    (h : claimTxn A.cfg id now tok s.account = some a) :
    Guar A W i s ({ s with account := a }.note (.claimed tok id before after)) := by
  obtain ⟨sub, due, hsub, hdue, rfl⟩ := claimTxn_eq h
  refine Guar.of_put hsub rfl (.inr ⟨_, rfl, trivial⟩) ?_ ?_ ?_ ?_ ?_ ?_
  · rintro e he tok' htok'
    obtain rfl := List.mem_singleton.mp he
    cases htok'
    exact htok
  · intro _ hnext
    rw [hdue] at hnext
    cases hnext
  · intro e he id' hend
    obtain rfl := List.mem_singleton.mp he
    exact hend.elim
  · intro honce
    rwa [finalizedTokens_concat rfl]
  · exact fun _ hne => absurd rfl hne
  · exact fun hne heq => absurd heq hne

theorem guar_finalize (hmine : Mine A i tok s)
    (h : finalizeTxn A.cfg id tok now jitter results s.account = some a)
    (hbefore : s.account.submissions[id]? = some before)
    (hafter : a.submissions[id]? = some after) :
    Guar A W i s ({ s with account := a }.note (.finalized tok id before after)) := by
  obtain ⟨sub, hsub, hclaim, rfl⟩ := finalizeTxn_eq h
  obtain rfl := Option.some.inj (hsub.symm.trans hbefore)
  obtain rfl := Option.some.inj ((Account.put_self _ id _).symm.trans hafter)
  refine Guar.of_put hsub rfl (.inr ⟨_, rfl, trivial⟩) ?_ ?_ ?_ ?_ ?_ ?_
  · intro e he tok' htok'
    obtain rfl := List.mem_singleton.mp he
    obtain rfl := Option.some.inj htok'
    exact hmine.drawn
  · intro hc
    rw [hclaim] at hc
    cases hc
  · intro e he id' hend
    obtain rfl := List.mem_singleton.mp he
    exact hend.elim
  · -- the token was not finalized before
    intro honce
    rw [finalizedTokens_append]
    exact List.nodup_append.mpr ⟨honce, List.nodup_singleton tok, fun t ht t' ht' heq =>
      hmine.fresh (List.mem_singleton.mp ht' ▸ heq ▸ ht)⟩
  · exact fun _ _ => ⟨tok, hclaim, hmine.drawn, rfl⟩
  · intro hne heq
    rcases finalized_undoStatus A.cfg now jitter results sub with hfin | hsame
    · rw [hfin] at heq
      exact absurd heq (by decide)
    · exact absurd (hsame ▸ heq) hne

theorem guar_check (htok : s.tokens[tok]? = some i)
    (h : checkTxn id tok s.account = some (seen, env)) :
    Guar A W i s (s.note (.checked tok id seen)) := by
  obtain ⟨hsub, hclaim⟩ := checkTxn_eq h
  refine Guar.of_note ?_ (fun _ hend => hend.elim) rfl ?_ ?_
  · rintro tok' htok'
    cases htok'
    exact htok
  · exact fun hinv => along_concat.mpr ⟨hinv.handed, fun _ _ _ heq => by cases heq⟩
  · -- a record that left the queue carries no claim
    refine fun hinv => along_concat.mpr ⟨hinv.checked, fun _ _ _ heq e he hend => ?_⟩
    obtain ⟨rfl, rfl, rfl⟩ := Event.checked.inj heq
    have hnone := ((hinv.ended e he _ hend).2 _ hsub).1
    rw [hclaim] at hnone
    cases hnone

theorem guar_submit (hmine : MineChecked A i tok id seen s) :
    Guar A W i s (s.note (.handed tok id (queuedRecipients seen env))) := by
  refine Guar.of_note ?_ (fun _ hend => hend.elim) rfl ?_ ?_
  · rintro tok' htok'
    cases htok'
    exact hmine.1.drawn
  · refine fun hinv => along_concat.mpr ⟨hinv.handed, fun _ _ _ heq => ?_⟩
    obtain ⟨rfl, rfl, rfl⟩ := Event.handed.inj heq
    exact ⟨seen, hmine.2, fun r hr => by simpa using (List.mem_filter.mp hr).2⟩
  · exact fun hinv => along_concat.mpr ⟨hinv.checked, fun _ _ _ heq => by cases heq⟩

theorem wp_claim {k : Bool → QueueProg Unit} (h : Mine A i tok s)
    (hk : ∀ won s, Mine A i tok s → wp (Exec A) (Guar A W) i (k won) Q s) :
    wp (Exec A) (Guar A W) i (claim id now tok >>= k) Q s := by
  refine wp_call Mine.stable h fun s1 r s2 h1 hx => ?_
  cases (hx : Exec A i (.claim id now tok) s1 r s2) with
  | claim htxn =>
    exact ⟨guar_claim h1.drawn htxn,
      hk _ _ (.step (guar_claim (W := W) h1.drawn htxn) (finalizedTokens_concat rfl) h1)⟩
  | claimFails => exact ⟨.refl, hk _ _ h1⟩
  | claimUnnoticed htxn =>
    exact ⟨guar_claim h1.drawn htxn,
      hk _ _ (.step (guar_claim (W := W) h1.drawn htxn) (finalizedTokens_concat rfl) h1)⟩

theorem finalize_spec (h : Mine A i tok s) :
    wp (Exec A) (Guar A W) i (finalize id tok results) (fun _ => Inv A) s := by
  refine wp_call Mine.stable h fun s1 r s2 h1 hx => ?_
  cases (hx : Exec A i (.finalize id tok results) s1 r s2) with
  | finalize now jitter htxn hbefore hafter =>
    exact ⟨guar_finalize h1 htxn hbefore hafter,
      (guar_finalize (W := W) h1 htxn hbefore hafter).inv h1.inv⟩
  | finalizeFails => exact ⟨.refl, h1.inv⟩

theorem transmit_spec (h : MineChecked A i tok id seen s) :
    wp (Exec A) (Guar A W) i (transmit id tok seen (queuedRecipients seen env))
      (fun _ => Mine A i tok) s := by
  refine wp_call MineChecked.stable h fun s1 (opened : Bool) s2 h1 hx => ?_
  cases (hx : Exec A i (.openBlob seen.blobId) s1 opened s2) with
  | openBlob _ =>
    refine ⟨.refl, ?_⟩
    change wp (Exec A) (Guar A W) i (if opened then _ else _) _ _
    split
    · refine wp_call MineChecked.stable h1 fun s3 r s4 h3 hx' => ?_
      cases (hx' : Exec A i (.submit id tok (queuedRecipients seen env)) s3 r s4) with
      | submit results err =>
        exact ⟨guar_submit h3, .step (guar_submit (W := W) h3) (finalizedTokens_concat rfl) h3.1⟩
    · exact h1.1

theorem sendOne_spec (h : Mine A i tok s) :
    wp (Exec A) (Guar A W) i (sendOne id tok) (fun _ => Inv A) s := by
  refine wp_call Mine.stable h fun s1 r s2 h1 hx => ?_
  cases (hx : Exec A i (.check id tok) s1 r s2) with
  | checkFails => exact ⟨.refl, h1.inv⟩
  | @check _ _ _ seen env htxn =>
    have hg : Guar A W i s1 _ := guar_check h1.drawn htxn
    have hmine : MineChecked A i tok id seen (s1.note (.checked tok id seen)) :=
      ⟨.step hg (finalizedTokens_concat rfl) h1,
        List.mem_append_right _ (List.mem_singleton_self _)⟩
    refine ⟨hg, ?_⟩
    change wp (Exec A) (Guar A W) i (if (queuedRecipients seen env).isEmpty then _ else _) _ _
    split
    · exact finalize_spec hmine.1
    · exact wp_bind_of (transmit_spec hmine) fun _ _ hm => finalize_spec hm

theorem workerRun_spec (hnonce : '|' ∉ nonce) (ids : List JmapId) (h : Inv A s) :
    wp (Exec A) (Guar A W) i (workerRun nonce ids) (fun _ => Inv A) s := by
  induction ids generalizing s with
  | nil => exact h
  | cons id rest ih =>
    refine wp_mint hnonce h fun now tok s1 h1 => ?_
    refine wp_claim h1 fun won s2 h2 => ?_
    cases won with
    | false => exact ih h2.inv
    | true => exact wp_bind_of (sendOne_spec h2) fun _ _ h3 => ih h3

/-! ## Requests from outside -/

theorem guar_create (hnew : id ∉ s.ids) (hinv : Inv A s) (hout : ¬ W i) :
    Guar A W i s
      { s with account := s.account.put id { sub with claimedAt := none }
               ids := s.ids ++ [id] } := by
  have hget : ∀ id' : JmapId,
      (s.account.put id { sub with claimedAt := none }).submissions[id']? =
        if id = id' then some { sub with claimedAt := none }
        else s.account.submissions[id']? := fun id' => Map.getElem?_insert _ _ _ _
  have hnone : s.account.submissions[id]? = none := by
    cases hsub : s.account.submissions[id]? with
    | none => rfl
    | some x => exact absurd (hinv.known id x hsub) hnew
  refine ⟨fun _ => { hinv with known := ?_, ended := ?_ }, fun _ _ h => h,
    ⟨[], by simp, by simp⟩, fun hw => absurd hw hout, ?_⟩
  · intro id' x hx
    rw [hget] at hx
    split at hx
    · next heq => exact List.mem_append_right _ (List.mem_singleton.mpr heq.symm)
    · exact List.mem_append_left _ (hinv.known id' x hx)
  · -- the new id is none of those that ended
    intro e he id' hend
    obtain ⟨hmem, hover⟩ := hinv.ended e he id' hend
    refine ⟨List.mem_append_left _ hmem, fun x hx => ?_⟩
    have hne : id ≠ id' := by
      rintro rfl
      exact hnew hmem
    rw [hget, if_neg hne] at hx
    exact hover x hx
  · intro id' x x' hx hx' hne heq'
    rw [hget] at hx'
    split at hx'
    · next heq =>
      rw [← heq, hnone] at hx
      cases hx
    · rw [hx] at hx'
      exact absurd (Option.some.inj hx' ▸ heq') hne

theorem guar_destroy (hout : ¬ W i) (h : destroyTxn id s.account = some a) :
    Guar A W i s ({ s with account := a }.note (.destroyed id)) := by
  obtain ⟨⟨sub, hsub⟩, ha⟩ := destroyTxn_eq h
  have hget : ∀ id' : JmapId, a.submissions[id']? =
      if id = id' then none else s.account.submissions[id']? := by
    intro id'
    rw [ha, Map.getElem?_erase]
  -- a record that is still there is the one that was there
  have hold : ∀ (id' : JmapId) (x : Submission), a.submissions[id']? = some x →
      s.account.submissions[id']? = some x := by
    intro id' x hx
    rw [hget] at hx
    split at hx
    · cases hx
    · exact hx
  refine ⟨fun hinv => ⟨hinv.minted, ?_, fun id' x hx => hinv.known id' x (hold id' x hx), ?_, ?_,
    handedOk_of_plain hinv.handed (.inr ⟨_, rfl, trivial⟩),
    checkedOk_of_plain hinv.checked (.inr ⟨_, rfl, trivial⟩)⟩,
    fun _ _ h => h, ⟨[_], rfl, fun e he tok htok => ?_⟩, ?_, ?_⟩
  · intro e he tok htok
    rcases List.mem_append.mp he with he | he
    · exact hinv.logged e he tok htok
    · obtain rfl := List.mem_singleton.mp he
      cases htok
  · intro e he id' hend
    rcases List.mem_append.mp he with he | he
    · obtain ⟨hmem, hover⟩ := hinv.ended e he id' hend
      exact ⟨hmem, fun x hx => hover x (hold id' x hx)⟩
    · obtain rfl := List.mem_singleton.mp he
      obtain rfl : id = id' := hend
      refine ⟨hinv.known id sub hsub, fun x hx => ?_⟩
      have hgone : a.submissions[id]? = some x := hx
      rw [hget, if_pos rfl] at hgone
      cases hgone
  · change (finalizedTokens (s.log ++ [.destroyed id])).Nodup
    rw [finalizedTokens_concat rfl]
    exact hinv.once
  · obtain rfl := List.mem_singleton.mp he
    cases htok
  · exact fun hw => absurd hw hout
  · exact fun id' x x' hx hx' hne heq =>
      (@Guar.refl A W i s).cancel id' x x' hx (hold id' x' hx') hne heq

theorem guar_cancel (hout : ¬ W i) (h : undoTxn id newStatus s.account = some a)
    (hbefore : s.account.submissions[id]? = some before) (hmoves : newStatus ≠ before.undoStatus) :
    Guar A W i s ({ s with account := a }.note (.canceled id before)) := by
  obtain ⟨hclaim, -, rfl⟩ := undoTxn_eq h hbefore hmoves
  refine Guar.of_put hbefore rfl (.inr ⟨_, rfl, trivial⟩) ?_ ?_ ?_ ?_ ?_ ?_
  · intro e he tok htok
    obtain rfl := List.mem_singleton.mp he
    cases htok
  · exact fun _ _ => ⟨hclaim, rfl⟩
  · intro e he id' hend
    obtain rfl := List.mem_singleton.mp he
    exact ⟨Eq.symm hend, hclaim, rfl⟩
  · intro honce
    rwa [finalizedTokens_concat rfl]
  · exact fun hw => absurd hw hout
  · exact fun _ _ => hclaim

theorem guar_ingest (hout : ¬ W i)
    (h : ingestTxn A.fold fallback rep draw s.account = some (id, a)) :
    Guar A W i s { s with account := a } := by
  obtain ⟨sub, rows, exact, hsub, ha⟩ := ingestTxn_eq h
  have hput := Guar.of_put (A := A) hsub ha (.inl rfl) (by simp)
    (fun hc hn => ⟨hc, hn⟩) (by simp) (by simp) (fun hw => absurd hw hout)
    (fun hne heq => absurd heq hne)
  simpa using hput

theorem request_spec (r : Request) (hout : ¬ W i) (h : Inv A s) :
    wp (Exec A) (Guar A W) i r.prog (fun _ => Inv A) s := by
  -- whatever the transaction does, the invariant is there again for the next request
  have hstep : ∀ {s1 s2 : Sys}, Inv A s1 → Guar A W i s1 s2 → Guar A W i s1 s2 ∧ Inv A s2 :=
    fun h1 hg => ⟨hg, hg.inv h1⟩
  cases r with
  | create sub =>
    refine wp_call Inv.stable h fun s1 r s2 h1 hx => hstep h1 ?_
    cases (hx : Exec A i (.create sub) s1 r s2) with
    | create id hnew => exact guar_create hnew h1 hout
    | createFails => exact .refl
  | undo id newStatus =>
    refine wp_call Inv.stable h fun s1 r s2 h1 hx => hstep h1 ?_
    cases (hx : Exec A i (.undo id newStatus) s1 r s2) with
    | cancel htxn hbefore hmoves => exact guar_cancel hout htxn hbefore hmoves
    | undoKeeps => exact .refl
  | destroy id =>
    refine wp_call Inv.stable h fun s1 r s2 h1 hx => hstep h1 ?_
    cases (hx : Exec A i (.destroy id) s1 r s2) with
    | destroy htxn => exact guar_destroy hout htxn
    | destroyFails => exact .refl
  | report rep fallback =>
    refine wp_call Inv.stable h fun s1 r s2 h1 hx => hstep h1 ?_
    cases (hx : Exec A i (.ingest rep fallback) s1 r s2) with
    | ingest draw htxn => exact guar_ingest hout htxn
    | ingestFails => exact .refl

theorem requests_spec (rs : List Request) (hout : ¬ W i) (h : Inv A s) :
    wp (Exec A) (Guar A W) i (requests rs) (fun _ => Inv A) s := by
  induction rs generalizing s with
  | nil => exact h
  | cons r rest ih => exact wp_bind_of (request_spec r hout h) fun _ _ h' => ih h'

/-! ## All processes together -/

def workersOf (jobs : ℕ → Job) (i : ℕ) : Prop := ∃ nonce ids, jobs i = .worker nonce ids

theorem job_spec (jobs : ℕ → Job) (hhex : ∀ i, (jobs i).Hex) (i : ℕ) (h : Inv A s) :
    wp (Exec A) (Guar A (workersOf jobs)) i (jobs i).prog (fun _ _ => True) s := by
  have hi := hhex i
  cases hjob : jobs i with
  | worker nonce ids =>
    rw [hjob] at hi
    exact wp_mono (fun _ _ _ => trivial) (workerRun_spec hi ids h)
  | outside rs =>
    have hout : ¬ workersOf jobs i := by
      rintro ⟨nonce, ids, hw⟩
      rw [hjob] at hw
      cases hw
    exact wp_mono (fun _ _ _ => trivial) (requests_spec rs hout h)

theorem Inv.start : Inv A {} where
  minted := by simp
  logged := by simp
  known := by simp
  ended := by simp
  once := List.nodup_nil
  handed := Along.nil
  checked := Along.nil

theorem Guar.of_next {jobs : ℕ → Job} (hhex : ∀ i, (jobs i).Hex) {c : Config ℕ Sys Op Ans}
    (hr : Config.Reaches (Exec A) (start jobs) c) {o : Op} {k : Ans o → QueueProg Unit}
    (hi : c.threads i = .call o k) {r : Ans o} (hx : Exec A i o c.state r s') :
    Guar A (workersOf jobs) i c.state s' := by
  have hwp := (Config.reaches_wp (fun i => job_spec jobs hhex i Inv.start) hr).1 i
  rw [hi] at hwp
  exact (hwp c.state .refl r s' hx).1

/-- In every interleaving of any number of workers, on any clocks, with clients and reports:

    - a claim token is finalized by at most one commit;
    - the next step of a worker changes deliveryStatus only if the stored token is its own, and
      then it is the finalize of that token;
    - whoever was handed over was queued in the committed record at a check made before with
      that token;
    - the next step of any process cancels a record only if no token is stored;
    - no check succeeds on a record that was canceled or destroyed before. -/
theorem claims_exclusive (A : Assumed) (jobs : ℕ → Job) (hhex : ∀ i, (jobs i).Hex)
    {c : Config ℕ Sys Op Ans} (hr : Config.Reaches (Exec A) (start jobs) c) :
    (finalizedTokens c.state.log).Nodup ∧
    (∀ (i : ℕ) (nonce : List Char) (ids : List JmapId), jobs i = .worker nonce ids →
      ∀ (o : Op) (k : Ans o → QueueProg Unit) (r : Ans o) (s' : Sys),
        c.threads i = .call o k → Exec A i o c.state r s' →
        ∀ (id : JmapId) (sub sub' : Submission), c.state.account.submissions[id]? = some sub →
          s'.account.submissions[id]? = some sub' → sub'.deliveryStatus ≠ sub.deliveryStatus →
          ∃ tok : Token, sub.claimedAt = some tok ∧ c.state.tokens[tok]? = some i ∧
            s'.log = c.state.log ++ [.finalized tok id sub sub']) ∧
    HandedOk c.state.log ∧
    (∀ (i : ℕ) (o : Op) (k : Ans o → QueueProg Unit) (r : Ans o) (s' : Sys),
      c.threads i = .call o k → Exec A i o c.state r s' →
      ∀ (id : JmapId) (sub sub' : Submission), c.state.account.submissions[id]? = some sub →
        s'.account.submissions[id]? = some sub' → sub.undoStatus ≠ undoCanceled →
        sub'.undoStatus = undoCanceled → sub.claimedAt = none) ∧
    CheckedOk c.state.log := by
  have hinv : Inv A c.state := Config.reaches_inv (fun _ _ _ hg => hg.inv)
    (fun i => job_spec jobs hhex i Inv.start) Inv.start hr
  refine ⟨hinv.once, ?_, hinv.handed, ?_, hinv.checked⟩
  · intro i nonce ids hjob o k r s' hi hx id sub sub' hsub hsub' hne
    exact (Guar.of_next hhex hr hi hx).status ⟨nonce, ids, hjob⟩ id sub sub' hsub hsub' hne
  · intro i o k r s' hi hx id sub sub' hsub hsub' hne heq
    exact (Guar.of_next hhex hr hi hx).cancel id sub sub' hsub hsub' hne heq

/-! ## A stalled worker

Worker 1 claims and stalls; when its claim has expired, worker 2 claims, transmits and
finalizes, and worker 1 wakes up. -/

def Assumed.plain : Assumed where
  cfg :=
    { retrySchedule := [60000000000], retryPlateau := 60000000000, giveUpAfter := 1000000000000
      minAttempts := 3, claimWindow := 30000000000, formatTime := fun t => t.repr.toList }
  fold := { equalFold := fun a b => a == b, sameIndexed := fun a b => a == b }

def awaiting : DeliveryStatus := ⟨"250 2.0.0 queued", "queued", "unknown"⟩

def toTwo : Submission where
  envelope := some
    { mailFrom := some { email := "s@x" }, rcptTo := [{ email := "a@x" }, { email := "b@x" }] }
  sendAt := some 0
  undoStatus := undoPending
  deliveryStatus := (Std.ExtTreeMap.empty.insert "a@x" awaiting).insert "b@x" awaiting
  nextAttemptAt := some 0
  blobId := "B"

/-- A client that creates it and later cancels it, and two workers. -/
def queueJobs : ℕ → Job
  | 0 => .outside [.create toTwo, .undo "S" undoCanceled]
  | 1 => .worker ['a'] ["S"]
  | _ => .worker ['b'] ["S"]

theorem queueJobs_hex (i : ℕ) : (queueJobs i).Hex := by
  unfold queueJobs
  split
  · trivial
  · change '|' ∉ ['a']
    decide
  · change '|' ∉ ['b']
    decide

def stalled : List (ℕ × Choice) :=
  [(0, .drawn "S"), (1, .now 0), (1, .fine), (2, .now 40000000000), (2, .fine), (2, .fine),
    (2, .fine), (2, .replies [⟨"a@x", .accepted, "250 ok"⟩, ⟨"b@x", .rejected, "550 no"⟩] false),
    (2, .now 41000000000), (1, .fails)]

theorem finalized_of_stalled : (Config.play (eval .plain) stalled (start queueJobs)).any (fun c =>
    (finalizedTokens c.state.log).length = 1) := by
  decide +kernel

theorem claims_exclusive_stalled : ∃ c : Config ℕ Sys Op Ans,
    Config.Reaches (Exec .plain) (start queueJobs) c ∧
      (finalizedTokens c.state.log).length = 1 ∧ HandedOk c.state.log ∧
      CheckedOk c.state.log := by
  obtain ⟨c, hplay, hlen⟩ := (Option.any_eq_true _ _).mp finalized_of_stalled
  have hreach := Config.play_reaches eval_exec hplay
  obtain ⟨-, -, hhanded, -, hchecked⟩ := claims_exclusive .plain queueJobs queueJobs_hex hreach
  exact ⟨c, hreach, of_decide_eq_true hlen, hhanded, hchecked⟩

end NaustJmap.Submit
