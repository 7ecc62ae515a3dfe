import NaustJmap.Lease.StoreLease

/-!
# Safety of the Account Lease

Every step of the fleet is a step of the fencing pattern, so an applied batch is the one its caller
computes on the present store, and a caller whose claim was replaced writes nothing.
-/

namespace NaustJmap.Lease

open Library ObjectDB

/-! ## The fencing view -/

def Phase.work (db : DB) (acct : JmapId) : Phase → Option (Work Token Store (List BatchOp))
  | .holding op tok seen => some ⟨tok, op.prog db acct, seen⟩
  | _ => none

def Phase.minted : Phase → Option ℕ
  | .reading _ m => m.map Prod.fst
  | .decided _ m _ => m.map Prod.fst
  | _ => none

variable {x : Inst} {claim : Option Token} {op : Op} {seen : List Store} {batch : List BatchOp}

section View

variable {I : Type}

/-- The tokens minted so far, without those still to be swapped in. -/
def Fleet.used (F : Fleet I) (inst : I → Inst) : Set Token :=
  {tok | ∃ i n e, tok = F.mint i n e ∧ n ≤ (inst i).seq ∧ (inst i).phase.minted ≠ some n}

def view (db : DB) (acct : JmapId) (F : Fleet I) (σ : Sys I) :
    FenceState Token Store (List BatchOp) I where
  claim := σ.claim
  data := σ.store
  used := F.used σ.inst
  work i := (σ.inst i).phase.work db acct

variable {F : Fleet I} {inst : I → Inst} {i : I} {n : ℕ} {e : Int}

theorem Fleet.bar_notMem_nonce (F : Fleet I) (i : I) : '|' ∉ F.nonce i := fun h =>
  absurd (F.nonce_hex i '|' h) (by decide)

theorem Fleet.mint_mem_used (hle : n ≤ (inst i).seq) (hm : (inst i).phase.minted ≠ some n) :
    F.mint i n e ∈ F.used inst :=
  ⟨i, n, e, rfl, hle, hm⟩

theorem Fleet.mint_notMem_used (h : (inst i).seq < n ∨ (inst i).phase.minted = some n) :
    F.mint i n e ∉ F.used inst := by
  rintro ⟨j, m, e', heq, hle, hm⟩
  obtain ⟨hnonce, rfl⟩ := mintToken_inj (F.bar_notMem_nonce i) (F.bar_notMem_nonce j) heq
  obtain rfl := F.nonce_injective hnonce
  rcases h with h | h
  · omega
  · exact hm h

variable [DecidableEq I]

theorem Fleet.used_mono (hseq : (inst i).seq ≤ x.seq)
    (hm : ∀ n ≤ (inst i).seq, x.phase.minted = some n → (inst i).phase.minted = some n) :
    F.used inst ⊆ F.used (Function.update inst i x) := by
  rintro tok ⟨j, n, e, rfl, hle, hnot⟩
  by_cases hj : j = i
  · subst hj
    exact ⟨j, n, e, rfl, by simpa using hle.trans hseq, by simpa using fun h => hnot (hm n hle h)⟩
  · exact ⟨j, n, e, rfl, by simpa [hj] using hle, by simpa [hj] using hnot⟩

theorem Fleet.used_phase {ph : Phase} (hm : ph.minted = (inst i).phase.minted) :
    F.used (Function.update inst i ⟨(inst i).seq, (inst i).token, ph⟩) = F.used inst := by
  refine Set.ext fun tok => exists_congr fun j => ?_
  by_cases hj : j = i
  · subst hj
    simp [hm]
  · simp [hj]

theorem view_update (db : DB) (acct : JmapId) (F : Fleet I) (σ : Sys I) (i : I) (x : Inst)
    (claim : Option Token) (s : Store) :
    view db acct F ⟨claim, s, Function.update σ.inst i x⟩ =
      ⟨claim, s, F.used (Function.update σ.inst i x),
        Function.update (view db acct F σ).work i (x.phase.work db acct)⟩ := by
  have := Function.comp_update (fun y : Inst => y.phase.work db acct) σ.inst i x
  simp only [view, FenceState.mk.injEq, true_and]
  exact this

end View

/-! ## The simulation -/

def Sys.MintedOk {I : Type} (σ : Sys I) : Prop :=
  ∀ i n, (σ.inst i).phase.minted = some n → n ≤ (σ.inst i).seq

section Simulation

variable {I : Type} [DecidableEq I] {db : DB} {acct : JmapId} {F : Fleet I} {σ σ' : Sys I}

theorem Sys.MintedOk.update (h : σ.MintedOk) {i : I} {s : Store}
    (hx : ∀ n, x.phase.minted = some n → n ≤ x.seq) :
    Sys.MintedOk ⟨claim, s, Function.update σ.inst i x⟩ := by
  intro j n hj
  by_cases hji : j = i
  · subst hji
    simp only [Function.update_self] at hj ⊢
    exact hx n hj
  · simp only [Function.update_of_ne hji] at hj ⊢
    exact h j n hj

theorem fenceStep_stop {i : I} (hwork : x.phase.work db acct = none)
    (hseq : (σ.inst i).seq ≤ x.seq)
    (hm : ∀ n ≤ (σ.inst i).seq, x.phase.minted = some n → (σ.inst i).phase.minted = some n)
    (hclaim : claim = σ.claim ∨ ∃ tok ∉ F.used σ.inst,
      tok ∈ F.used (Function.update σ.inst i x) ∧ claim = some tok) :
    FenceStep applyBatch (view db acct F σ)
      (view db acct F ⟨claim, σ.store, Function.update σ.inst i x⟩) := by
  rw [view_update, hwork]
  exact .stop (F.used_mono hseq hm) hclaim

theorem fenceStep_acquire {i : I} {n m : ℕ} {exp : Int} {remembered : Option Token}
    (hfresh : (σ.inst i).seq < n ∨ (σ.inst i).phase.minted = some n) (hseq : (σ.inst i).seq ≤ m)
    (hn : n ≤ m) :
    FenceStep applyBatch (view db acct F σ)
      (view db acct F ⟨some (F.mint i n exp), σ.store,
        Function.update σ.inst i ⟨m, remembered, .holding op (F.mint i n exp) []⟩⟩) := by
  have hused : insert (F.mint i n exp) (F.used σ.inst) ⊆ F.used (Function.update σ.inst i
      ⟨m, remembered, .holding op (F.mint i n exp) []⟩) := by
    refine Set.insert_subset (Fleet.mint_mem_used ?_ ?_) (F.used_mono hseq ?_)
    · simpa using hn
    · simp [Phase.minted]
    · simp [Phase.minted]
  rw [view_update]
  exact .acquire (F.mint_notMem_used hfresh) hused

/-- **Every step of the fleet is a step of the fencing pattern.** -/
theorem lease_simulates (hok : σ.MintedOk) (hstep : LeaseStep db acct F σ σ') :
    FenceStep applyBatch (view db acct F σ) (view db acct F σ') ∧ σ'.MintedOk := by
  cases hstep with
  | startStore hpol hph =>
    exact ⟨fenceStep_stop rfl le_rfl (by simp [Phase.minted]) (.inl rfl),
      hok.update (by simp [Phase.minted])⟩
  | @startInProcess i op now hpol hph =>
    split
    · exact ⟨fenceStep_acquire (.inl (Nat.lt_succ_self _)) (Nat.le_succ _) le_rfl,
        hok.update (by simp [Phase.minted])⟩
    · refine ⟨fenceStep_stop rfl (Nat.le_succ _) ?_ (.inl rfl), hok.update ?_⟩
      · intro n hn hm
        obtain rfl : (σ.inst i).seq + 1 = n := by simpa [Phase.minted] using hm
        omega
      · intro n hm
        exact le_of_eq (by simpa [Phase.minted] using hm.symm)
  | @getClaim i op minted hph =>
    -- the token minted at the start stays unused
    refine ⟨fenceStep_stop rfl le_rfl ?_ (.inl rfl), hok.update fun n hm => hok i n ?_⟩
    · simp [Phase.minted, hph]
    · simpa [Phase.minted, hph] using hm
  | wait hpol hph hexp hlive =>
    exact ⟨fenceStep_stop rfl le_rfl (by simp [Phase.minted]) (.inl rfl),
      hok.update (by simp [Phase.minted])⟩
  | @swapStore i op old now now' hpol hph hdead =>
    dsimp only [Sys.cas]
    split
    · exact ⟨fenceStep_acquire (.inl (Nat.lt_succ_self _)) (Nat.le_succ _) le_rfl,
        hok.update (by simp [Phase.minted])⟩
    · exact ⟨fenceStep_stop rfl (Nat.le_succ _) (by simp [Phase.minted]) (.inl rfl),
        hok.update (by simp [Phase.minted])⟩
  | @swapInProcess i op old n exp hph =>
    have hm : (σ.inst i).phase.minted = some n := by simp [Phase.minted, hph]
    dsimp only [Sys.cas]
    split
    · exact ⟨fenceStep_acquire (.inr hm) le_rfl (hok i n hm),
        hok.update (by simp [Phase.minted])⟩
    · refine ⟨fenceStep_stop rfl le_rfl ?_ (.inl rfl), hok.update fun m hm' => ?_⟩
      · simp [Phase.minted, hph]
      · obtain rfl : n = m := by simpa [Phase.minted] using hm'
        exact hok i n hm
  | @read i op tok seen k hph hread =>
    have hwork : (view db acct F σ).work i = some ⟨tok, op.prog db acct, seen⟩ := by
      simp [view, hph, Phase.work]
    refine ⟨?_, hok.update (by simp [Phase.minted])⟩
    dsimp only [Sys.set]
    rw [view_update, F.used_phase (by simp [hph, Phase.minted])]
    exact .read hwork hread
  | @write i op tok seen batch hph hret =>
    have hwork : (view db acct F σ).work i = some ⟨tok, op.prog db acct, seen⟩ := by
      simp [view, hph, Phase.work]
    refine ⟨?_, hok.update (by simp [Phase.minted])⟩
    dsimp only [Sys.set]
    rw [view_update, F.used_phase (by simp [hph, Phase.minted])]
    exact .write hwork hret
  | giveUp hph =>
    exact ⟨fenceStep_stop rfl le_rfl (by simp [Phase.minted]) (.inl rfl),
      hok.update (by simp [Phase.minted])⟩
  | abandon hph hph' =>
    exact ⟨fenceStep_stop rfl le_rfl (by simp [Phase.minted]) (.inl rfl),
      hok.update (by simp [Phase.minted])⟩
  | @releaseStore i tok now failed hpol hph =>
    refine ⟨fenceStep_stop rfl (Nat.le_succ _) (by simp [Phase.minted]) ?_,
      hok.update (by simp [Phase.minted])⟩
    -- a release that wins leaves a token nobody uses
    unfold Sys.cas
    split
    · exact .inl rfl
    · split
      · exact .inr ⟨_, F.mint_notMem_used (.inl (Nat.lt_succ_self _)),
          F.mint_mem_used (by simp) (by simp [Phase.minted]), rfl⟩
      · exact .inl rfl
  | releaseInProcess hpol hph =>
    exact ⟨fenceStep_stop rfl le_rfl (by simp [Phase.minted]) (.inl rfl),
      hok.update (by simp [Phase.minted])⟩
  | @elsewhere i =>
    refine ⟨?_, hok.update fun n hm => (hok i n hm).trans (Nat.le_succ _)⟩
    rw [Sys.set, view_update,
      show (σ.inst i).phase.work db acct = (view db acct F σ).work i from rfl,
      Function.update_eq_self]
    exact .mint (F.used_mono (Nat.le_succ _) fun _ _ h => h)

theorem LeaseReachable.inv (h : LeaseReachable db acct F σ) :
    σ.MintedOk ∧ FenceInv (view db acct F σ) := by
  obtain ⟨s0, hsteps⟩ := h
  induction hsteps with
  | refl =>
    refine ⟨fun i n hm => by simp [Phase.minted] at hm, ?_, ?_, ?_, ?_⟩ <;>
      simp [view, Phase.work]
  | tail _ hstep ih =>
    obtain ⟨hsim, hok⟩ := lease_simulates ih.1 hstep
    exact ⟨hok, ih.2.step hsim⟩

theorem lease_stale {tok : Token} (hok : σ.MintedOk) (hused : tok ∈ F.used σ.inst)
    (hclaim : σ.claim ≠ some tok) (hsteps : Relation.ReflTransGen (LeaseStep db acct F) σ σ') :
    σ'.claim ≠ some tok := by
  have : σ'.MintedOk ∧ tok ∈ F.used σ'.inst ∧ σ'.claim ≠ some tok := by
    induction hsteps with
    | refl => exact ⟨hok, hused, hclaim⟩
    | tail _ hstep ih =>
      obtain ⟨hsim, hok'⟩ := lease_simulates ih.1 hstep
      exact ⟨hok', hsim.stale ih.2.1 ih.2.2⟩
  exact this.2.2

theorem LeaseStep.store_cases (hstep : LeaseStep db acct F σ σ') :
    σ'.store = σ.store ∨ ∃ i op tok seen batch, (σ.inst i).phase = .holding op tok seen ∧
      (op.prog db acct).after seen = .ret (some batch) ∧ σ.claim = some tok ∧
      σ'.store = applyBatch batch σ.store := by
  cases hstep with
  | @write i op tok seen batch hph hret =>
    by_cases hclaim : σ.claim = some tok
    · exact .inr ⟨i, op, tok, seen, batch, hph, hret, hclaim, if_pos hclaim⟩
    · exact .inl (if_neg hclaim)
  | startInProcess =>
    left
    split <;> rfl
  | _ => exact .inl rfl

/-- A write whose token is the claim is the one its program computes on the present store. -/
theorem LeaseReachable.write_atomic (h : LeaseReachable db acct F σ) {i : I} {tok : Token}
    (hph : (σ.inst i).phase = .holding op tok seen)
    (hret : (op.prog db acct).after seen = .ret (some batch)) (hclaim : σ.claim = some tok) :
    (op.prog db acct).run σ.store = some batch ∧ ∀ s ∈ seen, s = σ.store := by
  have hwork : (view db acct F σ).work i = some ⟨tok, op.prog db acct, seen⟩ := by
    simp [view, hph, Phase.work]
  exact h.inv.2.write_atomic hwork hret hclaim

theorem Op.run_update {c : Commit} {s : Store}
    (h : ((Op.update c).prog db acct).run s = some batch) :
    (db.update acct c).run s = .ok (some batch) := by
  simp only [Op.prog, Reads.run_bind, Reads.run_pure] at h
  cases hr : (db.update acct c).run s with
  | error e => simp [hr, Except.toOption] at h
  | ok r => simpa [hr, Except.toOption] using h

theorem Op.seen_ne_nil {c : Commit} {r : Option (List BatchOp)}
    (h : ((Op.update c).prog db acct).after seen = .ret r) : seen ≠ [] := by
  rintro rfl
  cases h

/-- **The lease is safe under any schedule and any clocks.**  From every reachable state, each
    step leaves the store alone or applies the batch of a caller whose token is the claim.
    Then every read of that caller saw the present store, the batch is the one its program
    computes on it, and an update raises the sequence by one from the value it read.  And a
    caller whose claim has been replaced writes nothing, whatever happens until its write. -/
theorem lease_safe (hreach : LeaseReachable db acct F σ) :
    (∀ σ', LeaseStep db acct F σ σ' →
      σ'.store = σ.store ∨
      ∃ i op tok seen batch, (σ.inst i).phase = .holding op tok seen ∧ σ.claim = some tok ∧
        (op.prog db acct).after seen = .ret (some batch) ∧
        σ'.store = applyBatch batch σ.store ∧ (∀ s ∈ seen, s = σ.store) ∧
        (op.prog db acct).run σ.store = some batch ∧
        ∀ c, op = .update c → (db.update acct c).run σ.store = .ok (some batch) ∧
          ∃ s0 rest, seen = s0 :: rest ∧ σ'.store.seq = s0.seq + 1) ∧
    ∀ σ' i op tok seen seen' batch, (σ.inst i).phase = .holding op tok seen →
      σ.claim ≠ some tok → Relation.ReflTransGen (LeaseStep db acct F) σ σ' →
      (σ'.inst i).phase = .holding op tok seen' → σ'.commit tok batch = σ'.store := by
  refine ⟨fun σ' hstep => ?_, ?_⟩
  · obtain hsame | ⟨i, op, tok, seen, batch, hph, hret, hclaim, hstore⟩ := hstep.store_cases
    · exact .inl hsame
    obtain ⟨hrun, hseen⟩ := hreach.write_atomic hph hret hclaim
    refine .inr ⟨i, op, tok, seen, batch, hph, hclaim, hret, hstore, hseen, hrun, ?_⟩
    rintro c rfl
    have hrun' := Op.run_update hrun
    obtain ⟨s0, rest, rfl⟩ := List.exists_cons_of_ne_nil (Op.seen_ne_nil hret)
    refine ⟨hrun', s0, rest, rfl, ?_⟩
    rw [hstore, hseen s0 List.mem_cons_self]
    exact update_seq hrun'
  · intro σ' i op tok seen seen' batch hph hclaim hsteps _
    obtain ⟨hok, hinv⟩ := hreach.inv
    have hwork : (view db acct F σ).work i = some ⟨tok, op.prog db acct, seen⟩ := by
      simp [view, hph, Phase.work]
    have hused : tok ∈ F.used σ.inst := hinv.work_used hwork
    exact if_neg (lease_stale hok hused hclaim hsteps)

def isCommit : Action → Bool
  | .commit _ => true
  | .trim _ => false

/-- A step that writes is one action on the present store, and only a commit moves the sequence. -/
theorem LeaseStep.action (hreach : LeaseReachable db acct F σ) (hstep : LeaseStep db acct F σ σ') :
    σ'.store = σ.store ∨ ∃ a : Action, σ'.store = a.apply db acct σ.store ∧
      σ'.store.seq = σ.store.seq + if isCommit a then 1 else 0 := by
  obtain hsame | ⟨i, op, tok, seen, batch, hph, hret, hclaim, hstore⟩ := hstep.store_cases
  · exact .inl hsame
  have hrun := (hreach.write_atomic hph hret hclaim).1
  right
  rw [hstore]
  cases op with
  | update c =>
    have hrun := Op.run_update hrun
    exact ⟨.commit c, by simp [Action.apply, hrun], update_seq hrun⟩
  | trim a =>
    have hrun : (DB.trimChanges a).run σ.store = some batch := hrun
    exact ⟨.trim a, by simp [Action.apply, hrun], (trim_effect hrun).rest.seq_eq⟩

/-- **The fleet is serializable**: between any two states, the store has gone through a list of
    commits and trims, each applied to what the one before it left, and the sequence has counted
    every commit once. -/
theorem fleet_serializable (hreach : LeaseReachable db acct F σ)
    (hsteps : Relation.ReflTransGen (LeaseStep db acct F) σ σ') :
    ∃ acts : List Action, σ'.store = acts.foldl (Action.apply db acct) σ.store ∧
      σ'.store.seq = σ.store.seq + acts.countP isCommit := by
  induction hsteps with
  | refl => exact ⟨[], rfl, rfl⟩
  | tail hprev hstep ih =>
    obtain ⟨acts, hstore, hseq⟩ := ih
    -- the history grows by the action of the step, if it wrote anything
    obtain hsame | ⟨a, ha, hcount⟩ := hstep.action (hreach.imp fun _ h => h.trans hprev)
    · exact ⟨acts, hsame.trans hstore, hsame ▸ hseq⟩
    · refine ⟨acts ++ [a], by rw [List.foldl_concat, ← hstore, ha], ?_⟩
      rw [hcount, hseq, List.countP_append, List.countP_singleton, Nat.add_assoc]

/-- The system after `StoreLease.Acquire` of instance `i` succeeded at `now`. -/
def Sys.acquired (σ : Sys I) (F : Fleet I) (i : I) (op : Op) (now : Int) : Sys I :=
  let tok := F.mint i ((σ.inst i).seq + 1) (now + F.expiry i)
  ⟨some tok, σ.store,
    Function.update σ.inst i ⟨(σ.inst i).seq + 1, (σ.inst i).token, .holding op tok []⟩⟩

/-- An undisturbed `StoreLease.Acquire` takes over a claim that its clock shows as dead. -/
theorem acquire_dead {i : I} {now : Int} (hpol : F.policy i = .storeLease)
    (hidle : (σ.inst i).phase = .idle)
    (hdead : ∀ exp, parseClaimExpiry F.parseTime σ.claim = some exp → ¬ now < exp) :
    Relation.ReflTransGen (LeaseStep db acct F) σ (σ.acquired F i op now) := by
  let σ1 : Sys I := σ.set i ⟨(σ.inst i).seq, (σ.inst i).token, .reading op none⟩
  let σ2 : Sys I := σ.set i ⟨(σ.inst i).seq, (σ.inst i).token, .decided op none σ.claim⟩
  have h1 : LeaseStep db acct F σ σ1 := .startStore hpol hidle
  have h2 : LeaseStep db acct F σ1 σ2 := by
    have hph : (σ1.inst i).phase = .reading op none := by simp [σ1, Sys.set]
    have hstep : LeaseStep db acct F σ1 _ := .getClaim hph
    simpa [σ1, σ2, Sys.set] using hstep
  have h3 : LeaseStep db acct F σ2 (σ.acquired F i op now) := by
    have hph : (σ2.inst i).phase = .decided op none σ.claim := by simp [σ2, Sys.set]
    have hstep := @LeaseStep.swapStore I _ db acct F σ2 i op σ.claim now now hpol hph hdead
    simpa [σ2, Sys.set, Sys.cas, Sys.acquired] using hstep
  exact ((Relation.ReflTransGen.single h1).tail h2).tail h3

end Simulation

/-! ## A takeover -/

def pairFleet : Fleet Bool where
  policy _ := .storeLease
  expiry _ := 0
  nonce i := if i then ['a'] else ['b']
  nonce_hex i c h := by cases i <;> simp_all
  nonce_injective i j h := by cases i <;> cases j <;> simp_all
  formatTime _ := ['0']
  parseTime _ := some 0

/-- The second instance takes the account over before the first one writes: whatever batch
    the first one has prepared, it is not applied. -/
theorem lease_safe_takeover :
    ∃ σ : Sys Bool, LeaseReachable noteDB "u" pairFleet σ ∧
      (σ.inst true).phase = .holding (.update (createNotes ["A"])) (pairFleet.mint true 1 0) [] ∧
      σ.claim = some (pairFleet.mint false 1 0) ∧
      ∀ batch, σ.commit (pairFleet.mint true 1 0) batch = σ.store := by
  have hdead : ∀ claim exp, parseClaimExpiry pairFleet.parseTime claim = some exp →
      ¬ (0 : Int) < exp := by
    intro claim exp h
    unfold parseClaimExpiry at h
    split at h
    · cases h
    · split at h
      · simp only [pairFleet, Option.some.injEq] at h
        omega
      · cases h
  let σ1 := (({} : Sys Bool)).acquired pairFleet true (.update (createNotes ["A"])) 0
  let σ2 := σ1.acquired pairFleet false (.update (createNotes ["B"])) 0
  have h1 : Relation.ReflTransGen (LeaseStep noteDB "u" pairFleet) {} σ1 :=
    acquire_dead rfl rfl (hdead _)
  have h2 : Relation.ReflTransGen (LeaseStep noteDB "u" pairFleet) σ1 σ2 :=
    acquire_dead rfl rfl (hdead _)
  have hreach : LeaseReachable noteDB "u" pairFleet σ2 := ⟨{}, h1.trans h2⟩
  have hne : pairFleet.mint false 1 0 ≠ pairFleet.mint true 1 0 := by decide
  refine ⟨σ2, hreach, rfl, rfl, fun batch => ?_⟩
  exact (lease_safe hreach).2 σ2 true (.update (createNotes ["A"])) _ [] [] batch rfl
    (fun h => hne (Option.some.inj h)) .refl rfl

/-- An instance takes the account, reads it and commits a new note. -/
theorem fleet_serializable_note : ∃ σ' : Sys Bool,
    Relation.ReflTransGen (LeaseStep noteDB "u" pairFleet) {} σ' ∧ ∃ acts : List Action,
      σ'.store = acts.foldl (Action.apply noteDB "u") {} ∧ acts.countP isCommit = 1 := by
  obtain ⟨batch, hrun⟩ : ∃ batch, (noteDB.update "u" (createNotes ["A"])).run {} =
      .ok (some batch) := ⟨_, rfl⟩
  have h1 : Relation.ReflTransGen (LeaseStep noteDB "u" pairFleet) {}
      (Sys.acquired {} pairFleet true (.update (createNotes ["A"])) 0) :=
    acquire_dead rfl rfl fun exp h => nomatch h
  have hret : ((Op.update (createNotes ["A"])).prog noteDB "u").after [{}] = .ret (some batch) :=
    congrArg (fun r : Except Err (Option (List BatchOp)) => Reads.ret (r.toOption.getD none)) hrun
  have h2 := (h1.tail (.read (i := true) rfl rfl)).tail (.write (i := true) rfl hret)
  obtain ⟨acts, hstore, hseq⟩ := fleet_serializable ⟨{}, .refl⟩ h2
  have hone : (applyBatch batch {}).seq = 1 := update_seq hrun
  have hcommit : (applyBatch batch {}).seq = 0 + acts.countP isCommit :=
    (congrArg Store.seq (if_pos rfl)).symm.trans hseq
  exact ⟨_, h2, acts, hstore, by omega⟩

end NaustJmap.Lease
