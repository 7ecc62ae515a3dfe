import NaustJmap.Blobs.Hints
import NaustJmap.Library.Drain

/-!
# Draining the Pending Hints

One call of `SweepBlobs` inspects the first `maxSweepPerCall` hints, and `more` asks for another
call.  A call whose window holds only hints inside their grace window reports no progress, and what
stands behind that window is not reached.  The loop is an instance of `Library.Drain`.
-/

namespace NaustJmap.Blobs

open Library ObjectDB

/-! ## One call -/

def young (now grace : Int) (s : Store) (b : JmapId) : Bool :=
  (s.uploads[b]?).any fun rec => decide (now - rec.uploadedAt < grace)

def sweptBlobs (acct : JmapId) (now grace : Int) (s : Store) (cands : List JmapId) :
    List JmapId :=
  cands.filter fun b =>
    (s.uploads[b]?).any (fun rec => !decide (now - rec.uploadedAt < grace)) &&
      !blobReferenced acct s b

/-- `DB.SweepBlobs` when nobody else writes and nothing fails. -/
def sweepAlone (acct : JmapId) (minAge now grace : Int) (s : Store) :
    List JmapId × Bool × Store :=
  let grace := max grace minAge
  let candidates := sweepCandidates acct s
  let ops := sweepOps acct now grace s candidates
  -- also the answer of the probe, which finds no candidate
  if ops = [] then ([], false, s)
  else
    (sweptBlobs acct now grace s candidates, decide (candidates.length = maxSweepPerCall),
      applyBatch ops s)

/-- Calling `SweepBlobs` as long as it returns `more`. -/
def Drains (acct : JmapId) (minAge now grace : Int) : Store → Store → Prop :=
  DoWhile (fun s => (sweepAlone acct minAge now grace s).2.1)
    (fun s => (sweepAlone acct minAge now grace s).2.2)

/-- The hint of an unreferenced blob whose grace window is over. -/
structure Due (acct : JmapId) (now grace : Int) (s : Store) (b : JmapId) : Prop where
  hinted : pendingKey acct b ∈ s.pending
  uploaded : ∃ rec, s.uploads[b]? = some rec ∧ grace ≤ now - rec.uploadedAt
  unreferenced : blobReferenced acct s b = false

/-- How many hints of young uploads the scan meets before that of `b`. -/
def youngAhead (acct : JmapId) (now grace : Int) (s : Store) (b : JmapId) : ℕ :=
  (s.pending.keys.filter fun K =>
    decide (compare K (pendingKey acct b) = .lt) && young now grace s (idFromObjKey K)).length

section

variable {acct : JmapId} {now grace : Int} {s : Store} {b : JmapId}

theorem Due.not_young (h : Due acct now grace s b) : young now grace s b = false := by
  obtain ⟨rec, hrec, hage⟩ := h.uploaded
  simp [young, hrec, hage]

theorem sweepOps_cons (acct : JmapId) (now grace : Int) (s : Store) (blobId : JmapId)
    (cands : List JmapId) :
    (young now grace s blobId = true ∧
        sweepOps acct now grace s (blobId :: cands) = sweepOps acct now grace s cands) ∨
      (young now grace s blobId = false ∧
        ∃ recs, (recs = [] ∨ recs = [.deleteUpload blobId]) ∧
          sweepOps acct now grace s (blobId :: cands) =
            recs ++ .deletePending (pendingKey acct blobId) ::
              sweepOps acct now grace s cands) := by
  cases hup : s.uploads[blobId]? with
  | none =>
    right
    exact ⟨by simp [young, hup], [], .inl rfl, by simp [sweepOps, hup]⟩
  | some rec =>
    by_cases hage : now - rec.uploadedAt < grace
    · left
      exact ⟨by simp [young, hup, hage], by simp [sweepOps, hup, hage]⟩
    · right
      refine ⟨by simp [young, hup, Int.not_lt.mp hage], ?_⟩
      cases href : blobReferenced acct s blobId with
      | true => exact ⟨[], .inl rfl, by simp [sweepOps, hup, hage, href]⟩
      | false => exact ⟨[.deleteUpload blobId], .inr rfl, by simp [sweepOps, hup, hage, href]⟩

theorem deletePending_mem_sweepOps_iff {cands : List JmapId} :
    .deletePending (pendingKey acct b) ∈ sweepOps acct now grace s cands ↔
      b ∈ cands ∧ young now grace s b = false := by
  induction cands with
  | nil => simp [sweepOps]
  | cons blobId cands ih =>
    obtain ⟨hyoung, heq⟩ | ⟨hold, recs, hrecs, heq⟩ :=
      sweepOps_cons acct now grace s blobId cands
    · rw [heq, ih]
      constructor
      · intro h
        exact ⟨List.mem_cons_of_mem _ h.1, h.2⟩
      · intro h
        rcases List.mem_cons.mp h.1 with rfl | hmem
        · exact absurd (hyoung.symm.trans h.2) (by decide)
        · exact ⟨hmem, h.2⟩
    · have hnot : .deletePending (pendingKey acct b) ∉ recs := by
        rcases hrecs with rfl | rfl <;> simp
      rw [heq, List.mem_append, or_iff_right hnot, List.mem_cons, ih,
        BatchOp.deletePending.injEq, (pendingKey_injective acct).eq_iff, List.mem_cons]
      constructor
      · intro h
        rcases h with rfl | h
        · exact ⟨.inl rfl, hold⟩
        · exact ⟨.inr h.1, h.2⟩
      · intro h
        exact h.1.imp_right fun hmem => ⟨hmem, h.2⟩

theorem deletePending_of_deleteUpload {cands : List JmapId}
    (h : .deleteUpload b ∈ sweepOps acct now grace s cands) :
    .deletePending (pendingKey acct b) ∈ sweepOps acct now grace s cands := by
  induction cands with
  | nil => cases h
  | cons blobId cands ih =>
    obtain ⟨-, heq⟩ | ⟨-, recs, hrecs, heq⟩ :=
      sweepOps_cons acct now grace s blobId cands
    · rw [heq] at h ⊢
      exact ih h
    · rw [heq] at h ⊢
      apply List.mem_append_right
      rcases List.mem_append.mp h with h | h
      · rcases hrecs with rfl | rfl
        · cases h
        · simp [BatchOp.deleteUpload.inj (List.mem_singleton.mp h)]
      · exact List.mem_cons_of_mem _ (ih ((List.mem_cons.mp h).resolve_left (by simp)))

theorem sweepOps_eq_nil_iff {cands : List JmapId} :
    sweepOps acct now grace s cands = [] ↔ ∀ b ∈ cands, young now grace s b = true := by
  induction cands with
  | nil => simp [sweepOps]
  | cons blobId cands ih =>
    obtain ⟨hyoung, heq⟩ | ⟨hold, recs, -, heq⟩ :=
      sweepOps_cons acct now grace s blobId cands
    · rw [heq, ih]
      simp [hyoung]
    · rw [heq]
      simp [hold]

/-! ## The call as a pass over the backlog -/

theorem idFromObjKey_pendingKey (hb : JmapId.valid b) :
    idFromObjKey (pendingKey acct b) = b :=
  @idFromObjKey_key [bytesOf acct, bytesOf "p"] b (JmapId.valid_ne_zero hb) (by simp)

theorem sweepCandidates_eq (hvalid : ValidHints acct s) :
    sweepCandidates acct s = (s.pending.keys.take maxSweepPerCall).map idFromObjKey := by
  rw [sweepCandidates, List.filter_eq_self.mpr]
  intro K hK
  obtain ⟨b, -, rfl⟩ := hvalid K (Std.ExtTreeMap.mem_keys.mp hK)
  exact (mem_prefixRange_iff _ _).mpr (key_isPrefix_iff.mpr (by simp))

theorem mem_sweepCandidates_iff (hvalid : ValidHints acct s) (hb : JmapId.valid b) :
    b ∈ sweepCandidates acct s ↔ pendingKey acct b ∈ s.pending.keys.take maxSweepPerCall := by
  rw [sweepCandidates_eq hvalid, List.mem_map]
  constructor
  · intro ⟨K, hK, hid⟩
    obtain ⟨b', hb', rfl⟩ := hvalid K (Std.ExtTreeMap.mem_keys.mp (List.mem_of_mem_take hK))
    rw [idFromObjKey_pendingKey hb'] at hid
    exact hid ▸ hK
  · exact fun hK => ⟨_, hK, idFromObjKey_pendingKey hb⟩

theorem mem_pending_sweepOnce {K : Bytes} :
    K ∈ (sweepOnce acct now grace s).pending ↔
      K ∈ s.pending ∧ .deletePending K ∉ sweepOps acct now grace s (sweepCandidates acct s) := by
  constructor
  · exact pending_of_deletions fun op => mem_sweepOps
  · exact fun ⟨hK, hkeep⟩ => mem_pending_applyBatch hkeep (.inl hK)

theorem keys_sweepOnce (hvalid : ValidHints acct s) :
    (sweepOnce acct now grace s).pending.keys =
      windowPass maxSweepPerCall (fun K => young now grace s (idFromObjKey K))
        s.pending.keys := by
  set window := s.pending.keys.take maxSweepPerCall with hwindow
  -- a hint stays when it is young or behind the window
  have hleft : ∀ K, K ∈ (sweepOnce acct now grace s).pending ↔ K ∈ s.pending ∧
      (decide (K ∉ window) || young now grace s (idFromObjKey K)) = true := by
    intro K
    rw [mem_pending_sweepOnce]
    refine and_congr_right fun hK => ?_
    obtain ⟨b, hb, rfl⟩ := hvalid K hK
    rw [deletePending_mem_sweepOps_iff, mem_sweepCandidates_iff hvalid hb, ← hwindow,
      idFromObjKey_pendingKey hb]
    by_cases hmem : pendingKey acct b ∈ window <;> simp [hmem]
  have hdisjoint : ∀ K ∈ s.pending.keys.drop maxSweepPerCall, K ∉ window := by
    intro K hK hmem
    have hnodup := Map.nodup_keys s.pending
    rw [← List.take_append_drop maxSweepPerCall s.pending.keys] at hnodup
    exact List.disjoint_of_nodup_append hnodup hmem hK
  rw [Map.keys_eq_filter hleft]
  conv_lhs => rw [← List.take_append_drop maxSweepPerCall s.pending.keys]
  rw [List.filter_append, ← hwindow]
  congr 1
  · refine List.filter_congr fun K hK => ?_
    simp [hK]
  · refine List.filter_eq_self.mpr fun K hK => ?_
    simp [hdisjoint K hK]

variable {minAge : Int}

theorem sweepAlone_store :
    (sweepAlone acct minAge now grace s).2.2 = sweepOnce acct now (max grace minAge) s := by
  rw [sweepAlone, sweepOnce]
  split
  · next hops =>
    rw [hops]
    rfl
  · rfl

theorem sweepAlone_more (hvalid : ValidHints acct s) :
    (sweepAlone acct minAge now grace s).2.1 =
      windowAgain maxSweepPerCall
        (fun K => young now (max grace minAge) s (idFromObjKey K)) s.pending.keys := by
  have hnil := @sweepOps_eq_nil_iff acct now (max grace minAge) s (sweepCandidates acct s)
  rw [sweepCandidates_eq hvalid] at hnil
  simp only [List.mem_map, forall_exists_index, and_imp, forall_apply_eq_imp_iff₂] at hnil
  rw [sweepAlone, windowAgain, sweepCandidates_eq hvalid]
  split
  · next hops =>
    have hstay := hnil.mp hops
    symm
    simpa using fun _ => hstay
  · next hops =>
    have hgo : (s.pending.keys.take maxSweepPerCall).any
        (fun K => !young now (max grace minAge) s (idFromObjKey K)) = true := by
      rw [hnil] at hops
      simpa using hops
    rw [hgo]
    simp

/-! ## The loop -/

variable (acct) in
/-- Between the calls: what is left of the backlog is judged as it was at the start. -/
structure LeftOf (s0 s : Store) : Prop where
  valid : ValidHints acct s
  uploads : ∀ b, pendingKey acct b ∈ s.pending → s.uploads[b]? = s0.uploads[b]?
  refs : s.refs = s0.refs

theorem LeftOf.sweepOnce {s0 : Store} (h : LeftOf acct s0 s) :
    LeftOf acct s0 (sweepOnce acct now grace s) where
  valid := fun K hK => h.valid K (mem_pending_sweepOnce.mp hK).1
  uploads := by
    intro b hb
    obtain ⟨hhint, hkeep⟩ := mem_pending_sweepOnce.mp hb
    rw [← h.uploads b hhint]
    -- no record goes without its hint
    refine applyBatch_frame (fun s => s.uploads[b]?) (fun op hop s' => ?_) s
    obtain ⟨b', rfl⟩ | ⟨K, rfl⟩ := mem_sweepOps hop
    · show (s'.uploads.erase b')[b]? = s'.uploads[b]?
      rw [Map.getElem?_erase, if_neg]
      intro heq
      exact hkeep (deletePending_of_deleteUpload (heq ▸ hop))
    · rfl
  refs := (objs_sweepOps now grace _).2.trans h.refs

theorem LeftOf.young_eq {s0 : Store} (h : LeftOf acct s0 s) {K : Bytes} (hK : K ∈ s.pending) :
    young now grace s0 (idFromObjKey K) = young now grace s (idFromObjKey K) := by
  obtain ⟨b, hb, rfl⟩ := h.valid K hK
  rw [idFromObjKey_pendingKey hb, young, young, h.uploads b hK]

theorem Drains.window {s0 s' : Store} (hvalid : ValidHints acct s0)
    (h : Drains acct minAge now grace s0 s') :
    DoWhile (windowAgain maxSweepPerCall
        fun K => young now (max grace minAge) s0 (idFromObjKey K))
      (windowPass maxSweepPerCall fun K => young now (max grace minAge) s0 (idFromObjKey K))
      s0.pending.keys s'.pending.keys ∧ LeftOf acct s0 s' := by
  have hkeys : ∀ {s}, LeftOf acct s0 s → ∀ K ∈ s.pending.keys,
      young now (max grace minAge) s0 (idFromObjKey K) =
        young now (max grace minAge) s (idFromObjKey K) :=
    fun hs K hK => hs.young_eq (Std.ExtTreeMap.mem_keys.mp hK)
  refine DoWhile.map (LeftOf acct s0) (fun s => s.pending.keys) (fun s hs => ?_) (fun s hs => ?_)
    (fun s hs => ?_) ⟨hvalid, fun _ _ => rfl, rfl⟩ h
  · rw [sweepAlone_store]
    exact hs.sweepOnce
  · rw [sweepAlone_more hs.valid]
    exact windowAgain_congr (hkeys hs)
  · show (sweepAlone acct minAge now grace s).2.2.pending.keys = _
    rw [sweepAlone_store, keys_sweepOnce hs.valid]
    exact (windowPass_congr (hkeys hs)).symm

theorem exists_drains (hvalid : ValidHints acct s) :
    ∃ s', Drains acct minAge now grace s s' := by
  refine DoWhile.exists_of_lt (ValidHints acct) (fun s => s.pending.keys.length)
    (fun s hs _ => ?_) (fun s hs hmore => ?_) s hvalid
  · rw [sweepAlone_store]
    exact fun K hK => hs K (mem_pending_sweepOnce.mp hK).1
  · rw [sweepAlone_more hs] at hmore
    show (sweepAlone acct minAge now grace s).2.2.pending.keys.length < _
    rw [sweepAlone_store, keys_sweepOnce hs]
    exact length_windowPass_lt hmore

theorem youngAhead_eq {l1 l2 : List Bytes}
    (hkeys : s.pending.keys = l1 ++ pendingKey acct b :: l2) :
    youngAhead acct now grace s b =
      (l1.filter fun K => young now grace s (idFromObjKey K)).length := by
  have hsorted : (l1 ++ pendingKey acct b :: l2).Pairwise fun K K' => compare K K' = .lt :=
    hkeys ▸ Std.ExtTreeMap.ordered_keys
  obtain ⟨-, hsorted2, hahead⟩ := List.pairwise_append.mp hsorted
  have hbehind := (List.pairwise_cons.mp hsorted2).1
  have hrest : (pendingKey acct b :: l2).filter (fun K =>
      decide (compare K (pendingKey acct b) = .lt) && young now grace s (idFromObjKey K)) = [] := by
    apply List.filter_eq_nil_iff.mpr
    intro K hK
    have hnot : compare K (pendingKey acct b) ≠ .lt := by
      rcases List.mem_cons.mp hK with rfl | hK
      · simp
      · have hgt : compare K (pendingKey acct b) = .gt :=
          Std.OrientedCmp.gt_iff_lt.mpr (hbehind K hK)
        simp [hgt]
    simp [hnot]
  rw [youngAhead, hkeys, List.filter_append, hrest, List.append_nil]
  congr 1
  refine List.filter_congr fun K hK => ?_
  simp [hahead K hK]

theorem due_drains_iff {s' : Store} (hvalid : ValidHints acct s)
    (h : Drains acct minAge now grace s s') :
    Due acct now (max grace minAge) s' b ↔
      Due acct now (max grace minAge) s b ∧
        maxSweepPerCall ≤ youngAhead acct now (max grace minAge) s b := by
  obtain ⟨hdrain, hleft⟩ := h.window hvalid
  have href : blobReferenced acct s' b = blobReferenced acct s b := by
    rw [blobReferenced, blobReferenced, hleft.refs]
  -- where the hint of a blob that is due stands, and what the drain does to it
  have hmem : Due acct now (max grace minAge) s b → (pendingKey acct b ∈ s'.pending ↔
      maxSweepPerCall ≤ youngAhead acct now (max grace minAge) s b) := by
    intro hdue
    obtain ⟨l1, l2, hkeys⟩ := List.append_of_mem (Std.ExtTreeMap.mem_keys.mpr hdue.hinted)
    have hnodup : (l1 ++ pendingKey acct b :: l2).Nodup := hkeys ▸ Map.nodup_keys s.pending
    obtain ⟨b', hb', heq⟩ := hvalid _ hdue.hinted
    obtain rfl := pendingKey_injective acct heq
    rw [youngAhead_eq hkeys, ← Std.ExtTreeMap.mem_keys]
    refine hdrain.mem_iff hkeys ?_ ?_ ?_
    · rw [idFromObjKey_pendingKey hb']
      exact hdue.not_young
    · intro hmem
      exact List.disjoint_of_nodup_append hnodup hmem List.mem_cons_self
    · exact (List.nodup_cons.mp hnodup.of_append_right).1
  constructor
  · intro hdue
    have hinit : Due acct now (max grace minAge) s b := by
      refine ⟨?_, ?_, href ▸ hdue.unreferenced⟩
      · rw [← Std.ExtTreeMap.mem_keys]
        exact hdrain.window_subset (Std.ExtTreeMap.mem_keys.mpr hdue.hinted)
      · rw [← hleft.uploads b hdue.hinted]
        exact hdue.uploaded
    exact ⟨hinit, (hmem hinit).mp hdue.hinted⟩
  · intro ⟨hdue, hahead⟩
    have hhint := (hmem hdue).mpr hahead
    refine ⟨hhint, ?_, href.trans hdue.unreferenced⟩
    rw [hleft.uploads b hhint]
    exact hdue.uploaded

end

/-! ## The result -/

/-- With nobody else writing and nothing failing, calling `SweepBlobs` while it returns `more`
    ends, in one way, and it leaves no hint that is due exactly when none had a whole window of
    young hints ahead of it. -/
theorem drain_clears_iff (acct : JmapId) (minAge now grace : Int) {s : Store}
    (hvalid : ValidHints acct s) :
    ∃ s', Drains acct minAge now grace s s' ∧
      (∀ s'', Drains acct minAge now grace s s'' → s'' = s') ∧
      ((∀ b, ¬ Due acct now (max grace minAge) s' b) ↔
        ∀ b, Due acct now (max grace minAge) s b →
          youngAhead acct now (max grace minAge) s b < maxSweepPerCall) := by
  obtain ⟨s', h⟩ := @exists_drains acct now grace s minAge hvalid
  refine ⟨s', h, fun s'' h'' => h''.unique h, ?_⟩
  constructor
  · intro hclear b hdue
    by_contra hahead
    exact hclear b ((due_drains_iff hvalid h).mpr ⟨hdue, Nat.not_lt.mp hahead⟩)
  · intro hahead b hdue
    obtain ⟨hdue0, hle⟩ := (due_drains_iff hvalid h).mp hdue
    exact absurd (hahead b hdue0) (Nat.not_lt.mpr hle)

/-! ### A window full of young hints -/

def earlyId (i : ℕ) : JmapId :=
  String.ofList (List.replicate (i / 32 + 1) 'b' ++ List.replicate (i % 32 + 1) 'c')

def lateStore : Store where
  uploads := (∅ : Map JmapId BlobUpload).insert "z" { uploadedAt := 0 }
  pending := (∅ : Map Bytes Unit).insert (pendingKey "a" "z") ()

/-- The account after `n` further uploads at second 7195. -/
def crowdedStore : ℕ → Store
  | 0 => lateStore
  | n + 1 =>
    { crowdedStore n with
      uploads := (crowdedStore n).uploads.insert (earlyId n) { uploadedAt := 7195 }
      pending := (crowdedStore n).pending.insert (pendingKey "a" (earlyId n)) () }

theorem valid_earlyId {i : ℕ} (h : i < 1024) : JmapId.valid (earlyId i) := by
  have hlen : (bytesOf (earlyId i)).length = i / 32 + 1 + (i % 32 + 1) := by
    simp [bytesOf_eq_flatMap, earlyId, String.toList_ofList, List.length_flatMap,
      List.map_replicate, List.sum_replicate, String.utf8EncodeChar]
  have hchars : (earlyId i).toList.all fun c => c.isAlphanum || c == '-' || c == '_' := by
    simp [earlyId, String.toList_ofList, List.all_replicate, Char.isAlphanum, Char.isAlpha,
      Char.isLower]
  simp only [JmapId.valid, hlen, hchars, Bool.and_true, Bool.and_eq_true, decide_eq_true_eq]
  omega

theorem earlyId_injOn {i j : ℕ} (h : earlyId i = earlyId j) : i = j := by
  have hlists := congrArg String.toList h
  simp only [earlyId, String.toList_ofList] at hlists
  have hb := congrArg (List.count 'b') hlists
  have hc := congrArg (List.count 'c') hlists
  simp [List.count_replicate] at hb hc
  omega

theorem pendingKey_cons {b : JmapId} {x : UInt8} {rest : Bytes} (hx : x ≠ 0)
    (h : bytesOf b = x :: rest) :
    pendingKey "a" b = [97, 0, 1, 112, 0, 1] ++ x :: ObjectDB.segment rest := by
  have hsegs : ObjectDB.segment (bytesOf "a") ++ ObjectDB.segment (bytesOf "p") =
      [97, 0, 1, 112, 0, 1] := by
    decide +kernel
  rw [pendingKey, key_cons, key_cons, ← List.append_assoc, hsegs, h]
  simp [ObjectDB.segment, escape, hx, key]

theorem earlyId_lt (i : ℕ) : compare (pendingKey "a" (earlyId i)) (pendingKey "a" "z") = .lt := by
  have hearly : ∃ rest, bytesOf (earlyId i) = 98 :: rest := by
    rw [bytesOf_eq_flatMap, earlyId, String.toList_ofList]
    exact ⟨_, rfl⟩
  obtain ⟨rest, hrest⟩ := hearly
  rw [pendingKey_cons (by decide) hrest]
  rfl

theorem earlyId_ne_late (i : ℕ) : earlyId i ≠ "z" := by
  intro h
  have hlt := earlyId_lt i
  rw [h] at hlt
  simp at hlt

theorem mem_pending_crowdedStore {n : ℕ} {K : Bytes} :
    K ∈ (crowdedStore n).pending ↔
      K = pendingKey "a" "z" ∨ ∃ i < n, K = pendingKey "a" (earlyId i) := by
  induction n with
  | zero =>
    simp only [crowdedStore, lateStore, Map.mem_insert_iff]
    simp
  | succ n ih =>
    show K ∈ (crowdedStore n).pending.insert _ _ ↔ _
    rw [Map.mem_insert_iff, ih, or_assoc]
    refine or_congr_right ?_
    constructor
    · rintro (⟨i, hi, rfl⟩ | rfl)
      · exact ⟨i, by omega, rfl⟩
      · exact ⟨n, by omega, rfl⟩
    · intro ⟨i, hi, hK⟩
      rcases Nat.lt_succ_iff_lt_or_eq.mp hi with hi | rfl
      · exact .inl ⟨i, hi, hK⟩
      · exact .inr hK

theorem validHints_crowdedStore {n : ℕ} (hn : n ≤ 1024) : ValidHints "a" (crowdedStore n) := by
  intro K hK
  rcases mem_pending_crowdedStore.mp hK with rfl | ⟨i, hi, rfl⟩
  · exact ⟨"z", by decide, rfl⟩
  · exact ⟨earlyId i, valid_earlyId (by omega), rfl⟩

theorem uploads_crowdedStore (n : ℕ) :
    (crowdedStore n).uploads["z"]? = some { uploadedAt := 0 } ∧
      ∀ i < n, (crowdedStore n).uploads[earlyId i]? = some { uploadedAt := 7195 } := by
  induction n with
  | zero => exact ⟨by simp [crowdedStore, lateStore], by simp⟩
  | succ n ih =>
    constructor
    · show ((crowdedStore n).uploads.insert _ _)["z"]? = _
      rw [Map.getElem?_insert, if_neg (earlyId_ne_late n)]
      exact ih.1
    · intro i hi
      show ((crowdedStore n).uploads.insert _ _)[earlyId i]? = _
      rw [Map.getElem?_insert]
      split
      · rfl
      · next hne =>
        apply ih.2 i
        rcases Nat.lt_succ_iff_lt_or_eq.mp hi with h | rfl
        · exact h
        · exact absurd rfl hne

theorem refs_crowdedStore (n : ℕ) : (crowdedStore n).refs = ∅ := by
  induction n with
  | zero => rfl
  | succ n ih => exact ih

theorem le_youngAhead_crowdedStore {n : ℕ} (hn : n ≤ 1024) :
    n ≤ youngAhead "a" 7200 3600 (crowdedStore n) "z" := by
  have hsub : (Finset.range n).image (fun i => pendingKey "a" (earlyId i)) ⊆
      ((crowdedStore n).pending.keys.filter fun K =>
        decide (compare K (pendingKey "a" "z") = .lt) &&
          young 7200 3600 (crowdedStore n) (idFromObjKey K)).toFinset := by
    intro K hK
    obtain ⟨i, hi, rfl⟩ := Finset.mem_image.mp hK
    have hi := Finset.mem_range.mp hi
    rw [List.mem_toFinset, List.mem_filter]
    refine ⟨Std.ExtTreeMap.mem_keys.mpr (mem_pending_crowdedStore.mpr (.inr ⟨i, hi, rfl⟩)), ?_⟩
    rw [idFromObjKey_pendingKey (valid_earlyId (by omega))]
    simp [earlyId_lt i, young, (uploads_crowdedStore n).2 i hi]
  calc n = ((Finset.range n).image fun i => pendingKey "a" (earlyId i)).card := by
        rw [Finset.card_image_of_injective, Finset.card_range]
        exact (pendingKey_injective "a").comp fun i j => earlyId_injOn
    _ ≤ _ := Finset.card_le_card hsub
    _ ≤ youngAhead "a" 7200 3600 (crowdedStore n) "z" := List.toFinset_card_le _

/-- Behind a full window of young hints, the hint of an unreferenced blob uploaded two hours ago
    outlives the loop, with a grace window of one hour, which is also the least age. -/
theorem young_hints_block_drain : ∃ s s' : Store, ValidHints "a" s ∧
    Drains "a" 3600 7200 3600 s s' ∧ Due "a" 7200 (max 3600 3600) s' "z" := by
  have hvalid := validHints_crowdedStore le_rfl
  obtain ⟨s', h⟩ := @exists_drains "a" 7200 3600 (crowdedStore 1024) 3600 hvalid
  refine ⟨crowdedStore 1024, s', hvalid, h, (due_drains_iff hvalid h).mpr ⟨?_, ?_⟩⟩
  · refine ⟨mem_pending_crowdedStore.mpr (.inl rfl), ⟨_, (uploads_crowdedStore 1024).1, ?_⟩, ?_⟩
    · decide
    · rw [blobReferenced, refs_crowdedStore]
      rfl
  · exact le_youngAhead_crowdedStore le_rfl

/-- With one young hint ahead of it, the hint goes. -/
theorem drain_clears_late : ∃ s', Drains "a" 3600 7200 3600 (crowdedStore 1) s' ∧
    ∀ b, ¬ Due "a" 7200 (max 3600 3600) s' b := by
  have hvalid := validHints_crowdedStore (n := 1) (by omega)
  obtain ⟨s', h, -, hclear⟩ := drain_clears_iff "a" 3600 7200 3600 hvalid
  refine ⟨s', h, hclear.mpr fun b _ => ?_⟩
  calc youngAhead "a" 7200 (max 3600 3600) (crowdedStore 1) b
      ≤ (crowdedStore 1).pending.keys.length := List.length_filter_le ..
    _ < maxSweepPerCall := by decide +kernel

end NaustJmap.Blobs
