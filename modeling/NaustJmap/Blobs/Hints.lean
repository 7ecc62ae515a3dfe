import NaustJmap.Blobs.Atomic
import NaustJmap.Blobs.Safety

/-!
# No Garbage Blob Is Forgotten

`SweepBlobs` only looks at blobs that have a pending hint.  Hints are set by uploads and by records
that drop a reference, and cleared by records that take one up.  Every blob without a reference
keeps its hint (`garbage_hinted`): a commit that clears one leaves a record that refers to the blob.
-/

namespace NaustJmap.Blobs

open Library ObjectDB
open Chunkstore (Tuning)

variable {ops : List BatchOp} {K : Bytes} {t : TypeDesc} {id : JmapId} {old new : Option Object}
  {now grace : Int} {cands : List JmapId}

/-! ## Hints in a batch -/

theorem mem_pending_applyBatch {s : Store} (hkeep : .deletePending K ∉ ops)
    (h : K ∈ s.pending ∨ .setPending K ∈ ops) : K ∈ (applyBatch ops s).pending := by
  induction ops generalizing s with
  | nil =>
    rcases h with h | h
    · exact h
    · cases h
  | cons op ops ih =>
    refine ih (fun h => hkeep (List.mem_cons_of_mem _ h)) ?_
    rcases h with h | h
    · left
      cases op <;> first | exact h | skip
      case setPending K' => exact (Map.mem_insert_iff ..).mpr (.inl h)
      case deletePending K' =>
        refine (Map.mem_erase_iff ..).mpr ⟨h, fun heq => hkeep ?_⟩
        rw [heq]
        exact List.mem_cons_self
    · rcases List.mem_cons.mp h with rfl | h
      · exact .inl ((Map.mem_insert_iff ..).mpr (.inr rfl))
      · exact .inr h

theorem pendingKey_injective (acct : JmapId) : Function.Injective (pendingKey acct) := by
  intro b b' h
  have hsegs := key_injective h
  simp only [List.cons.injEq, true_and, and_true] at hsegs
  exact bytesOf_injective hsegs

section

variable {db : DB} {acct : JmapId} {s : Store} {b : JmapId}

/-- The hints of one record: cleared for its new references, set for those it drops. -/
theorem deletePending_mem_refOps (h : .deletePending K ∈ refOps db.scan acct t id old new) :
    ∃ b ∈ blobRefsOf db.scan t new, K = pendingKey acct b := by
  simp only [refOps, List.mem_append, List.mem_flatMap, List.mem_cons, List.not_mem_nil, or_false,
    reduceCtorEq, false_or, and_false, exists_false, BatchOp.deletePending.injEq] at h
  obtain ⟨b, hb, rfl⟩ := h
  exact ⟨b, (List.mem_filter.mp hb).1, rfl⟩

theorem setPending_mem_refOps (hold : b ∈ blobRefsOf db.scan t old)
    (hnew : b ∉ blobRefsOf db.scan t new) :
    .setPending (pendingKey acct b) ∈ refOps db.scan acct t id old new := by
  refine List.mem_append_left _ (List.mem_flatMap.mpr ⟨b, ?_, by simp⟩)
  exact List.mem_filter.mpr ⟨hold, decide_eq_true hnew⟩

theorem mem_refOps_of_mem_maintenanceOps (hm : maintenanceOps db acct t id old new = .ok ops)
    (h : .deletePending K ∈ ops) : .deletePending K ∈ refOps db.scan acct t id old new := by
  simp only [maintenanceOps, except_bind_eq_ok] at hm
  obtain ⟨index, hindex, sets, hsets, hm⟩ := hm
  cases hm
  rcases List.mem_append.mp h with h | h
  · rcases List.mem_append.mp h with h | h
    · obtain ⟨entry, -, o, ho, hmem⟩ := mem_collectOps hindex h
      cases propertyIndexOps_isIdx ho _ hmem
    · exact h
  · obtain ⟨entry, -, o, ho, hmem⟩ := mem_collectOps hsets h
    cases propertySetIndexOps_isIdx ho _ hmem

theorem refOps_subset_maintenanceOps {op : BatchOp}
    (hm : maintenanceOps db acct t id old new = .ok ops)
    (h : op ∈ refOps db.scan acct t id old new) : op ∈ ops := by
  simp only [maintenanceOps, except_bind_eq_ok] at hm
  obtain ⟨index, -, sets, -, hm⟩ := hm
  cases hm
  exact List.mem_append_left _ (List.mem_append_right _ h)

/-! ## The invariant -/

variable (db acct s) in
/-- Every blob that has an upload record and no committed reference has a hint. -/
def Hinted : Prop :=
  ∀ b : JmapId, (s.uploads[b]?).isSome → ¬ References db s b → pendingKey acct b ∈ s.pending

theorem references_of_blobReferenced (hrefs : RefsExact db acct s)
    (h : blobReferenced acct s b = true) : References db s b := by
  obtain ⟨K, hK, hrange⟩ := List.any_eq_true.mp h
  obtain ⟨k, hk⟩ := (hrefs K).mp (Std.ExtTreeMap.mem_keys.mp hK)
  unfold recordRefKeys at hk
  split at hk
  · cases hk
  · next t ht =>
    obtain ⟨b', hb', rfl⟩ := List.mem_map.mp hk
    have hpre := key_isPrefix_iff.mp ((mem_prefixRange_iff _ _).mp hrange)
    simp only [List.cons_prefix_cons, true_and] at hpre
    obtain rfl := bytesOf_injective hpre.1
    cases hobj : s.objs[k]? with
    | none =>
      rw [hobj] at hb'
      simp [blobRefsOf, dedupNames] at hb'
    | some obj => exact ⟨k, obj, t, hobj, ht, hobj ▸ hb'⟩

theorem Hinted.commit {c : Commit} (hs : Hinted db acct s)
    (hfresh : FreshDraw c.draw s (c.drawn db s)) (h : (db.update acct c).run s = .ok (some ops)) :
    Hinted db acct (applyBatch ops s) := by
  intro b hup hunref
  rw [update_uploads h] at hup
  obtain ⟨u, batch, hexec, hbatch, rfl⟩ := update_eq_some h
  obtain ⟨hok, -, -⟩ := exec_stagedOk hfresh hexec
  have hobjs := objs_of_stagedOk hok (applyBatch_buildBatch hbatch s).2.2.1
  simp only [Update.buildBatch, except_bind_eq_ok] at hbatch
  obtain ⟨records, hrec, hbatch⟩ := hbatch
  cases hbatch
  refine mem_pending_applyBatch (fun hdel => hunref ?_) ?_
  · -- a hint is cleared by a record that ends up with the reference
    simp only [List.mem_append, List.mem_cons, List.mem_map, List.not_mem_nil, or_false,
      reduceCtorEq, and_false, exists_false, false_or] at hdel
    obtain ((⟨⟨tag, set⟩, -, heq⟩ | hdel) | hdel) := hdel
    · cases set <;> cases heq
    · obtain ⟨⟨k, st⟩, hmem, o, ho, hdel⟩ := mem_collectOps hrec hdel
      rcases stagedOps_eq_ok ho with ⟨-, -, rfl⟩ | ⟨t, m, ht, -, hm, rfl⟩
      · cases hdel
      · rcases List.mem_cons.mp hdel with heq | hdel
        · cases hnew : st.new <;> rw [hnew] at heq <;> cases heq
        · obtain ⟨b', hb', hkey⟩ :=
            deletePending_mem_refOps (mem_refOps_of_mem_maintenanceOps hm hdel)
          obtain rfl := pendingKey_injective acct hkey
          have hst := (Map.mem_toList _ _ _).mp hmem
          cases hnew : st.new with
          | none =>
            rw [hnew] at hb'
            simp [blobRefsOf, dedupNames] at hb'
          | some obj =>
            refine ⟨k, obj, t, ?_, ht, hnew ▸ hb'⟩
            rw [hobjs k, hst]
            exact hnew
    · split at hdel
      · cases hdel
      · cases List.mem_singleton.mp hdel
  · by_cases hold : References db s b
    · -- the record that had the reference has dropped it, and set the hint
      obtain ⟨k, obj, t, hobj, ht, hb⟩ := hold
      right
      have hlost : ∀ obj', (applyBatch _ s).objs[k]? = some obj' →
          b ∉ blobRefsOf db.scan t (some obj') := fun obj' hobj' hb' =>
        hunref ⟨k, obj', t, hobj', ht, hb'⟩
      rw [hobjs k] at hlost
      cases hst : u.staged[k]? with
      | none =>
        rw [hst] at hlost
        exact absurd hb (hlost obj hobj)
      | some st =>
        rw [hst] at hlost
        have hcreated : st.created = false := by
          by_contra hc
          rw [((hok k st hst).created (by simpa using hc)).1] at hobj
          cases hobj
        have hpre : st.preImage = some obj := by
          rw [StagedRecord.preImage, hcreated]
          exact ((hok k st hst).existing hcreated).1.trans hobj
        obtain ⟨o, ho, rfl⟩ := collectOps_eq_flatMap hrec
        have hmem := (Map.mem_toList _ _ _).mpr hst
        rcases stagedOps_eq_ok (ho _ hmem) with ⟨hc, -, -⟩ | ⟨t', m, ht', -, hm, hround⟩
        · rw [hcreated] at hc
          cases hc
        · cases ht.symm.trans ht'
          have hnew : b ∉ blobRefsOf db.scan t st.new := by
            cases hnew : st.new with
            | none => simp [blobRefsOf, dedupNames]
            | some obj' => exact hlost obj' hnew
          have hset := refOps_subset_maintenanceOps hm
            (setPending_mem_refOps (hpre ▸ hb : b ∈ blobRefsOf db.scan t st.preImage) hnew)
          have := List.mem_flatMap.mpr ⟨_, hmem, hround ▸ List.mem_cons_of_mem _ hset⟩
          simp [this]
    · exact .inl (hs b hup hold)

theorem Hinted.upload (hs : Hinted db acct s) (blobId : JmapId) (rec : BlobUpload) :
    Hinted db acct
      (applyBatch [.setUpload blobId rec, .setPending (pendingKey acct blobId)] s) := by
  intro b hup hunref
  refine mem_pending_applyBatch (by simp) ?_
  by_cases hb : b = blobId
  · right
    simp [hb]
  · left
    have hup : (s.uploads.insert blobId rec)[b]?.isSome := hup
    rw [Map.getElem?_insert, if_neg (Ne.symm hb)] at hup
    exact hs b hup hunref

/-! ## The collector -/

theorem deletePending_mem_sweepOps
    (h : .deletePending (pendingKey acct b) ∈ sweepOps acct now grace s cands) :
    s.uploads[b]? = none ∨ blobReferenced acct s b = true ∨
      .deleteUpload b ∈ sweepOps acct now grace s cands := by
  induction cands with
  | nil => cases h
  | cons blobId rest ih =>
    rw [sweepOps, List.mem_append] at h
    rcases h with h | h
    · cases hup : s.uploads[blobId]? with
      | none =>
        simp only [hup, List.mem_singleton, BatchOp.deletePending.injEq] at h
        exact .inl (pendingKey_injective acct h ▸ hup)
      | some rec =>
        simp only [hup] at h
        split at h
        · cases h
        · next hgrace =>
          split at h
          · next href =>
            simp only [List.mem_singleton, BatchOp.deletePending.injEq] at h
            exact .inr (.inl (pendingKey_injective acct h ▸ href))
          · next href =>
            simp only [List.mem_cons, List.not_mem_nil, or_false, reduceCtorEq, false_or,
              BatchOp.deletePending.injEq] at h
            right; right
            simp [sweepOps, hup, hgrace, href, pendingKey_injective acct h]
    · rcases ih h with h | h | h
      · exact .inl h
      · exact .inr (.inl h)
      · exact .inr (.inr (List.mem_append_right _ h))

theorem mem_sweepOps {op : BatchOp} (h : op ∈ sweepOps acct now grace s cands) :
    (∃ b, op = .deleteUpload b) ∨ ∃ K, op = .deletePending K := by
  induction cands with
  | nil => cases h
  | cons blobId rest ih =>
    rw [sweepOps, List.mem_append] at h
    rcases h with h | h
    · split at h
      · exact .inr ⟨_, List.mem_singleton.mp h⟩
      · split at h
        · cases h
        · split at h
          · exact .inr ⟨_, List.mem_singleton.mp h⟩
          · rcases List.mem_cons.mp h with rfl | h
            · exact .inl ⟨_, rfl⟩
            · exact .inr ⟨_, List.mem_singleton.mp h⟩
    · exact ih h

theorem uploads_of_deletions
    (hops : ∀ op ∈ ops, (∃ b, op = .deleteUpload b) ∨ ∃ K, op = .deletePending K)
    {rec : BlobUpload} (hup : (applyBatch ops s).uploads[b]? = some rec) :
    s.uploads[b]? = some rec ∧ .deleteUpload b ∉ ops := by
  induction ops generalizing s with
  | nil => exact ⟨hup, by simp⟩
  | cons op ops ih =>
    obtain ⟨hsome, hmem⟩ := ih (fun op hop => hops op (List.mem_cons_of_mem _ hop)) hup
    rcases hops op List.mem_cons_self with ⟨b', rfl⟩ | ⟨K, rfl⟩
    · have hsome : (s.uploads.erase b')[b]? = some rec := hsome
      rw [Map.getElem?_erase] at hsome
      split at hsome
      · cases hsome
      · next hne =>
        refine ⟨hsome, fun h => ?_⟩
        rcases List.mem_cons.mp h with h | h
        · exact hne (BatchOp.deleteUpload.inj h).symm
        · exact hmem h
    · exact ⟨hsome, fun h => hmem ((List.mem_cons.mp h).resolve_left (by simp))⟩

theorem objs_sweepOps (now grace : Int) (cands : List JmapId) :
    (applyBatch (sweepOps acct now grace s cands) s).objs = s.objs ∧
      (applyBatch (sweepOps acct now grace s cands) s).refs = s.refs := by
  constructor
  · refine applyBatch_frame Store.objs (fun op hop s => ?_) s
    obtain ⟨b, rfl⟩ | ⟨K, rfl⟩ := mem_sweepOps hop <;> rfl
  · refine applyBatch_frame Store.refs (fun op hop s => ?_) s
    obtain ⟨b, rfl⟩ | ⟨K, rfl⟩ := mem_sweepOps hop <;> rfl

theorem Hinted.sweep (hs : Hinted db acct s) (hrefs : RefsExact db acct s) (now grace : Int)
    (cands : List JmapId) :
    Hinted db acct (applyBatch (sweepOps acct now grace s cands) s) := by
  intro b hup hunref
  obtain ⟨rec, hup⟩ := Option.isSome_iff_exists.mp hup
  obtain ⟨hsome, hkept⟩ := uploads_of_deletions (fun op => mem_sweepOps) hup
  rw [references_congr (objs_sweepOps now grace cands).1] at hunref
  have hold := hs b (Option.isSome_iff_exists.mpr ⟨rec, hsome⟩) hunref
  refine mem_pending_applyBatch (fun hdel => ?_) (.inl hold)
  rcases deletePending_mem_sweepOps hdel with h | h | h
  · rw [h] at hsome
    cases hsome
  · exact hunref (references_of_blobReferenced hrefs h)
  · exact hkept h

/-! ## Every reachable state -/

theorem AccountStep.hinted {s' : Store} (h : AccountStep db acct s s')
    (hs : RefsExact db acct s ∧ Hinted db acct s) : RefsExact db acct s' ∧ Hinted db acct s' := by
  obtain ⟨hrefs, hhint⟩ := hs
  cases h with
  | commit hfresh h => exact ⟨hrefs.commit hfresh h, hhint.commit hfresh h⟩
  | upload blobId uploader now => exact ⟨refsExact_congr rfl rfl hrefs, hhint.upload _ _⟩
  | sweep now grace =>
    obtain ⟨hobjs, hkeys⟩ := objs_sweepOps now grace (sweepCandidates acct s)
    exact ⟨refsExact_congr hobjs hkeys hrefs, hhint.sweep hrefs _ _ _⟩

theorem AccountReaches.hinted (h : AccountReaches db acct {} s) :
    RefsExact db acct s ∧ Hinted db acct s := by
  induction h with
  | refl =>
    refine ⟨fun K => ?_, fun b hup => ?_⟩
    · simp [recordRefKeys_none]
    · simp at hup
  | tail _ hstep ih => exact hstep.hinted ih

/-! ## What the collector gets to -/

variable (acct s) in
/-- The hints are those of valid ids, which is what blob ids are. -/
def ValidHints : Prop := ∀ K ∈ s.pending, ∃ b : JmapId, JmapId.valid b ∧ K = pendingKey acct b

def sweepOnce (acct : JmapId) (now grace : Int) (s : Store) : Store :=
  applyBatch (sweepOps acct now grace s (sweepCandidates acct s)) s

variable (s) in
/-- The grace period of every upload is over. -/
def Overdue (now grace : Int) : Prop :=
  ∀ (b : JmapId) (rec : BlobUpload), s.uploads[b]? = some rec → ¬ now - rec.uploadedAt < grace

theorem pending_of_deletions
    (hops : ∀ op ∈ ops, (∃ b, op = .deleteUpload b) ∨ ∃ K, op = .deletePending K)
    (hK : K ∈ (applyBatch ops s).pending) : K ∈ s.pending ∧ .deletePending K ∉ ops := by
  induction ops generalizing s with
  | nil => exact ⟨hK, by simp⟩
  | cons op ops ih =>
    obtain ⟨hmem, hrest⟩ := ih (fun op hop => hops op (List.mem_cons_of_mem _ hop)) hK
    rcases hops op List.mem_cons_self with ⟨b, rfl⟩ | ⟨K', rfl⟩
    · exact ⟨hmem, fun h => hrest ((List.mem_cons.mp h).resolve_left (by simp))⟩
    · obtain ⟨hmem, hne⟩ := (Map.mem_erase_iff ..).mp hmem
      refine ⟨hmem, fun h => ?_⟩
      rcases List.mem_cons.mp h with h | h
      · exact hne (BatchOp.deletePending.inj h)
      · exact hrest h

theorem deletePending_of_overdue (hover : Overdue s now grace) (hb : b ∈ cands) :
    .deletePending (pendingKey acct b) ∈ sweepOps acct now grace s cands := by
  induction cands with
  | nil => cases hb
  | cons blobId rest ih =>
    rcases List.mem_cons.mp hb with rfl | hb
    · refine List.mem_append_left _ ?_
      cases hup : s.uploads[b]? with
      | none => simp
      | some rec =>
        simp only [if_neg (hover b rec hup)]
        split <;> simp
    · exact List.mem_append_right _ (ih hb)

theorem sweepOnce_fewer (hvalid : ValidHints acct s) (hover : Overdue s now grace)
    (hK : K ∈ s.pending) :
    (sweepOnce acct now grace s).pending.keys.toFinset ⊂ s.pending.keys.toFinset := by
  have hsub : (sweepOnce acct now grace s).pending.keys.toFinset ⊆ s.pending.keys.toFinset := by
    intro K' hK'
    rw [List.mem_toFinset, Std.ExtTreeMap.mem_keys] at hK' ⊢
    exact (pending_of_deletions (fun op => mem_sweepOps) hK').1
  have hrange : ∀ K' ∈ s.pending, inRange (prefixRange [bytesOf acct, bytesOf "p"]) K' := by
    intro K' hK'
    obtain ⟨b', -, rfl⟩ := hvalid K' hK'
    exact (mem_prefixRange_iff _ _).mpr (key_isPrefix_iff.mpr (by simp))
  -- the first hint of the scan
  have hmem : K ∈ s.pending.keys.filter (inRange (prefixRange [bytesOf acct, bytesOf "p"])) :=
    List.mem_filter.mpr ⟨Std.ExtTreeMap.mem_keys.mpr hK, hrange K hK⟩
  obtain ⟨K0, rest, hscan⟩ := List.exists_cons_of_ne_nil (List.ne_nil_of_mem hmem)
  have hK0 : K0 ∈ s.pending := by
    have : K0 ∈ s.pending.keys.filter (inRange (prefixRange [bytesOf acct, bytesOf "p"])) :=
      hscan ▸ List.mem_cons_self
    exact Std.ExtTreeMap.mem_keys.mp (List.mem_filter.mp this).1
  obtain ⟨b0, hb0, rfl⟩ := hvalid K0 hK0
  have hcand : b0 ∈ sweepCandidates acct s := by
    have hid : idFromObjKey (pendingKey acct b0) = b0 :=
      @idFromObjKey_key [bytesOf acct, bytesOf "p"] b0 (JmapId.valid_ne_zero hb0) (by simp)
    simp [sweepCandidates, hscan, maxSweepPerCall, hid]
  refine Finset.ssubset_iff_subset_ne.mpr ⟨hsub, fun heq => ?_⟩
  have hstay : pendingKey acct b0 ∈ (sweepOnce acct now grace s).pending := by
    rw [← Std.ExtTreeMap.mem_keys, ← List.mem_toFinset, heq, List.mem_toFinset]
    exact Std.ExtTreeMap.mem_keys.mpr hK0
  exact (pending_of_deletions (fun op => mem_sweepOps) hstay).2
    (deletePending_of_overdue hover hcand)

theorem exists_sweeps (hvalid : ValidHints acct s) (hover : Overdue s now grace)
    (hrefs : RefsExact db acct s) (hhint : Hinted db acct s) :
    ∃ n, Hinted db acct ((sweepOnce acct now grace)^[n] s) ∧
      ((sweepOnce acct now grace)^[n] s).objs = s.objs ∧
      ∀ K, K ∉ ((sweepOnce acct now grace)^[n] s).pending := by
  -- on the number of hints
  induction hn : s.pending.keys.toFinset.card using Nat.strong_induction_on generalizing s with
  | _ n ih =>
    by_cases hsome : ∃ K, K ∈ s.pending
    · obtain ⟨K, hK⟩ := hsome
      have hfewer := Finset.card_lt_card (sweepOnce_fewer hvalid hover hK)
      obtain ⟨hobjs, hkeys⟩ := objs_sweepOps now grace (sweepCandidates acct s)
      obtain ⟨m, hm, hmobjs, hempty⟩ := ih _ (hn ▸ hfewer)
        (fun K' hK' => hvalid K' (pending_of_deletions (fun op => mem_sweepOps) hK').1)
        (fun b' rec hrec => hover b' rec (uploads_of_deletions (fun op => mem_sweepOps) hrec).1)
        (refsExact_congr hobjs hkeys hrefs) (hhint.sweep hrefs now grace _) rfl
      exact ⟨m + 1, hm, hmobjs.trans hobjs, hempty⟩
    · exact ⟨0, hhint, rfl, fun K hK => hsome ⟨K, hK⟩⟩

end

/-! ## The result -/

/-- In every interleaving of uploads, commits, collections and users of the chunk store, with
    takeovers of the lease and failures at any moment: a blob that has an upload record and no
    committed reference has its hint, and calls of the collector that start there once the
    grace periods are over delete its record. -/
theorem garbage_hinted (db : DB) (acct : JmapId) (t : Tuning) (A : Assumed) (jobs : ℕ → Job)
    {c : Config ℕ Disk Op Ans} (h : Config.Reaches (exec db A) (start db acct t jobs) c)
    {b : JmapId} (hup : (c.state.store.uploads[b]?).isSome)
    (hunref : ¬ References db c.state.store b) :
    pendingKey acct b ∈ c.state.store.pending ∧
      ∀ now grace : Int, ValidHints acct c.state.store → Overdue c.state.store now grace →
        ∃ n, ((sweepOnce acct now grace)^[n] c.state.store).uploads[b]? = none := by
  obtain ⟨hrefs, hhint⟩ := (store_atomic h).hinted
  refine ⟨hhint b hup hunref, fun now grace hvalid hover => ?_⟩
  obtain ⟨n, hhint', hobjs, hempty⟩ := exists_sweeps hvalid hover hrefs hhint
  refine ⟨n, ?_⟩
  by_contra hsome
  refine hempty _ (hhint' b (Option.isSome_iff_ne_none.mpr hsome) ?_)
  rw [references_congr hobjs]
  exact hunref

theorem hinted_of_uploaded :
    (Config.play (eval letterDB .unrestricted) (uploadRecorded 0 [7] 1 ++ uploadPublished 0)
      (start letterDB "a" Chunkstore.tinyPieces letterJobs)).any (fun c =>
        c.state.store.uploads.toList.map (fun entry => (entry.1, entry.2.uploadedAt)) =
            [("bc", 0)] &&
          c.state.store.pending.keys = [pendingKey "a" "bc"] &&
          "bc" ∉ referenced letterDB c.state.store) := by
  decide +kernel

theorem garbage_hinted_letter : ∃ c : Config ℕ Disk Op Ans,
    Config.Reaches (exec letterDB .unrestricted)
      (start letterDB "a" Chunkstore.tinyPieces letterJobs) c ∧
      ¬ References letterDB c.state.store "bc" ∧ pendingKey "a" "bc" ∈ c.state.store.pending ∧
      ∃ n, ((sweepOnce "a" 100 10)^[n] c.state.store).uploads["bc"]? = none := by
  obtain ⟨c, hplay, hstate⟩ := (Option.any_eq_true _ _).mp hinted_of_uploaded
  simp only [Bool.and_eq_true, decide_eq_true_eq] at hstate
  obtain ⟨⟨huploads, hpending⟩, hunref⟩ := hstate
  have hreach := Config.play_reaches (@eval_exec _ .unrestricted _ _ _) hplay
  have hunref : ¬ References letterDB c.state.store "bc" := fun href =>
    hunref (mem_referenced letterDB href)
  have hall : ∀ (b : JmapId) (rec : BlobUpload), c.state.store.uploads[b]? = some rec →
      b = "bc" ∧ rec.uploadedAt = 0 := by
    intro b rec hrec
    have hmem := List.mem_map_of_mem (f := fun entry : JmapId × BlobUpload =>
      (entry.1, entry.2.uploadedAt)) ((Map.mem_toList _ _ _).mpr hrec)
    rw [huploads] at hmem
    exact Prod.mk.inj (List.mem_singleton.mp hmem)
  have hup : (c.state.store.uploads["bc"]?).isSome := by
    have hmem : ("bc", (0 : Int)) ∈ c.state.store.uploads.toList.map
        fun entry => (entry.1, entry.2.uploadedAt) := huploads ▸ List.mem_singleton_self _
    obtain ⟨⟨b, rec⟩, hentry, hb⟩ := List.mem_map.mp hmem
    obtain ⟨rfl, -⟩ := Prod.mk.inj hb
    rw [(Map.mem_toList _ _ _).mp hentry]
    rfl
  obtain ⟨hhint, hsweep⟩ := garbage_hinted letterDB "a" Chunkstore.tinyPieces .unrestricted
    letterJobs hreach hup hunref
  refine ⟨c, hreach, hunref, hhint, hsweep 100 10 (fun K hK => ?_) fun b rec hrec => ?_⟩
  · rw [← Std.ExtTreeMap.mem_keys, hpending] at hK
    exact ⟨"bc", by decide, List.mem_singleton.mp hK⟩
  · rw [(hall b rec hrec).2]
    decide

end NaustJmap.Blobs
