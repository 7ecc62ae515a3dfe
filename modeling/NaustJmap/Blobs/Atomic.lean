import NaustJmap.Blobs.System

/-!
# The Account as a Sequence of Atomic Steps

Whatever its processes interleave, and whoever takes the lease over from whom, an account changes as
if every commit, recorded upload and collection had run alone on the data it found (`store_atomic`).
The argument is that of `Library.Fencing`, for programs that also use the chunk store.
-/

namespace NaustJmap.Blobs

open Library ObjectDB
open Chunkstore (ChunkOp BackendErr Tuning Writer)

/-! ## The atomic steps -/

/-- What `SweepBlobs` collects for its candidates, all of them inspected on `s`. -/
def sweepOps (acct : JmapId) (now grace : Int) (s : Store) : List JmapId → List BatchOp
  | [] => []
  | blobId :: rest =>
    (match s.uploads[blobId]? with
      | none => [.deletePending (pendingKey acct blobId)]
      | some rec =>
        if now - rec.uploadedAt < grace then []
        else if blobReferenced acct s blobId then [.deletePending (pendingKey acct blobId)]
        else [.deleteUpload blobId, .deletePending (pendingKey acct blobId)]) ++
      sweepOps acct now grace s rest

/-- What one process does to the account's data when it is alone. -/
inductive AccountStep (db : DB) (acct : JmapId) (s : Store) : Store → Prop where
  | commit {c : Commit} {ops : List BatchOp} (hfresh : FreshDraw c.draw s (c.drawn db s))
      (h : (db.update acct c).run s = .ok (some ops)) : AccountStep db acct s (applyBatch ops s)
  | upload (blobId : JmapId) (uploader : String) (now : Int) :
      AccountStep db acct s (applyBatch
        [.setUpload blobId (uploadRecord s.uploads[blobId]? uploader now),
          .setPending (pendingKey acct blobId)] s)
  | sweep (now grace : Int) :
      AccountStep db acct s
        (applyBatch (sweepOps acct now grace s (sweepCandidates acct s)) s)

/-- What commits, uploads and sweeps lead to. -/
def AccountReaches (db : DB) (acct : JmapId) : Store → Store → Prop :=
  Relation.ReflTransGen (AccountStep db acct)

/-! ## What a process guarantees -/

/-- Process `i` does `R` to the account, and under somebody else's claim it keeps `E`. -/
structure Fences (R : ℕ → Disk → Disk → Prop) (E : Disk → Disk → Prop) (i : ℕ) (s s' : Disk) :
    Prop where
  does : R i s s'
  tokens : ∀ (tok j : ℕ), s.tokens[tok]? = some j → s'.tokens[tok]? = some j
  fenced : ∀ (tok j : ℕ), s.tokens[tok]? = some j → j ≠ i → s'.claim = some tok →
    s.claim = some tok ∧ s'.store = s.store ∧ E s s'

/-- Process `i` drew the token; while it is the claim, `F` is known. -/
structure Holds (I : Disk → Prop) (i tok : ℕ) (F : Disk → Prop) (s : Disk) : Prop where
  inv : I s
  drawn : s.tokens[tok]? = some i
  known : s.claim = some tok → F s

/-- `I` stays whatever the others do, and who has the claim matters to nothing. -/
structure Rely (R : ℕ → Disk → Disk → Prop) (E : Disk → Disk → Prop) (i : ℕ) (I : Disk → Prop) :
    Prop where
  does : ∀ (s : Disk) claim tokens, R i s { s with claim := claim, tokens := tokens }
  relied : ∀ s, E s s
  inv : ∀ {s : Disk} {claim tokens}, I s → I { s with claim := claim, tokens := tokens }
  stable : Stable (Fences R E) i I

/-- A fact that stays while the account's data and what the holder relies on stay. -/
def Settled (E : Disk → Disk → Prop) (F : Disk → Prop) : Prop :=
  ∀ s s' : Disk, s'.store = s.store → E s s' → F s → F s'

section

variable {db : DB} {A : Assumed} {R : ℕ → Disk → Disk → Prop} {E : Disk → Disk → Prop}
  {I F F' : Disk → Prop} {i tok : ℕ} {s s' : Disk} {D : Store} {α : Type} {Q : α → Disk → Prop}

theorem settled_store (D : Store) : Settled E fun s => s.store = D :=
  fun _ _ hstore _ h => hstore.trans h

theorem settled_const (p : Prop) : Settled E fun _ => p := fun _ _ _ _ h => h

theorem Settled.and (h : Settled E F) (h' : Settled E F') : Settled E fun s => F s ∧ F' s :=
  fun s1 s2 hs hm hF => ⟨h s1 s2 hs hm hF.1, h' s1 s2 hs hm hF.2⟩

theorem Holds.mono (h : Holds I i tok F s) (hF : ∀ s, F s → F' s) : Holds I i tok F' s :=
  { h with known := fun hc => hF s (h.known hc) }

theorem Holds.stable (hI : Rely R E i I) (hF : Settled E F) :
    Stable (Fences R E) i (Holds I i tok F) := by
  intro j hj s s' hg h
  refine ⟨hI.stable j hj s s' hg h.inv, hg.tokens tok i h.drawn, fun hc => ?_⟩
  obtain ⟨hclaim, hstore, hE⟩ := hg.fenced tok i h.drawn (Ne.symm hj) hc
  exact hF s s' hstore hE (h.known hclaim)

theorem Rely.refl (hI : Rely R E i I) : Fences R E i s s where
  does := hI.does s s.claim s.tokens
  tokens := fun _ _ h => h
  fenced := fun _ _ _ _ h => ⟨h, rfl, hI.relied s⟩

/-! ## Rules for the operations -/

theorem wp_acquire (hI : Rely R E i I) {k : Option ℕ → BlobProg α} (h : I s)
    (hnone : ∀ s, I s → wp (exec db A) (Fences R E) i (k none) Q s)
    (hsome : ∀ s tok, Holds I i tok (fun s' => s'.store = s.store) s →
      wp (exec db A) (Fences R E) i (k (some tok)) Q s) :
    wp (exec db A) (Fences R E) i (acquire >>= k) Q s := by
  refine wp_call hI.stable h ?_
  rintro s1 (_ | tok) s2 h1 hx
  · obtain rfl : s2 = s1 := hx
    exact ⟨hI.refl, hnone s2 h1⟩
  · obtain ⟨hnew, rfl⟩ : s1.tokens[tok]? = none ∧ s2 = _ := hx
    -- whoever has a token has another one, so its claim is lost
    refine ⟨⟨hI.does .., fun tok' j hj => ?_, fun tok' j hj _ hc => ?_⟩, ?_⟩
    · have hne : tok ≠ tok' := by
        rintro rfl
        rw [hnew] at hj
        cases hj
      simpa [Map.getElem?_insert, hne] using hj
    · cases hc
      rw [hnew] at hj
      cases hj
    · exact hsome _ tok ⟨hI.inv h1, by simp, fun _ => rfl⟩

theorem wp_release (hI : Rely R E i I) (h : I s) :
    wp (exec db A) (Fences R E) i (release tok) (fun _ _ => True) s := by
  refine wp_call hI.stable h fun s1 r s2 _ hx => ⟨?_, trivial⟩
  rcases (hx : s2 = s1 ∨ s1.claim = some tok ∧ s2 = _) with rfl | ⟨-, rfl⟩
  · exact hI.refl
  · exact ⟨hI.does .., fun _ _ h => h, fun _ _ _ _ hc => (by cases hc)⟩

theorem wp_read (hI : Rely R E i I) {k : Store → BlobProg α} (h : I s)
    (hk : ∀ r s, I s → wp (exec db A) (Fences R E) i (k r) Q s) :
    wp (exec db A) (Fences R E) i (readStore >>= k) Q s := by
  refine wp_call hI.stable h fun s1 r s2 h1 hx => ?_
  obtain ⟨-, rfl⟩ : r = s1.store ∧ s2 = s1 := hx
  exact ⟨hI.refl, hk r s2 h1⟩

/-- A read under the lease returns the data the holder knows, unless the claim is lost. -/
theorem wp_readHeld (hI : Rely R E i I) (hF : Settled E F) (hD : ∀ s, F s → s.store = D)
    {k : Store → BlobProg α} (h : Holds I i tok F s)
    (hk : ∀ r s, Holds I i tok (fun s => r = D ∧ F s) s →
      wp (exec db A) (Fences R E) i (k r) Q s) :
    wp (exec db A) (Fences R E) i (readStore >>= k) Q s := by
  refine wp_call (Holds.stable hI hF) h fun s1 r s2 h1 hx => ?_
  obtain ⟨rfl, rfl⟩ : r = s1.store ∧ s2 = s1 := hx
  exact ⟨hI.refl, hk _ _ { h1 with known := fun hc => ⟨hD _ (h1.known hc), h1.known hc⟩ }⟩

theorem wp_onStore (hI : Rely R E i I) (hF : Settled E F) (hD : ∀ s, F s → s.store = D)
    (p : Reads Store α) (h : Holds I i tok F s) :
    wp (exec db A) (Fences R E) i (onStore p)
      (fun a => Holds I i tok fun s => F s ∧ p.run D = a) s := by
  induction p generalizing F s with
  | ret a => exact h.mono fun s hs => ⟨hs, rfl⟩
  | read k ih =>
    refine wp_readHeld hI hF hD h fun r s h' => ?_
    have hrest := ih r ((settled_const (r = D)).and hF) (fun s hs => hD s hs.2) h'
    refine wp_mono (fun a s hpost => hpost.mono ?_) hrest
    rintro s ⟨⟨rfl, hs⟩, ha⟩
    exact ⟨hs, ha⟩

theorem wp_writeFenced (hI : Rely R E i I) (hF : Settled E F) {purpose : Purpose}
    {ops : List BatchOp} {chunkOps : List ChunkOp} {k : Except BackendErr Unit → BlobProg α}
    (h : Holds I i tok F s)
    (happly : ∀ s, I s → F s → purpose.allowed db A s ops →
      R i s (s.apply ops chunkOps) ∧ I (s.apply ops chunkOps))
    (hk : ∀ r s, I s → wp (exec db A) (Fences R E) i (k r) Q s) :
    wp (exec db A) (Fences R E) i (writeFenced tok purpose ops chunkOps >>= k) Q s := by
  refine wp_call (Holds.stable hI hF) h fun s1 r s2 h1 hx => ?_
  have hdone : s1.claim = some tok → purpose.allowed db A s1 ops →
      Fences R E i s1 (s1.apply ops chunkOps) ∧
        wp (exec db A) (Fences R E) i (k r) Q (s1.apply ops chunkOps) := by
    intro hclaim hok
    obtain ⟨hdoes, hinv⟩ := happly s1 h1.inv (h1.known hclaim) hok
    refine ⟨⟨hdoes, fun _ _ h => h, fun tok' j hj hne hc => ?_⟩, hk r _ hinv⟩
    -- another holder of the claim would have this token
    cases hclaim.symm.trans hc
    exact absurd (Option.some.inj (hj.symm.trans h1.drawn)) hne
  cases (hx : Fenced db A tok purpose ops chunkOps s1 r s2) with
  | applied hclaim hok => exact hdone hclaim hok
  | refused _ => exact ⟨hI.refl, hk _ _ h1.inv⟩
  | lost => exact ⟨hI.refl, hk _ _ h1.inv⟩
  | unnoticed hclaim hok => exact hdone hclaim hok

end

/-! ## The processes -/

/-- The process moves the data by atomic steps, and not under somebody else's claim. -/
abbrev Steps (db : DB) (acct : JmapId) : ℕ → Disk → Disk → Prop :=
  Fences (fun _ s s' => AccountReaches db acct s.store s'.store) fun _ _ => True

section

variable {db : DB} {acct : JmapId} {A : Assumed} {t : Tuning} {i tok : ℕ} {s : Disk} {D : Store}
  {P : Prop}

theorem rely_steps : Rely (fun _ s s' => AccountReaches db acct s.store s'.store)
    (fun _ _ => True) i fun _ => True :=
  ⟨fun _ _ _ => .refl, fun _ => trivial, fun h => h, fun _ _ _ _ _ h => h⟩

/-- The chunk store is not what the steps are about. -/
theorem wp_onChunks_steps {L : Disk → Prop} {β : Type} (hL : Stable (Steps db acct) i L)
    (hworld : ∀ (s : Disk) w, L s → L { s with world := w }) (p : Chunkstore.ChunkProg β)
    (h : L s) : wp (exec db A) (Steps db acct) i (onChunks p) (fun _ => L) s := by
  induction p generalizing s with
  | ret a => exact h
  | call q k ih =>
    refine wp_call hL h fun s1 r s2 h1 hx => ?_
    obtain ⟨w', -, rfl⟩ := hx
    exact ⟨⟨.refl, fun _ _ h => h, fun _ _ _ _ hc => ⟨hc, rfl, trivial⟩⟩, ih r (hworld _ _ h1)⟩

theorem onChunks_steps {β : Type} (p : Chunkstore.ChunkProg β) :
    wp (exec db A) (Steps db acct) i (onChunks p) (fun _ _ => True) s :=
  wp_onChunks_steps rely_steps.stable (fun _ _ h => h) p trivial

theorem update_steps (c : Commit) :
    wp (exec db A) (Steps db acct) i (update db acct c) (fun _ _ => True) s := by
  refine wp_acquire rely_steps trivial (fun _ _ => trivial) fun s tok h => ?_
  refine wp_bind_of (wp_onStore rely_steps (settled_store s.store) (fun _ h => h) _ h) ?_
  rintro (e | _ | ops) s1 h1
  · exact wp_release rely_steps trivial
  · exact wp_release rely_steps trivial
  · refine wp_writeFenced rely_steps ((settled_store s.store).and (settled_const _)) h1 ?_
      fun _ _ _ => wp_release rely_steps trivial
    rintro s2 - ⟨hstore, hrun⟩ hok
    rw [← hstore] at hrun
    exact ⟨.single (.commit hok.1 hrun), trivial⟩

theorem finalizeBlobUpload_steps (wr : Writer) (uploader : String) (now : Int) :
    wp (exec db A) (Steps db acct) i (finalizeBlobUpload acct t wr uploader now)
      (fun _ _ => True) s := by
  refine wp_acquire rely_steps trivial (fun _ _ => trivial) fun s tok h => ?_
  refine wp_bind (wp_readHeld rely_steps (settled_store s.store) (fun _ h => h) h fun r s1 h1 => ?_)
  refine wp_writeFenced rely_steps ((settled_const _).and (settled_store s.store)) h1 ?_
    fun r s2 _ => ?_
  · rintro s2 - ⟨rfl, hstore⟩ -
    rw [← hstore]
    exact ⟨.single (.upload _ uploader now), trivial⟩
  · cases r with
    | error e => exact wp_release rely_steps trivial
    | ok _ => exact wp_bind_of (onChunks_steps _) fun _ _ _ => wp_release rely_steps trivial

theorem uploadBlob_steps (ps : List Bytes) (uploader : String) (now : Int) :
    wp (exec db A) (Steps db acct) i (uploadBlob acct t ps uploader now) (fun _ _ => True) s := by
  refine wp_bind_of (onChunks_steps _) ?_
  rintro (_ | wr) s1 -
  · trivial
  · exact wp_bind_of (onChunks_steps _) fun wr' s2 _ => finalizeBlobUpload_steps wr' _ _

variable (acct i tok D) in
/-- The collector has `b` when `cands` are left to inspect on `D`, `ops` in all. -/
abbrev Sweeping (now grace : Int) (ops : List BatchOp) (cands : List JmapId) (b : SweepBatch) :
    Disk → Prop :=
  Holds (fun _ => True) i tok fun s => s.store = D ∧ b.ops ++ sweepOps acct now grace D cands = ops

theorem sweepLoop_steps {now grace : Int} {ops : List BatchOp} (cands : List JmapId)
    {b : SweepBatch} (h : Sweeping acct i tok D now grace ops cands b s) :
    wp (exec db A) (Steps db acct) i (sweepLoop acct now grace cands b) (fun r s =>
      match r with
      | none => True
      | some b' => Sweeping acct i tok D now grace ops [] b' s) s := by
  induction cands generalizing b s with
  | nil => exact h
  | cons blobId rest ih =>
    -- under the claim the data stays as it was, so every read is of one store
    have hF := (@settled_store (fun _ _ => True) D).and
      (settled_const (b.ops ++ sweepOps acct now grace D (blobId :: rest) = ops))
    refine wp_readHeld rely_steps hF (fun _ h => h.1) h fun r s1 h1 => ?_
    cases hup : r.uploads[blobId]? with
    | none =>
      refine ih (h1.mono ?_)
      rintro s ⟨rfl, hstore, hops⟩
      exact ⟨hstore, by rw [← hops, sweepOps, hup, List.append_assoc]⟩
    | some rec =>
      dsimp only
      split
      · next hgrace =>
        refine ih (h1.mono ?_)
        rintro s ⟨rfl, hstore, hops⟩
        exact ⟨hstore, by rw [← hops, sweepOps, hup]; simp only [if_pos hgrace, List.nil_append]⟩
      · next hgrace =>
        refine wp_readHeld rely_steps ((settled_const (r = D)).and hF) (fun _ h => h.2.1) h1
          fun r' s2 h2 => ?_
        split
        · next href =>
          refine ih (h2.mono ?_)
          rintro s ⟨rfl, rfl, hstore, hops⟩
          refine ⟨hstore, ?_⟩
          rw [← hops, sweepOps, hup, List.append_assoc]
          simp only [if_neg hgrace, if_pos href]
        · next href =>
          have hF' := (settled_const (r' = D)).and ((settled_const (r = D)).and hF)
          refine wp_bind_of (wp_onChunks_steps (Holds.stable rely_steps hF')
            (fun _ _ h => { h with }) _ h2) ?_
          rintro (e | m) s3 h3
          · trivial
          · refine ih (h3.mono ?_)
            rintro s ⟨rfl, rfl, hstore, hops⟩
            refine ⟨hstore, ?_⟩
            rw [← hops, sweepOps, hup, List.append_assoc]
            simp only [if_neg hgrace, if_neg href]

theorem sweepBlobs_steps (minAge now grace : Int) :
    wp (exec db A) (Steps db acct) i (sweepBlobs acct minAge now grace) (fun _ _ => True) s := by
  refine wp_read rely_steps trivial fun r s1 _ => ?_
  split
  · trivial
  · refine wp_acquire rely_steps trivial (fun _ _ => trivial) fun s3 tok h3 => ?_
    refine wp_readHeld rely_steps (settled_store s3.store) (fun _ h => h) h3 fun r s4 h4 => ?_
    have hstart : Sweeping acct i tok s3.store now (max grace minAge)
        (sweepOps acct now (max grace minAge) s3.store (sweepCandidates acct s3.store))
        (sweepCandidates acct r) {} s4 := by
      refine h4.mono ?_
      rintro s ⟨rfl, hstore⟩
      exact ⟨hstore, rfl⟩
    refine wp_bind_of (sweepLoop_steps _ hstart) ?_
    rintro (_ | b) s5 h5
    · exact wp_release rely_steps trivial
    · dsimp only
      split
      · exact wp_release rely_steps trivial
      · refine wp_writeFenced rely_steps ((settled_store s3.store).and (settled_const _)) h5 ?_
          fun _ _ _ => wp_release rely_steps trivial
        rintro s6 - ⟨hstore, hops⟩ -
        rw [← hstore, sweepOps, List.append_nil] at hops
        rw [hops]
        exact ⟨.single (.sweep now _), trivial⟩

theorem job_steps (job : Job) :
    wp (exec db A) (Steps db acct) i (job.prog db acct t) (fun _ _ => True) s := by
  cases job with
  | commit c => exact update_steps c
  | upload ps uploader now => exact uploadBlob_steps ps uploader now
  | sweepBlobs minAge now grace => exact sweepBlobs_steps minAge now grace
  | chunks job => exact onChunks_steps _

/-- **Interleaved processes move the account by atomic steps.** -/
theorem store_atomic {jobs : ℕ → Job} {c : Config ℕ Disk Op Ans}
    (h : Config.Reaches (exec db A) (start db acct t jobs) c) :
    AccountReaches db acct {} c.state.store := by
  have hstart : AccountReaches db acct {} (start db acct t jobs).state.store := .refl
  exact @Config.reaches_inv _ _ _ _ _ (Steps db acct) _ _ _
    (fun s => AccountReaches db acct {} s.store) (fun _ _ _ hg h => h.trans hg.does)
    (fun i => job_steps (jobs i)) hstart h

end

end NaustJmap.Blobs
