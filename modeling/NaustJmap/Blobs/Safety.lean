import NaustJmap.Blobs.Atomic
import NaustJmap.ObjectDB.Lookup

/-!
# No Referenced Blob Is Collected

What every process guarantees while the others run (`Guar`).  In every interleaving a committed
reference has its upload record; its content is there too if each commit that adds a reference finds
the content published at that moment (`references_kept`).  A commit checks for the *record* only,
which is written before the content is published (`record_without_content`).
-/

namespace NaustJmap.Blobs

open Library ObjectDB
open Chunkstore (BlobKey PieceKey Manifest ChunkOp BackendErr Regime Tuning Writer)

variable {db : DB} {s D : Store} {ops : List BatchOp} {b : SweepBatch} {uploader : String}
  {now : Int}

/-! ## What a commit leaves alone -/

theorem update_uploads {acct : JmapId} {c : Commit}
    (h : (db.update acct c).run s = .ok (some ops)) : (applyBatch ops s).uploads = s.uploads := by
  obtain ⟨u, batch, -, hbatch, rfl⟩ := update_eq_some h
  simp only [Update.buildBatch, except_bind_eq_ok] at hbatch
  obtain ⟨records, hrec, hbatch⟩ := hbatch
  cases hbatch
  refine @applyBatch_frame _ Store.uploads _ (fun op hop s => ?_) s
  simp only [List.mem_append, List.mem_cons, List.mem_map, List.not_mem_nil, or_false] at hop
  obtain ((((rfl | ⟨⟨tag, set⟩, -, rfl⟩) | hop) | ⟨T, -, rfl⟩) | hop) | rfl := hop
  · rfl
  · cases set <;> rfl
  · obtain ⟨⟨k, st⟩, -, o, ho, hmem⟩ := mem_collectOps hrec hop
    rcases stagedOps_eq_ok ho with ⟨-, -, rfl⟩ | ⟨t, m, -, -, hm, rfl⟩
    · simp at hmem
    · rcases List.mem_cons.mp hmem with rfl | hmem
      · cases st.new <;> rfl
      · have hindex := maintenanceOps_isIndex hm op hmem
        cases op <;> first | rfl | simp [BatchOp.isIndex] at hindex
  · rfl
  · split at hop
    · simp at hop
    · rw [List.mem_singleton.mp hop]
      rfl
  · rfl

/-! ## The reference check of the collector -/

section

variable {acct : JmapId}

theorem blobReferenced_of_references {b : JmapId} (hrefs : RefsExact db acct s)
    (h : References db s b) : blobReferenced acct s b = true := by
  obtain ⟨k, obj, t, hobj, ht, hb⟩ := h
  have hkey : refKey acct b t.name k.id ∈ s.refs := by
    refine (hrefs _).mpr ⟨k, ?_⟩
    rw [hobj, recordRefKeys, ht]
    exact List.mem_map_of_mem hb
  refine List.any_eq_true.mpr ⟨_, Std.ExtTreeMap.mem_keys.mpr hkey, ?_⟩
  refine (mem_prefixRange_iff _ _).mpr (key_isPrefix_iff.mpr ?_)
  exact ⟨[bytesOf t.name, bytesOf k.id], rfl⟩

theorem references_congr {s' : Store} (h : s'.objs = s.objs) (b : JmapId) :
    References db s' b ↔ References db s b := by
  rw [References, References, h]

theorem refsExact_congr {s' : Store} (hobjs : s'.objs = s.objs) (hrefs : s'.refs = s.refs)
    (h : RefsExact db acct s) : RefsExact db acct s' := by
  intro K
  rw [hobjs, hrefs]
  exact h K

end

/-! ## The invariant and the guarantee -/

/-- The commits only refer to blobs whose content is published at that moment. -/
def Assumed.Contentful (A : Assumed) (acct : JmapId) : Prop :=
  ∀ (s : Disk) (b : JmapId), A.mayReference s b →
    ∃ m, s.world.chunks.manifests[(⟨acct, b⟩ : BlobKey)]? = some m

section

variable (db : DB) (acct : JmapId) (t : Tuning) (A : Assumed)

/-- The invariant of the account. -/
structure Sound (s : Disk) : Prop where
  chunk : Chunkstore.Inv t A.chunk s.world
  refs : RefsExact db acct s.store
  /-- A referenced blob has its upload record. -/
  record : ∀ b, References db s.store b → (s.store.uploads[b]?).isSome
  /-- A referenced blob is published. -/
  content : A.Contentful acct → ∀ b, References db s.store b →
    ∃ m, s.world.chunks.manifests[(⟨acct, b⟩ : BlobKey)]? = some m

def KeepsManifests (s s' : Disk) : Prop :=
  ∀ (k : BlobKey) (m : Manifest), s.world.chunks.manifests[k]? = some m →
    s'.world.chunks.manifests[k]? = some m

/-- What process `i` does to the account; `keepers` never delete a published blob. -/
structure Does (keepers : ℕ → Prop) (i : ℕ) (s s' : Disk) : Prop where
  sound : Sound db acct t A s → Sound db acct t A s'
  world : s.world = s'.world ∨ Chunkstore.Guar t A.chunk keepers i s.world s'.world

/-- Under another's claim it changes nothing the holder relies on. -/
abbrev Guar (keepers : ℕ → Prop) : ℕ → Disk → Disk → Prop :=
  Fences (Does db acct t A keepers) KeepsManifests

variable {db acct t A} {keepers : ℕ → Prop} {i tok : ℕ} {s s' : Disk}

theorem Guar.of_chunk {w' : Chunkstore.World} (hkeep : keepers i)
    (h : Chunkstore.Guar t A.chunk keepers i s.world w') :
    Guar db acct t A keepers i s { s with world := w' } where
  does :=
    { sound := fun hs =>
        { chunk := h.inv hs.chunk
          refs := hs.refs
          record := hs.record
          content := fun hA b hb =>
            let ⟨m, hm⟩ := hs.content hA b hb
            ⟨m, h.keep hkeep _ m hm⟩ }
      world := .inr h }
  tokens := fun _ _ h => h
  fenced := fun _ _ _ _ hc => ⟨hc, rfl, fun k m hm => h.keep hkeep k m hm⟩

theorem rely_sound : Rely (Does db acct t A keepers) KeepsManifests i (Sound db acct t A) where
  does _ _ _ := ⟨fun h => { h with }, .inl rfl⟩
  relied _ _ _ h := h
  inv h := { h with }
  stable _ _ _ _ hg := hg.does.sound

variable {α : Type} {Q : α → Disk → Prop} {F : Disk → Prop}

/-! ## Commits -/

theorem Sound.commit {c : Commit} (hs : Sound db acct t A s) (hc : ChecksBlobs db acct c)
    (hrun : (db.update acct c).run s.store = .ok (some ops))
    (hok : (Purpose.commit c).allowed db A s ops) : Sound db acct t A (s.apply ops []) where
  chunk := hs.chunk
  refs := hs.refs.commit hok.1 hrun
  record := by
    intro b hb
    change ((applyBatch ops s.store).uploads[b]?).isSome
    rw [update_uploads hrun]
    -- an old reference had its record, a new one was checked
    exact (hc s.store ops hrun b hb).elim (hs.record b) id
  content := by
    intro hA b hb
    exact (hok.2 b hb).elim (hs.content hA b) (hA s b)

theorem update_spec {c : Commit} (hc : ChecksBlobs db acct c) (hs : Sound db acct t A s) :
    wp (exec db A) (Guar db acct t A keepers) i (update db acct c) (fun _ _ => True) s := by
  refine wp_acquire rely_sound hs (fun _ _ => trivial) fun s tok h => ?_
  refine wp_bind_of (wp_onStore rely_sound (settled_store s.store) (fun _ h => h) _ h) ?_
  rintro (e | _ | ops) s1 h1
  · exact wp_release rely_sound h1.inv
  · exact wp_release rely_sound h1.inv
  · refine wp_writeFenced rely_sound ((settled_store s.store).and (settled_const _)) h1 ?_
      fun _ _ => wp_release rely_sound
    rintro s2 hs2 ⟨hstore, hrun⟩ hok
    rw [← hstore] at hrun
    have hs3 := hs2.commit hc hrun hok
    exact ⟨⟨fun _ => hs3, .inl rfl⟩, hs3⟩

/-! ## Uploads -/

theorem Sound.recordUpload {blobId : JmapId} {rec : BlobUpload} {key : Bytes}
    (hs : Sound db acct t A s) :
    Sound db acct t A (s.apply [.setUpload blobId rec, .setPending key] []) where
  chunk := hs.chunk
  refs := hs.refs
  record := by
    intro b hb
    change ((s.store.uploads.insert blobId rec)[b]?).isSome
    rw [Map.getElem?_insert]
    split
    · rfl
    · exact hs.record b hb
  content := hs.content

theorem wp_onChunks {p : Chunkstore.ChunkProg α} {Q : α → Chunkstore.World → Prop}
    (hkeep : keepers i) (hs : Sound db acct t A s)
    (h : wp (Chunkstore.exec A.chunk) (Chunkstore.Guar t A.chunk keepers) i p Q s.world) :
    wp (exec db A) (Guar db acct t A keepers) i (onChunks p)
      (fun a s => Q a s.world ∧ Sound db acct t A s) s := by
  have hexec : ∀ (q : Chunkstore.Request) s r s', exec db A i (.chunk q) s r s' →
      Chunkstore.exec A.chunk i q s.world r s'.world := by
    rintro q s r s' ⟨w', hx, rfl⟩
    exact hx
  have hguar : ∀ (q : Chunkstore.Request) s r s', exec db A i (.chunk q) s r s' →
      Chunkstore.Guar t A.chunk keepers i s.world s'.world →
      Guar db acct t A keepers i s s' := by
    rintro q s r s' ⟨w', -, rfl⟩ hg
    exact .of_chunk hkeep hg
  exact wp_lift hexec hguar (fun j _ s s' hg => hg.does.world) (fun j s s' hg => hg.does.sound) h hs

theorem rely_ready (wr : Writer) : Rely (Does db acct t A keepers) KeepsManifests i fun s =>
    Sound db acct t A s ∧ Chunkstore.Ready t A.chunk i wr s.world where
  does := rely_sound.does
  relied _ _ _ h := h
  inv h := ⟨{ h.1 with }, h.2⟩
  stable j hj s s' hg h := by
    refine ⟨hg.does.sound h.1, ?_⟩
    rcases hg.does.world with heq | hg'
    · exact heq ▸ h.2
    · exact ⟨hg'.inv h.2.1, fun hdone => Chunkstore.Owns.stable [] j hj _ _ hg' (h.2.2 hdone)⟩

theorem finalizeBlobUpload_spec {wr : Writer} (hkeep : keepers i) (hs : Sound db acct t A s)
    (hwr : Chunkstore.Ready t A.chunk i wr s.world) :
    wp (exec db A) (Guar db acct t A keepers) i (finalizeBlobUpload acct t wr uploader now)
      (fun _ _ => True) s := by
  refine wp_acquire (rely_ready wr) ⟨hs, hwr⟩ (fun _ _ => trivial) fun s tok h => ?_
  refine wp_bind (wp_readHeld (rely_ready wr) (settled_store s.store) (fun _ h => h) h ?_)
  intro D s1 h1
  refine wp_writeFenced (rely_ready wr) (settled_const True) (h1.mono fun _ _ => trivial) ?_ ?_
  · exact fun s2 h2 _ _ =>
      ⟨⟨fun _ => h2.1.recordUpload, .inl rfl⟩, h2.1.recordUpload, h2.2⟩
  · rintro (_ | _) s2 ⟨hs2, hwr2⟩
    · exact wp_release rely_sound hs2
    · refine wp_bind_of (wp_onChunks hkeep hs2 (Chunkstore.commit_spec hwr2)) ?_
      exact fun _ s3 h3 => wp_release rely_sound h3.2

theorem uploadBlob_spec {ps : List Bytes} (hkeep : keepers i) (hs : Sound db acct t A s) :
    wp (exec db A) (Guar db acct t A keepers) i (uploadBlob acct t ps uploader now)
      (fun _ _ => True) s := by
  refine wp_bind_of (wp_onChunks hkeep hs (Chunkstore.create_spec hs.chunk)) ?_
  rintro (_ | wr) s1 ⟨hpost, hs1⟩
  · trivial
  · have hready : Chunkstore.Ready t A.chunk i wr s1.world := ⟨hpost.1.inv, fun _ => hpost.1⟩
    refine wp_bind_of (wp_onChunks hkeep hs1 (Chunkstore.writeAll_spec ps hready)) ?_
    exact fun wr' s2 h2 => finalizeBlobUpload_spec hkeep h2.2 h2.1.1

/-! ## The collector -/

variable (acct) in
/-- The batch of `SweepBlobs` deletes hints, and blobs that nothing in `D` references. -/
structure SweepBatch.Safe (D : Store) (b : SweepBatch) (s : Disk) : Prop where
  ops : ∀ op ∈ b.ops, (∃ key, op = .deletePending key) ∨
    ∃ blobId, op = .deleteUpload blobId ∧ blobReferenced acct D blobId = false
  chunks : ∃ dels : List (BlobKey × Manifest), b.chunkOps = Chunkstore.blobDeletes dels ∧
    ∀ d ∈ dels, s.world.chunks.manifests[d.1]? = some d.2 ∧
      (d.1.acct = acct → blobReferenced acct D d.1.blobId = false)

theorem SweepBatch.Safe.settled (D : Store) (b : SweepBatch) :
    Settled KeepsManifests (b.Safe acct D) := by
  rintro s s' - hman ⟨hops, dels, hdels, hall⟩
  exact ⟨hops, dels, hdels, fun d hd => ⟨hman _ _ (hall d hd).1, (hall d hd).2⟩⟩

theorem SweepBatch.Safe.empty (D : Store) : (({} : SweepBatch)).Safe acct D s :=
  ⟨by simp, [], rfl, by simp⟩

theorem SweepBatch.Safe.hint (h : b.Safe acct D s) (key : Bytes) :
    SweepBatch.Safe acct D { b with ops := b.ops ++ [.deletePending key] } s := by
  refine ⟨fun op hop => ?_, h.chunks⟩
  rcases List.mem_append.mp hop with hop | hop
  · exact h.ops op hop
  · exact .inl ⟨key, List.mem_singleton.mp hop⟩

theorem SweepBatch.Safe.collect {blobId : JmapId} {m : Option Manifest} (h : b.Safe acct D s)
    (key : Bytes) (hunref : blobReferenced acct D blobId = false)
    (hm : ∀ x, m = some x → s.world.chunks.manifests[(⟨acct, blobId⟩ : BlobKey)]? = some x) :
    SweepBatch.Safe acct D
      { ops := b.ops ++ [.deleteUpload blobId, .deletePending key]
        chunkOps := b.chunkOps ++ Chunkstore.appendDelete ⟨acct, blobId⟩ m } s := by
  obtain ⟨dels, hdels, hall⟩ := h.chunks
  refine ⟨fun op hop => ?_, ?_⟩
  · simp only [List.mem_append, List.mem_cons, List.not_mem_nil, or_false] at hop
    obtain hop | rfl | rfl := hop
    · exact h.ops op hop
    · exact .inr ⟨blobId, rfl, hunref⟩
    · exact .inl ⟨key, rfl⟩
  · cases m with
    | none => exact ⟨dels, by simpa [Chunkstore.appendDelete] using hdels, hall⟩
    | some x =>
      refine ⟨dels ++ [(⟨acct, blobId⟩, x)], by simp [Chunkstore.blobDeletes, hdels], ?_⟩
      intro d hd
      rcases List.mem_append.mp hd with hd | hd
      · exact hall d hd
      · obtain rfl := List.mem_singleton.mp hd
        exact ⟨hm x rfl, fun _ => hunref⟩

theorem SweepBatch.Safe.store (h : b.Safe acct D s) (s1 : Store) :
    (applyBatch b.ops s1).objs = s1.objs ∧ (applyBatch b.ops s1).refs = s1.refs ∧
      ∀ blobId, blobReferenced acct D blobId = true →
        (applyBatch b.ops s1).uploads[blobId]? = s1.uploads[blobId]? := by
  have hops := h.ops
  generalize b.ops = ops at hops
  induction ops generalizing s1 with
  | nil => exact ⟨rfl, rfl, fun _ _ => rfl⟩
  | cons op ops ih =>
    obtain ⟨hobjs, hrefs, hup⟩ := ih (op.apply s1) fun o ho => hops o (List.mem_cons_of_mem _ ho)
    rcases hops op List.mem_cons_self with ⟨key, rfl⟩ | ⟨x, rfl, hx⟩
    · exact ⟨hobjs, hrefs, hup⟩
    · refine ⟨hobjs, hrefs, fun blobId href => (hup blobId href).trans ?_⟩
      have hne : x ≠ blobId := by
        rintro rfl
        rw [hx] at href
        cases href
      simp [BatchOp.apply, Map.getElem?_erase, hne]

theorem Sound.sweep (hs : Sound db acct t A s) (hb : b.Safe acct s.store s) (hkeep : ¬ keepers i) :
    Sound db acct t A (s.apply b.ops b.chunkOps) ∧
      Chunkstore.Guar t A.chunk keepers i s.world (s.apply b.ops b.chunkOps).world := by
  obtain ⟨hobjs, hrefs, hup⟩ := hb.store s.store
  obtain ⟨dels, hdels, hall⟩ := hb.chunks
  have hguar : Chunkstore.Guar t A.chunk keepers i s.world (s.apply b.ops b.chunkOps).world := by
    change Chunkstore.Guar t A.chunk keepers i s.world (s.world.apply { ops := b.chunkOps })
    rw [hdels]
    exact hs.chunk.blobDeletes_guar (fun d hd => (hall d hd).1) hkeep
  have href : ∀ x, References db (s.apply b.ops b.chunkOps).store x → References db s.store x :=
    fun x hx => (references_congr hobjs x).mp hx
  refine ⟨⟨hguar.inv hs.chunk, refsExact_congr hobjs hrefs hs.refs, fun x hx => ?_,
    fun hA x hx => ?_⟩,
    hguar⟩
  · change ((applyBatch b.ops s.store).uploads[x]?).isSome
    rw [hup x (blobReferenced_of_references hs.refs (href x hx))]
    exact hs.record x (href x hx)
  · obtain ⟨m, hm⟩ := hs.content hA x (href x hx)
    refine ⟨m, ?_⟩
    change (Chunkstore.applyOps b.chunkOps s.world.chunks).manifests[_]? = some m
    rw [hdels]
    rcases (Chunkstore.blobDeletes_apply dels s.world.chunks).2.1 ⟨acct, x⟩ with
      ⟨⟨d, hd, hdx⟩, -⟩ | ⟨-, hsame⟩
    · -- a referenced blob is not among the deleted ones
      have hunref := (hall d hd).2 (by rw [hdx])
      rw [hdx, blobReferenced_of_references hs.refs (href x hx)] at hunref
      cases hunref
    · exact hsame.trans hm

theorem wp_getManifest (hF : Settled KeepsManifests F) {key : BlobKey}
    {k : Except BackendErr (Option Manifest) → BlobProg α}
    (h : Holds (Sound db acct t A) i tok F s)
    (hok : ∀ m s, Holds (Sound db acct t A) i tok (fun s => F s ∧
      ∀ x, m = some x → s.world.chunks.manifests[key]? = some x) s →
      wp (exec db A) (Guar db acct t A keepers) i (k (.ok m)) Q s)
    (herr : ∀ e s, Sound db acct t A s →
      wp (exec db A) (Guar db acct t A keepers) i (k (.error e)) Q s) :
    wp (exec db A) (Guar db acct t A keepers) i (onChunks (Chunkstore.getManifest key) >>= k)
      Q s := by
  refine wp_call (Holds.stable rely_sound hF) h fun s1 r s2 h1 hx => ?_
  obtain ⟨w', hx, rfl⟩ := hx
  obtain ⟨rfl, rfl | rfl⟩ :
    w' = s1.world ∧ (r = .ok s1.world.chunks.manifests[key]? ∨ r = .error .failed) := hx
  · exact ⟨rely_sound.refl, hok _ _ { h1 with known := fun hc => ⟨h1.known hc, fun _ hx => hx⟩ }⟩
  · exact ⟨rely_sound.refl, herr _ _ h1.inv⟩

theorem sweepLoop_spec {grace : Int} (D : Store) (cands : List JmapId)
    (h : Holds (Sound db acct t A) i tok (fun s => s.store = D ∧ b.Safe acct D s) s) :
    wp (exec db A) (Guar db acct t A keepers) i (sweepLoop acct now grace cands b) (fun r s =>
      match r with
      | none => Sound db acct t A s
      | some b' => Holds (Sound db acct t A) i tok
          (fun s => s.store = D ∧ b'.Safe acct D s) s) s := by
  induction cands generalizing b s with
  | nil => exact h
  | cons blobId rest ih =>
    have hF : Settled KeepsManifests fun s => s.store = D ∧ b.Safe acct D s :=
      (settled_store D).and (SweepBatch.Safe.settled D b)
    refine wp_readHeld rely_sound hF (fun _ h => h.1) h fun r s1 h1 => ?_
    cases hup : r.uploads[blobId]? with
    | none =>
      exact ih (h1.mono fun s hs => ⟨hs.2.1, hs.2.2.hint _⟩)
    | some rec =>
      dsimp only
      split
      · exact ih (h1.mono fun s hs => hs.2)
      · refine wp_readHeld rely_sound hF (fun _ h => h.1) (h1.mono fun s hs => hs.2)
          fun r' s2 h2 => ?_
        split
        · exact ih (h2.mono fun s hs => ⟨hs.2.1, hs.2.2.hint _⟩)
        · next hunref =>
          refine wp_getManifest ((settled_const (r' = D)).and hF) h2 (fun m s3 h3 => ?_)
            fun _ _ hs => hs
          refine ih (h3.mono ?_)
          rintro s ⟨⟨rfl, hstore, hsafe⟩, hm⟩
          exact ⟨hstore, hsafe.collect _ (by simpa using hunref) hm⟩

theorem sweepBlobs_spec {minAge grace : Int} (hkeep : ¬ keepers i) (hs : Sound db acct t A s) :
    wp (exec db A) (Guar db acct t A keepers) i (sweepBlobs acct minAge now grace)
      (fun _ _ => True) s := by
  refine wp_read rely_sound hs fun r s1 hs1 => ?_
  split
  · trivial
  · refine wp_acquire rely_sound hs1 (fun _ _ => trivial) fun s2 tok h2 => ?_
    refine wp_readHeld rely_sound (settled_store s2.store) (fun _ h => h) h2 fun r s3 h3 => ?_
    refine wp_bind_of (sweepLoop_spec s2.store _
      (h3.mono fun s hs => ⟨hs.2, SweepBatch.Safe.empty _⟩)) ?_
    rintro (_ | b) s4 h4
    · exact wp_release rely_sound h4
    · dsimp only
      split
      · exact wp_release rely_sound h4.inv
      · refine wp_writeFenced rely_sound
          ((settled_store s2.store).and (SweepBatch.Safe.settled _ b)) h4 ?_
          fun _ _ => wp_release rely_sound
        rintro s5 hs5 ⟨hstore, hsafe⟩ -
        rw [← hstore] at hsafe
        obtain ⟨hsound, hguar⟩ := hs5.sweep hsafe hkeep
        exact ⟨⟨fun _ => hsound, .inr hguar⟩, hsound⟩

/-! ## All processes together -/

def Job.keeps : Job → Prop
  | .sweepBlobs .. => False
  | _ => True

theorem job_spec (jobs : ℕ → Job) (hchecked : ∀ i, (jobs i).Checked db acct)
    (hdist : ∀ i, jobs i = .chunks .sweep → A.chunk.Distinct) (i : ℕ)
    (hs : Sound db acct t A s) :
    wp (exec db A) (Guar db acct t A fun j => (jobs j).keeps) i ((jobs i).prog db acct t)
      (fun _ _ => True) s := by
  have hi := hchecked i
  cases hjob : jobs i with
  | commit c =>
    rw [hjob] at hi
    exact update_spec hi hs
  | upload ps uploader now => exact uploadBlob_spec (by simp [hjob, Job.keeps]) hs
  | sweepBlobs minAge now grace => exact sweepBlobs_spec (by simp [hjob, Job.keeps]) hs
  | chunks job =>
    refine wp_mono (fun _ _ _ => trivial)
      (wp_onChunks (Q := fun _ _ => True) (by simp [hjob, Job.keeps]) hs ?_)
    cases job with
    | upload acct calls => exact Chunkstore.uploadJob_spec acct calls hs.chunk
    | sweep => exact Chunkstore.job_spec (hdist i hjob) .sweep hs.chunk

theorem Sound.start : Sound db acct t A {} where
  chunk := .empty
  refs := by
    intro K
    have hnone : ∀ k : RecKey, K ∉ recordRefKeys db acct k none := by
      intro k
      unfold recordRefKeys
      split <;> simp [blobRefsOf, dedupNames]
    simp [hnone]
  record := by
    rintro b ⟨k, obj, t, hobj, -⟩
    simp at hobj
  content := by
    rintro - b ⟨k, obj, t, hobj, -⟩
    simp at hobj

end

/-! ## An account with letters -/

def letterCommit : Commit where
  fn := .read fun s =>
    if (s.uploads["bc"]?).isSome then
      .create "Letter" ((letter "\"T1\"" "\"9\"" "[\"in\"]").insert "blob" "\"bc\"") fun _ =>
        .done (.ok ())
    else .done (.error .notFound)
  draw := fun _ => "L"
  now := 0

theorem create_staged {draw : ℕ → JmapId} {typeName : String} {obj : Object} {u u' : Update}
    {r : Except Err JmapId} (h : (Update.create db draw typeName obj u).run s = (r, u'))
    (k : RecKey) :
    u'.staged[k]? = u.staged[k]? ∨ k.typeName = typeName ∧ u'.staged[k]? =
      some { new := some (obj.insert "id" (quoteId (draw u.createSeq))), created := true } := by
  unfold Update.create at h
  split at h
  · obtain ⟨-, rfl⟩ := Prod.mk.inj h
    exact .inl rfl
  split at h
  · obtain ⟨-, rfl⟩ := Prod.mk.inj h
    exact .inl rfl
  split at h
  · obtain ⟨-, rfl⟩ := Prod.mk.inj h
    exact .inl rfl
  · obtain ⟨-, rfl⟩ := Prod.mk.inj h
    by_cases hk : k = ⟨typeName, draw u.createSeq⟩
    · subst hk
      refine .inr ⟨rfl, (Map.getElem?_insert ..).trans ?_⟩
      simp
    · refine .inl ((Map.getElem?_insert ..).trans ?_)
      simp [Ne.symm hk]

theorem letterCommit_checksBlobs : ChecksBlobs letterDB "a" letterCommit := by
  intro s ops hrun b hb
  obtain ⟨u, batch, hexec, hbatch, rfl⟩ := update_eq_some hrun
  by_cases hrec : (s.uploads["bc"]?).isSome
  · change Reads.run s (Callback.exec letterDB _ (if (s.uploads["bc"]?).isSome then _ else _) _) = _
      at hexec
    rw [if_pos hrec, Callback.exec, Reads.run_bind] at hexec
    generalize hc : (Update.create _ _ _ _ _).run s = r at hexec
    obtain ⟨-, rfl⟩ := Prod.mk.inj hexec
    obtain ⟨k, obj, t, hobj, ht, hmem⟩ := hb
    rw [(applyBatch_buildBatch hbatch s).2.2.1 k] at hobj
    rcases create_staged hc k with hsame | ⟨hname, hnew⟩
    · rw [hsame] at hobj
      exact .inl ⟨k, obj, t, by simpa using hobj, ht, hmem⟩
    · -- the new letter refers to the blob that was checked
      rw [hnew] at hobj
      cases hobj
      rw [hname] at ht
      have hrefs : b ∈ ["bc"] := by
        obtain rfl : letterType = t := Option.some.inj (DB.types_add.symm.trans ht)
        exact hmem
      rw [List.mem_singleton.mp hrefs]
      exact .inr hrec
  · change Reads.run s (Callback.exec letterDB _ (if (s.uploads["bc"]?).isSome then _ else _) _) = _
      at hexec
    rw [if_neg hrec] at hexec
    cases congrArg Prod.fst hexec

def letterJobs : ℕ → Job
  | 0 => .upload [[1, 2]] "u" 0
  | 1 => .sweepBlobs 0 100 0
  | 2 => .upload [[1, 2]] "u" 200
  | _ => .commit letterCommit

theorem letterJobs_checked (i : ℕ) : (letterJobs i).Checked letterDB "a" := by
  unfold letterJobs
  split
  · trivial
  · trivial
  · trivial
  · exact letterCommit_checksBlobs

theorem letterJobs_sweepless (i : ℕ) : letterJobs i ≠ .chunks .sweep := by
  unfold letterJobs
  split <;> exact fun h => nomatch h

def uploadRecorded (i : ℕ) (run : Chunkstore.RunId) (tok : ℕ) : List (ℕ × Choice) :=
  [(i, .chunk (.run run)), (i, .chunk (.time 1)), (i, .chunk .fine), (i, .chunk (.time 2)),
    (i, .chunk .fine), (i, .chunk (.time 3)), (i, .chunk .fine), (i, .chunk (.time 4)),
    (i, .token tok), (i, .fine), (i, .fine)]

def uploadPublished (i : ℕ) : List (ℕ × Choice) :=
  [(i, .chunk .fine), (i, .chunk .fine), (i, .fine)]

def letterCommitted (i tok : ℕ) : List (ℕ × Choice) :=
  [(i, .token tok), (i, .fine), (i, .fine), (i, .fine)]

/-! ## The result -/

/-- In every interleaving of commits that check the blobs they refer to, uploads, collections
    and users of the chunk store, with takeovers of the lease at any moment: a committed
    reference has its upload record, and its content can be opened if every commit only adds
    references to blobs whose content was published at that moment. -/
theorem references_kept (db : DB) (acct : JmapId) (t : Tuning) (A : Assumed) (jobs : ℕ → Job)
    (hchecked : ∀ i, (jobs i).Checked db acct)
    (hdist : ∀ i, jobs i = .chunks .sweep → A.chunk.Distinct) {c : Config ℕ Disk Op Ans}
    (h : Config.Reaches (exec db A) (start db acct t jobs) c) {b : JmapId}
    (hb : References db c.state.store b) :
    (c.state.store.uploads[b]?).isSome ∧
      (A.Contentful acct →
        ∃ content size, c.state.world.chunks.openBlob acct b = some (content, size)) := by
  have hsound : Sound db acct t A c.state :=
    Config.reaches_inv (fun _ _ _ hg => hg.does.sound)
      (fun i => job_spec jobs hchecked hdist i .start) .start h
  refine ⟨hsound.record b hb, fun hA => ?_⟩
  obtain ⟨m, hm⟩ := hsound.content hA b hb
  obtain ⟨content, hopen, -⟩ := (hsound.chunk.backed _ m hm).opens hm
  exact ⟨content, m.size, hopen⟩

abbrev Assumed.published : Assumed where
  chunk := .unrepeated
  mayReference s b := (s.world.chunks.manifests[(⟨"a", b⟩ : BlobKey)]?).isSome

theorem letter_of_published :
    (Config.play (eval letterDB .published)
      (uploadRecorded 0 [7] 1 ++ uploadPublished 0 ++ letterCommitted 3 2)
      (start letterDB "a" Chunkstore.tinyPieces letterJobs)).any (fun c =>
        (c.state.store.objs[RecKey.mk "Letter" "L"]?).any fun obj =>
          "bc" ∈ blobRefsOf letterDB.scan letterType (some obj)) := by
  decide +kernel

theorem letterType_registered : letterDB.types["Letter"]? = some letterType :=
  DB.types_add

theorem references_kept_letter : ∃ c : Config ℕ Disk Op Ans,
    Config.Reaches (exec letterDB .published)
      (start letterDB "a" Chunkstore.tinyPieces letterJobs) c ∧
      References letterDB c.state.store "bc" ∧ (c.state.store.uploads["bc"]?).isSome ∧
      ∃ content size, c.state.world.chunks.openBlob "a" "bc" = some (content, size) := by
  obtain ⟨c, hplay, hstate⟩ := (Option.any_eq_true _ _).mp letter_of_published
  obtain ⟨obj, hobj, hmem⟩ := (Option.any_eq_true _ _).mp hstate
  have hreach := Config.play_reaches (@eval_exec _ .published _ _ _) hplay
  have href : References letterDB c.state.store "bc" :=
    ⟨_, obj, letterType, hobj, letterType_registered, of_decide_eq_true hmem⟩
  have hkept := references_kept letterDB "a" Chunkstore.tinyPieces .published letterJobs
    letterJobs_checked (fun i h => absurd h (letterJobs_sweepless i)) hreach href
  exact ⟨c, hreach, href, hkept.1, hkept.2 fun s b h => Option.isSome_iff_exists.mp h⟩

/-! ## A reference that finds the record and no content -/

abbrev Assumed.unrestricted : Assumed where
  chunk := .unrepeated
  mayReference _ _ := True

/-- The blob is collected, a second upload stops after its record, and the commit finds it. -/
def collectedThenRecorded : List (ℕ × Choice) :=
  [(1, .fine), (1, .token 2), (1, .fine), (1, .fine), (1, .fine), (1, .chunk .fine), (1, .fine),
    (1, .fine)] ++ uploadRecorded 2 [8] 3 ++ letterCommitted 3 4

theorem letter_of_collected :
    (Config.play (eval letterDB .unrestricted) (uploadRecorded 0 [7] 1 ++ uploadPublished 0)
      (start letterDB "a" Chunkstore.tinyPieces letterJobs)).any (fun c =>
        c.state.world.chunks.openBlob "a" "bc" = some ([1, 2], 2) &&
        (Config.play (eval letterDB .unrestricted) collectedThenRecorded c).any fun c' =>
          (c'.state.world.chunks.openBlob "a" "bc").isNone &&
          (c'.state.store.objs[RecKey.mk "Letter" "L"]?).any fun obj =>
            "bc" ∈ blobRefsOf letterDB.scan letterType (some obj)) := by
  decide +kernel

/-- A commit that passes the `BlobExists` check refers to a blob whose content was there and
    has been deleted. -/
theorem record_without_content : (∀ i, (letterJobs i).Checked letterDB "a") ∧
    ∃ c c' : Config ℕ Disk Op Ans,
      Config.Reaches (exec letterDB .unrestricted)
        (start letterDB "a" Chunkstore.tinyPieces letterJobs) c ∧
      c.state.world.chunks.openBlob "a" "bc" = some ([1, 2], 2) ∧
      Config.Reaches (exec letterDB .unrestricted) c c' ∧
      References letterDB c'.state.store "bc" ∧
      c'.state.world.chunks.openBlob "a" "bc" = none := by
  refine ⟨letterJobs_checked, ?_⟩
  obtain ⟨c, hplay, hstate⟩ := (Option.any_eq_true _ _).mp letter_of_collected
  obtain ⟨hopen, hrest⟩ := Bool.and_eq_true_iff.mp hstate
  obtain ⟨c', hplay', hstate'⟩ := (Option.any_eq_true _ _).mp hrest
  obtain ⟨hgone, href⟩ := Bool.and_eq_true_iff.mp hstate'
  obtain ⟨obj, hobj, hmem⟩ := (Option.any_eq_true _ _).mp href
  exact ⟨c, c', Config.play_reaches (@eval_exec _ .unrestricted _ _ _) hplay,
    of_decide_eq_true hopen, Config.play_reaches (@eval_exec _ .unrestricted _ _ _) hplay',
    ⟨_, obj, letterType, hobj, letterType_registered, of_decide_eq_true hmem⟩,
    Option.isNone_iff_eq_none.mp hgone⟩

end NaustJmap.Blobs
