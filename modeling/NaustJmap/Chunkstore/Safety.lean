import NaustJmap.Chunkstore.Runs

/-!
# Uploads and Run Sweeps Side by Side

Any number of writers and run sweeps, each verified on its own: what a writer knows about its run
(`Owns`) survives whatever the others do, what a sweep knows of a run (`Scanned`) survives as long
as the marker it saw is there.  Along every interleaving the pieces a manifest names are there, and
a stored piece is named by a manifest or belongs to a marked run (`uploads_safe`), provided a marker
never gets a stamp back (`stamp_repeat_leaks`).
-/

namespace NaustJmap.Chunkstore

open Library ObjectDB

variable {acct : JmapId} {rest p : Bytes}

section

variable {t : Tuning} {R : Regime} {keepers : ℕ → Prop} {i : ℕ} {w : World} {wr : Writer}
  {run : RunId} {keys : List PieceKey}

/-! ## Requests -/

section Requests

variable {α : Type} {L : World → Prop} {Q : α → World → Prop}
  (hL : Stable (Guar t R keepers) i L) (h : L w)

include hL h

theorem wp_now {k : Int → ChunkProg α}
    (hk : ∀ w1 stamp, L w1 → wp (exec R) (Guar t R keepers) i (k stamp) Q w1) :
    wp (exec R) (Guar t R keepers) i (now >>= k) Q w := by
  refine wp_call hL h fun w1 stamp w2 h1 hx => ?_
  obtain rfl : w2 = w1 := hx
  exact ⟨.refl, hk w2 stamp h1⟩

/-- A read changes nothing, and answers or fails. -/
theorem wp_read {o : Request} {found : World → Answer o} {e : Answer o}
    {k : Answer o → ChunkProg α}
    (hexec : ∀ {w1 r w2}, exec R i o w1 r w2 → w2 = w1 ∧ (r = found w1 ∨ r = e))
    (hk : ∀ w1, L w1 → wp (exec R) (Guar t R keepers) i (k (found w1)) Q w1)
    (herr : ∀ w1, L w1 → wp (exec R) (Guar t R keepers) i (k e) Q w1) :
    wp (exec R) (Guar t R keepers) i (.call o k) Q w := by
  refine wp_call hL h fun w1 r w2 h1 hx => ?_
  obtain ⟨rfl, rfl | rfl⟩ := hexec hx
  · exact ⟨.refl, hk w2 h1⟩
  · exact ⟨.refl, herr w2 h1⟩

/-- A batch is applied and noticed, refused, lost, or applied and not noticed. -/
theorem wp_writeBatch {b : Batch} {n : ℕ} {k : Except BackendErr Unit → ChunkProg α}
    (happly : ∀ w1, L w1 → b.holds w1 → b.stampsOk R w1 → Guar t R keepers i w1 (w1.apply b))
    (hok : ∀ w1, L w1 → b.holds w1 → b.stampsOk R w1 →
      wp (exec R) (Guar t R keepers) i (k (.ok ())) Q (w1.apply b))
    (hrefused : ∀ w1, L w1 → ¬ b.holds w1 →
      wp (exec R) (Guar t R keepers) i (k (.error .assertFailed)) Q w1)
    (hlost : ∀ w1, L w1 → R.mayFail n →
      wp (exec R) (Guar t R keepers) i (k (.error .failed)) Q w1)
    (hunnoticed : ∀ w1, L w1 → R.mayFail n → b.holds w1 → b.stampsOk R w1 →
      wp (exec R) (Guar t R keepers) i (k (.error .failed)) Q (w1.apply b)) :
    wp (exec R) (Guar t R keepers) i (writeBatch b n >>= k) Q w := by
  refine wp_call hL h fun w1 r w2 h1 (hx : Writes R b n w1 r w2) => ?_
  cases hx with
  | applied hold hst => exact ⟨happly w1 h1 hold hst, hok w1 h1 hold hst⟩
  | refused hold => exact ⟨.refl, hrefused w1 h1 hold⟩
  | lost hfail => exact ⟨.refl, hlost w1 h1 hfail⟩
  | unnoticed hfail hold hst => exact ⟨happly w1 h1 hold hst, hunnoticed w1 h1 hfail hold hst⟩

end Requests

theorem Inv.stable : Stable (Guar t R keepers) i (Inv t R) := fun _ _ _ _ hg h => hg.inv h

/-! ## The writer's methods -/

structure Writer.Alike (wr wr' : Writer) : Prop where
  acct : wr'.acct = wr.acct
  hashed : wr'.hashed = wr.hashed
  done : wr'.done = wr.done

theorem Writer.Alike.refl (wr : Writer) : wr.Alike wr := ⟨rfl, rfl, rfl⟩

theorem Writer.Alike.trans {a b c : Writer} (h : a.Alike b) (h' : b.Alike c) : a.Alike c :=
  ⟨h'.acct.trans h.acct, h'.hashed.trans h.hashed, h'.done.trans h.done⟩

theorem Writer.Alike.congr {a b c : Writer} (h' : b.Alike c) (h : a.Alike b) : a.Alike c :=
  h.trans h'

theorem flush_spec (h : Owns t R i wr rest w) :
    wp (exec R) (Guar t R keepers) i (wr.flush rest.length) (fun r w =>
      match r with
      | (.ok (), wr') => Owns t R i wr' rest w ∧
          ∃ stamp, wr' = { wr.stamped stamp with count := wr.count + 1, buf := [] }
      | (.error e, wr') => Owns t R i wr [] w ∧ wr' = wr ∧ e ≠ .looping) w := by
  refine wp_now (Owns.stable rest) h fun w1 stamp h1 => ?_
  have happly : ∀ w2, Owns t R i wr rest w2 → (wr.flushBatch stamp).holds w2 →
      (wr.flushBatch stamp).stampsOk R w2 →
      Guar t R keepers i w2 (w2.apply (wr.flushBatch stamp)) :=
    fun w2 h2 hold hst => (restamps_flush hold hst).guar h2
  refine wp_writeBatch (Owns.stable rest) h1 happly ?_ ?_ ?_ ?_
  · intro w2 h2 hold hst
    have hinv := (happly w2 h2 hold hst).inv h2.inv
    refine ⟨(restamps_flush hold hst).flushed ?_ h2 hinv, stamp, rfl⟩
    simp [World.apply, Writer.flushBatch, ChunkOp.apply]
  · intro w2 h2 hold
    exact ⟨h2.refused fun heq => hold (flushBatch_holds.mpr heq), rfl, by decide⟩
  · intro w2 h2 hfail
    exact ⟨h2.forget hfail, rfl, by decide⟩
  · intro w2 h2 hfail hold hst
    have hinv := (happly w2 h2 hold hst).inv h2.inv
    exact ⟨(restamps_flush hold hst).unnoticed h2 hfail hinv, rfl, by decide⟩

theorem maybeRefresh_spec (h : Owns t R i wr [] w) :
    wp (exec R) (Guar t R keepers) i (wr.maybeRefresh t) (fun r w =>
      Owns t R i r.2 [] w ∧ wr.Alike r.2) w := by
  refine wp_now (Owns.stable []) h fun w1 stamp h1 => ?_
  split
  · exact ⟨h1, .refl wr⟩
  have happly : ∀ w2, Owns t R i wr [] w2 → (wr.refreshBatch stamp).holds w2 →
      (wr.refreshBatch stamp).stampsOk R w2 →
      Guar t R keepers i w2 (w2.apply (wr.refreshBatch stamp)) :=
    fun w2 h2 hold hst => (restamps_refresh hold hst).guar h2
  refine wp_writeBatch (Owns.stable []) h1 happly ?_ ?_ ?_ ?_
  · intro w2 h2 hold hst
    have hinv := (happly w2 h2 hold hst).inv h2.inv
    exact ⟨(restamps_refresh hold hst).refreshed rfl h2 hinv, rfl, rfl, rfl⟩
  · intro w2 h2 _
    exact ⟨h2, .refl wr⟩
  · intro w2 h2 _
    exact ⟨h2, .refl wr⟩
  · intro w2 h2 hfail hold hst
    have hinv := (happly w2 h2 hold hst).inv h2.inv
    exact ⟨(restamps_refresh hold hst).unnoticed h2 hfail hinv, .refl wr⟩

def Writer.rounds (t : Tuning) (wr : Writer) (p : Bytes) : ℕ :=
  2 * p.length + if wr.buf.length = pieceSize t wr.count then 1 else 0

theorem Writer.rounds_of_buf_nil (h : wr.buf = []) : wr.rounds t p = 2 * p.length := by
  have hne : wr.buf.length ≠ pieceSize t wr.count := by
    rw [h]
    exact (pieceSize_pos t wr.count).ne
  rw [rounds, if_neg hne, Nat.add_zero]

theorem Owns.buffer (h : Owns t R i wr p w) (take : ℕ)
    (htake : wr.buf.length + take ≤ pieceSize t wr.count) :
    Owns t R i { wr with buf := wr.buf ++ p.take take } (p.drop take) w := by
  refine ⟨h.inv, h.owner, h.unpublished, h.last, h.labels, h.size, ?_, fun hmk => ?_⟩
  · simp only [List.length_append, List.length_take]
    omega
  · obtain ⟨parts, hlen, hstarts, hcontent, hall⟩ := h.pieces hmk
    refine ⟨parts, hlen, hstarts, fun hloss => ?_, hall⟩
    simpa using hcontent hloss

/-- The loop of `Write` never reaches its bound, and stores or buffers all that was hashed. -/
theorem writeLoop_spec {fuel : ℕ} (h : Owns t R i wr p w) (hfuel : wr.rounds t p < fuel) :
    wp (exec R) (Guar t R keepers) i (wr.writeLoop t fuel p) (fun r w =>
      Owns t R i r.2 [] w ∧ wr.Alike r.2 ∧ r.1 ≠ .error .looping) w := by
  induction fuel generalizing p wr w with
  | zero => omega
  | succ fuel ih =>
    unfold Writer.writeLoop
    have hfits := h.fits
    unfold Writer.rounds at hfuel
    split
    · next hp =>
      subst hp
      exact ⟨h, .refl wr, by simp⟩
    · next hp =>
      have hlen : 0 < p.length := List.length_pos_iff.mpr hp
      have h' := h.buffer (min (pieceSize t wr.count - wr.buf.length) p.length) (by omega)
      have hdrop : ∀ n, (p.drop n).length = p.length - n := fun n => List.length_drop
      dsimp only
      split
      · -- the buffer is full: flush it, and go on with an empty one
        refine wp_bind_of (flush_spec h') ?_
        rintro ⟨_ | _, wr'⟩ w' hpost
        · obtain ⟨h1, rfl, herr⟩ := hpost
          exact ⟨h1, ⟨rfl, rfl, rfl⟩, by simpa using herr⟩
        · obtain ⟨h1, stamp, rfl⟩ := hpost
          refine wp_mono (fun r w hr => ⟨hr.1, hr.2.1.congr ⟨rfl, rfl, rfl⟩, hr.2.2⟩) (ih h1 ?_)
          rw [Writer.rounds_of_buf_nil rfl, hdrop]
          split at hfuel <;> omega
      · -- everything is buffered
        next hfull =>
        refine wp_mono (fun r w hr => ⟨hr.1, hr.2.1.congr ⟨rfl, rfl, rfl⟩, hr.2.2⟩) (ih h' ?_)
        unfold Writer.rounds
        rw [if_neg hfull, hdrop]
        split at hfuel <;> omega

variable (t R) in
/-- Between two calls: the writer is finished with, or owns its run with nothing pending. -/
def Ready (i : ℕ) (wr : Writer) (w : World) : Prop :=
  Inv t R w ∧ (wr.done = false → Owns t R i wr [] w)

/-- `Write`: what was hashed grows by the octets of the call, also if the call fails. -/
theorem write_spec (h : Ready t R i wr w) :
    wp (exec R) (Guar t R keepers) i (wr.write t p) (fun r w =>
      Ready t R i r.2 w ∧ r.2.acct = wr.acct ∧ r.2.done = wr.done ∧
        (wr.done = false → r.2.hashed = wr.hashed ++ p)) w := by
  unfold Writer.write
  split
  · next hdone => exact ⟨h, rfl, rfl, fun hnot => by rw [hdone] at hnot; cases hnot⟩
  · next hdone =>
    have hown := h.2 (by simpa using hdone)
    have hfed :
        Owns t R i { wr with hashed := wr.hashed ++ p, size := wr.size + p.length } p w := by
      refine { hown with size := by simp [hown.size], pieces := fun hmk => ?_ }
      obtain ⟨parts, hlen, hstarts, hcontent, hall⟩ := hown.pieces hmk
      refine ⟨parts, hlen, hstarts, fun hloss => ?_, hall⟩
      have hold := hcontent hloss
      rw [List.append_nil] at hold
      rw [hold]
    refine wp_bind_of (writeLoop_spec hfed ?_) ?_
    · unfold Writer.rounds
      split <;> omega
    · rintro ⟨_ | _, wr'⟩ w' ⟨h', halike, -⟩
      · exact ⟨⟨h'.inv, fun _ => h'⟩, halike.acct, halike.done, fun _ => halike.hashed⟩
      · refine wp_bind_of (maybeRefresh_spec h') ?_
        rintro ⟨_ | _, wr''⟩ w'' ⟨h'', halike'⟩ <;>
          exact ⟨⟨h''.inv, fun _ => h''⟩, (halike.trans halike').acct, (halike.trans halike').done,
            fun _ => (halike.trans halike').hashed⟩

/-! ## Clearing up -/

variable (t R) in
/-- A writer has scanned its own run: no piece of it is missing from `keys`. -/
structure Clearing (i : ℕ) (run : RunId) (keys : List PieceKey) (w : World) : Prop where
  inv : Inv t R w
  owner : ∃ log : RunLog, w.runs[run]? = some log ∧ log.owner = i
  unpublished : w.chunks.Unpublished run
  all : R.Distinct → ∀ (key : PieceKey) (d : Bytes), key.run = run →
    w.chunks.pieces[key]? = some d → key ∈ keys

theorem Clearing.stable : Stable (Guar t R keepers) i (Clearing t R i run keys) := by
  intro j hj w w' hg h
  obtain ⟨log, hlog, hown⟩ := h.owner
  have hforeign : log.owner ≠ j := fun heq => hj (heq.symm.trans hown)
  obtain ⟨log', hlog', howner', -⟩ := hg.runs _ log hlog
  refine ⟨hg.inv h.inv, ⟨log', hlog', howner'.trans hown⟩,
    hg.unpublished hlog hforeign h.unpublished, fun hdist key d hkey hd => ?_⟩
  exact h.all hdist key d hkey (hg.shrink key log d (hkey ▸ hlog) hforeign hd)

theorem Owns.clearing (h : Owns t R i wr rest w) :
    Clearing t R i wr.run (w.chunks.pieceKeys wr.acct wr.run) w := by
  obtain ⟨log, hlog, hown, -⟩ := h.owner
  refine ⟨h.inv, ⟨log, hlog, hown⟩, h.unpublished, fun hdist key d hkey hd => ?_⟩
  rw [Chunks.mem_pieceKeys]
  refine ⟨⟨d, hd⟩, ?_, hkey⟩
  rcases h.inv.covered hdist key d hd with ⟨k, m, hm, -, hrun, -⟩ | ⟨mk, hmk, hacct⟩
  · exact absurd (hrun.trans hkey) (h.unpublished k m hm)
  · exact hacct.symm.trans (h.labels mk (hkey ▸ hmk))

theorem pieceKeys_run {key : PieceKey} (h : key ∈ w.chunks.pieceKeys acct run) :
    key.run = run := (Chunks.mem_pieceKeys.mp h).2.2

/-- `deleteRun` by the run's writer; `P` is anything no process invalidates. -/
theorem deleteRun_spec {P : World → Prop} (h : Owns t R i wr rest w) (hw : P w)
    (hP : ∀ j w w', Guar t R keepers j w w' → P w → P w') :
    wp (exec R) (Guar t R keepers) i (deleteRun wr.acct wr.run) (fun _ w => Inv t R w ∧ P w) w := by
  have hstable : Stable (Guar t R keepers) i (fun w => Owns t R i wr rest w ∧ P w) :=
    fun j hj w w' hg h => ⟨Owns.stable rest j hj w w' hg h.1, hP j w w' hg h.2⟩
  refine wp_read hstable ⟨h, hw⟩ id (fun w1 h1 => ?_) fun w1 h1 => ⟨h1.1.inv, h1.2⟩
  have hkeys : ∀ key ∈ w1.chunks.pieceKeys wr.acct wr.run, key.run = wr.run :=
    fun key => pieceKeys_run
  have hstable' : Stable (Guar t R keepers) i (fun w =>
      Clearing t R i wr.run (w1.chunks.pieceKeys wr.acct wr.run) w ∧ P w) :=
    fun j hj w w' hg h => ⟨Clearing.stable j hj w w' hg h.1, hP j w w' hg h.2⟩
  have hguar : ∀ w2, Clearing t R i wr.run (w1.chunks.pieceKeys wr.acct wr.run) w2 ∧ P w2 →
      Guar t R keepers i w2
        (w2.apply ⟨[], runDeletes wr.run (w1.chunks.pieceKeys wr.acct wr.run)⟩) :=
    fun w2 h2 => runDeletes_guar h2.1.unpublished hkeys h2.1.all
  refine wp_writeBatch hstable' ⟨h1.1.clearing, h1.2⟩ (fun w2 h2 _ _ => hguar w2 h2) ?_ ?_ ?_ ?_
  · exact fun w2 h2 _ _ => ⟨(hguar w2 h2).inv h2.1.inv, hP i _ _ (hguar w2 h2) h2.2⟩
  · exact fun w2 h2 _ => ⟨h2.1.inv, h2.2⟩
  · exact fun w2 h2 _ => ⟨h2.1.inv, h2.2⟩
  · exact fun w2 h2 _ _ _ => ⟨(hguar w2 h2).inv h2.1.inv, hP i _ _ (hguar w2 h2) h2.2⟩

/-! ## Committing -/

/-- The blob is published, as far as nobody takes manifests back. -/
def Published (keepers : ℕ → Prop) (k : BlobKey) (w : World) : Prop :=
  (∀ j, keepers j) → ∃ m, w.chunks.manifests[k]? = some m

theorem Published.guar {k : BlobKey} (j : ℕ) (w w' : World) (hg : Guar t R keepers j w w')
    (h : Published keepers k w) : Published keepers k w' := by
  intro hall
  obtain ⟨m, hm⟩ := h hall
  exact ⟨m, hg.keep (hall j) k m hm⟩

/-- An id that `Commit` returns is the address of what was hashed, and its blob is there. -/
def CommitPost (t : Tuning) (R : Regime) (keepers : ℕ → Prop) (wr : Writer) :
    Except Err JmapId → World → Prop
  | .ok id, w => Inv t R w ∧ id = wr.id t ∧ Published keepers ⟨wr.acct, id⟩ w
  | .error _, w => Inv t R w

/-- The dedup path: the existing copy is kept, the writer's own run dropped. -/
theorem dedup_spec (h : Owns t R i wr [] w) (hp : Published keepers ⟨wr.acct, wr.id t⟩ w) :
    wp (exec R) (Guar t R keepers) i
      (deleteRun wr.acct wr.run >>= fun _ => pure (.ok (wr.id t)))
      (CommitPost t R keepers wr) w := by
  refine wp_bind_of (deleteRun_spec h hp Published.guar) ?_
  rintro _ w' ⟨hinv, hp'⟩
  exact ⟨hinv, rfl, hp'⟩

theorem commitAssertFailed_spec (h : Owns t R i wr [] w) :
    wp (exec R) (Guar t R keepers) i (wr.commitAssertFailed t) (CommitPost t R keepers wr) w := by
  refine wp_read (Owns.stable []) h id (fun w1 h1 => ?_) fun w1 h1 => h1.inv
  cases hm : w1.chunks.manifests[(⟨wr.acct, wr.id t⟩ : BlobKey)]? with
  | none => exact h1.inv
  | some m => exact dedup_spec h1 fun _ => ⟨m, hm⟩

theorem publish_spec (h : Owns t R i wr [] w) (hbuf : wr.buf = []) :
    wp (exec R) (Guar t R keepers) i (wr.publish t) (CommitPost t R keepers wr) w := by
  refine wp_read (Owns.stable []) h id (fun w1 h1 => ?_) fun w1 h1 => h1.inv
  cases hm : w1.chunks.manifests[(⟨wr.acct, wr.id t⟩ : BlobKey)]? with
  | some m => exact dedup_spec h1 fun _ => ⟨m, hm⟩
  | none =>
    refine wp_writeBatch (Owns.stable []) h1 (fun w2 h2 hold _ => h2.publish_guar hbuf hold)
      ?_ ?_ ?_ ?_
    · intro w2 h2 hold _
      refine ⟨h2.publish_inv hbuf hold, rfl, fun _ => ⟨⟨wr.run, wr.count, wr.size⟩, ?_⟩⟩
      rw [publish_manifest, if_pos rfl]
    · exact fun w2 h2 _ => commitAssertFailed_spec h2
    · exact fun w2 h2 _ => h2.inv
    · exact fun w2 h2 _ hold _ => h2.publish_inv hbuf hold

theorem commit_spec (h : Ready t R i wr w) :
    wp (exec R) (Guar t R keepers) i (wr.commit t) (fun r w =>
      CommitPost t R keepers wr r.1 w ∧ r.2.done = true) w := by
  unfold Writer.commit
  split
  · next hdone => exact ⟨h.1, hdone⟩
  · next hdone =>
    have hown := h.2 (by simpa using hdone)
    have hown' : Owns t R i { wr with done := true } [] w := { hown with }
    dsimp only
    split
    · refine wp_bind_of (flush_spec hown') ?_
      rintro ⟨_ | _, wr'⟩ w' hpost
      · obtain ⟨h1, rfl, -⟩ := hpost
        exact ⟨h1.inv, rfl⟩
      · obtain ⟨h1, stamp, rfl⟩ := hpost
        refine wp_bind_of (publish_spec h1 rfl) ?_
        intro r w'' hpost
        exact ⟨hpost, rfl⟩
    · next hbuf =>
      refine wp_bind_of (publish_spec hown' (by simpa using hbuf)) ?_
      intro r w' hpost
      exact ⟨hpost, rfl⟩

theorem abort_spec (h : Ready t R i wr w) :
    wp (exec R) (Guar t R keepers) i wr.abort (fun r w => Inv t R w ∧ r.2.done = true) w := by
  unfold Writer.abort
  split
  · next hdone => exact ⟨h.1, hdone⟩
  · next hdone =>
    have hown := h.2 (by simpa using hdone)
    have hown' : Owns t R i { wr with done := true } [] w := { hown with }
    refine wp_bind_of (deleteRun_spec (P := fun _ => True) hown' trivial fun _ _ _ _ h => h) ?_
    rintro r w' ⟨hinv, -⟩
    exact ⟨hinv, rfl⟩

theorem Ready.of_done (hi : Inv t R w) (hdone : wr.done = true) : Ready t R i wr w :=
  ⟨hi, fun h => by rw [hdone] at h; cases h⟩

theorem calls_spec (calls : List Call) (h : Ready t R i wr w) :
    wp (exec R) (Guar t R keepers) i (wr.calls t calls) (fun _ _ => True) w := by
  induction calls generalizing wr w with
  | nil => trivial
  | cons call rest ih =>
    cases call with
    | write p => exact wp_bind_of (write_spec h) fun r w' h' => ih h'.1
    | commit =>
      refine wp_bind_of (commit_spec h) ?_
      rintro ⟨_ | _, wr'⟩ w' ⟨hpost, hdone⟩
      · exact ih (.of_done hpost hdone)
      · exact ih (.of_done hpost.1 hdone)
    | abort => exact wp_bind_of (abort_spec h) fun r w' h' => ih (.of_done h'.1 h'.2)

theorem create_spec (h : Inv t R w) :
    wp (exec R) (Guar t R keepers) i (create acct) (fun r w =>
      match r with
      | .ok wr => Owns t R i wr [] w ∧ wr.hashed = [] ∧ wr.acct = acct ∧ wr.done = false
      | .error _ => Inv t R w) w := by
  refine wp_call Inv.stable h fun w1 r w2 h1 hx => ?_
  cases r with
  | error e =>
    obtain rfl : w2 = w1 := hx
    exact ⟨.refl, h1⟩
  | ok run =>
    obtain ⟨hnew, rfl⟩ : w1.runs[run]? = none ∧ w2 = _ := hx
    obtain ⟨hguar, hfresh⟩ := h1.draw hnew
    refine ⟨hguar, wp_now Fresh.stable hfresh fun w3 stamp h3 => ?_⟩
    refine wp_writeBatch Fresh.stable h3 (fun w4 h4 _ hst => h4.mark_guar hst) ?_ ?_ ?_ ?_
    · exact fun w4 h4 _ _ => ⟨h4.mark, rfl, rfl, rfl⟩
    · exact fun w4 h4 _ => h4.inv
    · exact fun w4 h4 _ => h4.inv
    · exact fun w4 h4 _ _ _ => h4.mark.inv

/-! ## The run sweep -/

/-- A sweep has seen marker `m`: while it stands, `keys` has every piece of the run. -/
structure Scanned (t : Tuning) (R : Regime) (m : Marker) (keys : List PieceKey) (w : World) :
    Prop where
  inv : Inv t R w
  seen : ∃ log : RunLog, w.runs[m.run]? = some log ∧ m.stamp ∈ log.stamps
  all : w.chunks.markers[m.run]? = some m → ∀ (key : PieceKey) (d : Bytes), key.run = m.run →
    w.chunks.pieces[key]? = some d → key ∈ keys

variable {m : Marker}

theorem Scanned.stable (hdist : R.Distinct) :
    Stable (Guar t R keepers) i (Scanned t R m keys) := by
  intro j _ w w' hg h
  obtain ⟨log, hlog, hstamp⟩ := h.seen
  obtain ⟨log', hlog', -, hsub⟩ := hg.runs _ log hlog
  refine ⟨hg.inv h.inv, ⟨log', hlog', hsub hstamp⟩, fun hmk key d hkey hd => ?_⟩
  obtain ⟨hmk', hsame⟩ := hg.cell _ log m hlog (.inr ⟨hdist, hstamp⟩) hmk
  exact h.all hmk' key d hkey ((hsame key hkey).symm.trans hd)

variable (t R) in
def Seen (m : Marker) (w : World) : Prop :=
  Inv t R w ∧ ∃ log : RunLog, w.runs[m.run]? = some log ∧ m.stamp ∈ log.stamps

theorem Seen.guar {j : ℕ} {w' : World} (hg : Guar t R keepers j w w') (h : Seen t R m w) :
    Seen t R m w' := by
  obtain ⟨log, hlog, hstamp⟩ := h.2
  obtain ⟨log', hlog', -, hsub⟩ := hg.runs _ log hlog
  exact ⟨hg.inv h.1, log', hlog', hsub hstamp⟩

theorem Seen.scanned (hdist : R.Distinct) (h : Seen t R m w) :
    Scanned t R m (w.chunks.pieceKeys m.acct m.run) w := by
  refine ⟨h.1, h.2, fun hmk key d hkey hd => ?_⟩
  rw [Chunks.mem_pieceKeys]
  refine ⟨⟨d, hd⟩, ?_, hkey⟩
  rcases h.1.covered hdist key d hd with ⟨k, m', hm, -, hrun, -⟩ | ⟨mk, hmk', hacct⟩
  · have hnone := h.1.unmarked k m' hm
    rw [hrun, hkey, hmk] at hnone
    cases hnone
  · rw [hkey, hmk] at hmk'
    exact hacct.symm.trans (Option.some.inj hmk' ▸ rfl)

theorem reclaimRun_spec (hdist : R.Distinct) (h : Seen t R m w) {P : World → Prop} (hw : P w)
    (hP : ∀ j w w', Guar t R keepers j w w' → P w → P w') :
    wp (exec R) (Guar t R keepers) i (reclaimRun m) (fun _ w => P w) w := by
  have hstable : Stable (Guar t R keepers) i (fun w => Seen t R m w ∧ P w) :=
    fun j _ w w' hg h => ⟨Seen.guar hg h.1, hP j w w' hg h.2⟩
  refine wp_read hstable ⟨h, hw⟩ id (fun w1 h1 => ?_) fun w1 h1 => h1.2
  have hstable' : Stable (Guar t R keepers) i (fun w =>
      Scanned t R m (w1.chunks.pieceKeys m.acct m.run) w ∧ P w) :=
    fun j hj w w' hg h => ⟨Scanned.stable hdist j hj w w' hg h.1, hP j w w' hg h.2⟩
  have hguar : ∀ w2, Scanned t R m (w1.chunks.pieceKeys m.acct m.run) w2 →
      Batch.holds ⟨[.markerIs m.run m], runDeletes m.run (w1.chunks.pieceKeys m.acct m.run)⟩ w2 →
      Guar t R keepers i w2 (w2.apply
        ⟨[.markerIs m.run m], runDeletes m.run (w1.chunks.pieceKeys m.acct m.run)⟩) := by
    intro w2 h2 hold
    have hmk : w2.chunks.markers[m.run]? = some m := by
      simpa [Batch.holds, Assertion.holds] using hold
    refine runDeletes_guar ?_ (fun key => pieceKeys_run) (fun _ => h2.all hmk)
    -- a published run carries no marker
    intro k m' hm hrun
    have hnone := h2.inv.unmarked k m' hm
    rw [hrun, hmk] at hnone
    cases hnone
  have hwrite := wp_writeBatch (k := pure) (Q := fun _ w => P w) (n := 0) hstable'
    ⟨h1.1.scanned hdist, h1.2⟩ (fun w2 h2 hold _ => hguar w2 h2.1 hold)
    (fun w2 h2 hold _ => hP i _ _ (hguar w2 h2.1 hold) h2.2) (fun _ h2 _ => h2.2)
    (fun _ h2 _ => h2.2) (fun w2 h2 _ hold _ => hP i _ _ (hguar w2 h2.1 hold) h2.2)
  exact hwrite

theorem sweepLoop_spec (hdist : R.Distinct) {clock : Int} {candidates : List Marker} {n : ℕ}
    (hi : Inv t R w) (h : ∀ m ∈ candidates, Seen t R m w) :
    wp (exec R) (Guar t R keepers) i (sweepLoop t clock candidates n) (fun _ _ => True) w := by
  induction candidates generalizing n w with
  | nil => trivial
  | cons m rest ih =>
    unfold sweepLoop
    have hrest := fun m' hm' => h m' (List.mem_cons_of_mem _ hm')
    split
    · exact ih hi hrest
    · refine wp_bind_of (reclaimRun_spec hdist (h m List.mem_cons_self)
        (P := fun w => Inv t R w ∧ ∀ m ∈ rest, Seen t R m w) ⟨hi, hrest⟩ ?_) ?_
      · exact fun j w w' hg hw => ⟨hg.inv hw.1, fun m hm => (hw.2 m hm).guar hg⟩
      · rintro ((_ | _) | _) w' ⟨hi', hrest'⟩
        · exact ih hi' hrest'
        · trivial
        · exact ih hi' hrest'

theorem sweep_spec (hdist : R.Distinct) (h : Inv t R w) :
    wp (exec R) (Guar t R keepers) i (sweep t) (fun _ _ => True) w := by
  refine wp_read Inv.stable h id (fun w1 h1 => ?_) fun w1 h1 => trivial
  have hseen : Inv t R w1 ∧ ∀ m ∈ w1.chunks.markers.toList.map Prod.snd, Seen t R m w1 := by
    refine ⟨h1, fun m hm => ⟨h1, ?_⟩⟩
    obtain ⟨⟨r, m'⟩, hmem, rfl⟩ := List.mem_map.mp hm
    obtain ⟨hrun, log, hlog, hstamp⟩ := h1.marker r m' ((Map.mem_toList _ _ _).mp hmem)
    exact ⟨log, hrun ▸ hlog, hstamp⟩
  have hstable : Stable (Guar t R keepers) i (fun w =>
      Inv t R w ∧ ∀ m ∈ w1.chunks.markers.toList.map Prod.snd, Seen t R m w) :=
    fun j _ w w' hg hw => ⟨hg.inv hw.1, fun m hm => (hw.2 m hm).guar hg⟩
  exact wp_now hstable hseen fun w2 clock h2 => sweepLoop_spec hdist h2.1 h2.2

/-! ## The system -/

theorem Inv.empty : Inv t R {} := by
  constructor <;> simp

theorem uploadJob_spec (acct : JmapId) (calls : List Call) (h : Inv t R w) :
    wp (exec R) (Guar t R keepers) i ((Job.upload acct calls).prog t) (fun _ _ => True) w := by
  refine wp_bind_of (create_spec h) ?_
  rintro (_ | wr) w' hpost
  · trivial
  · exact calls_spec calls ⟨hpost.1.inv, fun _ => hpost.1⟩

theorem job_spec (hdist : R.Distinct) (job : Job) (h : Inv t R w) :
    wp (exec R) (Guar t R keepers) i (job.prog t) (fun _ _ => True) w := by
  cases job with
  | upload acct calls => exact uploadJob_spec acct calls h
  | sweep => exact wp_bind_of (sweep_spec hdist h) fun _ _ _ => trivial

end

def start (t : Tuning) (jobs : ℕ → Job) : Config ℕ World Request Answer :=
  ⟨{}, fun i => (jobs i).prog t⟩

/-- Nothing committed is lost and nothing is leaked: in every interleaving of any number of
    uploads and run sweeps, with any clock readings and any failures, every piece a manifest
    names is stored, and every stored piece is named by a manifest or belongs to a marked
    run. -/
theorem uploads_safe (t : Tuning) (R : Regime) (hdist : R.Distinct) (jobs : ℕ → Job)
    {c : Config ℕ World Request Answer} (h : Config.Reaches (exec R) (start t jobs) c) :
    (∀ (k : BlobKey) (m : Manifest), c.state.chunks.manifests[k]? = some m →
      ∀ n, n < m.count → ∃ d, c.state.chunks.pieces[(⟨k.acct, m.run, n⟩ : PieceKey)]? = some d) ∧
    ∀ (key : PieceKey) (d : Bytes), c.state.chunks.pieces[key]? = some d →
      c.state.chunks.Covers key := by
  have hinv : Inv t R c.state :=
    Config.reaches_inv (G := Guar t R fun _ => True) (fun _ _ _ hg => hg.inv)
      (fun i => job_spec hdist (jobs i) .empty) .empty h
  refine ⟨fun k m hm n hn => ?_, hinv.covered hdist⟩
  obtain ⟨parts, hlen, hstarts, -⟩ := hinv.backed k m hm
  rw [← hlen] at hn
  exact ⟨parts[n], (hstarts n hn).trans (List.getElem?_eq_getElem hn)⟩

/-! ## Assumptions on stamps -/

/-- Any failure may happen, and a marker never gets a stamp back that it has carried. -/
def Regime.unrepeated : Regime where
  mayStamp stamps s := s ∉ stamps
  mayFail _ := True

/-- Any failure may happen, and successive stamps of a marker differ. -/
def Regime.successive : Regime where
  mayStamp stamps s := stamps.head? ≠ some s
  mayFail _ := True

instance (stamps : List Int) (s : Int) : Decidable (Regime.unrepeated.mayStamp stamps s) :=
  inferInstanceAs (Decidable (s ∉ stamps))

instance : DecidablePred Regime.unrepeated.mayFail := fun _ => inferInstanceAs (Decidable True)

instance (stamps : List Int) (s : Int) : Decidable (Regime.successive.mayStamp stamps s) :=
  inferInstanceAs (Decidable (stamps.head? ≠ some s))

instance : DecidablePred Regime.successive.mayFail := fun _ => inferInstanceAs (Decidable True)

def tinyPieces : Tuning where
  blobPieceSize := 1
  uploadRefreshInterval := 100
  uploadReclaimWindow := 10
  idFor content := String.ofList (content.map fun b => Char.ofNat (97 + b.toNat))
  pieceSize_pos := Nat.one_pos

def uploadAndSweep : ℕ → Job
  | 0 => .upload "A" [.write [1, 2, 3], .commit]
  | _ => .sweep

/-- The sweep judges the upload stale after its first piece, and is refused. -/
def sweepInVain : List (ℕ × Choice) :=
  [(0, .run [7]), (0, .time 1), (0, .fine), (0, .time 2), (0, .fine),
    (1, .fine), (1, .time 50), (1, .fine),
    (0, .time 3), (0, .fine), (0, .time 4), (0, .fine), (0, .time 5),
    (1, .fine), (0, .fine), (0, .fine)]

theorem sweepInVain_commits :
    (Config.play (eval .unrepeated) sweepInVain (start tinyPieces uploadAndSweep)).any (fun c =>
      c.state.chunks.manifests[(⟨"A", "bcd"⟩ : BlobKey)]? = some ⟨[7], 3, 3⟩) := by
  decide +kernel

theorem uploads_safe_commits : ∃ c : Config ℕ World Request Answer,
    Config.Reaches (exec .unrepeated) (start tinyPieces uploadAndSweep) c ∧
      c.state.chunks.manifests[(⟨"A", "bcd"⟩ : BlobKey)]? = some ⟨[7], 3, 3⟩ ∧
      ∀ n, n < 3 → ∃ d, c.state.chunks.pieces[(⟨"A", [7], n⟩ : PieceKey)]? = some d := by
  obtain ⟨c, hplay, hstate⟩ := (Option.any_eq_true _ _).mp sweepInVain_commits
  have hm := of_decide_eq_true hstate
  have hreach := Config.play_reaches eval_exec hplay
  exact ⟨c, hreach, hm,
    (uploads_safe tinyPieces .unrepeated (fun _ _ h => h) uploadAndSweep hreach).1 _ _ hm⟩

/-- The sweep sees stamp 2; the upload stamps 3 and then 2 again; the sweep deletes what it saw. -/
def stampTwice : List (ℕ × Choice) :=
  [(0, .run [7]), (0, .time 1), (0, .fine), (0, .time 2), (0, .fine),
    (1, .fine), (1, .time 50), (1, .fine),
    (0, .time 3), (0, .fine), (0, .time 2), (0, .fine),
    (1, .fine)]

theorem stampTwice_leaves :
    (Config.play (eval .successive) stampTwice (start tinyPieces uploadAndSweep)).any (fun c =>
      c.state.chunks.pieces[(⟨"A", [7], 1⟩ : PieceKey)]? = some [2] ∧
        c.state.chunks.manifests.isEmpty ∧ c.state.chunks.markers.isEmpty) := by
  decide +kernel

/-- With successive stamps of one writer distinct and no more, an upload and a sweep can leave
    a piece that no manifest names and no marker stands for. -/
theorem stamp_repeat_leaks : ∃ c : Config ℕ World Request Answer,
    Config.Reaches (exec .successive) (start tinyPieces uploadAndSweep) c ∧
      ∃ (key : PieceKey) (d : Bytes), c.state.chunks.pieces[key]? = some d ∧
        ¬ c.state.chunks.Covers key := by
  obtain ⟨c, hplay, hstate⟩ := (Option.any_eq_true _ _).mp stampTwice_leaves
  obtain ⟨hpiece, hmanifests, hmarkers⟩ := of_decide_eq_true hstate
  refine ⟨c, Config.play_reaches eval_exec hplay, ⟨"A", [7], 1⟩, [2], hpiece, ?_⟩
  rintro (⟨k, m, hm, -⟩ | ⟨mk, hmk, -⟩)
  · rw [(Map.isEmpty_iff_forall _).mp hmanifests] at hm
    cases hm
  · rw [(Map.isEmpty_iff_forall _).mp hmarkers] at hmk
    cases hmk

end NaustJmap.Chunkstore
