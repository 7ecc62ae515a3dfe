import NaustJmap.Chunkstore.Guarantee

/-!
# What a Writer Knows of Its Run

`Owns` is what a writer knows of its run between two of its batches.  Nothing the others do within
their guarantee takes it away, and each batch of the writer stays within the guarantee and leaves it
with the knowledge of its new state, also when it was told that a batch failed that took effect.
-/

namespace NaustJmap.Chunkstore

open Library ObjectDB

variable {rest : Bytes} {stamp : Int} {w' : World}

section

variable {t : Tuning} {R : Regime} {keepers : ℕ → Prop} {i : ℕ} {w : World} {wr : Writer}

/-! ## What a writer knows -/

variable (t R) in
/-- Writer `wr` of process `i` is writing its run; `rest` is hashed and not buffered yet. -/
structure Owns (i : ℕ) (wr : Writer) (rest : Bytes) (w : World) : Prop where
  inv : Inv t R w
  owner : ∃ log : RunLog, w.runs[wr.run]? = some log ∧ log.owner = i ∧
    wr.lastMarker.stamp ∈ log.stamps
  unpublished : w.chunks.Unpublished wr.run
  last : wr.lastMarker = ⟨wr.acct, wr.run, wr.lastMarker.stamp⟩
  labels : ∀ mk : Marker, w.chunks.markers[wr.run]? = some mk → mk.acct = wr.acct
  size : wr.size = wr.hashed.length
  fits : wr.buf.length ≤ pieceSize t wr.count
  /-- As long as the marker is the one this writer wrote last, the pieces are its own. -/
  pieces : w.chunks.markers[wr.run]? = some wr.lastMarker →
    ∃ parts : List Bytes, parts.length = wr.count ∧ w.chunks.Starts wr.acct wr.run parts ∧
      (R.Lossless → parts.flatten ++ wr.buf ++ rest = wr.hashed) ∧
      (R.Distinct → ∀ (key : PieceKey) (d : Bytes), key.run = wr.run →
        w.chunks.pieces[key]? = some d → key.index < wr.count)

theorem Owns.stable (rest : Bytes) :
    Stable (Guar t R keepers) i (Owns t R i wr rest) := by
  intro j hj w w' hg h
  obtain ⟨log, hlog, hown, hstamp⟩ := h.owner
  have hforeign : log.owner ≠ j := fun heq => hj (heq.symm.trans hown)
  obtain ⟨log', hlog', howner', hsub⟩ := hg.runs _ log hlog
  refine ⟨hg.inv h.inv, ⟨log', hlog', howner'.trans hown, hsub hstamp⟩,
    hg.unpublished hlog hforeign h.unpublished, h.last, ?_, h.size, h.fits, ?_⟩
  · intro mk hmk
    exact h.labels mk (hg.cell _ log mk hlog (.inl hforeign) hmk).1
  · intro hmk
    obtain ⟨hmk', hsame⟩ := hg.cell _ log _ hlog (.inl hforeign) hmk
    obtain ⟨parts, hlen, hstarts, hcontent, hall⟩ := h.pieces hmk'
    refine ⟨parts, hlen, fun n hn => (hsame _ rfl).trans (hstarts n hn), hcontent, ?_⟩
    intro hdist key d hkey hd
    exact hall hdist key d hkey ((hsame key hkey).symm.trans hd)

theorem Owns.forget (h : Owns t R i wr rest w) (hfail : R.mayFail rest.length) :
    Owns t R i wr [] w := by
  refine { h with pieces := fun hmk => ?_ }
  obtain ⟨parts, hlen, hstarts, hcontent, hall⟩ := h.pieces hmk
  refine ⟨parts, hlen, hstarts, fun hloss => ?_, hall⟩
  have hrest : rest = [] := List.length_eq_zero_iff.mp (hloss _ hfail)
  simpa [hrest] using hcontent hloss

/-- A writer whose marker is gone has lost its run, whatever it still believes. -/
theorem Owns.refused (h : Owns t R i wr rest w)
    (hmk : w.chunks.markers[wr.run]? ≠ some wr.lastMarker) : Owns t R i wr [] w :=
  { h with pieces := fun heq => absurd heq hmk }

/-! ## Stamping the marker -/

/-- A batch that stamps the marker of `wr` anew and touches at most its next piece. -/
structure Restamps (R : Regime) (wr : Writer) (stamp : Int) (w w' : World) : Prop where
  touches : Touches wr.run w w'
  held : w.chunks.markers[wr.run]? = some wr.lastMarker
  fresh : ∀ log : RunLog, w.runs[wr.run]? = some log → R.mayStamp log.stamps stamp
  manifests : w'.chunks.manifests = w.chunks.manifests
  marker : w'.chunks.markers[wr.run]? = some ⟨wr.acct, wr.run, stamp⟩
  log : ∀ log : RunLog, w.runs[wr.run]? = some log →
    w'.runs[wr.run]? = some { log with stamps := stamp :: log.stamps }
  pieces : ∀ key : PieceKey, key ≠ ⟨wr.acct, wr.run, wr.count⟩ →
    w'.chunks.pieces[key]? = w.chunks.pieces[key]?

theorem flushBatch_holds : (wr.flushBatch stamp).holds w = true ↔
    w.chunks.markers[wr.run]? = some wr.lastMarker := by
  simp [Batch.holds, Writer.flushBatch, Assertion.holds]

theorem refreshBatch_holds : (wr.refreshBatch stamp).holds w = true ↔
    w.chunks.markers[wr.run]? = some wr.lastMarker := by
  simp [Batch.holds, Writer.refreshBatch, Assertion.holds]

theorem restamps_flush (hold : (wr.flushBatch stamp).holds w)
    (hst : (wr.flushBatch stamp).stampsOk R w) :
    Restamps R wr stamp w (w.apply (wr.flushBatch stamp)) where
  touches := World.apply_touches (by simp [Writer.flushBatch, ChunkOp.onRun])
  held := flushBatch_holds.mp hold
  fresh := fun log hl => hst wr.run ⟨wr.acct, wr.run, stamp⟩ (by simp [Writer.flushBatch]) log hl
  manifests := rfl
  marker := by simp [World.apply, Writer.flushBatch, ChunkOp.apply]
  log := fun log hl => by simp [World.apply, Writer.flushBatch, ChunkOp.record, hl]
  pieces := fun key hk => by
    simp [World.apply, Writer.flushBatch, ChunkOp.apply, Map.getElem?_insert, Ne.symm hk]

theorem restamps_refresh (hold : (wr.refreshBatch stamp).holds w)
    (hst : (wr.refreshBatch stamp).stampsOk R w) :
    Restamps R wr stamp w (w.apply (wr.refreshBatch stamp)) where
  touches := World.apply_touches (by simp [Writer.refreshBatch, ChunkOp.onRun])
  held := refreshBatch_holds.mp hold
  fresh := fun log hl => hst wr.run ⟨wr.acct, wr.run, stamp⟩ (by simp [Writer.refreshBatch]) log hl
  manifests := rfl
  marker := by simp [World.apply, Writer.refreshBatch, ChunkOp.apply]
  log := fun log hl => by simp [World.apply, Writer.refreshBatch, ChunkOp.record, hl]
  pieces := fun _ _ => rfl

theorem Restamps.guar (hs : Restamps R wr stamp w w') (h : Owns t R i wr rest w) :
    Guar t R keepers i w w' := by
  obtain ⟨log0, hlog0, hown, -⟩ := h.owner
  have hmine : ∀ log : RunLog, w.runs[wr.run]? = some log → log.owner = i := by
    intro log hl
    rw [hlog0] at hl
    exact Option.some.inj hl ▸ hown
  refine .of_touches hs.touches
    (fun hi => hi.of_touches hs.touches hs.manifests h.unpublished ?_ ?_) ?_ ?_ ?_ ?_
  · intro mk hmk
    rw [hs.marker] at hmk
    cases hmk
    exact ⟨rfl, _, hs.log log0 hlog0, List.mem_cons_self⟩
  · intro key d hkey hd
    refine ⟨⟨_, hs.log log0 hlog0⟩, fun hdist => ⟨_, hs.marker, ?_⟩⟩
    by_cases hnew : key = ⟨wr.acct, wr.run, wr.count⟩
    · rw [hnew]
    · -- an older piece is covered by the marker, which carries the account
      rw [hs.pieces key hnew] at hd
      rcases hi.covered hdist key d hd with ⟨k, m, hm, -, hrun, -⟩ | ⟨mk, hmk, hacct⟩
      · exact absurd (hrun.trans hkey) (h.unpublished k m hm)
      · rw [hkey] at hmk
        exact (h.labels mk hmk).symm.trans hacct
  · -- the new marker is neither somebody else's nor an old one
    intro log mk hl hor hmk
    rw [hs.marker] at hmk
    cases hmk
    rcases hor with hne | ⟨hdist, hmem⟩
    · exact absurd (hmine log hl) hne
    · exact absurd hmem (hdist _ _ (hs.fresh log hl))
  · intro key log d _ hl hne _
    exact absurd (hmine log hl) hne
  · exact fun k m hm => .inl (hs.manifests ▸ hm)
  · exact fun k m hm => hs.manifests ▸ hm

/-- A writer that does not learn of its stamp: the marker is no longer the one it knows. -/
theorem Restamps.unnoticed (hs : Restamps R wr stamp w w') (h : Owns t R i wr rest w)
    (hfail : R.mayFail rest.length) (hi : Inv t R w') : Owns t R i wr [] w' := by
  obtain ⟨log, hlog, hown, hstamp⟩ := h.owner
  obtain ⟨parts, hlen, hstarts, hcontent, hall⟩ := (h.forget hfail).pieces hs.held
  refine ⟨hi, ⟨_, hs.log log hlog, hown, List.mem_cons_of_mem _ hstamp⟩, ?_, h.last, ?_, h.size,
    h.fits, fun hmk => ⟨parts, hlen, fun n hn => ?_, hcontent, fun hdist => ?_⟩⟩
  · intro k m hm
    exact h.unpublished k m (hs.manifests ▸ hm)
  · intro mk hmk
    rw [hs.marker] at hmk
    rw [← Option.some.inj hmk]
  · rw [hs.pieces _ (by simp; omega)]
    exact hstarts n hn
  · -- the same stamp again would be a stamp written twice
    rw [hs.marker, h.last] at hmk
    have hsame : stamp = wr.lastMarker.stamp := by simpa using hmk
    exact absurd (hsame ▸ hstamp) (hdist _ _ (hs.fresh log hlog))

theorem Restamps.refreshed (hs : Restamps R wr stamp w w')
    (hsame : w'.chunks.pieces = w.chunks.pieces) (h : Owns t R i wr rest w) (hi : Inv t R w') :
    Owns t R i (wr.stamped stamp) rest w' := by
  obtain ⟨log, hlog, hown, -⟩ := h.owner
  obtain ⟨parts, hlen, hstarts, hcontent, hall⟩ := h.pieces hs.held
  refine ⟨hi, ⟨_, hs.log log hlog, hown, List.mem_cons_self⟩, ?_, rfl, ?_, h.size,
    h.fits, fun _ => ⟨parts, hlen, fun n hn => ?_, hcontent, ?_⟩⟩
  · intro k m hm
    exact h.unpublished k m (hs.manifests ▸ hm)
  · intro mk hmk
    rw [← Option.some.inj (hs.marker.symm.trans hmk)]
    rfl
  · rw [hsame]
    exact hstarts n hn
  · rw [hsame]
    exact hall

theorem Restamps.flushed (hs : Restamps R wr stamp w w')
    (hpiece : w'.chunks.pieces[(⟨wr.acct, wr.run, wr.count⟩ : PieceKey)]? = some wr.buf)
    (h : Owns t R i wr rest w) (hi : Inv t R w') :
    Owns t R i { wr.stamped stamp with count := wr.count + 1, buf := [] } rest w' := by
  obtain ⟨log, hlog, hown, -⟩ := h.owner
  obtain ⟨parts, hlen, hstarts, hcontent, hall⟩ := h.pieces hs.held
  refine ⟨hi, ⟨_, hs.log log hlog, hown, List.mem_cons_self⟩, ?_, rfl, ?_, h.size,
    Nat.zero_le _, fun _ => ⟨parts ++ [wr.buf], ?_, fun n hn => ?_, fun hloss => ?_, ?_⟩⟩
  · intro k m hm
    exact h.unpublished k m (hs.manifests ▸ hm)
  · intro mk hmk
    rw [← Option.some.inj (hs.marker.symm.trans hmk)]
    rfl
  · simp [hlen]
  · change w'.chunks.pieces[(⟨wr.acct, wr.run, n⟩ : PieceKey)]? = _
    by_cases hlast : n = wr.count
    · rw [hlast, hpiece]
      simp [← hlen]
    · have hlt : n < parts.length := by
        simp only [List.length_append, List.length_singleton] at hn
        omega
      rw [hs.pieces _ (by simpa using hlast), hstarts n hlt, List.getElem?_append_left hlt]
  · simpa [Writer.stamped] using hcontent hloss
  · intro hdist key d hkey hd
    by_cases hnew : key = ⟨wr.acct, wr.run, wr.count⟩
    · exact hnew ▸ Nat.lt_succ_self wr.count
    · rw [hs.pieces key hnew] at hd
      exact Nat.lt_succ_of_lt (hall hdist key d hkey hd)

/-! ## Publishing the manifest -/

theorem publishBatch_holds : (wr.publishBatch t).holds w = true ↔
    w.chunks.manifests[(⟨wr.acct, wr.id t⟩ : BlobKey)]? = none ∧
      w.chunks.markers[wr.run]? = some wr.lastMarker := by
  simp [Batch.holds, Writer.publishBatch, Assertion.holds]

theorem publish_manifest (k : BlobKey) : (w.apply (wr.publishBatch t)).chunks.manifests[k]? =
    if (⟨wr.acct, wr.id t⟩ : BlobKey) = k then some ⟨wr.run, wr.count, wr.size⟩
    else w.chunks.manifests[k]? := by
  simp [World.apply, Writer.publishBatch, ChunkOp.apply, Map.getElem?_insert]

theorem publish_marker (run : RunId) : (w.apply (wr.publishBatch t)).chunks.markers[run]? =
    if wr.run = run then none else w.chunks.markers[run]? := by
  simp [World.apply, Writer.publishBatch, ChunkOp.apply, Map.getElem?_erase]

theorem Owns.publish_cases (h : Owns t R i wr [] w) {k : BlobKey} {m : Manifest}
    (hm : (w.apply (wr.publishBatch t)).chunks.manifests[k]? = some m) :
    (k = ⟨wr.acct, wr.id t⟩ ∧ m = ⟨wr.run, wr.count, wr.size⟩) ∨
      (w.chunks.manifests[k]? = some m ∧ m.run ≠ wr.run) := by
  rw [publish_manifest] at hm
  split at hm
  · next heq => exact .inl ⟨heq.symm, (Option.some.inj hm).symm⟩
  · exact .inr ⟨hm, h.unpublished k m hm⟩

theorem Owns.publish_inv (h : Owns t R i wr [] w) (hbuf : wr.buf = [])
    (hold : (wr.publishBatch t).holds w) : Inv t R (w.apply (wr.publishBatch t)) := by
  obtain ⟨habsent, hmarker⟩ := publishBatch_holds.mp hold
  obtain ⟨parts, hlen, hstarts, hcontent, hall⟩ := h.pieces hmarker
  obtain ⟨log, hlog, -, -⟩ := h.owner
  have hi := h.inv
  constructor
  · intro k m hm
    rcases h.publish_cases hm with ⟨rfl, rfl⟩ | ⟨hm', hrun⟩
    · refine ⟨parts, hlen, hstarts, fun hloss => ?_⟩
      have hflat : parts.flatten = wr.hashed := by simpa [hbuf] using hcontent hloss
      exact ⟨by rw [hflat, h.size], by rw [hflat]; rfl⟩
    · exact hi.backed k m hm'
  · intro k m hm
    rw [publish_marker]
    rcases h.publish_cases hm with ⟨rfl, rfl⟩ | ⟨hm', hrun⟩
    · exact if_pos rfl
    · rw [if_neg (Ne.symm hrun)]
      exact hi.unmarked k m hm'
  · intro k k' m m' hm hm' heq
    rcases h.publish_cases hm with ⟨rfl, rfl⟩ | ⟨hm1, hrun⟩ <;>
      rcases h.publish_cases hm' with ⟨rfl, rfl⟩ | ⟨hm2, hrun'⟩
    · rfl
    · exact absurd heq.symm hrun'
    · exact absurd heq hrun
    · exact hi.single k k' m m' hm1 hm2 heq
  · intro k m hm
    rcases h.publish_cases hm with ⟨rfl, rfl⟩ | ⟨hm', -⟩
    · exact ⟨log, hlog⟩
    · exact hi.known k m hm'
  · intro run mk hmk
    rw [publish_marker] at hmk
    split at hmk
    · cases hmk
    · exact hi.marker run mk hmk
  · exact hi.piece
  · intro hdist key d hd
    by_cases hrun : key.run = wr.run
    · -- the new manifest covers the pieces of its run
      have hacct : key.acct = wr.acct := by
        rcases hi.covered hdist key d hd with ⟨k, m, hm, -, hr, -⟩ | ⟨mk, hmk, hacct⟩
        · exact absurd (hr.trans hrun) (h.unpublished k m hm)
        · exact hacct.symm.trans (h.labels mk (hrun ▸ hmk))
      refine .inl ⟨⟨wr.acct, wr.id t⟩, ⟨wr.run, wr.count, wr.size⟩, ?_, hacct.symm, hrun.symm,
        hall hdist key d hrun hd⟩
      rw [publish_manifest, if_pos rfl]
    · rcases hi.covered hdist key d hd with ⟨k, m, hm, hk⟩ | ⟨mk, hmk, hacct⟩
      · refine .inl ⟨k, m, ?_, hk⟩
        rw [publish_manifest, if_neg]
        · exact hm
        · rintro rfl
          rw [habsent] at hm
          cases hm
      · exact .inr ⟨mk, by rw [publish_marker, if_neg (Ne.symm hrun)]; exact hmk, hacct⟩

theorem Owns.publish_guar (h : Owns t R i wr [] w) (hbuf : wr.buf = [])
    (hold : (wr.publishBatch t).holds w) :
    Guar t R keepers i w (w.apply (wr.publishBatch t)) := by
  obtain ⟨log, hlog, hown, -⟩ := h.owner
  refine .of_touches (r := wr.run) (World.apply_touches ?_) (fun _ => h.publish_inv hbuf hold)
    ?_ ?_ ?_ ?_
  · simp [Writer.publishBatch, ChunkOp.onRun]
  · intro _ mk _ _ hmk
    rw [publish_marker, if_pos rfl] at hmk
    cases hmk
  · exact fun _ _ _ _ _ _ hd => hd
  · intro k m hm
    rcases h.publish_cases hm with ⟨rfl, rfl⟩ | ⟨hm', -⟩
    · exact .inr ⟨log, hlog, hown⟩
    · exact .inl hm'
  · intro k m hm
    rw [publish_manifest, if_neg]
    · exact hm
    · rintro rfl
      rw [(publishBatch_holds.mp hold).1] at hm
      cases hm

/-! ## Starting a run -/

/-- A run whose id has just been drawn: nothing is stored for it. -/
structure Fresh (t : Tuning) (R : Regime) (i : ℕ) (run : RunId) (w : World) : Prop where
  inv : Inv t R w
  owner : ∃ log : RunLog, w.runs[run]? = some log ∧ log.owner = i
  unpublished : w.chunks.Unpublished run
  unmarked : w.chunks.markers[run]? = none
  empty : ∀ key : PieceKey, key.run = run → w.chunks.pieces[key]? = none

variable {run : RunId}

theorem Fresh.stable : Stable (Guar t R keepers) i (Fresh t R i run) := by
  intro j hj w w' hg h
  obtain ⟨log, hlog, hown⟩ := h.owner
  have hforeign : log.owner ≠ j := fun heq => hj (heq.symm.trans hown)
  obtain ⟨log', hlog', howner', -⟩ := hg.runs _ log hlog
  refine ⟨hg.inv h.inv, ⟨log', hlog', howner'.trans hown⟩,
    hg.unpublished hlog hforeign h.unpublished, ?_, ?_⟩
  · rw [Option.eq_none_iff_forall_ne_some]
    intro mk hmk
    have hold := (hg.cell run log mk hlog (.inl hforeign) hmk).1
    rw [h.unmarked] at hold
    cases hold
  · intro key hkey
    rw [Option.eq_none_iff_forall_ne_some]
    intro d hd
    have hold := hg.shrink key log d (hkey ▸ hlog) hforeign hd
    rw [h.empty key hkey] at hold
    cases hold

theorem Inv.draw (hi : Inv t R w) (hnew : w.runs[run]? = none) :
    Guar t R keepers i w { w with runs := w.runs.insert run { owner := i } } ∧
      Fresh t R i run { w with runs := w.runs.insert run { owner := i } } := by
  have hruns : ∀ (r : RunId) (log : RunLog), w.runs[r]? = some log →
      (w.runs.insert run { owner := i })[r]? = some log := by
    intro r log hlog
    rw [Map.getElem?_insert, if_neg]
    · exact hlog
    · rintro rfl
      rw [hnew] at hlog
      cases hlog
  have hinv : Inv t R { w with runs := w.runs.insert run { owner := i } } := by
    refine ⟨hi.backed, hi.unmarked, hi.single, ?_, ?_, ?_, hi.covered⟩
    · intro k m hm
      obtain ⟨log, hlog⟩ := hi.known k m hm
      exact ⟨log, hruns _ log hlog⟩
    · intro r mk hmk
      obtain ⟨hr, log, hlog, hmem⟩ := hi.marker r mk hmk
      exact ⟨hr, log, hruns _ log hlog, hmem⟩
    · intro key d hd
      obtain ⟨log, hlog⟩ := hi.piece key d hd
      exact ⟨log, hruns _ log hlog⟩
  constructor
  · exact ⟨fun _ => hinv, fun r log hlog => ⟨log, hruns r log hlog, .refl log⟩,
      fun _ _ _ _ _ hmk => ⟨hmk, fun _ _ => rfl⟩, fun _ _ _ _ _ hd => hd, fun _ _ hm => .inl hm,
      fun _ _ _ hm => hm⟩
  -- whatever names a run names a known one, and this one was not
  · refine ⟨hinv, ⟨{ owner := i }, by simp, rfl⟩, ?_, ?_, ?_⟩
    · rintro k m hm rfl
      obtain ⟨log, hlog⟩ := hi.known k m hm
      rw [hnew] at hlog
      cases hlog
    · rw [Option.eq_none_iff_forall_ne_some]
      intro mk hmk
      obtain ⟨-, log, hlog, -⟩ := hi.marker run mk hmk
      rw [hnew] at hlog
      cases hlog
    · intro key hkey
      rw [Option.eq_none_iff_forall_ne_some]
      intro d hd
      obtain ⟨log, hlog⟩ := hi.piece key d hd
      rw [hkey, hnew] at hlog
      cases hlog

def markBatch (acct : JmapId) (run : RunId) (stamp : Int) : Batch where
  ops := [.setMarker run ⟨acct, run, stamp⟩]

section Mark

variable {acct : JmapId}

theorem mark_marker : (w.apply (markBatch acct run stamp)).chunks.markers[run]? =
    some ⟨acct, run, stamp⟩ := by
  simp [World.apply, markBatch, ChunkOp.apply]

theorem mark_touches : Touches run w (w.apply (markBatch acct run stamp)) :=
  World.apply_touches (by simp [markBatch, ChunkOp.onRun])

theorem Fresh.mark (h : Fresh t R i run w) :
    Owns t R i { acct, run, lastStamp := stamp, lastMarker := ⟨acct, run, stamp⟩ } []
      (w.apply (markBatch acct run stamp)) := by
  obtain ⟨log, hlog, hown⟩ := h.owner
  have hlog' : (w.apply (markBatch acct run stamp)).runs[run]? =
      some { log with stamps := stamp :: log.stamps } := by
    simp [World.apply, markBatch, ChunkOp.record, hlog]
  have hnone : ∀ (key : PieceKey) (d : Bytes), key.run = run →
      w.chunks.pieces[key]? ≠ some d := by
    intro key d hkey hd
    rw [h.empty key hkey] at hd
    cases hd
  have hinv : Inv t R (w.apply (markBatch acct run stamp)) := by
    refine h.inv.of_touches mark_touches rfl h.unpublished ?_ ?_
    · intro mk hmk
      rw [← Option.some.inj (mark_marker.symm.trans hmk)]
      exact ⟨rfl, _, hlog', List.mem_cons_self⟩
    · exact fun key d hkey hd => absurd hd (hnone key d hkey)
  refine ⟨hinv, ⟨_, hlog', hown, List.mem_cons_self⟩, h.unpublished, rfl, ?_, rfl,
    Nat.zero_le _, fun _ => ⟨[], rfl, ?_, fun _ => rfl, ?_⟩⟩
  · intro mk hmk
    rw [← Option.some.inj (mark_marker.symm.trans hmk)]
  · exact fun n hn => absurd hn (Nat.not_lt_zero n)
  · exact fun _ key d hkey hd => absurd hd (hnone key d hkey)

theorem Fresh.mark_guar (h : Fresh t R i run w) (hst : (markBatch acct run stamp).stampsOk R w) :
    Guar t R keepers i w (w.apply (markBatch acct run stamp)) := by
  obtain ⟨log, hlog, hown⟩ := h.owner
  refine .of_touches mark_touches (fun _ => h.mark.inv) ?_ (fun _ _ _ _ _ _ hd => hd)
    (fun _ _ hm => .inl hm) (fun _ _ hm => hm)
  -- the run is nobody else's, and has never carried this stamp
  intro log1 mk hlog1 hor hmk
  cases mark_marker.symm.trans hmk
  cases hlog.symm.trans hlog1
  rcases hor with hne | ⟨hdist, hmem⟩
  · exact absurd hown hne
  · exact absurd hmem (hdist _ _ (hst run _ List.mem_cons_self log hlog))

end Mark

/-! ## Deleting a run -/

variable {keys : List PieceKey}

theorem runDeletes_onRun (hkeys : ∀ key ∈ keys, key.run = run) :
    ∀ op ∈ runDeletes run keys, op.onRun run := by
  intro op hop
  simp only [runDeletes, List.mem_append, List.mem_map, List.mem_singleton] at hop
  rcases hop with ⟨key, hkey, rfl⟩ | rfl
  · exact hkeys key hkey
  · rfl

theorem runDeletes_apply (asserts : List Assertion) (run : RunId) (keys : List PieceKey) :
    (w.apply ⟨asserts, runDeletes run keys⟩).chunks.manifests = w.chunks.manifests ∧
      (w.apply ⟨asserts, runDeletes run keys⟩).chunks.markers[run]? = none ∧
      ∀ key : PieceKey, (w.apply ⟨asserts, runDeletes run keys⟩).chunks.pieces[key]? =
        if key ∈ keys then none else w.chunks.pieces[key]? := by
  obtain ⟨hman, -, hpieces⟩ := applyOps_deletePieces keys w.chunks
  simp only [World.apply, runDeletes, applyOps_append, applyOps_cons, applyOps_nil, ChunkOp.apply]
  exact ⟨hman, by simp, hpieces⟩

/-- Deleting an unpublished run with its marker stays within the guarantee, whoever does it. -/
theorem runDeletes_guar {asserts : List Assertion} (hun : w.chunks.Unpublished run)
    (hkeys : ∀ key ∈ keys, key.run = run)
    (hall : R.Distinct → ∀ (key : PieceKey) (d : Bytes), key.run = run →
      w.chunks.pieces[key]? = some d → key ∈ keys) :
    Guar t R keepers i w (w.apply ⟨asserts, runDeletes run keys⟩) := by
  have ht : Touches run w (w.apply ⟨asserts, runDeletes run keys⟩) :=
    World.apply_touches (runDeletes_onRun hkeys)
  obtain ⟨hman, hmarker, hpieces⟩ := runDeletes_apply asserts run keys
  have hless : ∀ (key : PieceKey) (d : Bytes),
      (w.apply ⟨asserts, runDeletes run keys⟩).chunks.pieces[key]? = some d →
      key ∉ keys ∧ w.chunks.pieces[key]? = some d := by
    intro key d hd
    rw [hpieces] at hd
    split at hd
    · cases hd
    · exact ⟨by assumption, hd⟩
  refine .of_touches ht (fun hi => hi.of_touches ht hman hun ?_ ?_) ?_ ?_ ?_ ?_
  · intro mk hmk
    rw [hmarker] at hmk
    cases hmk
  · intro key d hkey hd
    obtain ⟨hnot, hd'⟩ := hless key d hd
    obtain ⟨log, hlog⟩ := hi.piece key d hd'
    obtain ⟨log', hlog', -⟩ := ht.runs_some hlog
    exact ⟨⟨log', hkey ▸ hlog'⟩, fun hdist => absurd (hall hdist key d hkey hd') hnot⟩
  · intro _ mk _ _ hmk
    rw [hmarker] at hmk
    cases hmk
  · exact fun key _ d _ _ _ hd => (hless key d hd).2
  · exact fun k m hm => .inl (hman ▸ hm)
  · exact fun k m hm => hman ▸ hm

/-! ## Deleting published blobs -/

def blobDeletes (dels : List (BlobKey × Manifest)) : List ChunkOp :=
  dels.flatMap fun d => appendDelete d.1 (some d.2)

def Deleted (dels : List (BlobKey × Manifest)) (key : PieceKey) : Prop :=
  ∃ d ∈ dels, key.acct = d.1.acct ∧ key.run = d.2.run ∧ key.index < d.2.count

theorem appendDelete_apply (k : BlobKey) (m : Manifest) (s : Chunks) :
    (applyOps (appendDelete k (some m)) s).markers = s.markers ∧
      (∀ k' : BlobKey, (applyOps (appendDelete k (some m)) s).manifests[k']? =
        if k = k' then none else s.manifests[k']?) ∧
      ∀ key : PieceKey, (applyOps (appendDelete k (some m)) s).pieces[key]? =
        if key.acct = k.acct ∧ key.run = m.run ∧ key.index < m.count then none
        else s.pieces[key]? := by
  obtain ⟨hman, hmark, hpieces⟩ :=
    applyOps_deletePieces ((List.range m.count).map fun i => ⟨k.acct, m.run, i⟩) s
  simp only [appendDelete, applyOps_append, applyOps_cons, applyOps_nil, ChunkOp.apply]
  refine ⟨hmark, fun k' => ?_, fun key => ?_⟩
  · rw [Map.getElem?_erase, hman]
  · rw [hpieces]
    have hmem : key ∈ (List.range m.count).map (fun i => (⟨k.acct, m.run, i⟩ : PieceKey)) ↔
        key.acct = k.acct ∧ key.run = m.run ∧ key.index < m.count := by
      obtain ⟨a, r, n⟩ := key
      simp only [List.mem_map, List.mem_range, PieceKey.mk.injEq]
      constructor
      · rintro ⟨j, hj, rfl, rfl, rfl⟩
        exact ⟨rfl, rfl, hj⟩
      · rintro ⟨rfl, rfl, hn⟩
        exact ⟨n, hn, rfl, rfl, rfl⟩
    simp only [hmem]

theorem blobDeletes_apply (dels : List (BlobKey × Manifest)) (s : Chunks) :
    (applyOps (blobDeletes dels) s).markers = s.markers ∧
      (∀ k : BlobKey, (∃ d ∈ dels, d.1 = k) ∧ (applyOps (blobDeletes dels) s).manifests[k]? = none ∨
        (¬ ∃ d ∈ dels, d.1 = k) ∧
          (applyOps (blobDeletes dels) s).manifests[k]? = s.manifests[k]?) ∧
      ∀ key : PieceKey, Deleted dels key ∧ (applyOps (blobDeletes dels) s).pieces[key]? = none ∨
        ¬ Deleted dels key ∧ (applyOps (blobDeletes dels) s).pieces[key]? = s.pieces[key]? := by
  induction dels generalizing s with
  | nil => simp [blobDeletes, Deleted]
  | cons d dels ih =>
    obtain ⟨hmark1, hman1, hpieces1⟩ := appendDelete_apply d.1 d.2 s
    obtain ⟨hmark, hman, hpieces⟩ := ih (applyOps (appendDelete d.1 (some d.2)) s)
    rw [show blobDeletes (d :: dels) = appendDelete d.1 (some d.2) ++ blobDeletes dels from rfl]
    simp only [applyOps_append]
    refine ⟨hmark.trans hmark1, fun k => ?_, fun key => ?_⟩
    · rcases hman k with ⟨⟨e, he, hek⟩, hnone⟩ | ⟨hnot, hsame⟩
      · exact .inl ⟨⟨e, List.mem_cons_of_mem _ he, hek⟩, hnone⟩
      · rw [hsame, hman1]
        by_cases hk : d.1 = k
        · exact .inl ⟨⟨d, List.mem_cons_self, hk⟩, if_pos hk⟩
        · refine .inr ⟨?_, if_neg hk⟩
          rintro ⟨e, he, hek⟩
          rcases List.mem_cons.mp he with rfl | he
          · exact hk hek
          · exact hnot ⟨e, he, hek⟩
    · rcases hpieces key with ⟨⟨e, he, hek⟩, hnone⟩ | ⟨hnot, hsame⟩
      · exact .inl ⟨⟨e, List.mem_cons_of_mem _ he, hek⟩, hnone⟩
      · rw [hsame, hpieces1]
        by_cases hk : key.acct = d.1.acct ∧ key.run = d.2.run ∧ key.index < d.2.count
        · exact .inl ⟨⟨d, List.mem_cons_self, hk⟩, if_pos hk⟩
        · refine .inr ⟨?_, if_neg hk⟩
          rintro ⟨e, he, hek⟩
          rcases List.mem_cons.mp he with rfl | he
          · exact hk hek
          · exact hnot ⟨e, he, hek⟩

theorem blobDeletes_record (dels : List (BlobKey × Manifest)) (runs : Map RunId RunLog) :
    (blobDeletes dels).foldl ChunkOp.record runs = runs := by
  have hnone : ∀ op ∈ blobDeletes dels, ∀ runs, ChunkOp.record runs op = runs := by
    intro op hop runs
    simp only [blobDeletes, appendDelete, List.mem_flatMap, List.mem_append, List.mem_map,
      List.mem_singleton] at hop
    obtain ⟨d, -, ⟨_, -, rfl⟩ | rfl⟩ := hop <;> rfl
  generalize blobDeletes dels = ops at hnone
  induction ops with
  | nil => rfl
  | cons op ops ih =>
    rw [List.foldl_cons, hnone op List.mem_cons_self]
    exact ih fun o ho => hnone o (List.mem_cons_of_mem _ ho)

/-- Deleting published blobs with their manifests, by a process that may take them back. -/
theorem Inv.blobDeletes_guar {dels : List (BlobKey × Manifest)} (hi : Inv t R w)
    (hdels : ∀ d ∈ dels, w.chunks.manifests[d.1]? = some d.2) (hkeep : ¬ keepers i) :
    Guar t R keepers i w (w.apply { ops := blobDeletes dels }) := by
  obtain ⟨hmark, hman, hpieces⟩ := blobDeletes_apply dels w.chunks
  have hruns : (w.apply { ops := blobDeletes dels }).runs = w.runs :=
    blobDeletes_record dels w.runs
  have hmark' : (w.apply { ops := blobDeletes dels }).chunks.markers = w.chunks.markers := hmark
  have hman' : ∀ (k : BlobKey) (m : Manifest),
      (w.apply { ops := blobDeletes dels }).chunks.manifests[k]? = some m →
      w.chunks.manifests[k]? = some m ∧ ¬ ∃ d ∈ dels, d.1 = k := by
    intro k m hm
    rcases hman k with ⟨-, hnone⟩ | ⟨hnot, hsame⟩
    · exact absurd (hnone.symm.trans hm) (by simp)
    · exact ⟨hsame.symm.trans hm, hnot⟩
  have hpiece' : ∀ (key : PieceKey) (d : Bytes),
      (w.apply { ops := blobDeletes dels }).chunks.pieces[key]? = some d →
      w.chunks.pieces[key]? = some d ∧ ¬ Deleted dels key := by
    intro key d hd
    rcases hpieces key with ⟨-, hnone⟩ | ⟨hnot, hsame⟩
    · exact absurd (hnone.symm.trans hd) (by simp)
    · exact ⟨hsame.symm.trans hd, hnot⟩
  -- a piece a surviving manifest names is no piece of a deleted blob
  have hkept : ∀ (k : BlobKey) (m : Manifest) (key : PieceKey),
      w.chunks.manifests[k]? = some m → (¬ ∃ d ∈ dels, d.1 = k) → key.run = m.run →
      ¬ Deleted dels key := by
    rintro k m key hm hnot hrun ⟨d, hd, -, hrun', -⟩
    exact hnot ⟨d, hd, hi.single _ _ _ _ (hdels d hd) hm (hrun'.symm.trans hrun)⟩
  refine ⟨fun _ => ⟨?_, ?_, ?_, ?_, ?_, ?_, ?_⟩, ?_, ?_, ?_, ?_, fun h => absurd h hkeep⟩
  · intro k m hm
    obtain ⟨hm', hnot⟩ := hman' k m hm
    obtain ⟨parts, hlen, hstarts, hcontent⟩ := hi.backed k m hm'
    refine ⟨parts, hlen, fun n hn => ?_, hcontent⟩
    rcases hpieces ⟨k.acct, m.run, n⟩ with ⟨hdel, -⟩ | ⟨-, hsame⟩
    · exact absurd hdel (hkept k m _ hm' hnot rfl)
    · exact hsame.trans (hstarts n hn)
  · intro k m hm
    rw [hmark']
    exact hi.unmarked k m (hman' k m hm).1
  · intro k k' m m' hm hm' heq
    exact hi.single k k' m m' (hman' k m hm).1 (hman' k' m' hm').1 heq
  · intro k m hm
    rw [hruns]
    exact hi.known k m (hman' k m hm).1
  · rw [hmark', hruns]
    exact hi.marker
  · intro key d hd
    rw [hruns]
    exact hi.piece key d (hpiece' key d hd).1
  · intro hdist key d hd
    obtain ⟨hd', hnot⟩ := hpiece' key d hd
    rcases hi.covered hdist key d hd' with ⟨k, m, hm, hacct, hrun, hidx⟩ | ⟨mk, hmk, hacct⟩
    · refine .inl ⟨k, m, ?_, hacct, hrun, hidx⟩
      rcases hman k with ⟨⟨e, he, hek⟩, -⟩ | ⟨-, hsame⟩
      · -- the manifest that covered the piece is gone, and the piece with it
        have heq := (hdels e he).symm.trans (hek ▸ hm)
        cases heq
        exact absurd ⟨e, he, hek ▸ hacct.symm, hrun.symm, hidx⟩ hnot
      · exact hsame.trans hm
    · exact .inr ⟨mk, by rw [hmark']; exact hmk, hacct⟩
  · intro run log hlog
    rw [hruns]
    exact ⟨log, hlog, .refl log⟩
  · intro run log mk hlog _ hmk
    rw [hmark'] at hmk
    refine ⟨hmk, fun key hkey => ?_⟩
    rcases hpieces key with ⟨⟨d, hd, -, hrun, -⟩, -⟩ | ⟨-, hsame⟩
    · -- a marked run is not published
      have hnone := hi.unmarked d.1 d.2 (hdels d hd)
      rw [← hrun, hkey, hmk] at hnone
      cases hnone
    · exact hsame
  · exact fun key log d _ _ hd => (hpiece' key d hd).1
  · exact fun k m hm => .inl (hman' k m hm).1

end

end NaustJmap.Chunkstore
