import NaustJmap.Chunkstore.Writer

/-!
# What a Process of the Chunk Store Guarantees

The invariant of the store (`Inv`), the changes a process may make to it (`Guar`), and one lemma for
each batch that says it stays within them.  Every batch works on a single run (`Touches`). That
every stored piece is accounted for needs stamps that never come back (`Regime.Distinct`); that a
manifest's pieces are the hashed content needs that no `Write` fails halfway (`Regime.Lossless`).
-/

namespace NaustJmap.Chunkstore

open Library ObjectDB

def Regime.Distinct (R : Regime) : Prop :=
  ∀ stamps stamp, R.mayStamp stamps stamp → stamp ∉ stamps

/-- A batch only fails once all octets of the call that issues it are buffered. -/
def Regime.Lossless (R : Regime) : Prop := ∀ n, R.mayFail n → n = 0

def RunLog.Grows (log log' : RunLog) : Prop := log'.owner = log.owner ∧ log.stamps ⊆ log'.stamps

theorem RunLog.Grows.refl (log : RunLog) : log.Grows log := ⟨rfl, fun _ h => h⟩

theorem RunLog.Grows.trans {a b c : RunLog} (h : a.Grows b) (h' : b.Grows c) : a.Grows c :=
  ⟨h'.1.trans h.1, fun _ hs => h'.2 (h.2 hs)⟩

section

variable (t : Tuning) (R : Regime)

/-- The first pieces of a run are `parts`. -/
def Chunks.Starts (s : Chunks) (acct : JmapId) (run : RunId) (parts : List Bytes) : Prop :=
  ∀ n, n < parts.length → s.pieces[(⟨acct, run, n⟩ : PieceKey)]? = parts[n]?

/-- A manifest is backed by pieces, and they are the content its key promises. -/
def Chunks.Backed (s : Chunks) (k : BlobKey) (m : Manifest) : Prop :=
  ∃ parts : List Bytes, parts.length = m.count ∧ s.Starts k.acct m.run parts ∧
    (R.Lossless → parts.flatten.length = m.size ∧ t.idFor parts.flatten = k.blobId)

/-- A stored piece is named by a manifest, or its run is marked. -/
def Chunks.Covers (s : Chunks) (key : PieceKey) : Prop :=
  (∃ (k : BlobKey) (m : Manifest), s.manifests[k]? = some m ∧ k.acct = key.acct ∧
      m.run = key.run ∧ key.index < m.count) ∨
    ∃ mk : Marker, s.markers[key.run]? = some mk ∧ mk.acct = key.acct

/-- The invariant of the store. -/
structure Inv (w : World) : Prop where
  backed : ∀ (k : BlobKey) (m : Manifest), w.chunks.manifests[k]? = some m →
    w.chunks.Backed t R k m
  /-- A published run has no marker. -/
  unmarked : ∀ (k : BlobKey) (m : Manifest), w.chunks.manifests[k]? = some m →
    w.chunks.markers[m.run]? = none
  /-- No run is published twice. -/
  single : ∀ (k k' : BlobKey) (m m' : Manifest), w.chunks.manifests[k]? = some m →
    w.chunks.manifests[k']? = some m' → m.run = m'.run → k = k'
  known : ∀ (k : BlobKey) (m : Manifest), w.chunks.manifests[k]? = some m →
    ∃ log : RunLog, w.runs[m.run]? = some log
  marker : ∀ (run : RunId) (mk : Marker), w.chunks.markers[run]? = some mk →
    mk.run = run ∧ ∃ log : RunLog, w.runs[run]? = some log ∧ mk.stamp ∈ log.stamps
  piece : ∀ (key : PieceKey) (d : Bytes), w.chunks.pieces[key]? = some d →
    ∃ log : RunLog, w.runs[key.run]? = some log
  covered : R.Distinct → ∀ (key : PieceKey) (d : Bytes), w.chunks.pieces[key]? = some d →
    w.chunks.Covers key

/-- What process `i` may change; a process in `keepers` takes back no manifest. -/
structure Guar (keepers : ℕ → Prop) (i : ℕ) (w w' : World) : Prop where
  inv : Inv t R w → Inv t R w'
  runs : ∀ (run : RunId) (log : RunLog), w.runs[run]? = some log →
    ∃ log' : RunLog, w'.runs[run]? = some log' ∧ log.Grows log'
  /-- A marker of somebody else's or earlier progress is not written, nor the pieces behind it. -/
  cell : ∀ (run : RunId) (log : RunLog) (mk : Marker), w.runs[run]? = some log →
    (log.owner ≠ i ∨ R.Distinct ∧ mk.stamp ∈ log.stamps) → w'.chunks.markers[run]? = some mk →
    w.chunks.markers[run]? = some mk ∧
      ∀ key : PieceKey, key.run = run → w'.chunks.pieces[key]? = w.chunks.pieces[key]?
  /-- Nobody adds pieces to somebody else's run. -/
  shrink : ∀ (key : PieceKey) (log : RunLog) (d : Bytes), w.runs[key.run]? = some log →
    log.owner ≠ i → w'.chunks.pieces[key]? = some d → w.chunks.pieces[key]? = some d
  /-- Nobody publishes somebody else's run. -/
  publish : ∀ (k : BlobKey) (m : Manifest), w'.chunks.manifests[k]? = some m →
    w.chunks.manifests[k]? = some m ∨ ∃ log : RunLog, w.runs[m.run]? = some log ∧ log.owner = i
  keep : keepers i → ∀ (k : BlobKey) (m : Manifest), w.chunks.manifests[k]? = some m →
    w'.chunks.manifests[k]? = some m

variable {t R} {keepers : ℕ → Prop} {i : ℕ} {w w' : World} {r : RunId}

theorem Guar.refl : Guar t R keepers i w w where
  inv := fun h => h
  runs := fun _ log h => ⟨log, h, .refl log⟩
  cell := fun _ _ _ _ _ h => ⟨h, fun _ _ => rfl⟩
  shrink := fun _ _ _ _ _ h => h
  publish := fun _ _ h => .inl h
  keep := fun _ _ _ h => h

/-! ## Working on one run -/

/-- `w'` differs from `w` at most in the manifests and in what belongs to run `r`. -/
structure Touches (r : RunId) (w w' : World) : Prop where
  runs : ∀ run : RunId, run ≠ r → w'.runs[run]? = w.runs[run]?
  log : ∀ log : RunLog, w.runs[r]? = some log →
    ∃ log' : RunLog, w'.runs[r]? = some log' ∧ log.Grows log'
  markers : ∀ run : RunId, run ≠ r → w'.chunks.markers[run]? = w.chunks.markers[run]?
  pieces : ∀ key : PieceKey, key.run ≠ r → w'.chunks.pieces[key]? = w.chunks.pieces[key]?

theorem Touches.runs_some (h : Touches r w w') {run : RunId} {log : RunLog}
    (hlog : w.runs[run]? = some log) :
    ∃ log' : RunLog, w'.runs[run]? = some log' ∧ log.Grows log' := by
  by_cases hr : run = r
  · subst hr
    exact h.log log hlog
  · exact ⟨log, (h.runs run hr).trans hlog, .refl log⟩

theorem Touches.refl : Touches r w w where
  runs := fun _ _ => rfl
  log := fun log h => ⟨log, h, .refl log⟩
  markers := fun _ _ => rfl
  pieces := fun _ _ => rfl

theorem Touches.trans {w'' : World} (h : Touches r w w') (h' : Touches r w' w'') :
    Touches r w w'' where
  runs := fun run hr => (h'.runs run hr).trans (h.runs run hr)
  log := by
    intro log hlog
    obtain ⟨log', hlog', hgrow⟩ := h.log log hlog
    obtain ⟨log'', hlog'', hgrow'⟩ := h'.log log' hlog'
    exact ⟨log'', hlog'', hgrow.trans hgrow'⟩
  markers := fun run hr => (h'.markers run hr).trans (h.markers run hr)
  pieces := fun key hk => (h'.pieces key hk).trans (h.pieces key hk)

def ChunkOp.onRun (r : RunId) : ChunkOp → Prop
  | .setManifest _ _ | .deleteManifest _ => True
  | .setPiece k _ | .deletePiece k => k.run = r
  | .setMarker run _ | .deleteMarker run => run = r

def World.step (w : World) (op : ChunkOp) : World := ⟨op.apply w.chunks, op.record w.runs⟩

theorem World.step_touches {op : ChunkOp} (h : op.onRun r) : Touches r w (w.step op) := by
  cases op with
  | setManifest k m => exact { (.refl : Touches r w w) with }
  | deleteManifest k => exact { (.refl : Touches r w w) with }
  | setPiece k d =>
    refine { (.refl : Touches r w w) with pieces := fun key hk => ?_ }
    have hne : k ≠ key := fun heq => hk (heq ▸ h)
    simp [step, ChunkOp.apply, Map.getElem?_insert, hne]
  | deletePiece k =>
    refine { (.refl : Touches r w w) with pieces := fun key hk => ?_ }
    have hne : k ≠ key := fun heq => hk (heq ▸ h)
    simp [step, ChunkOp.apply, Map.getElem?_erase, hne]
  | setMarker run m =>
    obtain rfl : run = r := h
    refine ⟨fun run' hr => ?_, fun log hlog => ?_, fun run' hr => ?_, fun _ _ => rfl⟩
    · simp only [step, ChunkOp.record]
      split
      · simp [Map.getElem?_insert, Ne.symm hr]
      · rfl
    · refine ⟨{ log with stamps := m.stamp :: log.stamps }, ?_, rfl, fun _ hs => ?_⟩
      · simp [step, ChunkOp.record, hlog]
      · exact List.mem_cons_of_mem _ hs
    · simp [step, ChunkOp.apply, Map.getElem?_insert, Ne.symm hr]
  | deleteMarker run =>
    obtain rfl : run = r := h
    refine { (.refl : Touches run w w) with markers := fun run' hr => ?_ }
    simp [step, ChunkOp.apply, Map.getElem?_erase, Ne.symm hr]

/-- A batch whose operations belong to run `r` leaves every other run alone. -/
theorem World.apply_touches {b : Batch} (h : ∀ op ∈ b.ops, op.onRun r) :
    Touches r w (w.apply b) := by
  obtain ⟨asserts, ops⟩ := b
  induction ops generalizing w with
  | nil => exact .refl
  | cons op ops ih =>
    have htail := ih (w := w.step op) fun o ho => h o (List.mem_cons_of_mem _ ho)
    exact (step_touches (h op List.mem_cons_self)).trans htail

theorem Guar.of_touches (h : Touches r w w') (hinv : Inv t R w → Inv t R w')
    (hcell : ∀ (log : RunLog) (mk : Marker), w.runs[r]? = some log →
      (log.owner ≠ i ∨ R.Distinct ∧ mk.stamp ∈ log.stamps) → w'.chunks.markers[r]? = some mk →
      w.chunks.markers[r]? = some mk ∧
        ∀ key : PieceKey, key.run = r → w'.chunks.pieces[key]? = w.chunks.pieces[key]?)
    (hshrink : ∀ (key : PieceKey) (log : RunLog) (d : Bytes), key.run = r →
      w.runs[r]? = some log → log.owner ≠ i → w'.chunks.pieces[key]? = some d →
      w.chunks.pieces[key]? = some d)
    (hpublish : ∀ (k : BlobKey) (m : Manifest), w'.chunks.manifests[k]? = some m →
      w.chunks.manifests[k]? = some m ∨ ∃ log : RunLog, w.runs[m.run]? = some log ∧ log.owner = i)
    (hkeep : ∀ (k : BlobKey) (m : Manifest), w.chunks.manifests[k]? = some m →
      w'.chunks.manifests[k]? = some m) :
    Guar t R keepers i w w' where
  inv := hinv
  runs := fun run log hlog => h.runs_some hlog
  cell := by
    intro run log mk hlog hor hmk
    by_cases hr : run = r
    · subst hr
      exact hcell log mk hlog hor hmk
    · exact ⟨(h.markers run hr).symm.trans hmk, fun key hkey => h.pieces key (hkey ▸ hr)⟩
  shrink := by
    intro key log d hlog howner hd
    by_cases hr : key.run = r
    · exact hshrink key log d hr (hr ▸ hlog) howner hd
    · exact (h.pieces key hr).symm.trans hd
  publish := hpublish
  keep := fun _ => hkeep

def Chunks.Unpublished (s : Chunks) (run : RunId) : Prop :=
  ∀ (k : BlobKey) (m : Manifest), s.manifests[k]? = some m → m.run ≠ run

/-- A process does not publish the run of another one. -/
theorem Guar.unpublished (hg : Guar t R keepers i w w') {log : RunLog}
    (hlog : w.runs[r]? = some log)
    (hforeign : log.owner ≠ i) (h : w.chunks.Unpublished r) : w'.chunks.Unpublished r := by
  intro k m hm hrun
  rcases hg.publish k m hm with hm' | ⟨log', hlog', howner⟩
  · exact h k m hm' hrun
  · rw [hrun, hlog] at hlog'
    cases hlog'
    exact hforeign howner

theorem Inv.of_touches (hi : Inv t R w) (h : Touches r w w')
    (hman : w'.chunks.manifests = w.chunks.manifests) (hun : w.chunks.Unpublished r)
    (hmarker : ∀ mk : Marker, w'.chunks.markers[r]? = some mk →
      mk.run = r ∧ ∃ log : RunLog, w'.runs[r]? = some log ∧ mk.stamp ∈ log.stamps)
    (hpiece : ∀ (key : PieceKey) d, key.run = r → w'.chunks.pieces[key]? = some d →
      (∃ log : RunLog, w'.runs[r]? = some log) ∧
        (R.Distinct → ∃ mk : Marker, w'.chunks.markers[r]? = some mk ∧ mk.acct = key.acct)) :
    Inv t R w' where
  backed := by
    intro k m hm
    rw [hman] at hm
    -- the touched run is published nowhere
    obtain ⟨parts, hlen, hstarts, hcontent⟩ := hi.backed k m hm
    exact ⟨parts, hlen, fun n hn => (h.pieces _ (hun k m hm)).trans (hstarts n hn), hcontent⟩
  unmarked := by
    intro k m hm
    rw [hman] at hm
    exact (h.markers _ (hun k m hm)).trans (hi.unmarked k m hm)
  single := by
    rw [hman]
    exact hi.single
  known := by
    intro k m hm
    rw [hman] at hm
    obtain ⟨log, hlog⟩ := hi.known k m hm
    exact ⟨log, (h.runs _ (hun k m hm)).trans hlog⟩
  marker := by
    intro run mk hmk
    by_cases hr : run = r
    · subst hr
      exact hmarker mk hmk
    · rw [h.markers run hr] at hmk
      rw [h.runs run hr]
      exact hi.marker run mk hmk
  piece := by
    intro key d hd
    by_cases hr : key.run = r
    · rw [hr]
      exact (hpiece key d hr hd).1
    · rw [h.pieces key hr] at hd
      rw [h.runs key.run hr]
      exact hi.piece key d hd
  covered := by
    intro hdist key d hd
    by_cases hr : key.run = r
    · obtain ⟨mk, hmk, hacct⟩ := (hpiece key d hr hd).2 hdist
      exact .inr ⟨mk, hr ▸ hmk, hacct⟩
    · rw [h.pieces key hr] at hd
      rcases hi.covered hdist key d hd with ⟨k, m, hm, hk⟩ | ⟨mk, hmk, hacct⟩
      · exact .inl ⟨k, m, hman ▸ hm, hk⟩
      · exact .inr ⟨mk, (h.markers key.run hr).trans hmk, hacct⟩

end

end NaustJmap.Chunkstore
