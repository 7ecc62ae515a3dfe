import NaustJmap.Library.Threads
import NaustJmap.ObjectDB.Descriptor

/-!
# The Chunk Store's Layout

What `core/providers/blob/chunkstore` keeps in its backend.  A blob's content is parked as the
pieces of a *run*; a *manifest* under the blob id names the run, and until it is written the run's
*marker* stands for the upload.  A failed batch may have been applied or not.  Run ids are never
drawn twice; a `Regime` says which stamps a marker may get and which batches may fail.
-/

namespace NaustJmap.Chunkstore

open Library ObjectDB

/-! ## Keys and values -/

abbrev RunId := Bytes

/-- `{acct} B {blobId}`: the key of a manifest. -/
structure BlobKey where
  acct : JmapId
  blobId : JmapId
  deriving DecidableEq, Repr

namespace BlobKey

instance : Ord BlobKey := ⟨compareLex (compareOn BlobKey.acct) (compareOn BlobKey.blobId)⟩

instance : Std.TransOrd BlobKey :=
  inferInstanceAs (Std.TransCmp (compareLex (compareOn BlobKey.acct) (compareOn BlobKey.blobId)))

instance : Std.LawfulEqOrd BlobKey where
  eq_of_compare {a b} h := by
    have h' : (compareOn BlobKey.acct a b).then (compareOn BlobKey.blobId a b) = .eq := h
    rw [Ordering.then_eq_eq] at h'
    simp only [compareOn, Std.LawfulEqCmp.compare_eq_iff_eq] at h'
    cases a; cases b
    simpa using h'

end BlobKey

/-- `{acct} C {run} {index}`: the key of one piece. -/
structure PieceKey where
  acct : JmapId
  run : RunId
  /-- A `uint32`, like the counts of pieces: the model is that of blobs with fewer than `2 ^ 32`
      pieces, which with pieces of 256 KiB is all below `2 ^ 50` octets. -/
  index : ℕ
  deriving DecidableEq, Repr

namespace PieceKey

instance : Ord PieceKey :=
  ⟨compareLex (compareOn PieceKey.acct)
    (compareLex (compareOn PieceKey.run) (compareOn PieceKey.index))⟩

instance : Std.TransOrd PieceKey :=
  inferInstanceAs (Std.TransCmp (compareLex (compareOn PieceKey.acct)
    (compareLex (compareOn PieceKey.run) (compareOn PieceKey.index))))

instance : Std.LawfulEqOrd PieceKey where
  eq_of_compare {a b} h := by
    have h' : (compareOn PieceKey.acct a b).then
      ((compareOn PieceKey.run a b).then (compareOn PieceKey.index a b)) = .eq := h
    simp only [Ordering.then_eq_eq, compareOn, Std.LawfulEqCmp.compare_eq_iff_eq] at h'
    cases a; cases b
    simpa using h'

end PieceKey

/-- `markerValue`: the account, the run and the last stamp, in Unix nanoseconds. -/
structure Marker where
  acct : JmapId
  run : RunId
  stamp : Int
  deriving DecidableEq, Repr

structure Manifest where
  run : RunId
  /-- The number of pieces, a `uint32`; see `PieceKey.index`. -/
  count : ℕ
  size : ℕ
  deriving DecidableEq, Repr

structure Chunks where
  /-- `{acct} B {blobId}` -/
  manifests : Map BlobKey Manifest := ∅
  /-- `{acct} C {run} {index}` -/
  pieces : Map PieceKey Bytes := ∅
  /-- `!C {run}` -/
  markers : Map RunId Marker := ∅

/-! ## Batches -/

inductive Assertion where
  | noManifest (k : BlobKey)
  | markerIs (run : RunId) (m : Marker)
  deriving DecidableEq

inductive ChunkOp where
  | setManifest (k : BlobKey) (m : Manifest)
  | deleteManifest (k : BlobKey)
  | setPiece (k : PieceKey) (data : Bytes)
  | deletePiece (k : PieceKey)
  | setMarker (run : RunId) (m : Marker)
  | deleteMarker (run : RunId)
  deriving DecidableEq

structure Batch where
  asserts : List Assertion := []
  ops : List ChunkOp

def Assertion.holds (s : Chunks) : Assertion → Bool
  | .noManifest k => s.manifests[k]?.isNone
  | .markerIs run m => s.markers[run]? = some m

def ChunkOp.apply (s : Chunks) : ChunkOp → Chunks
  | .setManifest k m => { s with manifests := s.manifests.insert k m }
  | .deleteManifest k => { s with manifests := s.manifests.erase k }
  | .setPiece k data => { s with pieces := s.pieces.insert k data }
  | .deletePiece k => { s with pieces := s.pieces.erase k }
  | .setMarker run m => { s with markers := s.markers.insert run m }
  | .deleteMarker run => { s with markers := s.markers.erase run }

def applyOps (ops : List ChunkOp) (s : Chunks) : Chunks := ops.foldl ChunkOp.apply s

@[simp] theorem applyOps_nil (s : Chunks) : applyOps [] s = s := rfl

@[simp] theorem applyOps_cons (op : ChunkOp) (ops : List ChunkOp) (s : Chunks) :
    applyOps (op :: ops) s = applyOps ops (op.apply s) := rfl

theorem applyOps_append (ops1 ops2 : List ChunkOp) (s : Chunks) :
    applyOps (ops1 ++ ops2) s = applyOps ops2 (applyOps ops1 s) := by
  simp [applyOps]

theorem applyOps_deletePieces (keys : List PieceKey) (s : Chunks) :
    (applyOps (keys.map .deletePiece) s).manifests = s.manifests ∧
      (applyOps (keys.map .deletePiece) s).markers = s.markers ∧
      ∀ k : PieceKey, (applyOps (keys.map .deletePiece) s).pieces[k]? =
        if k ∈ keys then none else s.pieces[k]? := by
  induction keys generalizing s with
  | nil => simp
  | cons key keys ih =>
    obtain ⟨hmanifests, hmarkers, hpieces⟩ := ih (ChunkOp.apply s (.deletePiece key))
    refine ⟨hmanifests, hmarkers, fun k => ?_⟩
    rw [List.map_cons, applyOps_cons]
    simp only [ChunkOp.apply, List.mem_cons]
    grind

/-! ## The world the processes share -/

/-- The process that drew a run's id, and the stamps its marker has carried, newest first. -/
structure RunLog where
  owner : ℕ
  stamps : List Int := []

/-- The store, and the history of run ids and stamps that the assumptions speak of. -/
structure World where
  chunks : Chunks := {}
  runs : Map RunId RunLog := ∅

def ChunkOp.record (runs : Map RunId RunLog) : ChunkOp → Map RunId RunLog
  | .setMarker run m =>
    match runs[run]? with
    | some log => runs.insert run { log with stamps := m.stamp :: log.stamps }
    | none => runs
  | _ => runs

def World.apply (w : World) (b : Batch) : World where
  chunks := applyOps b.ops w.chunks
  runs := b.ops.foldl ChunkOp.record w.runs

def Batch.holds (b : Batch) (w : World) : Bool := b.asserts.all (·.holds w.chunks)

/-- What is assumed of the environment. -/
structure Regime where
  /-- The stamps a marker may get next, given those it has carried, newest first. -/
  mayStamp : List Int → Int → Prop
  /-- Whether a batch may fail, given how many octets of its `Write` call are not buffered. -/
  mayFail : ℕ → Prop

def Batch.stampsOk (R : Regime) (b : Batch) (w : World) : Prop :=
  ∀ run m, .setMarker run m ∈ b.ops → ∀ log, w.runs[run]? = some log →
    R.mayStamp log.stamps m.stamp

/-! ## Requests -/

/-- `backend.ErrAssertFailed`, or any other error of the backend. -/
inductive BackendErr where
  | assertFailed
  | failed
  deriving DecidableEq

/-- What a process asks; `unbuffered` labels a batch with the octets still to be buffered. -/
inductive Request where
  | rand
  | now
  | getManifest (k : BlobKey)
  | scanMarkers
  | scanPieces (acct : JmapId) (run : RunId)
  | write (b : Batch) (unbuffered : ℕ)

def Answer : Request → Type
  | .rand => Except BackendErr RunId
  | .now => Int
  | .getManifest _ => Except BackendErr (Option Manifest)
  | .scanMarkers => Except BackendErr (List Marker)
  | .scanPieces _ _ => Except BackendErr (List PieceKey)
  | .write _ _ => Except BackendErr Unit

def Chunks.pieceKeys (s : Chunks) (acct : JmapId) (run : RunId) : List PieceKey :=
  s.pieces.keys.filter fun k => k.acct = acct ∧ k.run = run

theorem Chunks.mem_pieceKeys {s : Chunks} {acct : JmapId} {run : RunId} {k : PieceKey} :
    k ∈ s.pieceKeys acct run ↔ (∃ d, s.pieces[k]? = some d) ∧ k.acct = acct ∧ k.run = run := by
  rw [pieceKeys, List.mem_filter, Map.mem_keys_iff, decide_eq_true_eq]

inductive Writes (R : Regime) (b : Batch) (unbuffered : ℕ) (w : World) :
    Except BackendErr Unit → World → Prop where
  | applied (hold : b.holds w) (hstamp : b.stampsOk R w) :
      Writes R b unbuffered w (.ok ()) (w.apply b)
  | refused (hold : ¬ b.holds w) : Writes R b unbuffered w (.error .assertFailed) w
  | lost (hfail : R.mayFail unbuffered) : Writes R b unbuffered w (.error .failed) w
  /-- The error was reported after the batch took effect. -/
  | unnoticed (hfail : R.mayFail unbuffered) (hold : b.holds w) (hstamp : b.stampsOk R w) :
      Writes R b unbuffered w (.error .failed) (w.apply b)

def exec (R : Regime) (i : ℕ) : (q : Request) → World → Answer q → World → Prop
  | .rand, w, .ok run, w' =>
    w.runs[run]? = none ∧ w' = { w with runs := w.runs.insert run { owner := i } }
  | .rand, w, .error _, w' => w' = w
  | .now, w, _, w' => w' = w
  | .getManifest k, w, r, w' =>
    w' = w ∧ (r = .ok w.chunks.manifests[k]? ∨ r = .error .failed)
  | .scanMarkers, w, r, w' =>
    w' = w ∧ (r = .ok (w.chunks.markers.toList.map Prod.snd) ∨ r = .error .failed)
  | .scanPieces acct run, w, r, w' =>
    w' = w ∧ (r = .ok (w.chunks.pieceKeys acct run) ∨ r = .error .failed)
  | .write b n, w, r, w' => Writes R b n w r w'

/-! ## Computing a run -/

inductive Choice where
  | run (r : RunId)
  | time (stamp : Int)
  | fine
  | lost

def Batch.checkStamps (R : Regime) [∀ stamps s, Decidable (R.mayStamp stamps s)] (b : Batch)
    (w : World) : Bool :=
  b.ops.all fun
    | .setMarker run m => (w.runs[run]?).all fun log => R.mayStamp log.stamps m.stamp
    | _ => true

/-- The outcome of a request under a choice; `none` when the choice does not apply. -/
def eval (R : Regime) [∀ stamps s, Decidable (R.mayStamp stamps s)] [DecidablePred R.mayFail]
    (i : ℕ) : (q : Request) → Choice → World → Option (Answer q × World)
  | .rand, .run r, w =>
    if w.runs[r]?.isNone then
      some (.ok r, { w with runs := w.runs.insert r { owner := i } })
    else none
  | .now, .time stamp, w => some (stamp, w)
  | .getManifest k, .fine, w => some (.ok w.chunks.manifests[k]?, w)
  | .scanMarkers, .fine, w => some (.ok (w.chunks.markers.toList.map Prod.snd), w)
  | .scanPieces acct run, .fine, w => some (.ok (w.chunks.pieceKeys acct run), w)
  | .write b _, .fine, w =>
    if b.holds w then if b.checkStamps R w then some (.ok (), w.apply b) else none
    else some (.error .assertFailed, w)
  | .write _ n, .lost, w => if R.mayFail n then some (.error .failed, w) else none
  | _, _, _ => none

section

variable {R : Regime} [∀ stamps s, Decidable (R.mayStamp stamps s)]

theorem Batch.stampsOk_of_check {b : Batch} {w : World} (h : b.checkStamps R w) :
    b.stampsOk R w := by
  intro run m hop log hlog
  have := List.all_eq_true.mp h _ hop
  simpa [hlog] using this

theorem eval_exec [DecidablePred R.mayFail] (i : ℕ) (q : Request) (ch : Choice) (w : World)
    (r : Answer q) (w' : World) (h : eval R i q ch w = some (r, w')) : exec R i q w r w' := by
  cases q with
  | rand =>
    cases ch <;> simp only [eval] at h <;> try cases h
    split at h
    · next hnone =>
      obtain ⟨rfl, rfl⟩ := Prod.mk.inj (Option.some.inj h)
      exact ⟨Option.isNone_iff_eq_none.mp hnone, rfl⟩
    · cases h
  | now =>
    cases ch <;> simp only [eval] at h <;> cases h
    rfl
  | getManifest | scanMarkers | scanPieces =>
    cases ch <;> simp only [eval] at h <;> cases h
    exact ⟨rfl, .inl rfl⟩
  | write b n =>
    cases ch <;> simp only [eval] at h <;> try cases h
    · split at h
      · next hold =>
        split at h
        · next hst =>
          cases h
          exact .applied hold (Batch.stampsOk_of_check hst)
        · cases h
      · next hold =>
        cases h
        exact .refused hold
    · split at h
      · next hfail =>
        cases h
        exact .lost hfail
      · cases h

end

abbrev ChunkProg := Prog Request Answer

/-- `rand.Read` into a run id. -/
def rand : ChunkProg (Except BackendErr RunId) := Prog.op Request.rand

def now : ChunkProg Int := Prog.op Request.now

/-- `Backend.Get` of a manifest; `none` is `backend.ErrNotFound`. -/
def getManifest (k : BlobKey) : ChunkProg (Except BackendErr (Option Manifest)) :=
  Prog.op (Request.getManifest k)

/-- `Backend.Scan` of the marker range. -/
def scanMarkers : ChunkProg (Except BackendErr (List Marker)) := Prog.op Request.scanMarkers

/-- `Backend.Scan` of the pieces of a run. -/
def scanPieces (acct : JmapId) (run : RunId) : ChunkProg (Except BackendErr (List PieceKey)) :=
  Prog.op (Request.scanPieces acct run)

def writeBatch (b : Batch) (unbuffered : ℕ) : ChunkProg (Except BackendErr Unit) :=
  Prog.op (Request.write b unbuffered)

end NaustJmap.Chunkstore
