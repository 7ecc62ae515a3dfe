import NaustJmap.Chunkstore.Store

/-!
# Writers, Readers and the Run Sweep

The processes of `core/providers/blob/chunkstore` as programs over the backend: `Store.Create` and
its streaming writer, `Store.Open`, `Store.Sweep` and `Store.AppendDelete`.  A method returns the
writer as it leaves it, since a failed call does not stop its caller from calling again.
-/

namespace NaustJmap.Chunkstore

open Library ObjectDB

/-- The errors of the chunk store; `looping` is the bound of the loop of `Write`. -/
inductive Err where
  | backend
  | writerDone
  | uploadReclaimed
  | looping
  deriving DecidableEq

/-- The `tuning` variables the chunk store reads, and `blob.IdFor`. -/
structure Tuning where
  blobPieceSize : ℕ
  uploadRefreshInterval : Int
  uploadReclaimWindow : Int
  idFor : Bytes → JmapId
  /-- A piece holds something. -/
  pieceSize_pos : 0 < blobPieceSize

def firstPieceSize : ℕ := 256 * 1024

/-- The loop of `pieceSize`. -/
def doublePieceSize (limit : ℕ) : ℕ → ℕ → ℕ
  | 0, size => if limit < size then limit else size
  | n + 1, size => if limit ≤ size then limit else doublePieceSize limit n (size * 2)

/-- `pieceSize`: the target size of the piece with a given index. -/
def pieceSize (t : Tuning) (index : ℕ) : ℕ := doublePieceSize t.blobPieceSize index firstPieceSize

theorem doublePieceSize_pos {limit : ℕ} (h : 0 < limit) (n : ℕ) {size : ℕ} (hs : 0 < size) :
    0 < doublePieceSize limit n size := by
  induction n generalizing size with
  | zero => unfold doublePieceSize; split <;> assumption
  | succ n ih =>
    unfold doublePieceSize
    split
    · exact h
    · exact ih (by omega)

theorem pieceSize_pos (t : Tuning) (index : ℕ) : 0 < pieceSize t index :=
  doublePieceSize_pos t.pieceSize_pos index (by decide)

/-! ## The writer -/

/-- `writer`; `hashed` is what the running hash has been fed. -/
structure Writer where
  acct : JmapId
  run : RunId
  hashed : Bytes := []
  buf : Bytes := []
  /-- The pieces flushed so far, a `uint32`; see `PieceKey.index`. -/
  count : ℕ := 0
  size : ℕ := 0
  done : Bool := false
  lastStamp : Int
  lastMarker : Marker
  deriving DecidableEq

section

variable (t : Tuning)

def create (acct : JmapId) : ChunkProg (Except Err Writer) :=
  rand >>= fun
    | .error _ => pure (.error .backend)
    | .ok run =>
      now >>= fun stamp =>
        let mv : Marker := ⟨acct, run, stamp⟩
        writeBatch { ops := [.setMarker run mv] } 0 >>= fun
          | .error _ => pure (.error .backend)
          | .ok () => pure (.ok { acct, run, lastStamp := stamp, lastMarker := mv })

/-- What `flush` and `maybeRefresh` make of a failed batch. -/
def reclaimedOr : BackendErr → Err
  | .assertFailed => .uploadReclaimed
  | .failed => .backend

namespace Writer

/-- The batch of `flush`: the piece, and a new stamp, under the old one. -/
def flushBatch (w : Writer) (now : Int) : Batch where
  asserts := [.markerIs w.run w.lastMarker]
  ops := [.setPiece ⟨w.acct, w.run, w.count⟩ w.buf, .setMarker w.run ⟨w.acct, w.run, now⟩]

def stamped (w : Writer) (now : Int) : Writer :=
  { w with lastStamp := now, lastMarker := ⟨w.acct, w.run, now⟩ }

def flush (unbuffered : ℕ) (w : Writer) : ChunkProg (Except Err Unit × Writer) :=
  now >>= fun now =>
    writeBatch (w.flushBatch now) unbuffered >>= fun
      | .error e => pure (.error (reclaimedOr e), w)
      | .ok () => pure (.ok (), { w.stamped now with count := w.count + 1, buf := [] })

def refreshBatch (w : Writer) (now : Int) : Batch where
  asserts := [.markerIs w.run w.lastMarker]
  ops := [.setMarker w.run ⟨w.acct, w.run, now⟩]

def maybeRefresh (w : Writer) : ChunkProg (Except Err Unit × Writer) :=
  now >>= fun now =>
    if now - w.lastStamp < t.uploadRefreshInterval then pure (.ok (), w)
    else
      writeBatch (w.refreshBatch now) 0 >>= fun
        | .error e => pure (.error (reclaimedOr e), w)
        | .ok () => pure (.ok (), w.stamped now)

/-- The loop of `Write`: at most two rounds for an octet, to flush a full buffer and to buffer. -/
def writeLoop : ℕ → Bytes → Writer → ChunkProg (Except Err Unit × Writer)
  | 0, _, w => pure (.error .looping, w)
  | fuel + 1, p, w =>
    if p = [] then pure (.ok (), w)
    else
      let target := pieceSize t w.count
      let take := min (target - w.buf.length) p.length
      let w := { w with buf := w.buf ++ p.take take }
      let p := p.drop take
      if w.buf.length = target then
        flush p.length w >>= fun
          | (.error e, w) => pure (.error e, w)
          | (.ok (), w) => writeLoop fuel p w
      else writeLoop fuel p w

/-- `writer.Write`: the octets are hashed and counted before any of them is stored. -/
def write (p : Bytes) (w : Writer) : ChunkProg (Except Err ℕ × Writer) :=
  if w.done then pure (.error .writerDone, w)
  else
    let w := { w with hashed := w.hashed ++ p, size := w.size + p.length }
    writeLoop t (2 * p.length + 2) p w >>= fun
      | (.error e, w) => pure (.error e, w)
      | (.ok (), w) =>
        maybeRefresh t w >>= fun
          | (.error e, w) => pure (.error e, w)
          | (.ok (), w) => pure (.ok p.length, w)

def id (w : Writer) : JmapId := t.idFor w.hashed

end Writer

/-- `Store.appendRunDeletes`. -/
def runDeletes (run : RunId) (keys : List PieceKey) : List ChunkOp :=
  keys.map .deletePiece ++ [.deleteMarker run]

/-- `Store.deleteRun`: the cleanup a run's own writer makes. -/
def deleteRun (acct : JmapId) (run : RunId) : ChunkProg (Except Err Unit) :=
  scanPieces acct run >>= fun
    | .error _ => pure (.error .backend)
    | .ok keys =>
      writeBatch { ops := runDeletes run keys } 0 >>= fun
        | .error _ => pure (.error .backend)
        | .ok () => pure (.ok ())

namespace Writer

def publishBatch (w : Writer) : Batch where
  asserts := [.noManifest ⟨w.acct, w.id t⟩, .markerIs w.run w.lastMarker]
  ops := [.setManifest ⟨w.acct, w.id t⟩ ⟨w.run, w.count, w.size⟩, .deleteMarker w.run]

def commitAssertFailed (w : Writer) : ChunkProg (Except Err JmapId) :=
  getManifest ⟨w.acct, w.id t⟩ >>= fun
    | .error _ => pure (.error .backend)
    | .ok (some _) => deleteRun w.acct w.run >>= fun _ => pure (.ok (w.id t))
    | .ok none => pure (.error .uploadReclaimed)

/-- `writer.Commit` once the last piece is stored. -/
def publish (w : Writer) : ChunkProg (Except Err JmapId) :=
  getManifest ⟨w.acct, w.id t⟩ >>= fun
    | .error _ => pure (.error .backend)
    | .ok (some _) =>
      -- content already stored: keep the existing copy, drop ours
      deleteRun w.acct w.run >>= fun _ => pure (.ok (w.id t))
    | .ok none =>
      writeBatch (w.publishBatch t) 0 >>= fun
        | .error .assertFailed => commitAssertFailed t w
        | .error .failed => pure (.error .backend)
        | .ok () => pure (.ok (w.id t))

def commit (w : Writer) : ChunkProg (Except Err JmapId × Writer) :=
  if w.done then pure (.error .writerDone, w)
  else
    let w := { w with done := true }
    if w.buf.length > 0 then
      flush 0 w >>= fun
        | (.error e, w) => pure (.error e, w)
        | (.ok (), w) => publish t w >>= fun r => pure (r, w)
    else publish t w >>= fun r => pure (r, w)

def abort (w : Writer) : ChunkProg (Except Err Unit × Writer) :=
  if w.done then pure (.error .writerDone, w)
  else
    let w := { w with done := true }
    deleteRun w.acct w.run >>= fun r => pure (r, w)

end Writer

/-! ## The run sweep -/

/-- `Store.reclaimRun`: `deleteRun` for a run somebody else writes, under the marker seen. -/
def reclaimRun (m : Marker) : ChunkProg (Except BackendErr Unit) :=
  scanPieces m.acct m.run >>= fun
    | .error e => pure (.error e)
    | .ok keys =>
      writeBatch { asserts := [.markerIs m.run m], ops := runDeletes m.run keys } 0

def sweepLoop (now : Int) : List Marker → ℕ → ChunkProg (ℕ × Except Err Unit)
  | [], reclaimed => pure (reclaimed, .ok ())
  | m :: rest, reclaimed =>
    if now - m.stamp ≤ t.uploadReclaimWindow then sweepLoop now rest reclaimed
    else
      reclaimRun m >>= fun
        | .error .assertFailed => sweepLoop now rest reclaimed
        | .error .failed => pure (reclaimed, .error .backend)
        | .ok () => sweepLoop now rest (reclaimed + 1)

def sweep : ChunkProg (ℕ × Except Err Unit) :=
  scanMarkers >>= fun
    | .error _ => pure (0, .error .backend)
    | .ok candidates => now >>= fun now => sweepLoop t now candidates 0

/-! ## Processes -/

inductive Call where
  | write (p : Bytes)
  | commit
  | abort

/-- A sequence of calls on one writer, whatever each of them returns. -/
def Writer.calls : List Call → Writer → ChunkProg Unit
  | [], _ => pure ()
  | .write p :: rest, w => w.write t p >>= fun r => r.2.calls rest
  | .commit :: rest, w => w.commit t >>= fun r => r.2.calls rest
  | .abort :: rest, w => w.abort >>= fun r => r.2.calls rest

inductive Job where
  | upload (acct : JmapId) (calls : List Call)
  | sweep

def Job.prog : Job → ChunkProg Unit
  | .upload acct calls =>
    create acct >>= fun
      | .error _ => pure ()
      | .ok w => w.calls t calls
  | .sweep => Chunkstore.sweep t >>= fun _ => pure ()

end

/-! ## Reading -/

/-- `reader.Read` until the end: `n` pieces from `idx` on; a missing one is an error. -/
def Chunks.readPieces (s : Chunks) (acct : JmapId) (run : RunId) : ℕ → ℕ → Option Bytes
  | _, 0 => some []
  | idx, n + 1 => do
    let data ← s.pieces[(⟨acct, run, idx⟩ : PieceKey)]?
    let rest ← s.readPieces acct run (idx + 1) n
    return data ++ rest

/-- `Store.Open`, read to the end: the content and the recorded size. -/
def Chunks.openBlob (s : Chunks) (acct blobId : JmapId) : Option (Bytes × ℕ) := do
  let m ← s.manifests[(⟨acct, blobId⟩ : BlobKey)]?
  let content ← s.readPieces acct m.run 0 m.count
  return (content, m.size)

/-! ## Deleting a blob -/

/-- `Store.AppendDelete` once the manifest is read: the manifest and every piece it names. -/
def appendDelete (k : BlobKey) : Option Manifest → List ChunkOp
  | none => []
  | some m => ((List.range m.count).map fun i => ⟨k.acct, m.run, i⟩).map .deletePiece ++
      [.deleteManifest k]

end NaustJmap.Chunkstore
