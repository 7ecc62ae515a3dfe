import NaustJmap.Chunkstore.Content
import NaustJmap.ObjectDB.Indexes

/-!
# Blobs of One Account: Uploads, References and Their Collection

`core/objectdb/blobs.go` over a chunk store that shares the database's backend
(`blob.BatchDeleter`).  `FinalizeBlobUpload` writes the upload record under the lease and then
publishes the content, which no lease guards; a commit writes one fenced batch; `SweepBlobs` deletes
the records and content of unreferenced blobs in one fenced batch; and any process may use the chunk
store.  A process gets a claim token nobody ever had, at any moment (`lease_safe`).
-/

namespace NaustJmap.Blobs

open Library ObjectDB
open Chunkstore (BlobKey PieceKey Manifest ChunkOp BackendErr Regime Tuning Writer)

/-! ## The shared state -/

/-- One account: its claim, its objects and blob metadata, and the chunk store. -/
structure Disk where
  /-- The claim token stored for the account. -/
  claim : Option ℕ := none
  /-- The tokens drawn so far, and by which process. -/
  tokens : Map ℕ ℕ := ∅
  store : Store := {}
  world : Chunkstore.World := {}

/-- What a fenced batch is written for: the commit the assumptions speak of. -/
inductive Purpose where
  | commit (c : Commit)
  | bookkeeping

inductive Op where
  | chunk (q : Chunkstore.Request)
  | acquire
  | release (tok : ℕ)
  | read
  | write (tok : ℕ) (purpose : Purpose) (ops : List BatchOp) (chunkOps : List ChunkOp)

def Ans : Op → Type
  | .chunk q => Chunkstore.Answer q
  | .acquire => Option ℕ
  | .release _ => Unit
  | .read => Store
  | .write .. => Except BackendErr Unit

def Disk.apply (s : Disk) (ops : List BatchOp) (chunkOps : List ChunkOp) : Disk :=
  { s with store := applyBatch ops s.store, world := s.world.apply { ops := chunkOps } }

def References (db : DB) (s : Store) (blobId : JmapId) : Prop :=
  ∃ (k : RecKey) (obj : Object) (t : TypeDesc), s.objs[k]? = some obj ∧
    db.types[k.typeName]? = some t ∧ blobId ∈ blobRefsOf db.scan t (some obj)

/-- What is assumed of the surroundings: the regime, and when a reference may be added. -/
structure Assumed where
  chunk : Regime
  mayReference : Disk → JmapId → Prop

section

variable (db : DB) (acct : JmapId) (A : Assumed)

/-- The ids a commit draws are new, and the references it adds are allowed. -/
def Purpose.allowed (s : Disk) (ops : List BatchOp) : Purpose → Prop
  | .commit c => FreshDraw c.draw s.store (c.drawn db s.store) ∧
      ∀ b, References db (applyBatch ops s.store) b → References db s.store b ∨ A.mayReference s b
  | .bookkeeping => True

inductive Fenced (tok : ℕ) (purpose : Purpose) (ops : List BatchOp) (chunkOps : List ChunkOp)
    (s : Disk) : Except BackendErr Unit → Disk → Prop where
  | applied (hclaim : s.claim = some tok) (hok : purpose.allowed db A s ops) :
      Fenced tok purpose ops chunkOps s (.ok ()) (s.apply ops chunkOps)
  | refused (hclaim : s.claim ≠ some tok) :
      Fenced tok purpose ops chunkOps s (.error .assertFailed) s
  | lost : Fenced tok purpose ops chunkOps s (.error .failed) s
  /-- The error was reported after the batch took effect. -/
  | unnoticed (hclaim : s.claim = some tok) (hok : purpose.allowed db A s ops) :
      Fenced tok purpose ops chunkOps s (.error .failed) (s.apply ops chunkOps)

def exec (i : ℕ) : (o : Op) → Disk → Ans o → Disk → Prop
  | .chunk q, s, r, s' =>
    ∃ w', Chunkstore.exec A.chunk i q s.world r w' ∧ s' = { s with world := w' }
  | .acquire, s, some tok, s' =>
    s.tokens[tok]? = none ∧ s' = { s with claim := some tok, tokens := s.tokens.insert tok i }
  | .acquire, s, none, s' => s' = s
  | .release tok, s, _, s' => s' = s ∨ s.claim = some tok ∧ s' = { s with claim := none }
  | .read, s, r, s' => r = s.store ∧ s' = s
  | .write tok purpose ops chunkOps, s, r, s' => Fenced db A tok purpose ops chunkOps s r s'

end

/-! ## Computing a run -/

inductive Choice where
  | chunk (ch : Chunkstore.Choice)
  | token (tok : ℕ)
  | fine

section

variable (db : DB) (A : Assumed) [∀ s b, Decidable (A.mayReference s b)]

def referenced (s : Store) : List JmapId :=
  s.objs.toList.flatMap fun entry =>
    match db.types[entry.1.typeName]? with
    | none => []
    | some t => blobRefsOf db.scan t (some entry.2)

theorem mem_referenced {s : Store} {b : JmapId} (h : References db s b) : b ∈ referenced db s := by
  obtain ⟨k, obj, t, hobj, ht, hb⟩ := h
  refine List.mem_flatMap.mpr ⟨(k, obj), (Map.mem_toList _ _ _).mpr hobj, ?_⟩
  simpa only [ht] using hb

def Purpose.check (s : Disk) (ops : List BatchOp) : Purpose → Bool
  | .commit c =>
    s.store.objs.toList.all (fun entry => entry.1.id ∉ c.drawnIds db s.store) &&
      (referenced db (applyBatch ops s.store)).all fun b => A.mayReference s b
  | .bookkeeping => true

variable {db A} in
theorem Purpose.allowed_of_check {s : Disk} {ops : List BatchOp} {purpose : Purpose}
    (h : purpose.check db A s ops) : purpose.allowed db A s ops := by
  cases purpose with
  | bookkeeping => trivial
  | commit c =>
    obtain ⟨hfresh, hrefs⟩ := Bool.and_eq_true_iff.mp h
    refine ⟨fun n hn typeName => ?_, fun b hb => .inr ?_⟩
    · by_contra hsome
      obtain ⟨obj, hobj⟩ := Option.ne_none_iff_exists'.mp hsome
      have := List.all_eq_true.mp hfresh _ ((Map.mem_toList _ _ _).mpr hobj)
      exact (of_decide_eq_true this) (List.mem_map_of_mem (List.mem_range.mpr hn))
    · exact of_decide_eq_true (List.all_eq_true.mp hrefs b (mem_referenced db hb))

variable [∀ stamps s, Decidable (A.chunk.mayStamp stamps s)] [DecidablePred A.chunk.mayFail]

/-- The outcome of an operation under a choice; `none` when the choice does not apply. -/
def eval (i : ℕ) : (o : Op) → Choice → Disk → Option (Ans o × Disk)
  | .chunk q, .chunk ch, s =>
    (Chunkstore.eval A.chunk i q ch s.world).map fun out => (out.1, { s with world := out.2 })
  | .acquire, .token tok, s =>
    if s.tokens[tok]?.isNone then
      some (some tok, { s with claim := some tok, tokens := s.tokens.insert tok i })
    else none
  | .release tok, .fine, s =>
    some ((), if s.claim = some tok then { s with claim := none } else s)
  | .read, .fine, s => some (s.store, s)
  | .write tok purpose ops chunkOps, .fine, s =>
    if s.claim = some tok then
      if purpose.check db A s ops then some (.ok (), s.apply ops chunkOps) else none
    else some (.error .assertFailed, s)
  | _, _, _ => none

variable {db A} in
theorem eval_exec (i : ℕ) (o : Op) (ch : Choice) (s : Disk) (r : Ans o) (s' : Disk)
    (h : eval db A i o ch s = some (r, s')) : exec db A i o s r s' := by
  cases o with
  | chunk q =>
    cases ch <;> simp only [eval] at h <;> try cases h
    obtain ⟨⟨r', w'⟩, hout, hr⟩ := Option.map_eq_some_iff.mp h
    obtain ⟨rfl, rfl⟩ := Prod.mk.inj hr
    exact ⟨w', Chunkstore.eval_exec i q _ s.world _ w' hout, rfl⟩
  | acquire =>
    cases ch <;> simp only [eval] at h <;> try cases h
    split at h
    · next hnone =>
      obtain ⟨rfl, rfl⟩ := Prod.mk.inj (Option.some.inj h)
      exact ⟨Option.isNone_iff_eq_none.mp hnone, rfl⟩
    · cases h
  | release tok =>
    cases ch <;> simp only [eval] at h <;> cases h
    by_cases hclaim : s.claim = some tok
    · exact .inr ⟨hclaim, if_pos hclaim⟩
    · exact .inl (if_neg hclaim)
  | read =>
    cases ch <;> simp only [eval] at h <;> cases h
    exact ⟨rfl, rfl⟩
  | write tok purpose ops chunkOps =>
    cases ch <;> simp only [eval] at h <;> try cases h
    split at h
    · next hclaim =>
      split at h
      · next hok =>
        cases h
        exact .applied hclaim (Purpose.allowed_of_check hok)
      · cases h
    · next hclaim =>
      cases h
      exact .refused hclaim

end

/-! ## Programs -/

abbrev BlobProg := Prog Op Ans

def onChunks {α : Type} (p : Chunkstore.ChunkProg α) : BlobProg α := p.lift Op.chunk fun _ r => r

/-- `Manager.Acquire`; `none` when it gives up. -/
def acquire : BlobProg (Option ℕ) := Prog.op Op.acquire

def release (tok : ℕ) : BlobProg Unit := Prog.op (Op.release tok)

def readStore : BlobProg Store := Prog.op Op.read

/-- `Backend.WriteBatch` of a fenced batch. -/
def writeFenced (tok : ℕ) (purpose : Purpose) (ops : List BatchOp) (chunkOps : List ChunkOp) :
    BlobProg (Except BackendErr Unit) := Prog.op (Op.write tok purpose ops chunkOps)

def onStore {α : Type} : Reads Store α → BlobProg α
  | .ret a => .ret a
  | .read k => .call Op.read fun s => onStore (k s)

section

variable (db : DB) (acct : JmapId) (t : Tuning)

/-- `DB.Update`: the callback and one fenced batch, under the lease. -/
def update (c : Commit) : BlobProg Unit :=
  acquire >>= fun
    | none => pure ()
    | some tok =>
      onStore (db.update acct c) >>= fun
        | .ok (some ops) => writeFenced tok (.commit c) ops [] >>= fun _ => release tok
        | _ => release tok

/-- The record `recordUpload` writes: the upload time is reset and the uploader added. -/
def uploadRecord (rec : Option BlobUpload) (uploader : String) (now : Int) : BlobUpload :=
  let uploaders := (rec.getD {}).uploaders
  { uploadedAt := now
    uploaders := if uploader ∈ uploaders then uploaders else uploaders ++ [uploader] }

def recordUpload (tok : ℕ) (blobId : JmapId) (uploader : String) (now : Int) :
    BlobProg (Except BackendErr Unit) :=
  readStore >>= fun s =>
    writeFenced tok .bookkeeping
      [.setUpload blobId (uploadRecord s.uploads[blobId]? uploader now),
        .setPending (pendingKey acct blobId)] []

/-- `DB.FinalizeBlobUpload`: the record first, then the content. -/
def finalizeBlobUpload (wr : Writer) (uploader : String) (now : Int) : BlobProg Unit :=
  acquire >>= fun
    | none => pure ()
    | some tok =>
      recordUpload acct tok (wr.id t) uploader now >>= fun
        | .error _ => release tok
        | .ok () => onChunks (wr.commit t) >>= fun _ => release tok

/-- An upload of the account: a writer, any `Write` calls, and the finalization. -/
def uploadBlob (ps : List Bytes) (uploader : String) (now : Int) : BlobProg Unit :=
  onChunks (Chunkstore.create acct) >>= fun
    | .error _ => pure ()
    | .ok wr =>
      onChunks (wr.writeAll t ps) >>= fun wr => finalizeBlobUpload acct t wr uploader now

/-! ## `SweepBlobs` -/

def maxSweepPerCall : ℕ := 1024

def sweepCandidates (s : Store) : List JmapId :=
  ((s.pending.keys.filter (inRange (prefixRange [bytesOf acct, bytesOf "p"]))).take
    maxSweepPerCall).map idFromObjKey

def blobReferenced (s : Store) (blobId : JmapId) : Bool :=
  s.refs.keys.any (inRange (prefixRange [bytesOf acct, bytesOf "r", bytesOf blobId]))

/-- The batch `SweepBlobs` collects. -/
structure SweepBatch where
  ops : List BatchOp := []
  chunkOps : List ChunkOp := []

/-- The loop of `SweepBlobs` over its candidates; `none` when a read fails. -/
def sweepLoop (now grace : Int) : List JmapId → SweepBatch → BlobProg (Option SweepBatch)
  | [], b => pure (some b)
  | blobId :: rest, b =>
    readStore >>= fun s =>
      match s.uploads[blobId]? with
      | none =>
        -- the record is gone already: the hint is all that is left
        sweepLoop now grace rest
          { b with ops := b.ops ++ [.deletePending (pendingKey acct blobId)] }
      | some rec =>
        if now - rec.uploadedAt < grace then sweepLoop now grace rest b
        else
          readStore >>= fun s =>
            if blobReferenced acct s blobId then
              sweepLoop now grace rest
                { b with ops := b.ops ++ [.deletePending (pendingKey acct blobId)] }
            else
              onChunks (Chunkstore.getManifest ⟨acct, blobId⟩) >>= fun
                | .error _ => pure none
                | .ok m =>
                  sweepLoop now grace rest
                    { ops := b.ops ++
                        [.deleteUpload blobId, .deletePending (pendingKey acct blobId)]
                      chunkOps := b.chunkOps ++ Chunkstore.appendDelete ⟨acct, blobId⟩ m }

/-- `DB.SweepBlobs` with a fenced deletion; `minAge` is `tuning.BlobMinUnreferencedAge`. -/
def sweepBlobs (minAge now grace : Int) : BlobProg Unit :=
  readStore >>= fun s =>
    -- the lease-free probe
    if sweepCandidates acct s = [] then pure ()
    else
      acquire >>= fun
        | none => pure ()
        | some tok =>
          readStore >>= fun s =>
            sweepLoop acct now (max grace minAge) (sweepCandidates acct s) {} >>= fun
              | none => release tok
              | some b =>
                if b.ops = [] ∧ b.chunkOps = [] then release tok
                else writeFenced tok .bookkeeping b.ops b.chunkOps >>= fun _ => release tok

/-! ## Processes -/

inductive Job where
  | commit (c : Commit)
  | upload (ps : List Bytes) (uploader : String) (now : Int)
  | sweepBlobs (minAge now grace : Int)
  | chunks (job : Chunkstore.Job)

def Job.prog : Job → BlobProg Unit
  | .commit c => update db acct c
  | .upload ps uploader now => uploadBlob acct t ps uploader now
  | .sweepBlobs minAge now grace => Blobs.sweepBlobs acct minAge now grace
  | .chunks job => onChunks (job.prog t)

/-- The contract of a commit: it checks that a blob exists before it refers to it. -/
def ChecksBlobs (c : Commit) : Prop :=
  ∀ (s : Store) (ops : List BatchOp), (db.update acct c).run s = .ok (some ops) →
    ∀ b, References db (applyBatch ops s) b → References db s b ∨ (s.uploads[b]?).isSome

def Job.Checked : Job → Prop
  | .commit c => ChecksBlobs db acct c
  | _ => True

def start (jobs : ℕ → Job) : Config ℕ Disk Op Ans := ⟨{}, fun i => (jobs i).prog db acct t⟩

end

end NaustJmap.Blobs
