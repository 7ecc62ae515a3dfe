import NaustJmap.Library.Reads
import NaustJmap.ObjectDB.Keys

/-!
# The Store of One Account

What `core/objectdb` keeps in the backend for one account, one field for each family of keys, and
the batches that change it as a whole or not at all (`applyBatch`).  Sequence numbers and the state
strings that render them are natural numbers; an absent one reads as `0`.
-/

namespace NaustJmap.ObjectDB

open Library

/-! ## Records -/

/-- `objectdb.Object`: property name to raw JSON value. -/
abbrev Object := Map String Raw

/-- `recKey`: one record of the account. -/
structure RecKey where
  typeName : String
  id : JmapId
  deriving DecidableEq, Repr

namespace RecKey

/-- Records are ordered by type name, then by id, as their keys are. -/
instance : Ord RecKey := ⟨compareLex (compareOn RecKey.typeName) (compareOn RecKey.id)⟩

instance : Std.TransOrd RecKey :=
  inferInstanceAs (Std.TransCmp (compareLex (compareOn RecKey.typeName) (compareOn RecKey.id)))

instance : Std.LawfulEqOrd RecKey where
  eq_of_compare {a b} h := by
    have h' : (compareOn RecKey.typeName a b).then (compareOn RecKey.id a b) = .eq := h
    rw [Ordering.then_eq_eq] at h'
    simp only [compareOn, Std.LawfulEqCmp.compare_eq_iff_eq] at h'
    cases a; cases b
    simpa using h'

end RecKey

/-! ## The change log -/

/-- `logTypeEntry`: what one commit did to the records of one type. -/
structure LogTypeEntry where
  created : List JmapId := []
  updated : List JmapId := []
  destroyed : List JmapId := []
  updatedProps : Option (List String) := none
  deriving DecidableEq, Repr

/-- `logEntry`; `time` is the commit's wall clock in Unix milliseconds (`At`). -/
structure LogEntry where
  types : Map String LogTypeEntry
  time : Int := 0

/-! ## Blob metadata -/

/-- `BlobUpload`: a blob's upload record, its time in Unix seconds. -/
structure BlobUpload where
  uploadedAt : Int := 0
  uploaders : List String := []
  deriving DecidableEq, Repr

/-! ## The store -/

/-- Everything stored for one account. -/
structure Store where
  /-- `{acct} o {type} {id}` -/
  objs : Map RecKey Object := ∅
  /-- `{acct} x …` -/
  idx : Map Bytes Unit := ∅
  /-- `{acct} r …` -/
  refs : Map Bytes Unit := ∅
  /-- `{acct} p …` -/
  pending : Map Bytes Unit := ∅
  /-- `{acct} g {seq}` -/
  log : Map ℕ LogEntry := ∅
  /-- `{acct} f` -/
  floor : ℕ := 0
  /-- `{acct} q` -/
  seq : ℕ := 0
  /-- `{acct} s {type}` -/
  typeStates : Map String ℕ := ∅
  /-- `!tag {tag} {acct}` -/
  tags : Map String Unit := ∅
  /-- `{acct} u {blobId}` -/
  uploads : Map JmapId BlobUpload := ∅

namespace Store

def typeState (s : Store) (typeName : String) : ℕ := s.typeStates[typeName]?.getD 0

/-- `DB.AllIds` without a limit: the ids of a type's records, in id order. -/
def allIds (s : Store) (typeName : String) : List JmapId :=
  (s.objs.keys.filter (·.typeName = typeName)).map (·.id)

/-- The log entries from a sequence on, oldest first: one atomic backend scan. -/
def logFrom (s : Store) (first : ℕ) : List (ℕ × LogEntry) :=
  s.log.toList.filter (first ≤ ·.1)

theorem mem_logFrom {s : Store} {first n : ℕ} {e : LogEntry} :
    (n, e) ∈ s.logFrom first ↔ s.log[n]? = some e ∧ first ≤ n := by
  simp [logFrom]

end Store

/-! ## Batches -/

inductive BatchOp where
  | setObj (k : RecKey) (obj : Object)
  | deleteObj (k : RecKey)
  | setIdx (k : Bytes)
  | deleteIdx (k : Bytes)
  | setRef (k : Bytes)
  | deleteRef (k : Bytes)
  | setPending (k : Bytes)
  | deletePending (k : Bytes)
  | setLog (seq : ℕ) (e : LogEntry)
  | deleteLog (seq : ℕ)
  | setFloor (n : ℕ)
  | setSeq (n : ℕ)
  | setTypeState (typeName : String) (n : ℕ)
  | setTag (tag : String)
  | deleteTag (tag : String)
  | setUpload (blobId : JmapId) (rec : BlobUpload)
  | deleteUpload (blobId : JmapId)

def BatchOp.apply (s : Store) : BatchOp → Store
  | .setObj k obj => { s with objs := s.objs.insert k obj }
  | .deleteObj k => { s with objs := s.objs.erase k }
  | .setIdx k => { s with idx := s.idx.insert k () }
  | .deleteIdx k => { s with idx := s.idx.erase k }
  | .setRef k => { s with refs := s.refs.insert k () }
  | .deleteRef k => { s with refs := s.refs.erase k }
  | .setPending k => { s with pending := s.pending.insert k () }
  | .deletePending k => { s with pending := s.pending.erase k }
  | .setLog seq e => { s with log := s.log.insert seq e }
  | .deleteLog seq => { s with log := s.log.erase seq }
  | .setFloor n => { s with floor := n }
  | .setSeq n => { s with seq := n }
  | .setTypeState typeName n => { s with typeStates := s.typeStates.insert typeName n }
  | .setTag tag => { s with tags := s.tags.insert tag () }
  | .deleteTag tag => { s with tags := s.tags.erase tag }
  | .setUpload blobId rec => { s with uploads := s.uploads.insert blobId rec }
  | .deleteUpload blobId => { s with uploads := s.uploads.erase blobId }

/-- `Backend.WriteBatch` once its assertions hold. -/
def applyBatch (ops : List BatchOp) (s : Store) : Store := ops.foldl BatchOp.apply s

@[simp] theorem applyBatch_nil (s : Store) : applyBatch [] s = s := rfl

@[simp] theorem applyBatch_cons (op : BatchOp) (ops : List BatchOp) (s : Store) :
    applyBatch (op :: ops) s = applyBatch ops (op.apply s) := rfl

theorem applyBatch_append (ops1 ops2 : List BatchOp) (s : Store) :
    applyBatch (ops1 ++ ops2) s = applyBatch ops2 (applyBatch ops1 s) := by
  simp [applyBatch]

theorem applyBatch_frame {α : Type} (f : Store → α) {ops : List BatchOp}
    (h : ∀ op ∈ ops, ∀ s, f (op.apply s) = f s) (s : Store) : f (applyBatch ops s) = f s := by
  induction ops generalizing s with
  | nil => rfl
  | cons op ops ih =>
    rw [applyBatch_cons, ih fun o ho => h o (List.mem_cons_of_mem _ ho),
      h op List.mem_cons_self]

/-- Two stores that differ at most in the change log and its floor. -/
def Store.SameButLog (r s : Store) : Prop := r = { s with log := r.log, floor := r.floor }

theorem Store.sameButLog_iff {r s : Store} : r.SameButLog s ↔
    ({ r with log := ∅, floor := 0 } : Store) = { s with log := ∅, floor := 0 } := by
  unfold SameButLog
  cases r; cases s
  simp

theorem Store.SameButLog.seq_eq {r s : Store} (h : r.SameButLog s) : r.seq = s.seq := by
  rw [h]

theorem Store.SameButLog.objs_eq {r s : Store} (h : r.SameButLog s) : r.objs = s.objs := by
  rw [h]

theorem Store.SameButLog.typeState_eq {r s : Store} (h : r.SameButLog s) :
    r.typeState = s.typeState := by
  rw [h]
  rfl

theorem Store.SameButLog.symm {r s : Store} (h : r.SameButLog s) : s.SameButLog r :=
  sameButLog_iff.mpr (sameButLog_iff.mp h).symm

theorem Store.SameButLog.trans {r s t : Store} (h1 : r.SameButLog s) (h2 : s.SameButLog t) :
    r.SameButLog t :=
  sameButLog_iff.mpr ((sameButLog_iff.mp h1).trans (sameButLog_iff.mp h2))

theorem Store.SameButLog.applyBatch {r s : Store} (h : r.SameButLog s) (ops : List BatchOp) :
    (applyBatch ops r).SameButLog (applyBatch ops s) := by
  induction ops generalizing r s with
  | nil => exact h
  | cons op ops ih =>
    refine ih ?_
    rw [h]
    cases op <;> rfl

end NaustJmap.ObjectDB
