import NaustJmap.ObjectDB.Commit

/-!
# Reading and Trimming the Change Log

`DB.Changes` (RFC 8620 section 5.2), `DB.ChangedSince` and `DB.TrimChanges`.  The two readers take
no lease, so each is a program of separate atomic reads.  State strings appear as the sequence
numbers they render; a client state that does not parse is `none`.
-/

namespace NaustJmap.ObjectDB

open Library

/-! ## Events of a log entry -/

inductive Disp where
  | created | updated | destroyed
  deriving DecidableEq, Repr

def LogTypeEntry.ids (te : LogTypeEntry) : List JmapId := te.created ++ te.updated ++ te.destroyed

/-- The order in which both readers walk one entry of a type. -/
def LogTypeEntry.events (te : LogTypeEntry) : List (JmapId × Disp) :=
  te.created.map (·, .created) ++ te.updated.map (·, .updated) ++
    te.destroyed.map (·, .destroyed)

/-- The ids of a disposition map that carry `d`, in id order. -/
def idsWith {δ : Type} [DecidableEq δ] (disp : Map JmapId δ) (d : δ) : List JmapId :=
  (disp.toList.filter (·.2 = d)).map Prod.fst

/-! ## `DB.Changes` -/

/-- `objectdb.ChangeSet`; `OldState` echoes the argument and is left out. -/
structure ChangeSet where
  newState : ℕ
  hasMore : Bool
  created : List JmapId
  updated : List JmapId
  destroyed : List JmapId
  updatedProps : Option (List String)
  deriving DecidableEq, Repr

/-- The switch of `apply` in `DB.Changes`; `none` omits the id. -/
def Disp.coalesce : Option Disp → Disp → Option Disp
  | none, next => some next
  | some .created, .updated => some .created
  | some .created, .destroyed => none
  | some .updated, .destroyed => some .destroyed
  | some .destroyed, .created => some .updated
  | some _, next => some next

structure ChangesScan where
  disp : Map JmapId Disp := ∅
  propsKnown : Bool := true
  updatedProps : List String := []
  lastConsumed : ℕ
  hasMore : Bool := false

namespace ChangesScan

def apply (st : ChangesScan) (ev : JmapId × Disp) : ChangesScan :=
  { st with
    disp :=
      match Disp.coalesce st.disp[ev.1]? ev.2 with
      | some d => st.disp.insert ev.1 d
      | none => st.disp.erase ev.1
    propsKnown := st.propsKnown && !(st.disp[ev.1]? = some .destroyed && ev.2 = .created) }

def consume (st : ChangesScan) (seq : ℕ) (te : LogTypeEntry) : ChangesScan :=
  let st := te.events.foldl apply st
  let st :=
    if te.updated = [] then st
    else
      match te.updatedProps with
      | none => { st with propsKnown := false }
      | some props => { st with updatedProps := mergeProps st.updatedProps props }
  { st with lastConsumed := seq }

/-- The scan callback of `DB.Changes`, over the entries in sequence order. -/
def scan (typeName : String) (maxChanges : Int) :
    ChangesScan → List (ℕ × LogEntry) → Except Err ChangesScan
  | st, [] => .ok st
  | st, (seq, entry) :: rest =>
    match entry.types[typeName]? with
    | none =>
      -- entries for other types advance the cursor for free
      scan typeName maxChanges (if st.disp.isEmpty then { st with lastConsumed := seq } else st)
        rest
    | some te =>
      let projected :=
        st.disp.size + te.created.length + te.updated.length + te.destroyed.length
      if 0 < maxChanges ∧ maxChanges < projected then
        if st.disp.isEmpty then .error .cannotCalculateChanges
        else .ok { st with hasMore := true }
      else scan typeName maxChanges (st.consume seq te) rest

def changeSet (st : ChangesScan) (newState : ℕ) : ChangeSet where
  newState := newState
  hasMore := st.hasMore
  created := idsWith st.disp .created
  updated := idsWith st.disp .updated
  destroyed := idsWith st.disp .destroyed
  updatedProps := if st.propsKnown then some st.updatedProps else none

end ChangesScan

/-- `DB.Changes`: sequence, floor, log scan, floor, type state. -/
def DB.changes (db : DB) (typeName : String) (sinceState : Option Int) (maxChanges : Int) :
    ReadM Err Store ChangeSet := do
  ReadM.ensure (db.types[typeName]?).isSome .unknownType
  let parsed ← ReadM.ofExcept (sinceState.elim (.error .cannotCalculateChanges) .ok)
  ReadM.ensure (0 ≤ parsed) .cannotCalculateChanges
  let since := parsed.toNat
  let global ← ReadM.get (·.seq)
  ReadM.ensure (since ≤ global) .cannotCalculateChanges
  let floor ← ReadM.get (·.floor)
  ReadM.ensure (floor ≤ since + 1) .cannotCalculateChanges
  let entries ← ReadM.get (·.logFrom (since + 1))
  let st ← ReadM.ofExcept (ChangesScan.scan typeName maxChanges { lastConsumed := since } entries)
  -- a trim may have committed between the floor check and the scan
  let floor ← ReadM.get (·.floor)
  ReadM.ensure (floor ≤ since + 1) .cannotCalculateChanges
  if st.hasMore then return st.changeSet st.lastConsumed
  else
    let newState ← ReadM.get (·.typeState typeName)
    return st.changeSet newState

/-! ## `DB.ChangedSince` -/

/-- The dispositions of `DB.ChangedSince`; an omitted id stays on the books. -/
inductive SinceDisp where
  | created | updated | destroyed | omitted
  deriving DecidableEq, Repr

def SinceDisp.ofDisp : Disp → SinceDisp
  | .created => .created
  | .updated => .updated
  | .destroyed => .destroyed

def SinceDisp.coalesce : Option SinceDisp → Disp → SinceDisp
  | none, next => .ofDisp next
  | some .omitted, _ => .created
  | some .created, .destroyed => .omitted
  | some .created, _ => .created
  | some .destroyed, .created => .updated
  | some _, next => .ofDisp next

structure TypeChanges where
  created : List JmapId
  updated : List JmapId
  destroyed : List JmapId
  deriving DecidableEq, Repr

structure SinceScan where
  disp : Map String (Map JmapId SinceDisp)
  held : ℕ := 0

namespace SinceScan

/-- `apply`: `none` when the budget of held ids is spent. -/
def apply (maxIds : Int) (name : String) (st : SinceScan) (ev : JmapId × Disp) :
    Option SinceScan :=
  let byId := st.disp[name]?.getD ∅
  let held := if byId[ev.1]?.isSome then st.held else st.held + 1
  if byId[ev.1]? = none ∧ ¬ (maxIds ≤ 0 ∨ held ≤ maxIds) then none
  else
    some {
      disp := st.disp.insert name (byId.insert ev.1 (SinceDisp.coalesce byId[ev.1]? ev.2))
      held := held }

def consume (maxIds : Int) (entry : LogEntry) (st : SinceScan) : Option SinceScan :=
  st.disp.keys.foldlM (fun st name =>
    match entry.types[name]? with
    | none => some st
    | some te => te.events.foldlM (apply maxIds name) st) st

/-- The scan callback of `DB.ChangedSince`: entries past `upTo` are left for the next call. -/
def scan (maxIds : Int) (upTo : ℕ) : SinceScan → List (ℕ × LogEntry) → Option SinceScan
  | st, [] => some st
  | st, (seq, entry) :: rest =>
    if upTo < seq then some st
    else
      match st.consume maxIds entry with
      | none => none
      | some st => scan maxIds upTo st rest

end SinceScan

def typeChangesOf (byId : Map JmapId SinceDisp) : TypeChanges where
  created := idsWith byId .created
  updated := idsWith byId .updated
  destroyed := idsWith byId .destroyed

def SinceScan.start (typeNames : List String) : SinceScan where
  disp := typeNames.foldl (fun m name => m.insert name ∅) ∅

/-- `DB.ChangedSince`: sequence, floor, log scan, floor. -/
def DB.changedSince (db : DB) (typeNames : List String) (since maxBehind maxIds : Int) :
    ReadM Err Store (Map String TypeChanges × ℕ) := do
  ReadM.ensure (∀ name ∈ typeNames, (db.types[name]?).isSome) .unknownType
  ReadM.ensure (0 ≤ since) .cannotCalculateChanges
  let upTo ← ReadM.get (·.seq)
  ReadM.ensure (since ≤ upTo) .cannotCalculateChanges
  ReadM.ensure (¬ (0 < maxBehind ∧ maxBehind < upTo - since)) .cannotCalculateChanges
  let floor ← ReadM.get (·.floor)
  ReadM.ensure (floor ≤ since + 1) .cannotCalculateChanges
  let entries ← ReadM.get (·.logFrom (since.toNat + 1))
  let st ← ReadM.ofExcept <|
    ((SinceScan.start typeNames).scan maxIds upTo entries).elim
      (.error .cannotCalculateChanges) .ok
  let floor ← ReadM.get (·.floor)
  ReadM.ensure (floor ≤ since + 1) .cannotCalculateChanges
  return (st.disp.map fun _ byId => typeChangesOf byId, upTo)

/-! ## `DB.TrimChanges` -/

def maxTrimPerCall : ℕ := 4096

/-- The arguments of `TrimChanges`: clock and retention in nanoseconds. -/
structure TrimArgs where
  now : Int
  retention : Int
  maxEntries : Int

/-- The callback of pass one: how many entries were counted, and how many have aged out. -/
def countExpired (a : TrimArgs) (overCap : Bool) :
    (total expired : ℕ) → (prefixLive : Bool) → List (ℕ × LogEntry) → ℕ × ℕ
  | total, expired, _, [] => (total, expired)
  | total, expired, true, _ :: rest =>
    if overCap then countExpired a overCap (total + 1) expired true rest else (total + 1, expired)
  | total, expired, false, (_, entry) :: rest =>
    let cutoff := (a.now - a.retention) / 1000000
    if a.retention ≤ 0 ∨ entry.time = 0 ∨ cutoff < entry.time then
      if overCap then countExpired a overCap (total + 1) expired true rest
      else (total + 1, expired)
    else if maxTrimPerCall ≤ expired + 1 ∧ ¬ overCap then (total + 1, expired + 1)
    else countExpired a overCap (total + 1) (expired + 1) false rest

def trimDrop (a : TrimArgs) (overCap : Bool) (entries : List (ℕ × LogEntry)) : ℕ :=
  let counts := countExpired a overCap 0 0 false entries
  let drop : Int :=
    if overCap ∧ counts.2 < counts.1 - a.maxEntries then counts.1 - a.maxEntries else counts.2
  min drop.toNat maxTrimPerCall

/-- The batch of pass two: the deletions and, with them, the new floor. -/
def trimBatch (victims : List (ℕ × LogEntry)) : Option (List BatchOp) :=
  match victims.getLast? with
  | none => none
  | some last => some (victims.map (.deleteLog ·.1) ++ [.setFloor (last.1 + 1)])

/-- Whether the cap can fire: the span from the floor bounds the number of entries. -/
def trimOverCap (a : TrimArgs) (oldest global : ℕ) : Bool :=
  0 < a.maxEntries && a.maxEntries < (global : Int) - oldest + 1

/-- `DB.TrimChanges` up to the fenced write: floor, sequence, two scans of the log. -/
def DB.trimChanges (a : TrimArgs) : Reads Store (Option (List BatchOp)) :=
  if a.retention ≤ 0 ∧ a.maxEntries ≤ 0 then pure none
  else
    Reads.get (fun s : Store => s.floor) >>= fun floor =>
    Reads.get (fun s : Store => s.seq) >>= fun global =>
      if global < max floor 1 then pure none
      else
        Reads.get (fun s : Store => s.logFrom 0) >>= fun counted =>
          let drop := trimDrop a (trimOverCap a (max floor 1) global) counted
          if drop = 0 then pure none
          else
            Reads.get (fun s : Store => s.logFrom 0) >>= fun entries =>
              pure (trimBatch (entries.take drop))

end NaustJmap.ObjectDB
