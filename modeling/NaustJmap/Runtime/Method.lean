import NaustJmap.ObjectDB.Changes

/-!
# Methods of a Standard Type

The parts of `core/runtime/standard.go` that every derived method shares: the method-level
errors of RFC 8620 section 3.6.2 and how the errors of the object database become one of
them.  The method handlers are readers over the store of one account; `checkAccount` and the
decoding of the arguments have succeeded when they start.
-/

namespace NaustJmap.Runtime

open Library ObjectDB

/-- `jmap.MethodError`: its type and, where the source gives one, its description. -/
inductive MethodErr where
  | invalidArguments (description : String)
  | invalidResultReference (description : String)
  | cannotCalculateChanges
  | tooManyChanges
  | requestTooLarge
  | stateMismatch
  | anchorNotFound
  | unsupportedFilter (description : String)
  | unsupportedSort (description : String)
  | serverFail (description : String)
  deriving DecidableEq, Repr

def MethodErr.type : MethodErr → String
  | .invalidArguments _ => "invalidArguments"
  | .invalidResultReference _ => "invalidResultReference"
  | .cannotCalculateChanges => "cannotCalculateChanges"
  | .tooManyChanges => "tooManyChanges"
  | .requestTooLarge => "requestTooLarge"
  | .stateMismatch => "stateMismatch"
  | .anchorNotFound => "anchorNotFound"
  | .unsupportedFilter _ => "unsupportedFilter"
  | .unsupportedSort _ => "unsupportedSort"
  | .serverFail _ => "serverFail"

/-- How the handlers answer an error of the object database. -/
def MethodErr.ofErr : Err → MethodErr
  | .cannotCalculateChanges => .cannotCalculateChanges
  | e => .serverFail e.text

/-! ## `Foo/changes` -/

def defaultMaxChanges : Int := 2048

/-- The `maxChanges` argument of `Foo/changes`. -/
def changesLimit : Option Int → Except MethodErr Int
  | none => .ok defaultMaxChanges
  | some n =>
    if n ≤ 0 ∨ ¬ validUnsignedInt n then
      .error (.invalidArguments "maxChanges must be a positive integer")
    else .ok n

/-- `stdType.changes`; the outer option of `sinceState` is whether the argument is there. -/
def fooChanges (db : DB) (typeName : String) (sinceState : Option (Option Int))
    (maxChanges : Option Int) : ReadM MethodErr Store ChangeSet := do
  let since ← ReadM.ofExcept
    (sinceState.elim (.error (.invalidArguments "sinceState is required")) .ok)
  let limit ← ReadM.ofExcept (changesLimit maxChanges)
  ReadM.mapError .ofErr (db.changes typeName since limit)

/-- An answer of `Foo/changes` is an answer of `DB.Changes`, always with a limit. -/
theorem fooChanges_eq_ok {db : DB} {typeName : String} {since : Option Int}
    {maxChanges : Option Int} {s : Store} {cs : ChangeSet}
    (h : (fooChanges db typeName (some since) maxChanges).run s = .ok cs) :
    ∃ limit, (db.changes typeName since limit).run s = .ok cs := by
  obtain ⟨since', hsince, h⟩ := ReadM.run_bind_eq_ok.mp h
  obtain rfl : since = since' := Except.ok.inj hsince
  obtain ⟨limit, -, h⟩ := ReadM.run_bind_eq_ok.mp h
  refine ⟨limit, ?_⟩
  rw [ReadM.run_mapError] at h
  cases hrun : (db.changes typeName since limit).run s with
  | error e => rw [hrun] at h; cases h
  | ok cs' => rw [hrun] at h; exact congrArg _ (Except.ok.inj h)

end NaustJmap.Runtime
