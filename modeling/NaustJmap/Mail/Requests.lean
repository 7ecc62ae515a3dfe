import NaustJmap.Mail.Ingest
import NaustJmap.Runtime.CreationIds

/-!
# Creation Ids Across the Calls of a Request

`Processor.Process` runs the calls of a request over one map of creation ids, which is written while
a callback runs, so that a call that fails later leaves entries for records that were never
committed.  A failed call leaves the map alone exactly when it fails before it has staged any of its
creates.
-/

namespace NaustJmap.Mail

open Library ObjectDB NaustJmap.Runtime

/-! ## Requests -/

abbrev Answer := Except MethodErr SetResponse

/-- An implicit `Foo/set` a handler issues after its own response. -/
structure ImplicitSet where
  env : CommitEnv
  st : StdType
  args : SetArgs

/-- A method call, with what the rest of the system contributes to it. -/
inductive MethodCall where
  | set (env : CommitEnv) (st : StdType) (a : SetArgs) (after : SetResponse → List ImplicitSet)
  | copy (env : CommitEnv) (st : StdType) (source : CopySource) (a : CopyArgs)
      (destroyEnv : CommitEnv)
  | emailImport (env : CommitEnv) (maxObjectsInSet : ℕ)
      (preflight : JmapId → Raw → ReadM Err Store (Except SetError CommitCreate)) (a : ImportArgs)
  | emailCopy (env : CommitEnv) (maxObjectsInSet : ℕ) (fromState : ℕ) (preflight : PreflightCopy)
      (a : CopyArgs) (email : StdType) (destroyEnv : CommitEnv)
  | other (answer : CreatedIds → Answer)

def implicitSets : List ImplicitSet → CreatedIds → List Answer × CreatedIds
  | [], ids => ([], ids)
  | i :: rest, ids =>
    let r := fooSet i.env i.st i.args ids
    let others := implicitSets rest r.2
    (r.1 :: others.1, others.2)

/-- The response of a handler, and what it issues when it succeeded. -/
def andThen (r : Answer × CreatedIds) (next : SetResponse → List ImplicitSet) :
    List Answer × CreatedIds :=
  match r.1 with
  | .error e => ([.error e], r.2)
  | .ok resp =>
    let others := implicitSets (next resp) r.2
    (.ok resp :: others.1, others.2)

def destroyAfterCopy (env : CommitEnv) (st : StdType) (a : CopyArgs) (resp : SetResponse) :
    List ImplicitSet :=
  if a.onSuccessDestroyOriginal ∧ resp.resp.copiedFrom ≠ [] then
    [⟨env, st, destroyOriginals a.destroyFromIfInState resp.resp⟩]
  else []

/-- `processCall`: the answers and the map after the call. -/
def MethodCall.handle : MethodCall → CreatedIds → List Answer × CreatedIds
  | .set env st a after, ids => andThen (fooSet env st a ids) after
  | .copy env st source a destroyEnv, ids =>
    andThen (fooCopy env st source a ids) (destroyAfterCopy destroyEnv st a)
  | .emailImport env max preflight a, ids =>
    andThen (Mail.emailImport env max preflight a ids) fun _ => []
  | .emailCopy env max fromState preflight a email destroyEnv, ids =>
    andThen (Mail.emailCopy env max fromState preflight a ids) (destroyAfterCopy destroyEnv email a)
  | .other answer, ids => ([answer ids], ids)

/-- The loop of `Process`: the answers of each call, and the map in the end. -/
def processCalls : List MethodCall → CreatedIds → List (List Answer) × CreatedIds
  | [], ids => ([], ids)
  | call :: rest, ids =>
    let r := call.handle ids
    let others := processCalls rest r.2
    (r.1 :: others.1, others.2)

/-- A request: its method calls, and the creation ids the client sent with it. -/
structure Request where
  calls : List MethodCall
  createdIds : Option CreatedIds := none

/-- The creation ids as call number `i` of the request finds them. -/
def Request.idsAt (req : Request) (i : ℕ) : CreatedIds :=
  (processCalls (req.calls.take i) (req.createdIds.getD ∅)).2

/-- `Processor.Process`: the map is returned when the client sent one. -/
def Request.process (req : Request) : List (List Answer) × Option CreatedIds :=
  let r := processCalls req.calls (req.createdIds.getD ∅)
  (r.1, req.createdIds.map fun _ => r.2)

theorem processCalls_append (pre post : List MethodCall) (ids : CreatedIds) :
    processCalls (pre ++ post) ids =
      ((processCalls pre ids).1 ++ (processCalls post (processCalls pre ids).2).1,
        (processCalls post (processCalls pre ids).2).2) := by
  induction pre generalizing ids with
  | nil => rfl
  | cons call pre ih =>
    simp only [List.cons_append, processCalls]
    rw [ih]

theorem length_processCalls (calls : List MethodCall) (ids : CreatedIds) :
    (processCalls calls ids).1.length = calls.length := by
  induction calls generalizing ids with
  | nil => rfl
  | cons call calls ih => simp only [processCalls, List.length_cons, ih]

/-! ## When a failed call leaves the map alone -/

/-- When the commit of prepared Emails leaves the map alone. -/
def ingestKeeps (env : CommitEnv) (ifInState : Option ℕ) (ids : CreatedIds)
    (preps : Except Err (List Prepared) × ℕ) : Bool :=
  match preps with
  | (.error _, _) => true
  | (.ok preps, n) =>
    updateKeep env
      ((CallM.checkState typeEmail ifInState).keepAfter env
        (fun _ => preparedKeep env ids preps) { createdIds := ids }) n

theorem ingest_createdIds (env : CommitEnv) (ifInState : Option ℕ) (ids : CreatedIds)
    (preps : Except Err (List Prepared) × ℕ)
    (hnodup : ∀ ps n, preps = (.ok ps, n) → (ps.map (·.cid)).Nodup) :
    (ingest env ifInState ids preps).2 = ids ↔ ingestKeeps env ifInState ids preps = true := by
  obtain ⟨e | ps, n⟩ := preps
  · simp [ingest, ingestKeeps]
  refine update_createdIds env typeEmail (ingestCallback ifInState ps) { createdIds := ids } n
    fun u n' => ?_
  refine .bind (checkState_keeps _ _) fun state c' u' m hexec => ?_
  rw [checkState_exec] at hexec
  obtain rfl : _ = c' := congrArg (·.1.2) hexec
  exact commitPreparedCreates_decides env ps (hnodup ps n rfl) { createdIds := ids } u' m

theorem preflightCopies_cids (preflight : PreflightCopy) (ids : CreatedIds) (σ : ℕ → Store)
    (l : List (JmapId × Raw)) {n n' : ℕ} {ps : List Prepared}
    (h : (preflightCopies preflight ids l).runAt σ n = (.ok ps, n')) :
    ps.map (·.cid) = l.map Prod.fst := by
  induction l generalizing n n' ps with
  | nil =>
    obtain rfl : [] = ps := Except.ok.inj (congrArg Prod.fst h)
    rfl
  | cons x rest ih =>
    rw [preflightCopies, ReadM.runAt_bind_eq_ok] at h
    obtain ⟨p, k, -, h⟩ := h
    rw [ReadM.runAt_bind_eq_ok] at h
    obtain ⟨others, k', hrest, h⟩ := h
    obtain rfl : _ = ps := Except.ok.inj (congrArg Prod.fst h)
    rw [List.map_cons, List.map_cons, ih hrest]

/-- The call fails, if it does, before any of its creates is staged under a new id. -/
def MethodCall.failsEarly : MethodCall → CreatedIds → Bool
  | .set env st a _, ids => setKeeps env st a ids
  | .copy env st source a _, ids => copyKeeps env st source a ids
  | .emailImport env max preflight a, ids =>
    max < a.emails.size || ingestKeeps env a.ifInState ids
      ((prepareAll (fun _ => preflight) ids a.emails.toList).runAt env.schedule 0)
  | .emailCopy env max fromState preflight a _ _, ids =>
    max < a.create.size || a.ifFromInState.any (· ≠ fromState) ||
      ingestKeeps env a.ifInState ids
        ((preflightCopies preflight ids a.create.toList).runAt env.schedule 0)
  | .other _, _ => true

theorem emailImport_createdIds (env : CommitEnv) (max : ℕ)
    (preflight : JmapId → Raw → ReadM Err Store (Except SetError CommitCreate)) (a : ImportArgs)
    (ids : CreatedIds) :
    (emailImport env max preflight a ids).2 = ids ↔
      (MethodCall.emailImport env max preflight a).failsEarly ids = true := by
  unfold emailImport MethodCall.failsEarly
  dsimp only
  by_cases hmax : max < a.emails.size
  · simp [hmax]
  · rw [if_neg hmax, decide_eq_false hmax]
    refine ingest_createdIds env a.ifInState ids _ fun ps n hps => ?_
    rw [prepareAll_cids _ _ _ _ hps]
    exact Map.nodup_toList_keys a.emails

theorem emailCopy_createdIds (env : CommitEnv) (max fromState : ℕ) (preflight : PreflightCopy)
    (a : CopyArgs) (email : StdType) (destroyEnv : CommitEnv) (ids : CreatedIds) :
    (emailCopy env max fromState preflight a ids).2 = ids ↔
      (MethodCall.emailCopy env max fromState preflight a email destroyEnv).failsEarly ids =
        true := by
  unfold emailCopy MethodCall.failsEarly
  dsimp only
  by_cases hmax : max < a.create.size
  · simp [hmax]
  by_cases hfrom : a.ifFromInState.any (· ≠ fromState) = true
  · rw [if_neg hmax, hfrom]
    simp
  · rw [if_neg hmax, decide_eq_false hmax, Bool.eq_false_iff.mpr hfrom]
    refine ingest_createdIds env a.ifInState ids _ fun ps n hps => ?_
    rw [preflightCopies_cids _ _ _ _ hps]
    exact Map.nodup_toList_keys a.create

theorem andThen_of_error {r : Answer × CreatedIds} {next : SetResponse → List ImplicitSet}
    {e : MethodErr} {rest : List Answer} (h : (andThen r next).1 = .error e :: rest) :
    (andThen r next).2 = r.2 := by
  obtain ⟨e' | resp, ids⟩ := r
  · rfl
  · exact nomatch h

theorem MethodCall.handle_createdIds (call : MethodCall) (ids : CreatedIds) {e : MethodErr}
    {rest : List Answer} (h : (call.handle ids).1 = .error e :: rest) :
    (call.handle ids).2 = ids ↔ call.failsEarly ids = true := by
  cases call with
  | set env st a after =>
    rw [handle, andThen_of_error h]
    exact fooSet_createdIds env st a ids
  | copy env st source a destroyEnv =>
    rw [handle, andThen_of_error h]
    exact fooCopy_createdIds env st source a ids
  | emailImport env max preflight a =>
    rw [handle, andThen_of_error h]
    exact emailImport_createdIds env max preflight a ids
  | emailCopy env max fromState preflight a email destroyEnv =>
    rw [handle, andThen_of_error h]
    exact emailCopy_createdIds env max fromState preflight a email destroyEnv ids
  | other answer => simp [handle, failsEarly]

/-- **Creation ids of failed calls.**  When call number `i` of a request ends in a
    method-level error, the next call finds the creation ids it found exactly if it failed
    before it staged a create; the map returned with the response is the one after the last
    call. -/
theorem createdIds_kept_iff (req : Request) (i : ℕ) (call : MethodCall)
    (hcall : req.calls[i]? = some call) (e : MethodErr) (rest : List Answer)
    (hfail : req.process.1[i]? = some (.error e :: rest)) :
    (req.idsAt (i + 1) = req.idsAt i ↔ call.failsEarly (req.idsAt i) = true) ∧
      req.process.2 = req.createdIds.map fun _ => req.idsAt req.calls.length := by
  obtain ⟨hi, hget⟩ := List.getElem?_eq_some_iff.mp hcall
  have hsplit : req.calls = req.calls.take i ++ call :: req.calls.drop (i + 1) := by
    rw [← hget, List.cons_getElem_drop_succ, List.take_append_drop]
  have htake : req.calls.take (i + 1) = req.calls.take i ++ [call] := by
    rw [List.take_add_one, hcall]
    rfl
  have hnext : req.idsAt (i + 1) = (call.handle (req.idsAt i)).2 := by
    unfold Request.idsAt
    rw [htake, processCalls_append]
    rfl
  have hanswer : (call.handle (req.idsAt i)).1 = .error e :: rest := by
    have hproc : req.process.1 = (processCalls (req.calls.take i) (req.createdIds.getD ∅)).1 ++
        (call.handle (req.idsAt i)).1 ::
          (processCalls (req.calls.drop (i + 1)) (call.handle (req.idsAt i)).2).1 := by
      change (processCalls req.calls _).1 = _
      conv_lhs => rw [hsplit, processCalls_append]
      rfl
    have hlen : (processCalls (req.calls.take i) (req.createdIds.getD ∅)).1.length = i := by
      rw [length_processCalls, List.length_take]
      omega
    rw [hproc, List.getElem?_append_right (by omega), hlen, Nat.sub_self] at hfail
    exact Option.some.inj hfail
  refine ⟨?_, ?_⟩
  · rw [hnext]
    exact call.handle_createdIds (req.idsAt i) hanswer
  · unfold Request.process Request.idsAt
    rw [List.take_length]

/-! ## Two failed calls -/

def createNote (env : CommitEnv) (ifInState : Option ℕ) : MethodCall :=
  .set env (noteStd [("{}", ∅)] {})
    { ifInState := ifInState, create := (∅ : Map JmapId Raw).insert "k" "{}" } fun _ => []

/-- The state does not match, so nothing is staged and the map stays as it is. -/
def mismatched : Request where
  calls := [createNote (noteEnv {} ["A"]) (some 7)]
  createdIds := some ∅

theorem createdIds_kept_iff_mismatch :
    mismatched.process.1[0]? = some [.error .stateMismatch] ∧
      mismatched.idsAt 1 = mismatched.idsAt 0 := by
  have hfail : mismatched.process.1[0]? = some [.error .stateMismatch] := rfl
  refine ⟨hfail, ?_⟩
  exact (createdIds_kept_iff mismatched 0 _ rfl .stateMismatch [] hfail).1.mpr (by decide +kernel)

/-- The same create, and then the batch cannot be written: another holder has the lease. -/
def unwritten : Request where
  calls := [createNote { noteEnv {} ["A"] with written := .error (.callback "lease lost") } none]
  createdIds := some ∅

/-- The call fails and commits nothing, but `k` now stands for a note that does not exist. -/
theorem failed_set_publishes :
    unwritten.process.1[0]? = some [.error (.serverFail "lease lost")] ∧
      (unwritten.idsAt 0)[("k" : JmapId)]? = none ∧
      (unwritten.idsAt 1)[("k" : JmapId)]? = some "A" ∧
      unwritten.process.2.bind (·[("k" : JmapId)]?) = some "A" :=
  ⟨rfl, by decide +kernel, by decide +kernel, by decide +kernel⟩

end NaustJmap.Mail
