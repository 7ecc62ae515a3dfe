import NaustJmap.ObjectDB.History
import NaustJmap.Runtime.Copy

/-!
# Running the Program of a Call

How the programs of `/set` and `/copy` run, one step at a time: the rules that peel a `CallM`
program apart, and for each step of the create loops what it returns, what it builds and the
update it leaves.
-/

namespace NaustJmap.Runtime

open Library ObjectDB

/-! ## Peeling programs -/

theorem Except.map_eq_ok {ε α β : Type} {f : α → β} {x : Except ε α} {b : β}
    (h : x.map f = .ok b) : ∃ a, x = .ok a ∧ f a = b := by
  cases x with
  | error e => exact nomatch h
  | ok a => exact ⟨a, rfl, Except.ok.inj h⟩

def CommitEnv.run {α : Type} (env : CommitEnv) (cb : Callback α) (u : Update) (n : ℕ) :
    α × Update × ℕ :=
  Callback.runAt env.db env.draw env.schedule cb u n

namespace CallM

variable {α β : Type} (env : CommitEnv) (m : CallM α) (cb : Callback (Except Err α))
  (f : α → CallM β) (c : CallState) (u : Update) (n : ℕ)

/-- What the call built when its program ended, with an error or without. -/
def left : CallState := (m.exec env c u n).1.2

theorem exec_bind :
    (m >>= f).exec env c u n =
      match m.exec env c u n with
      | ((.ok a, c'), u', n') => (f a).exec env c' u' n'
      | ((.error e, c'), u', n') => ((.error e, c'), u', n') := by
  have h : ExceptT.run (m >>= f) c = ExceptT.run m c >>= fun r =>
      match r with
      | (.ok a, c') => ExceptT.run (f a) c'
      | (.error e, c') => pure (.error e, c') := by
    change (ExceptT.run m c >>= _) = _
    congr 1
    funext r
    rcases r with ⟨_ | _, _⟩ <;> rfl
  unfold exec
  rw [h, Callback.runAt_bind]
  rcases Callback.runAt env.db env.draw env.schedule (ExceptT.run m c) u n with ⟨⟨_ | _, _⟩, _, _⟩
    <;> rfl

theorem exec_bind_eq_ok {m : CallM α} {f : α → CallM β} {c : CallState} {u : Update} {n : ℕ}
    {b : β} (h : ((m >>= f).exec env c u n).1.1 = .ok b) :
    ∃ a c' u' n', m.exec env c u n = ((.ok a, c'), u', n') ∧
      ((f a).exec env c' u' n').1.1 = .ok b := by
  rw [exec_bind] at h
  generalize m.exec env c u n = r at h
  obtain ⟨⟨e | a, c'⟩, u', n'⟩ := r
  · exact nomatch h
  · exact ⟨a, c', u', n', rfl, h⟩

@[simp] theorem exec_modify (f : CallState → CallState) (c : CallState) (u : Update) (n : ℕ) :
    (modify f).exec env c u n = ((.ok (), f c), u, n) := rfl

@[simp] theorem exec_createdIds :
    createdIds.exec env c u n = ((.ok c.createdIds, c), u, n) := rfl

theorem exec_ofCallback :
    (ofCallback cb).exec env c u n =
      (((env.run cb u n).1.mapError .failed, c), (env.run cb u n).2) := by
  change Callback.runAt env.db env.draw env.schedule
    (cb >>= fun r => pure (r.mapError CallErr.failed, c)) u n = _
  rw [Callback.runAt_bind]
  rfl

theorem exec_ofCallback_bind :
    (ofCallback cb >>= f).exec env c u n =
      match env.run cb u n with
      | (.ok a, u', n') => (f a).exec env c u' n'
      | (.error e, u', n') => ((.error (.failed e), c), u', n') := by
  rw [exec_bind, exec_ofCallback]
  rcases env.run cb u n with ⟨_ | _, _, _⟩ <;> rfl

end CallM

theorem checkState_exec (env : CommitEnv) (typeName : String) (ifInState : Option ℕ)
    (c : CallState) (u : Update) (n : ℕ) :
    (CallM.checkState typeName ifInState).exec env c u n =
      ((if ifInState.any (· ≠ (env.schedule n).typeState typeName) then .error .stateMismatch
        else .ok ((env.schedule n).typeState typeName), c), u, n + 1) := by
  change (if ifInState.any (· ≠ (env.schedule n).typeState typeName) then _ else _ :
    CallM ℕ).exec env c u (n + 1) = _
  split <;> rfl

/-! ## Creates prepared outside the lease -/

theorem commitPrepared_exec (env : CommitEnv) (p : Prepared) (c : CallState) (u : Update) (n : ℕ)
    {commit : CommitCreate} (hp : p.commit = .ok commit) :
    (commitPrepared p).exec env c u n =
      match env.run commit u n with
      | (.error e, u', n') => ((.error (.failed e), c), u', n')
      | (.ok (.error serr), u', n') => ((.ok (), c.rejectCreate p.cid serr), u', n')
      | (.ok (.ok (id, echo)), u', n') =>
        ((.ok (), (c.publish p.cid id).echoCreated p.cid echo p.fromId), u', n') := by
  unfold commitPrepared
  rw [hp]
  rw [CallM.exec_ofCallback_bind]
  rcases env.run commit u n with ⟨_ | _ | ⟨_, _⟩, _, _⟩ <;> rfl

/-! ## References that do not resolve -/

section References

variable (j : Json) (ids : CreatedIds)

/-- A property of the object that refers to a creation id the map does not have. -/
def Unresolved (obj : Object) (entry : String × Property) : Prop :=
  entry.2.kind = .id ∧ ∃ raw, obj[entry.1]? = some raw ∧ resolveIdValue j ids raw = none

theorem resolveIdRef_getElem? (obj : Object) (un : List String) (entry : String × Property)
    {name : String} (h : name = entry.1 → Unresolved j ids obj entry) :
    (resolveIdRef j ids (obj, un) entry).1[name]? = obj[name]? := by
  unfold resolveIdRef
  split
  · rfl
  split
  · rfl
  rename_i raw hraw
  split
  · rfl
  rename_i resolved hres
  rw [Map.getElem?_insert]
  split
  · rename_i heq
    obtain ⟨-, raw', hraw', hnone⟩ := h heq.symm
    rw [hraw] at hraw'
    rw [Option.some.inj hraw', hnone] at hres
    exact nomatch hres
  · rfl

theorem resolveIdRef_snd (obj : Object) (un : List String) (entry : String × Property) :
    (resolveIdRef j ids (obj, un) entry).2 ≠ [] ↔ un ≠ [] ∨ Unresolved j ids obj entry := by
  unfold resolveIdRef Unresolved
  by_cases hkind : entry.2.kind = .id
  · cases hraw : obj[entry.1]? with
    | none => simp
    | some raw =>
      cases hres : resolveIdValue j ids raw <;> simp [hkind, hres]
  · simp [hkind]

/-- The loop of `resolveIdRefs`: it keeps what is stuck, and lists it. -/
theorem foldl_resolveIdRef (l : List (String × Property)) (hnodup : (l.map Prod.fst).Nodup)
    (obj : Object) (un : List String) :
    (∀ name, (∀ entry ∈ l, name = entry.1 → Unresolved j ids obj entry) →
      (l.foldl (resolveIdRef j ids) (obj, un)).1[name]? = obj[name]?) ∧
    ((l.foldl (resolveIdRef j ids) (obj, un)).2 ≠ [] ↔
      un ≠ [] ∨ ∃ entry ∈ l, Unresolved j ids obj entry) := by
  induction l generalizing obj un with
  | nil => simp
  | cons e l ih =>
    rw [List.map_cons, List.nodup_cons] at hnodup
    generalize hr : resolveIdRef j ids (obj, un) e = r
    obtain ⟨obj', un'⟩ := r
    -- the other entries see the object as it was
    have hother : ∀ entry ∈ l, obj'[entry.1]? = obj[entry.1]? := by
      intro entry hentry
      have hne : entry.1 ≠ e.1 := fun heq =>
        hnodup.1 (heq ▸ List.mem_map_of_mem hentry)
      have := resolveIdRef_getElem? j ids obj un e (fun heq => absurd heq hne)
      rwa [hr] at this
    have hiff : ∀ entry ∈ l, (Unresolved j ids obj' entry ↔ Unresolved j ids obj entry) := by
      intro entry hentry
      rw [Unresolved, Unresolved, hother entry hentry]
    obtain ⟨hget, hlist⟩ := ih hnodup.2 obj' un'
    rw [List.foldl_cons, hr]
    constructor
    · intro name hname
      rw [hget name fun entry hentry heq =>
        (hiff entry hentry).mpr (hname entry (List.mem_cons_of_mem e hentry) heq)]
      have := resolveIdRef_getElem? j ids obj un e (hname e List.mem_cons_self)
      rwa [hr] at this
    · have hun : un' ≠ [] ↔ un ≠ [] ∨ Unresolved j ids obj e := by
        rw [← resolveIdRef_snd, hr]
      rw [hlist, hun, or_assoc]
      refine or_congr_right ?_
      rw [List.exists_mem_cons_iff]
      refine or_congr_right ?_
      exact ⟨fun ⟨x, hx, h⟩ => ⟨x, hx, (hiff x hx).mp h⟩,
        fun ⟨x, hx, h⟩ => ⟨x, hx, (hiff x hx).mpr h⟩⟩

theorem resolveIdRefs_twice (t : TypeDesc) (obj : Object)
    (h : (resolveIdRefs j t obj ids).2 ≠ []) :
    (resolveIdRefs j t (resolveIdRefs j t obj ids).1 ids).2 ≠ [] := by
  have hnodup := Map.nodup_toList_keys t.properties
  obtain ⟨entry, hentry, hstuck⟩ : ∃ entry ∈ t.properties.toList, Unresolved j ids obj entry := by
    simpa using (foldl_resolveIdRef j ids _ hnodup obj []).2.mp h
  have hget : (resolveIdRefs j t obj ids).1[entry.1]? = obj[entry.1]? := by
    refine (foldl_resolveIdRef j ids _ hnodup obj []).1 entry.1 fun e he heq => ?_
    rwa [List.inj_on_of_nodup_map hnodup he hentry heq.symm]
  refine (foldl_resolveIdRef j ids _ hnodup _ []).2.mpr (.inr ⟨entry, hentry, ?_⟩)
  rwa [Unresolved, hget]

end References

/-! ## Creates of the standard pipeline -/

section Pending

variable (env : CommitEnv) (st : StdType) (hooks : SetHooks)

theorem run_get_of_create {typeName : String} {obj : Object} {id : JmapId} {u u' : Update}
    {n n' : ℕ} (h : env.run (.create typeName obj .done) u n = (.ok id, u', n')) :
    env.run (.get typeName id .done) u' n' = (.ok (obj.insert "id" (quoteId id)), u', n') := by
  simp only [CommitEnv.run, Callback.runAt, Callback.exec, Update.create] at h
  split at h
  · simp at h
  split at h
  · simp at h
  split at h
  · simp at h
  obtain ⟨rfl, rfl, rfl⟩ := h
  simp [CommitEnv.run, Callback.runAt, Callback.exec, Update.get, Update.stage]

variable (cid : JmapId) (p : Pending) (obj : Object) (rest : List (JmapId × Pending))
  (c : CallState) (u : Update) (n : ℕ)

theorem landCreate_exec :
    (landCreate st cid p obj).exec env c u n =
      match env.run (.create st.desc.name obj .done) u n with
      | (.error e, u', n') => ((.error (.failed e), c), u', n')
      | (.ok id, u', n') =>
        ((.ok (), (c.publish cid id).echoCreated cid
          ((obj.insert "id" (quoteId id)).filter fun name _ => name ∉ p.sent) p.fromId),
          u', n') := by
  unfold landCreate
  rw [CallM.exec_ofCallback_bind]
  cases hrun : env.run (.create st.desc.name obj .done) u n with
  | mk r rest =>
    cases r with
    | error e => rfl
    | ok id =>
      dsimp only
      rw [CallM.exec_bind, CallM.exec_modify]
      dsimp only
      rw [CallM.exec_ofCallback_bind, run_get_of_create env hrun]
      rfl

theorem createStep_exec :
    (createStep env.db.scan st hooks cid p).exec env c u n =
      let r := resolveIdRefs st.json st.desc p.obj c.createdIds
      if r.2 ≠ [] then ((.ok [(cid, { p with obj := r.1 })], c), u, n)
      else
        match env.run (admitCreate env.db.scan st hooks r.1) u n with
        | (.error e, u', n') => ((.error (.failed e), c), u', n')
        | (.ok (.error serr), u', n') => ((.ok [], c.rejectCreate cid serr), u', n')
        | (.ok (.ok obj), u', n') =>
          match (landCreate st cid p obj).exec env c u' n' with
          | ((.ok (), c'), u'', n'') => ((.ok [], c'), u'', n'')
          | ((.error e, c'), u'', n'') => ((.error e, c'), u'', n'') := by
  unfold createStep
  rw [CallM.exec_bind, CallM.exec_createdIds]
  dsimp only
  split
  · rfl
  · rw [CallM.exec_ofCallback_bind]
    rcases env.run _ u n with ⟨e | serr | obj, u', n'⟩
    · rfl
    · rfl
    · dsimp only
      rw [CallM.exec_bind]
      rcases (landCreate st cid p obj).exec env c u' n' with ⟨⟨_ | _, _⟩, _, _⟩ <;> rfl

theorem createPass_cons_exec :
    (createPass env.db.scan st hooks ((cid, p) :: rest)).exec env c u n =
      match (createStep env.db.scan st hooks cid p).exec env c u n with
      | ((.error e, c'), u', n') => ((.error e, c'), u', n')
      | ((.ok waiting, c'), u', n') =>
        let r := (createPass env.db.scan st hooks rest).exec env c' u' n'
        ((r.1.1.map (waiting ++ ·), r.1.2), r.2) := by
  rw [createPass, CallM.exec_bind]
  rcases (createStep env.db.scan st hooks cid p).exec env c u n with ⟨⟨e | w, c'⟩, u', n'⟩
  · rfl
  · dsimp only
    rw [CallM.exec_bind]
    rcases (createPass env.db.scan st hooks rest).exec env c' u' n' with ⟨⟨_ | _, _⟩, _, _⟩ <;> rfl

end Pending

/-! ## Notes

The notes of the object database as a standard type, over a JSON decoder that knows the
objects it is given; concrete calls below are calls of this type. -/

def plainJson (objects : List (Raw × Object)) : Json where
  string := plainString
  object raw := (objects.find? (·.1 = raw)).map Prod.snd
  quote := quoteId
  encode _ := .error "not encoded"
  equal a b := a = b

def noteStd (objects : List (Raw × Object)) (hooks : SetHooks) : StdType where
  desc := noteType
  hooks := hooks
  json := plainJson objects
  blobExists _ := pure (.ok true)
  maxObjectsInSet := 10

/-- A commit on an account that nobody else writes, which draws the given ids. -/
def noteEnv (s : Store) (ids : List JmapId) : CommitEnv where
  db := noteDB
  acct := "u"
  schedule _ := s
  draw i := ids.getD i "Z"
  now := 0

end NaustJmap.Runtime
