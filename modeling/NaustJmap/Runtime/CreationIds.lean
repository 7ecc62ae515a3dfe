import NaustJmap.Runtime.Calls

/-!
# The Creation Ids a Call Publishes

Each create is published right after it is staged, long before anything is committed.  This file
follows the map through `/set` and `/copy`: what a program leaves alone (`CallM.Keeps`), and exactly
when it leaves the whole map alone (`pendingKeep`, `preparedKeep`).
-/

namespace NaustJmap.Runtime

open Library ObjectDB

/-! ## Programs that leave a part of the call's state alone -/

/-- The program leaves what `f` shows of the call's state as it is. -/
def CallM.Keeps {α γ : Type} (f : CallState → γ) (m : CallM α) : Prop :=
  ∀ (env : CommitEnv) (c : CallState) (u : Update) (n : ℕ), f (m.left env c u n) = f c

variable {α β γ : Type} {waiting result : List (JmapId × Pending)} {n : ℕ} {f : CallState → γ}

namespace CallM.Keeps

protected theorem bind {m : CallM α} {g : α → CallM β} (hm : m.Keeps f)
    (hg : ∀ a, (g a).Keeps f) : (m >>= g).Keeps f := by
  intro env c u n
  have h := hm env c u n
  rw [CallM.left] at h ⊢
  rw [CallM.exec_bind]
  generalize m.exec env c u n = r at h ⊢
  obtain ⟨⟨e | a, c'⟩, u', n'⟩ := r
  · exact h
  · exact (hg a env c' u' n').trans h

protected theorem pure (a : α) : (pure a : CallM α).Keeps f := fun _ _ _ _ => rfl

protected theorem throw (e : CallErr) : (throw e : CallM α).Keeps f := fun _ _ _ _ => rfl

theorem createdIds : CallM.createdIds.Keeps f := fun _ _ _ _ => rfl

theorem ofCallback (cb : Callback (Except Err α)) : (CallM.ofCallback cb).Keeps f := by
  intro env c u n
  rw [CallM.left, CallM.exec_ofCallback]

theorem modify {g : CallState → CallState} (hg : ∀ c, f (g c) = f c) :
    (CallM.modify g).Keeps f := fun _ c _ _ => hg c

end CallM.Keeps

/-- A create under `cid` writes `created`, `notCreated` and its creation id, and not `f`. -/
structure Spares (f : CallState → γ) (cid : JmapId) : Prop where
  reject : ∀ serr c, f (CallState.rejectCreate cid serr c) = f c
  publish : ∀ id c, f (CallState.publish cid id c) = f c
  echo : ∀ echo fromId c, f (CallState.echoCreated cid echo fromId c) = f c

theorem spares_key {cid k : JmapId} (h : k ≠ cid) : Spares (·.createdIds[k]?) cid where
  reject _ _ := rfl
  publish id c := by
    change (c.createdIds.insert cid id)[k]? = _
    rw [Map.getElem?_insert, if_neg (Ne.symm h)]
  echo _ _ _ := rfl

/-! ## Creates prepared outside the lease -/

/-- Some creation id stands for a record it did not stand for before. -/
def Published (before after : CreatedIds) : Prop :=
  ∃ cid id : JmapId, before[cid]? ≠ some id ∧ after[cid]? = some id

theorem Published.ne {before after : CreatedIds} (h : Published before after) : after ≠ before := by
  obtain ⟨cid, id, hb, ha⟩ := h
  exact fun heq => hb (heq ▸ ha)

/-- Whether the program leaves the map as it is: if not, it published something new. -/
structure CallM.Decides {α : Type} (env : CommitEnv) (m : CallM α) (c : CallState) (u : Update)
    (n : ℕ) (keep : Bool) : Prop where
  same : keep = true → (m.left env c u n).createdIds = c.createdIds
  new : keep = false → Published c.createdIds (m.left env c u n).createdIds

namespace CallM.Decides

variable {env : CommitEnv} {m : CallM α} {f : α → CallM β} {c : CallState} {u : Update}

/-- A program that leaves the same map as another one, from the same map, is decided with it. -/
theorem congr {m' : CallM β} {c' : CallState} {u' : Update} {n' : ℕ} {keep : Bool}
    (h : m'.Decides env c' u' n' keep) (hids : c'.createdIds = c.createdIds)
    (hleft : (m.left env c u n).createdIds = (m'.left env c' u' n').createdIds) :
    m.Decides env c u n keep :=
  ⟨fun hk => hleft.trans ((h.same hk).trans hids), fun hk => hleft ▸ hids ▸ h.new hk⟩

theorem bind_right {keep : Bool} (hm : m.Decides env c u n keep)
    (hf : ∀ a, (f a).Keeps CallState.createdIds) : (m >>= f).Decides env c u n keep := by
  refine hm.congr rfl ?_
  rw [CallM.left, CallM.left, CallM.exec_bind]
  rcases m.exec env c u n with ⟨⟨e | a, c'⟩, u', n'⟩
  · rfl
  · exact hf a env c' u' n'

theorem bind_left {keep : Bool} (hm : m.Keeps CallState.createdIds)
    (hok : ∀ a c' u' n', m.exec env c u n = ((.ok a, c'), u', n') →
      (f a).Decides env c' u' n' keep)
    (herr : ∀ e c' u' n', m.exec env c u n = ((.error e, c'), u', n') → keep = true) :
    (m >>= f).Decides env c u n keep := by
  have hids : (m.exec env c u n).1.2.createdIds = c.createdIds := hm env c u n
  have hbind := CallM.exec_bind env m f c u n
  generalize m.exec env c u n = r at hids hok herr hbind
  obtain ⟨⟨e | a, c'⟩, u', n'⟩ := r
  · obtain rfl := herr e c' u' n' rfl
    refine ⟨fun _ => ?_, fun hf => nomatch hf⟩
    rw [CallM.left, hbind]
    exact hids
  · exact (hok a c' u' n' rfl).congr hids (by rw [CallM.left, hbind]; rfl)

end CallM.Decides

/-- No create is committed under an id the map does not already give it. -/
def preparedKeep (env : CommitEnv) (ids : CreatedIds) : List Prepared → Update → ℕ → Bool
  | [], _, _ => true
  | p :: rest, u, n =>
    match p.commit with
    | .error _ => preparedKeep env ids rest u n
    | .ok commit =>
      match env.run commit u n with
      | (.error _, _, _) => true
      | (.ok (.error _), u', n') => preparedKeep env ids rest u' n'
      | (.ok (.ok (id, _)), u', n') =>
        ids[p.cid]? = some id && preparedKeep env ids rest u' n'

theorem commitPreparedCreates_keeps {ps : List Prepared} (hf : ∀ p ∈ ps, Spares f p.cid) :
    (commitPreparedCreates ps).Keeps f := by
  induction ps with
  | nil => exact .pure ()
  | cons p rest ih =>
    obtain ⟨hp, hrest⟩ := List.forall_mem_cons.mp hf
    refine .bind ?_ fun _ => ih hrest
    unfold commitPrepared
    split
    · exact .modify (hp.reject _)
    refine .bind (.ofCallback _) fun verdict => ?_
    split
    · exact .modify (hp.reject _)
    · exact .bind (.modify (hp.publish _)) fun _ => .modify (hp.echo _ _)

theorem commitPreparedCreates_decides (env : CommitEnv) (ps : List Prepared)
    (hnodup : (ps.map (·.cid)).Nodup) (c : CallState) (u : Update) (n : ℕ) :
    (commitPreparedCreates ps).Decides env c u n (preparedKeep env c.createdIds ps u n) := by
  induction ps generalizing c u n with
  | nil => exact ⟨fun _ => rfl, fun h => nomatch h⟩
  | cons p rest ih =>
    rw [List.map_cons, List.nodup_cons] at hnodup
    have hexec : (commitPreparedCreates (p :: rest)).exec env c u n = _ :=
      CallM.exec_bind env (commitPrepared p) (fun _ => commitPreparedCreates rest) c u n
    cases hp : p.commit with
    | error serr =>
      have hstep : (commitPrepared p).exec env c u n =
          ((.ok (), c.rejectCreate p.cid serr), u, n) := by
        unfold commitPrepared
        rw [hp]
        rfl
      rw [hstep] at hexec
      rw [preparedKeep, hp]
      exact (ih hnodup.2 (c.rejectCreate p.cid serr) u n).congr rfl (by rw [CallM.left, hexec]; rfl)
    | ok commit =>
      rw [commitPrepared_exec env p c u n hp] at hexec
      rw [preparedKeep, hp]
      dsimp only
      generalize env.run commit u n = r at hexec ⊢
      obtain ⟨e | serr | ⟨id, echo⟩, u', n'⟩ := r
      · refine ⟨fun _ => ?_, fun h => nomatch h⟩
        rw [CallM.left, hexec]
      · exact (ih hnodup.2 (c.rejectCreate p.cid serr) u' n').congr rfl
          (by rw [CallM.left, hexec]; rfl)
      · dsimp only at hexec ⊢
        by_cases hid : c.createdIds[p.cid]? = some id
        · -- the map already had this binding
          have hsame : ((c.publish p.cid id).echoCreated p.cid echo p.fromId).createdIds =
              c.createdIds := Map.insert_eq_self hid
          have hrest := ih hnodup.2 ((c.publish p.cid id).echoCreated p.cid echo p.fromId) u' n'
          rw [hsame] at hrest
          rw [decide_eq_true hid]
          exact hrest.congr hsame (by rw [CallM.left, hexec]; rfl)
        · rw [decide_eq_false hid]
          refine ⟨fun h => (nomatch h), fun _ => ⟨p.cid, id, hid, ?_⟩⟩
          -- nothing later in the loop writes this key again
          rw [CallM.left, hexec]
          refine (commitPreparedCreates_keeps (fun p' hp' => spares_key fun heq => hnodup.1 ?_) env
            ((c.publish p.cid id).echoCreated p.cid echo p.fromId) u' n').trans ?_
          · exact heq ▸ List.mem_map_of_mem hp'
          exact Std.ExtTreeMap.getElem?_insert_self

/-! ## Creates of the standard pipeline -/

section Pending

variable (env : CommitEnv) (st : StdType) (hooks : SetHooks)

/-- No create is staged under an id the map does not already give it. -/
def pendingKeep (ids : CreatedIds) : List (JmapId × Pending) → Update → ℕ → Bool
  | [], _, _ => true
  | (cid, p) :: rest, u, n =>
    let r := resolveIdRefs st.json st.desc p.obj ids
    if r.2 ≠ [] then pendingKeep ids rest u n
    else
      match env.run (admitCreate env.db.scan st hooks r.1) u n with
      | (.error _, _, _) => true
      | (.ok (.error _), u', n') => pendingKeep ids rest u' n'
      | (.ok (.ok obj), u', n') =>
        match env.run (.create st.desc.name obj .done) u' n' with
        | (.error _, _, _) => true
        | (.ok id, u'', n'') => ids[cid]? = some id && pendingKeep ids rest u'' n''

variable (sc : Scanner) (fuel : ℕ) (cid : JmapId) (p : Pending) (rest l : List (JmapId × Pending))
  (c : CallState) (u : Update) (n : ℕ)

theorem createStep_keeps {cid : JmapId} (hf : Spares f cid) (p : Pending) :
    (createStep sc st hooks cid p).Keeps f := by
  refine .bind .createdIds fun ids => ?_
  dsimp only
  split
  · exact .pure _
  refine .bind (.ofCallback _) fun verdict => ?_
  cases verdict with
  | error serr => exact .bind (.modify (hf.reject _)) fun _ => .pure _
  | ok obj =>
    refine .bind ?_ fun _ => .pure _
    exact .bind (.ofCallback _) fun id => .bind (.modify (hf.publish _)) fun _ =>
      .bind (.ofCallback _) fun stored => .modify (hf.echo _ _)

theorem createStep_returns
    (h : ((createStep env.db.scan st hooks cid p).exec env c u n).1.1 = .ok waiting) :
    waiting = [] ∨ waiting.map Prod.fst = [cid] := by
  rw [createStep_exec] at h
  dsimp only at h
  split at h
  · cases h
    exact .inr rfl
  left
  split at h
  · exact nomatch h
  · exact (Except.ok.inj h).symm
  · split at h
    · exact (Except.ok.inj h).symm
    · exact nomatch h

theorem createPass_keeps {l : List (JmapId × Pending)} (hf : ∀ x ∈ l, Spares f x.1) :
    (createPass sc st hooks l).Keeps f := by
  induction l with
  | nil => exact .pure _
  | cons x rest ih =>
    obtain ⟨hx, hrest⟩ := List.forall_mem_cons.mp hf
    exact .bind (createStep_keeps st hooks sc hx x.2) fun _ => .bind (ih hrest) fun _ => .pure _

theorem createPass_spares {l : List (JmapId × Pending)} {k : JmapId} (hk : k ∉ l.map Prod.fst) :
    (createPass sc st hooks l).Keeps (·.createdIds[k]?) :=
  createPass_keeps st hooks sc fun _ hx => spares_key fun heq => hk (heq ▸ List.mem_map_of_mem hx)

theorem createPass_returns
    (h : ((createPass env.db.scan st hooks l).exec env c u n).1.1 = .ok waiting) :
    (waiting.map Prod.fst).Sublist (l.map Prod.fst) := by
  induction l generalizing c u n waiting with
  | nil =>
    cases h
    exact List.Sublist.refl _
  | cons x rest ih =>
    obtain ⟨cid, p⟩ := x
    obtain ⟨w, c', u', n', hstep, h⟩ := CallM.exec_bind_eq_ok env h
    obtain ⟨w', c'', u'', n'', hpass, h⟩ := CallM.exec_bind_eq_ok env h
    cases h
    have hrest := ih c' u' n' (by rw [hpass])
    rw [List.map_append]
    rcases createStep_returns env st hooks cid p c u n (by rw [hstep]) with rfl | hw
    · exact hrest.cons cid
    · rw [hw]
      exact hrest.cons_cons cid

/-- All creates of the list wait for a reference the map does not have. -/
def AllWait (ids : CreatedIds) (l : List (JmapId × Pending)) : Prop :=
  ∀ x ∈ l, (resolveIdRefs st.json st.desc x.2.obj ids).2 ≠ []

/-- What one pending create can do, with what it means for the rest of the list. -/
inductive CreateOutcome :
    (Except CallErr (List (JmapId × Pending)) × CallState) × Update × ℕ → Prop where
  | waits (hwait : (resolveIdRefs st.json st.desc p.obj c.createdIds).2 ≠ [])
      (hkeep : pendingKeep env st hooks c.createdIds ((cid, p) :: rest) u n =
        pendingKeep env st hooks c.createdIds rest u n) :
      CreateOutcome
        ((.ok [(cid, { p with obj := (resolveIdRefs st.json st.desc p.obj c.createdIds).1 })], c),
          u, n)
  | fails (e : CallErr) (u' : Update) (n' : ℕ)
      (hkeep : pendingKeep env st hooks c.createdIds ((cid, p) :: rest) u n = true) :
      CreateOutcome ((.error e, c), u', n')
  | rejected (serr : SetError) (u' : Update) (n' : ℕ)
      (hkeep : pendingKeep env st hooks c.createdIds ((cid, p) :: rest) u n =
        pendingKeep env st hooks c.createdIds rest u' n') :
      CreateOutcome ((.ok [], c.rejectCreate cid serr), u', n')
  | lands (id : JmapId) (echo : Object) (u' : Update) (n' : ℕ)
      (hkeep : pendingKeep env st hooks c.createdIds ((cid, p) :: rest) u n =
        (decide (c.createdIds[cid]? = some id) &&
          pendingKeep env st hooks c.createdIds rest u' n')) :
      CreateOutcome ((.ok [], (c.publish cid id).echoCreated cid echo p.fromId), u', n')

theorem createStep_outcome :
    CreateOutcome env st hooks cid p rest c u n
      ((createStep env.db.scan st hooks cid p).exec env c u n) := by
  rw [createStep_exec]
  by_cases hwait : (resolveIdRefs st.json st.desc p.obj c.createdIds).2 ≠ []
  · rw [if_pos hwait]
    exact .waits hwait (by rw [pendingKeep, if_pos hwait])
  rw [if_neg hwait]
  cases hrun : env.run (admitCreate env.db.scan st hooks
      (resolveIdRefs st.json st.desc p.obj c.createdIds).1) u n with
  | mk verdict r =>
    obtain ⟨u', n'⟩ := r
    rcases verdict with e | serr | obj
    · exact .fails _ _ _ (by rw [pendingKeep, if_neg hwait, hrun])
    · exact .rejected _ _ _ (by rw [pendingKeep, if_neg hwait, hrun])
    · dsimp only
      rw [landCreate_exec]
      cases hcreate : env.run (.create st.desc.name obj .done) u' n' with
      | mk made r' =>
        rcases made with e | id
        · refine .fails _ _ _ ?_
          rw [pendingKeep, if_neg hwait, hrun]
          dsimp only
          rw [hcreate]
        · refine .lands _ _ _ _ ?_
          rw [pendingKeep, if_neg hwait, hrun]
          dsimp only
          rw [hcreate]

theorem createPass_keep (h : pendingKeep env st hooks c.createdIds l u n = true) :
    ((createPass env.db.scan st hooks l).left env c u n).createdIds = c.createdIds ∧
      ∀ waiting, ((createPass env.db.scan st hooks l).exec env c u n).1.1 = .ok waiting →
        AllWait st c.createdIds waiting := by
  induction l generalizing c u n with
  | nil =>
    refine ⟨rfl, fun waiting hw => ?_⟩
    cases hw
    exact fun x hx => absurd hx List.not_mem_nil
  | cons x rest ih =>
    obtain ⟨cid, p⟩ := x
    rw [CallM.left, createPass_cons_exec]
    have hout := createStep_outcome env st hooks cid p rest c u n
    generalize (createStep env.db.scan st hooks cid p).exec env c u n = r at hout
    cases hout with
    | waits hwait hkeep =>
      rw [hkeep] at h
      obtain ⟨hids, hall⟩ := ih c u n h
      refine ⟨hids, fun waiting hw => ?_⟩
      obtain ⟨w, hpass, rfl⟩ := Except.map_eq_ok hw
      intro x hx
      rcases List.mem_append.mp hx with hx | hx
      · obtain rfl := List.mem_singleton.mp hx
        exact resolveIdRefs_twice st.json c.createdIds st.desc p.obj hwait
      · exact hall w hpass x hx
    | fails e u' n' hkeep => exact ⟨rfl, fun waiting hw => nomatch hw⟩
    | rejected serr u' n' hkeep =>
      rw [hkeep] at h
      obtain ⟨hids, hall⟩ := ih (c.rejectCreate cid serr) u' n' h
      refine ⟨hids, fun waiting hw => ?_⟩
      obtain ⟨w, hpass, rfl⟩ := Except.map_eq_ok hw
      exact hall w hpass
    | lands id echo u' n' hkeep =>
      rw [hkeep, Bool.and_eq_true, decide_eq_true_eq] at h
      have hsame : ((c.publish cid id).echoCreated cid echo p.fromId).createdIds = c.createdIds :=
        Map.insert_eq_self h.1
      obtain ⟨hids, hall⟩ := ih ((c.publish cid id).echoCreated cid echo p.fromId) u' n'
        (hsame ▸ h.2)
      refine ⟨hids.trans hsame, fun waiting hw => ?_⟩
      obtain ⟨w, hpass, rfl⟩ := Except.map_eq_ok hw
      exact hsame ▸ hall w hpass

/-- A new binding is there, and its create no longer waits. -/
theorem createPass_publish (hnodup : (l.map Prod.fst).Nodup)
    (h : pendingKeep env st hooks c.createdIds l u n = false) :
    ∃ cid ∈ l.map Prod.fst, ∃ id : JmapId, c.createdIds[cid]? ≠ some id ∧
      ((createPass env.db.scan st hooks l).left env c u n).createdIds[cid]? = some id ∧
      ∀ waiting, ((createPass env.db.scan st hooks l).exec env c u n).1.1 = .ok waiting →
        cid ∉ waiting.map Prod.fst := by
  induction l generalizing c u n with
  | nil => exact nomatch h
  | cons x rest ih =>
    obtain ⟨cid, p⟩ := x
    rw [List.map_cons, List.nodup_cons] at hnodup
    rw [CallM.left, createPass_cons_exec]
    have hout := createStep_outcome env st hooks cid p rest c u n
    generalize (createStep env.db.scan st hooks cid p).exec env c u n = r at hout
    cases hout with
    | waits hwait hkeep =>
      rw [hkeep] at h
      obtain ⟨k, hk, id, hold, hnew, hgone⟩ := ih c u n hnodup.2 h
      refine ⟨k, List.mem_cons_of_mem _ hk, id, hold, hnew, fun waiting hw => ?_⟩
      obtain ⟨w, hpass, rfl⟩ := Except.map_eq_ok hw
      rw [List.map_append, List.mem_append, not_or]
      refine ⟨fun hmem => ?_, hgone w hpass⟩
      obtain rfl := List.mem_singleton.mp hmem
      exact hnodup.1 hk
    | fails e u' n' hkeep => exact absurd (hkeep.symm.trans h) (by simp)
    | rejected serr u' n' hkeep =>
      rw [hkeep] at h
      obtain ⟨k, hk, id, hold, hnew, hgone⟩ := ih (c.rejectCreate cid serr) u' n' hnodup.2 h
      refine ⟨k, List.mem_cons_of_mem _ hk, id, hold, hnew, fun waiting hw => ?_⟩
      obtain ⟨w, hpass, rfl⟩ := Except.map_eq_ok hw
      exact hgone w hpass
    | lands id echo u' n' hkeep =>
      by_cases hid : c.createdIds[cid]? = some id
      · have hsame : ((c.publish cid id).echoCreated cid echo p.fromId).createdIds =
            c.createdIds := Map.insert_eq_self hid
        rw [hkeep, decide_eq_true hid] at h
        obtain ⟨k, hk, id', hold, hnew, hgone⟩ :=
          ih ((c.publish cid id).echoCreated cid echo p.fromId) u' n' hnodup.2 (hsame ▸ h)
        refine ⟨k, List.mem_cons_of_mem _ hk, id', hsame ▸ hold, hnew, fun waiting hw => ?_⟩
        obtain ⟨w, hpass, rfl⟩ := Except.map_eq_ok hw
        exact hgone w hpass
      · -- nothing later in the pass writes this key, and this create is not among those left
        refine ⟨cid, List.mem_cons_self, id, hid, ?_, fun waiting hw => ?_⟩
        · refine (createPass_spares st hooks env.db.scan hnodup.1 env
            ((c.publish cid id).echoCreated cid echo p.fromId) u' n').trans ?_
          exact Std.ExtTreeMap.getElem?_insert_self
        · obtain ⟨w, hpass, rfl⟩ := Except.map_eq_ok hw
          exact fun hmem => hnodup.1
            ((createPass_returns env st hooks rest _ u' n' hpass).subset hmem)

theorem rejectUnresolved_keeps (hf : ∀ cid serr c, f (CallState.rejectCreate cid serr c) = f c)
    (l : List (JmapId × Pending)) : (rejectUnresolved st l).Keeps f := by
  induction l with
  | nil => exact .pure ()
  | cons x rest ih => exact .bind .createdIds fun _ => .bind (.modify (hf _ _)) fun _ => ih

theorem createRounds_spares {k : JmapId} (hk : k ∉ l.map Prod.fst) :
    ((createRounds env.db.scan st hooks fuel l).left env c u n).createdIds[k]? =
      c.createdIds[k]? := by
  induction fuel generalizing l c u n with
  | zero => rfl
  | succ fuel ih =>
    rw [createRounds]
    split
    · rfl
    have hpass := createPass_spares st hooks env.db.scan hk env c u n
    have hreturns : ∀ w, ((createPass env.db.scan st hooks l).exec env c u n).1.1 = .ok w →
        (w.map Prod.fst).Sublist (l.map Prod.fst) :=
      fun w => createPass_returns env st hooks l c u n
    rw [CallM.left] at hpass ⊢
    rw [CallM.exec_bind]
    generalize (createPass env.db.scan st hooks l).exec env c u n = r at hpass hreturns
    obtain ⟨⟨e | w, c'⟩, u', n'⟩ := r
    · exact hpass
    dsimp only
    split
    · exact (rejectUnresolved_keeps (f := (·.createdIds[k]?)) st (fun _ _ _ => rfl)
        w env c' u' n').trans hpass
    · exact (ih w c' u' n' fun hmem => hk ((hreturns w rfl).subset hmem)).trans hpass

theorem createPass_allWait (h : AllWait st c.createdIds l) :
    ∃ w, (createPass env.db.scan st hooks l).exec env c u n = ((.ok w, c), u, n) ∧
      w.length = l.length := by
  induction l with
  | nil => exact ⟨[], rfl, rfl⟩
  | cons x rest ih =>
    obtain ⟨cid, p⟩ := x
    obtain ⟨w, hw, hlen⟩ := ih fun x hx => h x (List.mem_cons_of_mem _ hx)
    have hwait := h (cid, p) List.mem_cons_self
    rw [createPass_cons_exec, createStep_exec]
    rw [if_pos hwait]
    dsimp only
    rw [hw]
    exact ⟨_, rfl, by simp [hlen]⟩

theorem createRounds_allWait (h : AllWait st c.createdIds l) :
    ((createRounds env.db.scan st hooks fuel l).left env c u n).createdIds = c.createdIds := by
  cases fuel with
  | zero => rfl
  | succ fuel =>
    obtain ⟨w, hw, hlen⟩ := createPass_allWait env st hooks l c u n h
    rw [createRounds]
    split
    · rfl
    · rw [CallM.left, CallM.exec_bind, hw]
      dsimp only
      rw [if_pos hlen]
      exact rejectUnresolved_keeps st (fun _ _ _ => rfl) w env c u n

/-- **The passes** leave the map as it is exactly if the first one does. -/
theorem createRounds_decides (hnodup : (l.map Prod.fst).Nodup) :
    (createRounds env.db.scan st hooks (fuel + 1) l).Decides env c u n
      (pendingKeep env st hooks c.createdIds l u n) := by
  rw [createRounds]
  split
  · rename_i hnil
    subst hnil
    exact ⟨fun _ => rfl, fun h => nomatch h⟩
  constructor
  · intro hkeep
    obtain ⟨hids, hall⟩ := createPass_keep env st hooks l c u n hkeep
    rw [CallM.left] at hids ⊢
    rw [CallM.exec_bind]
    generalize (createPass env.db.scan st hooks l).exec env c u n = r at hids hall
    obtain ⟨⟨e | w, c'⟩, u', n'⟩ := r
    · exact hids
    dsimp only at hids ⊢
    split
    · exact (rejectUnresolved_keeps st (fun _ _ _ => rfl) w env c' u' n').trans hids
    · exact (createRounds_allWait env st hooks fuel w c' u' n' (hids ▸ hall w rfl)).trans hids
  · intro hkeep
    obtain ⟨cid, -, id, hold, hnew, hgone⟩ := createPass_publish env st hooks l c u n hnodup hkeep
    refine ⟨cid, id, hold, ?_⟩
    rw [CallM.left] at hnew ⊢
    rw [CallM.exec_bind]
    generalize (createPass env.db.scan st hooks l).exec env c u n = r at hnew hgone
    obtain ⟨⟨e | w, c'⟩, u', n'⟩ := r
    · exact hnew
    dsimp only
    split
    · exact (rejectUnresolved_keeps (f := (·.createdIds[cid]?)) st (fun _ _ _ => rfl)
        w env c' u' n').trans hnew
    · exact (createRounds_spares env st hooks fuel w c' u' n' (hgone w rfl)).trans hnew

end Pending

/-! ## Whole callbacks -/

/-- The verdict of what follows a program that does not write the map. -/
def CallM.keepAfter {α : Type} (env : CommitEnv) (m : CallM α) (keep : α → Update → ℕ → Bool)
    (c : CallState) (u : Update) (n : ℕ) : Bool :=
  match m.exec env c u n with
  | ((.ok a, _), u', n') => keep a u' n'
  | ((.error _, _), _, _) => true

theorem CallM.Decides.bind {env : CommitEnv} {m : CallM α} {f : α → CallM β} {c : CallState}
    {u : Update} {keep : α → Update → ℕ → Bool} (hm : m.Keeps CallState.createdIds)
    (hok : ∀ a c' u' n', m.exec env c u n = ((.ok a, c'), u', n') →
      (f a).Decides env c' u' n' (keep a u' n')) :
    (m >>= f).Decides env c u n (m.keepAfter env keep c u n) := by
  refine .bind_left hm (fun a c' u' n' hexec => ?_) fun e c' u' n' hexec => ?_
  · rw [CallM.keepAfter, hexec]
    exact hok a c' u' n' hexec
  · rw [CallM.keepAfter, hexec]

theorem checkState_keeps (typeName : String) (ifInState : Option ℕ) :
    (CallM.checkState typeName ifInState).Keeps f := by
  refine .bind (.ofCallback _) fun state => ?_
  split
  · exact .bind (.throw _) fun _ => .pure _
  · exact .pure _

section Set

variable (sc : Scanner) (st : StdType)

theorem prepareCreates_keeps (hf : ∀ cid serr c, f (CallState.rejectCreate cid serr c) = f c)
    (l : List (JmapId × Raw)) (pending : List (JmapId × Pending)) :
    (prepareCreates st l pending).Keeps f := by
  induction l generalizing pending with
  | nil => exact .pure _
  | cons x rest ih =>
    rw [prepareCreates]
    split
    · exact .bind (.modify (hf _ _)) fun _ => ih _
    split
    · exact .bind (.modify (hf _ _)) fun _ => ih _
    split
    · exact .throw _
    · exact ih _

variable (env : CommitEnv) (l : List (JmapId × Raw)) (pending : List (JmapId × Pending))
  (create : Map JmapId Raw) (a : SetArgs) (prepared : List Prepared) (c : CallState) (u : Update)
  (n : ℕ)

theorem prepareCreates_returns
    (h : ((prepareCreates st l pending).exec env c u n).1.1 = .ok result) :
    (result.map Prod.fst).Sublist (pending.map Prod.fst ++ l.map Prod.fst) := by
  induction l generalizing pending c u n with
  | nil =>
    cases h
    simp
  | cons x rest ih =>
    obtain ⟨cid, raw⟩ := x
    have hskip : ∀ {c' u' n'},
        ((prepareCreates st rest pending).exec env c' u' n').1.1 = .ok result →
        (result.map Prod.fst).Sublist (pending.map Prod.fst ++ cid :: rest.map Prod.fst) :=
      fun h => (ih _ _ _ _ h).trans ((List.sublist_cons_self _ _).append_left _)
    unfold prepareCreates at h
    split at h
    · exact hskip h
    split at h
    · exact hskip h
    split at h
    · exact nomatch h
    · simpa using ih _ _ _ _ h

section Updates

variable (hno : ∀ uid serr c, f (CallState.rejectUpdate uid serr c) = f c)
  (hyes : ∀ (id : JmapId) (side : Option Object) c,
    f { c with updated := c.updated.insert id side } = f c)

include hno hyes

theorem processUpdate_keeps (uid : JmapId) (raw : Raw) :
    (processUpdate sc st uid raw).Keeps f := by
  refine .bind .createdIds fun ids => ?_
  split
  · exact .modify fun c => hno _ _ c
  refine .bind (.ofCallback _) fun current => ?_
  split
  · exact .modify fun c => hno _ _ c
  refine .bind (.ofCallback _) fun verdict => ?_
  cases verdict with
  | error serr => exact .modify fun c => hno _ _ c
  | ok r => exact .bind (.ofCallback _) fun _ => .modify fun c => hyes _ _ c

theorem processUpdates_keeps (l : List (JmapId × Raw)) : (processUpdates sc st l).Keeps f := by
  induction l with
  | nil => exact .pure ()
  | cons x rest ih => exact .bind (processUpdate_keeps sc st hno hyes x.1 x.2) fun _ => ih

end Updates

section Destroys

variable (hno : ∀ did serr c, f (CallState.rejectDestroy did serr c) = f c)
  (hyes : ∀ (id : JmapId) c, f { c with destroyed := c.destroyed ++ [id] } = f c)

include hno hyes

theorem processDestroy_keeps (did : JmapId) : (processDestroy st did).Keeps f := by
  refine .bind .createdIds fun ids => ?_
  split
  · exact .modify fun c => hno _ _ c
  refine .bind ?_ fun serr => ?_
  · unfold destroyHook
    split
    · exact .pure _
    refine .bind (.ofCallback _) fun old => ?_
    split
    · exact .pure _
    · exact .ofCallback _
  split
  · exact .modify fun c => hno _ _ c
  refine .bind (.ofCallback _) fun gone => ?_
  split
  · exact .modify fun c => hyes _ c
  · exact .modify fun c => hno _ _ c

theorem processDestroys_keeps (l : List JmapId) : (processDestroys st l).Keeps f := by
  induction l with
  | nil => exact .pure ()
  | cons did rest ih => exact .bind (processDestroy_keeps st hno hyes did) fun _ => ih

end Destroys

/-- What comes out of the preparation goes through the passes. -/
theorem CallM.Decides.rounds {env : CommitEnv} {hooks : SetHooks}
    {prepare : CallM (List (JmapId × Pending))} {c : CallState} {u : Update} {n : ℕ}
    (hm : prepare.Keeps CallState.createdIds) {create : Map JmapId Raw}
    (hreturns : ∀ pending, (prepare.exec env c u n).1.1 = .ok pending →
      (pending.map Prod.fst).Sublist (create.toList.map Prod.fst)) :
    (prepare >>= fun pending =>
      createRounds env.db.scan st hooks (pending.length + 1) pending).Decides env c u n
        (prepare.keepAfter env (pendingKeep env st hooks c.createdIds) c u n) := by
  refine .bind hm fun pending c' u' n' hexec => ?_
  have hids := hm env c u n
  rw [CallM.left, hexec] at hids
  rw [← hids]
  exact createRounds_decides env st hooks pending.length pending c' u' n'
    ((hreturns pending (by rw [hexec])).nodup (Map.nodup_toList_keys create))

def createsKeep : Bool :=
  (prepareCreates st create.toList []).keepAfter env
    (pendingKeep env st st.hooks c.createdIds) c u n

theorem processCreates_decides :
    (processCreates env.db.scan st create).Decides env c u n
      (createsKeep st env create c u n) :=
  .rounds st (prepareCreates_keeps st (fun _ _ _ => rfl) _ _) fun _ =>
    prepareCreates_returns st env _ [] c u n

/-- The creates of a `/set`, of either kind. -/
def stageKeep : Bool :=
  match st.hooks.prepareCreate with
  | some _ => preparedKeep env c.createdIds prepared u n
  | none => createsKeep st env create c u n

theorem stageCreates_decides (hnodup : (prepared.map (·.cid)).Nodup) :
    (stageCreates env.db.scan st create prepared).Decides env c u n
      (stageKeep st env create prepared c u n) := by
  unfold stageCreates stageKeep
  cases st.hooks.prepareCreate with
  | some prepare => exact commitPreparedCreates_decides env prepared hnodup c u n
  | none => exact processCreates_decides st env create c u n

theorem setCallback_decides (hnodup : (prepared.map (·.cid)).Nodup) :
    (setCallback env.db.scan st a prepared).Decides env c u n
      ((CallM.checkState st.desc.name a.ifInState).keepAfter env
        (fun _ => stageKeep st env a.create prepared c) c u n) := by
  refine .bind (checkState_keeps _ _) fun state c' u' n' hexec => ?_
  rw [checkState_exec] at hexec
  obtain rfl : c = c' := congrArg (·.1.2) hexec
  refine .bind_right (stageCreates_decides st env a.create prepared c u' n' hnodup) fun _ => ?_
  exact .bind (processUpdates_keeps _ st (fun _ _ _ => rfl) (fun _ _ _ => rfl) _) fun _ =>
    processDestroys_keeps st (fun _ _ _ => rfl) (fun _ _ => rfl) _

end Set

section Copy

variable (st : StdType) (source : CopySource)

theorem prepareCopies_keeps (l : List (JmapId × Raw)) (pending : List (JmapId × Pending)) :
    (prepareCopies st source l pending).Keeps CallState.createdIds := by
  induction l generalizing pending with
  | nil => exact .pure _
  | cons x rest ih =>
    unfold prepareCopies
    split
    · exact .bind (.modify fun _ => rfl) fun _ => ih pending
    refine .bind .createdIds fun ids => ?_
    split
    · exact .bind (.modify fun _ => rfl) fun _ => ih pending
    dsimp only
    split
    · exact .bind (.modify fun _ => rfl) fun _ => ih pending
    split
    · exact .bind (.modify fun _ => rfl) fun _ => ih pending
    · exact .throw _
    · exact ih _

variable (env : CommitEnv) (l : List (JmapId × Raw)) (pending : List (JmapId × Pending))
  (create : Map JmapId Raw) (a : CopyArgs) (c : CallState) (u : Update) (n : ℕ)

theorem prepareCopies_returns
    (h : ((prepareCopies st source l pending).exec env c u n).1.1 = .ok result) :
    (result.map Prod.fst).Sublist (pending.map Prod.fst ++ l.map Prod.fst) := by
  induction l generalizing pending c u n with
  | nil =>
    cases h
    simp
  | cons x rest ih =>
    obtain ⟨cid, raw⟩ := x
    have hskip : ∀ {c' u' n'},
        ((prepareCopies st source rest pending).exec env c' u' n').1.1 = .ok result →
        (result.map Prod.fst).Sublist (pending.map Prod.fst ++ cid :: rest.map Prod.fst) :=
      fun h => (ih _ _ _ _ h).trans ((List.sublist_cons_self _ _).append_left _)
    unfold prepareCopies at h
    split at h
    · exact hskip h
    obtain ⟨ids, _, _, _, -, h⟩ := CallM.exec_bind_eq_ok env h
    split at h
    · exact hskip h
    dsimp only at h
    split at h
    · exact hskip h
    split at h
    · exact hskip h
    · exact nomatch h
    · simpa using ih _ _ _ _ h

def copiesKeep : Bool :=
  (prepareCopies st source create.toList []).keepAfter env
    (pendingKeep env st {} c.createdIds) c u n

theorem processCopies_decides :
    (processCopies env.db.scan st source create).Decides env c u n
      (copiesKeep st source env create c u n) :=
  .rounds st (prepareCopies_keeps st source _ _) fun _ =>
    prepareCopies_returns st source env _ [] c u n

/-- The creates of a `/copy` behind its two state checks. -/
def copyKeep : Bool :=
  a.ifFromInState.any (· ≠ source.state) ||
    (CallM.checkState st.desc.name a.ifInState).keepAfter env
      (fun _ => copiesKeep st source env a.create c) c u n

theorem copyCallback_decides :
    (copyCallback env.db.scan st source a).Decides env c u n (copyKeep st source env a c u n) := by
  unfold copyCallback copyKeep
  by_cases hfrom : a.ifFromInState.any (· ≠ source.state) = true
  · rw [hfrom]
    exact ⟨fun _ => rfl, fun h => nomatch h⟩
  · rw [Bool.eq_false_iff.mpr hfrom]
    refine .bind (checkState_keeps _ _) fun state c' u' n' hexec => ?_
    rw [checkState_exec] at hexec
    obtain rfl : c = c' := congrArg (·.1.2) hexec
    exact processCopies_decides st source env a.create c u' n'

end Copy

/-! ## Whole calls -/

/-- The verdict on a callback inside `DB.Update`: without a lease it does not run. -/
def updateKeep (env : CommitEnv) (keep : Update → ℕ → Bool) (n : ℕ) : Bool :=
  match env.acquired with
  | .error _ => true
  | .ok () => keep { sequence := (env.schedule n).seq + 1 } (n + 1)

theorem update_createdIds (env : CommitEnv) (typeName : String) (m : CallM Unit) (c : CallState)
    (n : ℕ) {keep : Update → ℕ → Bool} (hm : ∀ u n, m.Decides env c u n (keep u n)) :
    (m.update env typeName c n).2.createdIds = c.createdIds ↔ updateKeep env keep n = true := by
  unfold CallM.update updateKeep
  cases env.acquired with
  | error e => simp
  | ok _ =>
    have hdec := hm { sequence := (env.schedule n).seq + 1 } (n + 1)
    have hiff : (m.left env c { sequence := (env.schedule n).seq + 1 } (n + 1)).createdIds =
        c.createdIds ↔ keep { sequence := (env.schedule n).seq + 1 } (n + 1) = true := by
      refine ⟨fun hsame => ?_, hdec.same⟩
      by_contra hkeep
      exact (hdec.new (Bool.eq_false_iff.mpr hkeep)).ne hsame
    rw [← hiff, CallM.left]
    rcases m.exec env c { sequence := (env.schedule n).seq + 1 } (n + 1) with
      ⟨⟨e | _, c'⟩, u, n'⟩ <;> rfl

theorem prepareAll_cids (prepare : PrepareCreate) (ids : CreatedIds) (σ : ℕ → Store)
    (l : List (JmapId × Raw)) {n' : ℕ} {ps : List Prepared}
    (h : (prepareAll prepare ids l).runAt σ n = (.ok ps, n')) :
    ps.map (·.cid) = l.map Prod.fst := by
  induction l generalizing n n' ps with
  | nil =>
    obtain rfl : [] = ps := Except.ok.inj (congrArg Prod.fst h)
    rfl
  | cons x rest ih =>
    rw [prepareAll, ReadM.runAt_bind_eq_ok] at h
    obtain ⟨commit, k, -, h⟩ := h
    rw [ReadM.runAt_bind_eq_ok] at h
    obtain ⟨others, k', hrest, h⟩ := h
    obtain rfl : _ = ps := Except.ok.inj (congrArg Prod.fst h)
    rw [List.map_cons, List.map_cons, ih hrest]

/-- When a `/set` leaves the creation ids of the request alone. -/
def setKeeps (env : CommitEnv) (st : StdType) (a : SetArgs) (ids : CreatedIds) : Bool :=
  if st.maxObjectsInSet < a.create.size + a.update.size + a.destroy.length then true
  else
    match (prepareSet st a ids).runAt env.schedule 0 with
    | (.error _, _) => true
    | (.ok prepared, n) =>
      updateKeep env
        ((CallM.checkState st.desc.name a.ifInState).keepAfter env
          (fun _ => stageKeep st env a.create prepared { createdIds := ids })
          { createdIds := ids }) n

theorem fooSet_createdIds (env : CommitEnv) (st : StdType) (a : SetArgs) (ids : CreatedIds) :
    (fooSet env st a ids).2 = ids ↔ setKeeps env st a ids = true := by
  unfold fooSet setKeeps
  split
  · simp
  cases hprep : (prepareSet st a ids).runAt env.schedule 0 with
  | mk r n =>
    cases r with
    | error e => simp
    | ok prepared =>
      have hnodup : (prepared.map (·.cid)).Nodup := by
        unfold prepareSet at hprep
        split at hprep
        · rw [prepareAll_cids _ _ _ _ hprep]
          exact Map.nodup_toList_keys a.create
        · obtain rfl : [] = prepared := Except.ok.inj (congrArg Prod.fst hprep)
          exact List.nodup_nil
      exact update_createdIds env st.desc.name _ { createdIds := ids } n fun u n' =>
        setCallback_decides st env a prepared { createdIds := ids } u n' hnodup

/-- When a `/copy` leaves the creation ids of the request alone. -/
def copyKeeps (env : CommitEnv) (st : StdType) (source : CopySource) (a : CopyArgs)
    (ids : CreatedIds) : Bool :=
  if st.maxObjectsInSet < a.create.size then true
  else updateKeep env (copyKeep st source env a { createdIds := ids }) 0

theorem fooCopy_createdIds (env : CommitEnv) (st : StdType) (source : CopySource) (a : CopyArgs)
    (ids : CreatedIds) :
    (fooCopy env st source a ids).2 = ids ↔ copyKeeps env st source a ids = true := by
  unfold fooCopy copyKeeps
  split
  · simp
  · exact update_createdIds env st.desc.name _ { createdIds := ids } 0 fun u n =>
      copyCallback_decides st source env a { createdIds := ids } u n

end NaustJmap.Runtime
