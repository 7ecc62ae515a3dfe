import NaustJmap.Runtime.CreationIds

/-!
# The Create Loop as a Run

The loops of `processCreates` and `processCopies` go over the pending creates again and again.  Here
such a loop is a run of moves, one for each turn of a pending create, and what holds after a call is
an invariant of the moves.
-/

namespace NaustJmap.Runtime

open Library ObjectDB

/-- What is pending, what the call has built, its update and the index of the next read. -/
structure Rounds where
  pending : List (JmapId × Pending)
  call : CallState
  update : Update
  index : ℕ

variable {β : Type} {c c' : CallState} {u u' : Update} {n n' : ℕ} {w : List (JmapId × Pending)}
  {cid : JmapId} {env : CommitEnv} {resp : SetResponse}

section Moves

variable (env : CommitEnv) (st : StdType) (hooks : SetHooks)

/-- The references of a pending create, resolved with the creation ids as they stand. -/
def Rounds.resolve (s : Rounds) (p : Pending) : Object × List String :=
  resolveIdRefs st.json st.desc p.obj s.call.createdIds

/-- In its turn the create passes its checks, which leave `obj`, and is staged under `id`. -/
structure Lands (s : Rounds) (p : Pending) (obj : Object) (id : JmapId) (u : Update) (n : ℕ) :
    Prop where
  resolved : (s.resolve st p).2 = []
  staged : ∃ u' n', env.run (admitCreate env.db.scan st hooks (s.resolve st p).1)
      s.update s.index = (.ok (.ok obj), u', n') ∧
    env.run (.create st.desc.name obj .done) u' n' = (.ok id, u, n)

inductive CreateMove (s : Rounds) : Rounds → Prop where
  /-- It waits; what could be resolved of it is. -/
  | wait {l r : List (JmapId × Pending)} {cid : JmapId} {p : Pending}
      (hs : s.pending = l ++ (cid, p) :: r) (hwait : (s.resolve st p).2 ≠ []) :
      CreateMove s { s with pending := l ++ (cid, { p with obj := (s.resolve st p).1 }) :: r }
  | reject {l r : List (JmapId × Pending)} {cid : JmapId} {p : Pending} {serr : SetError}
      {u : Update} {n : ℕ} (hs : s.pending = l ++ (cid, p) :: r)
      (hres : (s.resolve st p).2 = [])
      (haccept : env.run (admitCreate env.db.scan st hooks (s.resolve st p).1) s.update s.index =
        (.ok (.error serr), u, n)) :
      CreateMove s ⟨l ++ r, s.call.rejectCreate cid serr, u, n⟩
  | land {l r : List (JmapId × Pending)} {cid : JmapId} {p : Pending} {obj : Object}
      {id : JmapId} {u : Update} {n : ℕ} (hs : s.pending = l ++ (cid, p) :: r)
      (hland : Lands env st hooks s p obj id u n) :
      CreateMove s ⟨l ++ r, (s.call.publish cid id).echoCreated cid
        ((obj.insert "id" (quoteId id)).filter fun name _ => name ∉ p.sent) p.fromId, u, n⟩

abbrev CreateRun : Rounds → Rounds → Prop := Relation.ReflTransGen (CreateMove env st hooks)

/-- What the call has built once the creates that still wait are rejected. -/
def Rounds.rejected (s : Rounds) : CallState :=
  s.pending.foldl (fun c x => c.rejectCreate x.1
    (invalidProperties (resolveIdRefs st.json st.desc x.2.obj c.createdIds).2)) s.call

/-! ## The loop makes a run -/

theorem createStep_move (l r : List (JmapId × Pending)) (cid : JmapId) (p : Pending)
    (h : (createStep env.db.scan st hooks cid p).exec env c u n = ((.ok w, c'), u', n')) :
    CreateMove env st hooks ⟨l ++ (cid, p) :: r, c, u, n⟩ ⟨l ++ w ++ r, c', u', n'⟩ := by
  rw [createStep_exec] at h
  dsimp only at h
  split at h
  case isTrue hwait =>
    obtain ⟨⟨⟨⟩, rfl⟩, rfl, rfl⟩ := h
    have := @CreateMove.wait env st hooks ⟨l ++ (cid, p) :: r, c, u, n⟩ l r cid p rfl hwait
    simpa [Rounds.resolve] using this
  case isFalse hres =>
    rw [not_not] at hres
    split at h
    · cases h
    · rename_i serr u1 n1 haccept
      cases h
      rw [List.append_nil]
      exact .reject rfl hres haccept
    · rename_i obj u1 n1 haccept
      rw [landCreate_exec] at h
      cases hcreate : env.run (.create st.desc.name obj .done) u1 n1 with
      | mk made rest =>
        rw [hcreate] at h
        rcases made with e | id
        · cases h
        · cases h
          rw [List.append_nil]
          exact .land rfl ⟨hres, u1, n1, haccept, hcreate⟩

theorem createStep_waits (cid : JmapId) (p : Pending)
    (h : (createStep env.db.scan st hooks cid p).exec env c u n = ((.ok w, c'), u', n')) :
    w = [] ∨ w.length = 1 ∧ c' = c ∧ AllWait st c.createdIds w := by
  rw [createStep_exec] at h
  dsimp only at h
  split at h
  case isTrue hwait =>
    cases h
    refine .inr ⟨rfl, rfl, fun x hx => ?_⟩
    obtain rfl := List.mem_singleton.mp hx
    exact resolveIdRefs_twice st.json c.createdIds st.desc p.obj hwait
  case isFalse =>
    left
    split at h
    · cases h
    · cases h
      rfl
    · rename_i obj u1 n1 _
      generalize (landCreate st cid p obj).exec env c u1 n1 = r at h
      obtain ⟨⟨e | ⟨⟩, c2⟩, u2, n2⟩ := r <;> cases h
      rfl

theorem createPass_run (l pending : List (JmapId × Pending)) {left : List (JmapId × Pending)}
    (h : (createPass env.db.scan st hooks pending).exec env c u n = ((.ok left, c'), u', n')) :
    CreateRun env st hooks ⟨l ++ pending, c, u, n⟩ ⟨l ++ left, c', u', n'⟩ ∧
      left.length ≤ pending.length ∧
      (left.length = pending.length → c' = c ∧ AllWait st c.createdIds left) := by
  induction pending generalizing l c u n left with
  | nil =>
    cases h
    exact ⟨.refl, le_rfl, fun _ => ⟨rfl, fun x hx => nomatch hx⟩⟩
  | cons x rest ih =>
    obtain ⟨cid, p⟩ := x
    rw [createPass_cons_exec] at h
    rcases hstep : (createStep env.db.scan st hooks cid p).exec env c u n with
      ⟨⟨e | w, c1⟩, u1, n1⟩
    · rw [hstep] at h
      cases h
    rw [hstep] at h
    dsimp only at h
    rcases hrest : (createPass env.db.scan st hooks rest).exec env c1 u1 n1 with
      ⟨⟨e | left', c2⟩, u2, n2⟩
    · rw [hrest] at h
      cases h
    rw [hrest] at h
    cases h
    obtain ⟨hrun, hle, hall⟩ := ih (l ++ w) hrest
    have hmove := createStep_move env st hooks l rest cid p hstep
    rw [List.append_assoc l w left'] at hrun
    refine ⟨.head hmove hrun, ?_, fun hlen => ?_⟩
    · obtain rfl | ⟨hw, -, -⟩ := createStep_waits env st hooks cid p hstep
      · simp only [List.nil_append, List.length_cons]
        omega
      · simp only [List.length_append, List.length_cons]
        omega
    · obtain rfl | ⟨hw, rfl, hwait⟩ := createStep_waits env st hooks cid p hstep
      · simp only [List.nil_append, List.length_cons] at hlen
        omega
      · simp only [List.length_append, List.length_cons] at hlen
        obtain ⟨rfl, hrestwait⟩ := hall (by omega)
        refine ⟨rfl, fun x hx => ?_⟩
        obtain hx | hx := List.mem_append.mp hx
        · exact hwait x hx
        · exact hrestwait x hx

theorem rejectUnresolved_exec (l : List (JmapId × Pending)) (c : CallState) (u : Update) (n : ℕ) :
    (rejectUnresolved st l).exec env c u n =
      ((.ok (), Rounds.rejected st ⟨l, c, u, n⟩), u, n) := by
  induction l generalizing c with
  | nil => rfl
  | cons x rest ih =>
    exact ih _

/-- **The loop is a run** to a state in which what is left waits for ever, and is rejected. -/
theorem createRounds_run {fuel : ℕ} {pending : List (JmapId × Pending)}
    (hfuel : pending.length < fuel)
    (h : (createRounds env.db.scan st hooks fuel pending).exec env c u n = ((.ok (), c'), u', n')) :
    ∃ s : Rounds, CreateRun env st hooks ⟨pending, c, u, n⟩ s ∧
      AllWait st s.call.createdIds s.pending ∧
      c' = s.rejected st ∧ u' = s.update ∧ n' = s.index := by
  induction fuel generalizing pending c u n with
  | zero => omega
  | succ fuel ih =>
    rw [createRounds] at h
    split at h
    case isTrue hnil =>
      cases h
      subst hnil
      exact ⟨_, .refl, fun x hx => absurd hx List.not_mem_nil, rfl, rfl, rfl⟩
    case isFalse =>
      rw [CallM.exec_bind] at h
      rcases hpass : (createPass env.db.scan st hooks pending).exec env c u n with
        ⟨⟨e | left, c1⟩, u1, n1⟩
      · rw [hpass] at h
        cases h
      rw [hpass] at h
      dsimp only at h
      obtain ⟨hrun, hle, hall⟩ := createPass_run env st hooks [] pending hpass
      split at h
      case isTrue hlen =>
        obtain ⟨rfl, hwait⟩ := hall hlen
        rw [rejectUnresolved_exec] at h
        cases h
        exact ⟨_, hrun, hwait, rfl, rfl, rfl⟩
      case isFalse hlen =>
        obtain ⟨s, hrun', hrest⟩ := ih (by omega) h
        exact ⟨s, hrun.trans hrun', hrest⟩

/-- As many passes as there are creates suffice: further fuel changes nothing. -/
theorem createRounds_fuel {fuel : ℕ} {pending : List (JmapId × Pending)}
    (hfuel : pending.length < fuel) (c : CallState) (u : Update) (n : ℕ) :
    (createRounds env.db.scan st hooks fuel pending).exec env c u n =
      (createRounds env.db.scan st hooks (pending.length + 1) pending).exec env c u n := by
  induction fuel using Nat.strong_induction_on generalizing pending c u n with
  | _ fuel ih =>
    obtain ⟨fuel, rfl⟩ := Nat.exists_eq_add_of_lt (Nat.zero_lt_of_lt hfuel)
    rw [Nat.zero_add] at *
    rw [createRounds, createRounds]
    split
    · rfl
    rw [CallM.exec_bind, CallM.exec_bind]
    rcases hpass : (createPass env.db.scan st hooks pending).exec env c u n with
      ⟨⟨e | left, c1⟩, u1, n1⟩
    · rfl
    dsimp only
    obtain ⟨-, hle, -⟩ := createPass_run env st hooks [] pending hpass
    split
    · rfl
    · rw [ih fuel (by omega) (by omega), ih pending.length (by omega) (by omega)]

end Moves

/-! ## What a run keeps -/

def resolvedValue (j : Json) (ids : CreatedIds) (p : Option Property) (raw : Raw) : Raw :=
  if p.any (·.kind = .id) then (resolveIdValue j ids raw).getD raw else raw

theorem resolveIdRef_value (j : Json) (ids : CreatedIds) (obj : Object) (un : List String)
    (entry : String × Property) (name : String) :
    (resolveIdRef j ids (obj, un) entry).1[name]? =
      if entry.1 = name then obj[name]?.map (resolvedValue j ids (some entry.2))
      else obj[name]? := by
  unfold resolveIdRef resolvedValue
  by_cases hkind : entry.2.kind = .id
  · rw [if_neg (not_not.mpr hkind)]
    cases hraw : obj[entry.1]? with
    | none =>
      dsimp only
      split
      · rename_i heq
        rw [← heq, hraw]
        rfl
      · rfl
    | some raw =>
      dsimp only
      cases hres : resolveIdValue j ids raw with
      | none =>
        dsimp only
        split
        · rename_i heq
          simp [← heq, hraw, hkind, hres]
        · rfl
      | some resolved =>
        rw [Map.getElem?_insert]
        split
        · rename_i heq
          simp [← heq, hraw, hkind, hres]
        · rfl
  · simp [hkind]

theorem resolveIdRefs_getElem? (j : Json) (t : TypeDesc) (obj : Object) (ids : CreatedIds)
    (name : String) :
    (resolveIdRefs j t obj ids).1[name]? =
      obj[name]?.map (resolvedValue j ids t.properties[name]?) := by
  have hfold := Map.get_foldl_toList (fun (st : Object × List String) a => st.1[a]?)
    (g := fun p => Option.map (resolvedValue j ids (some p)))
    (fun st e a => resolveIdRef_value j ids st.1 st.2 e a) t.properties (obj, []) name
  refine hfold.trans ?_
  cases t.properties[name]? with
  | none => cases obj[name]? <;> simp [resolvedValue]
  | some p => rfl

theorem resolveIdRefs_snd_eq_nil (j : Json) (t : TypeDesc) (obj : Object) (ids : CreatedIds) :
    (resolveIdRefs j t obj ids).2 = [] ↔
      ∀ (name : String) (p : Property) (raw : Raw), t.properties[name]? = some p → p.kind = .id →
        obj[name]? = some raw → (resolveIdValue j ids raw).isSome := by
  have h := (foldl_resolveIdRef j ids _ (Map.nodup_toList_keys t.properties) obj []).2
  rw [← not_iff_not]
  refine h.trans ?_
  simp only [ne_eq, not_true_eq_false, false_or, not_forall, Unresolved]
  constructor
  · rintro ⟨⟨name, p⟩, he, hkind, raw, hraw, hnone⟩
    exact ⟨name, p, raw, (Map.mem_toList _ _ _).mp he, hkind, hraw, by simp [hnone]⟩
  · rintro ⟨name, p, raw, hp, hkind, hraw, hsome⟩
    exact ⟨(name, p), (Map.mem_toList _ _ _).mpr hp, hkind, raw, hraw, by simpa using hsome⟩

/-- Resolving references changes values, never which properties there are. -/
theorem mem_resolveIdRefs (j : Json) (t : TypeDesc) (obj : Object) (ids : CreatedIds)
    (name : String) : name ∈ (resolveIdRefs j t obj ids).1 ↔ name ∈ obj := by
  rw [Std.ExtTreeMap.mem_iff_isSome_getElem?, Std.ExtTreeMap.mem_iff_isSome_getElem?,
    resolveIdRefs_getElem?, Option.isSome_map]

/-- The pending create is `p0` with some of its references resolved. -/
structure Pending.Descends (p p0 : Pending) : Prop where
  sent : p.sent = p0.sent
  fromId : p.fromId = p0.fromId
  mem : ∀ name : String, name ∈ p.obj ↔ name ∈ p0.obj

section Runs

variable {st : StdType} {hooks : SetHooks} {start s : Rounds}

theorem CreateRun.pending (hrun : CreateRun env st hooks start s) {p : Pending}
    (hp : (cid, p) ∈ s.pending) : ∃ p0, (cid, p0) ∈ start.pending ∧ p.Descends p0 := by
  induction hrun generalizing cid p with
  | refl => exact ⟨p, hp, rfl, rfl, fun _ => Iff.rfl⟩
  | tail _ hmove ih =>
    cases hmove with
    | @wait l r cid' p' hs _ =>
      have hmem : (cid', p') ∈ l ++ (cid', p') :: r := by simp
      rcases List.mem_append.mp hp with hp | hp
      · exact ih (hs ▸ List.mem_append_left _ hp)
      · rcases List.mem_cons.mp hp with heq | hp
        · obtain ⟨p0, hp0, hdesc⟩ := ih (hs ▸ hmem)
          cases heq
          refine ⟨p0, hp0, hdesc.sent, hdesc.fromId, fun name => ?_⟩
          exact (mem_resolveIdRefs _ _ _ _ name).trans (hdesc.mem name)
        · exact ih (hs ▸ List.mem_append_right _ (List.mem_cons_of_mem _ hp))
    | reject hs =>
      refine ih (hs ▸ ?_)
      rcases List.mem_append.mp hp with hp | hp
      · exact List.mem_append_left _ hp
      · exact List.mem_append_right _ (List.mem_cons_of_mem _ hp)
    | land hs =>
      refine ih (hs ▸ ?_)
      rcases List.mem_append.mp hp with hp | hp
      · exact List.mem_append_left _ hp
      · exact List.mem_append_right _ (List.mem_cons_of_mem _ hp)

/-- What was pending at the start is pending, created or rejected, and only one of these. -/
structure Sorts (start s : Rounds) : Prop where
  nodup : (s.pending.map Prod.fst).Nodup
  open_ : ∀ x ∈ s.pending, x.1 ∉ s.call.created ∧ x.1 ∉ s.call.notCreated
  decided : ∀ x ∈ start.pending, x.1 ∈ s.pending.map Prod.fst ∨ x.1 ∈ s.call.created ∨
    x.1 ∈ s.call.notCreated
  apart : ∀ k ∈ s.call.created, k ∉ s.call.notCreated
  kept : ∀ k ∈ start.call.notCreated, k ∈ s.call.notCreated

namespace Sorts

theorem refl (hnodup : (start.pending.map Prod.fst).Nodup)
    (hcreated : ∀ k : JmapId, k ∉ start.call.created)
    (hnot : ∀ x ∈ start.pending, x.1 ∉ start.call.notCreated) : Sorts start start where
  nodup := hnodup
  open_ := fun x hx => ⟨hcreated x.1, hnot x hx⟩
  decided := fun _ hx => .inl (List.mem_map_of_mem hx)
  apart := fun k hk => absurd hk (hcreated k)
  kept := fun _ hk => hk

theorem turn (h : Sorts start s) {l r : List (JmapId × Pending)} {p : Pending}
    (hs : s.pending = l ++ (cid, p) :: r) :
    (cid ∉ s.call.created ∧ cid ∉ s.call.notCreated) ∧
    (∀ x ∈ l ++ r, x ∈ s.pending ∧ x.1 ≠ cid) ∧ ((l ++ r).map Prod.fst).Nodup ∧
    (∀ k, k ∈ s.pending.map Prod.fst → k = cid ∨ k ∈ (l ++ r).map Prod.fst) := by
  have hperm : (l ++ (cid, p) :: r).Perm ((cid, p) :: (l ++ r)) := List.perm_middle
  have hnodup := (hperm.map Prod.fst).nodup_iff.mp (hs ▸ h.nodup)
  rw [List.map_cons, List.nodup_cons] at hnodup
  refine ⟨h.open_ (cid, p) (hs ▸ by simp), fun x hx => ⟨hs ▸ ?_, fun heq => ?_⟩, hnodup.2,
    fun k hk => ?_⟩
  · exact hperm.mem_iff.mpr (List.mem_cons_of_mem _ hx)
  · have hmem : x.1 ∈ (l ++ r).map Prod.fst := List.mem_map_of_mem hx
    exact hnodup.1 (heq ▸ hmem)
  · rw [hs] at hk
    simpa using (hperm.map Prod.fst).mem_iff.mp hk

theorem move (h : Sorts start s) {s' : Rounds} (hmove : CreateMove env st hooks s s') :
    Sorts start s' := by
  cases hmove with
  | @wait l r cid p hs _ =>
    -- the create stays in the list with its references resolved so far
    have hkeys : (l ++ (cid, { p with obj := (s.resolve st p).1 }) :: r).map Prod.fst =
        s.pending.map Prod.fst := by
      rw [hs, List.map_append, List.map_append, List.map_cons, List.map_cons]
    refine { h with
      nodup := hkeys ▸ h.nodup
      open_ := fun x hx => ?_
      decided := fun x hx => hkeys ▸ h.decided x hx }
    have hx' : x.1 ∈ s.pending.map Prod.fst := hkeys ▸ List.mem_map_of_mem hx
    obtain ⟨y, hy, heq⟩ := List.mem_map.mp hx'
    exact heq ▸ h.open_ y hy
  | @reject l r cid p serr u n hs _ _ =>
    obtain ⟨hopen, hothers, hnodup, hkeys⟩ := h.turn hs
    have hnot : ∀ k : JmapId, k ∈ (s.call.rejectCreate cid serr).notCreated ↔
        k ∈ s.call.notCreated ∨ k = cid := fun k => Map.mem_insert_iff _ _ _ _
    refine ⟨hnodup, fun x hx => ?_, fun x hx => ?_, fun k hk hno => ?_,
      fun k hk => (hnot k).mpr (.inl (h.kept k hk))⟩
    · obtain ⟨hx, hne⟩ := hothers x hx
      exact ⟨(h.open_ x hx).1, fun hno => ((hnot x.1).mp hno).elim (h.open_ x hx).2 hne⟩
    · obtain hx | hx | hx := h.decided x hx
      · exact (hkeys x.1 hx).elim (fun heq => .inr (.inr ((hnot x.1).mpr (.inr heq)))) .inl
      · exact .inr (.inl hx)
      · exact .inr (.inr ((hnot x.1).mpr (.inl hx)))
    · obtain hno | rfl := (hnot k).mp hno
      · exact h.apart k hk hno
      · exact hopen.1 hk
  | @land l r cid p obj id u n hs _ =>
    obtain ⟨hopen, hothers, hnodup, hkeys⟩ := h.turn hs
    generalize ((obj.insert "id" (quoteId id)).filter fun name _ => name ∉ p.sent) = echo
    have hmem : ∀ k : JmapId,
        k ∈ ((s.call.publish cid id).echoCreated cid echo p.fromId).created ↔
          k ∈ s.call.created ∨ k = cid := fun k => Map.mem_insert_iff _ _ _ _
    refine ⟨hnodup, fun x hx => ?_, fun x hx => ?_, fun k hk => ?_, h.kept⟩
    · obtain ⟨hx, hne⟩ := hothers x hx
      exact ⟨fun hc => ((hmem x.1).mp hc).elim (h.open_ x hx).1 hne, (h.open_ x hx).2⟩
    · obtain hx | hx | hx := h.decided x hx
      · exact (hkeys x.1 hx).elim (fun heq => .inr (.inl ((hmem x.1).mpr (.inr heq)))) .inl
      · exact .inr (.inl ((hmem x.1).mpr (.inl hx)))
      · exact .inr (.inr hx)
    · obtain hk | rfl := (hmem k).mp hk
      · exact h.apart k hk
      · exact hopen.2

end Sorts

theorem CreateRun.landed (hrun : CreateRun env st hooks start s) (hc : cid ∈ s.call.created)
    (hstart : cid ∉ start.call.created) :
    ∃ (s1 : Rounds) (p : Pending) (obj : Object) (id : JmapId) (u : Update) (n : ℕ),
      CreateRun env st hooks start s1 ∧ (cid, p) ∈ s1.pending ∧
        Lands env st hooks s1 p obj id u n := by
  induction hrun with
  | refl => exact absurd hc hstart
  | @tail s1 _ hbefore hmove ih =>
    cases hmove with
    | wait => exact ih hc
    | reject => exact ih hc
    | @land l r cid' p obj id u n hs hland =>
      rcases (Map.mem_insert_iff _ _ _ _).mp hc with hc | rfl
      · exact ih hc
      · exact ⟨s1, p, obj, id, u, n, hbefore, hs ▸ by simp, hland⟩

theorem Rounds.rejected_created (s : Rounds) : (s.rejected st).created = s.call.created := by
  obtain ⟨pending, c, u, n⟩ := s
  induction pending generalizing c with
  | nil => rfl
  | cons x rest ih => exact ih _

theorem Rounds.rejected_createdIds (s : Rounds) :
    (s.rejected st).createdIds = s.call.createdIds := by
  obtain ⟨pending, c, u, n⟩ := s
  induction pending generalizing c with
  | nil => rfl
  | cons x rest ih => exact ih _

theorem Rounds.mem_rejected_notCreated (s : Rounds) (k : JmapId) :
    k ∈ (s.rejected st).notCreated ↔ k ∈ s.call.notCreated ∨ k ∈ s.pending.map Prod.fst := by
  obtain ⟨pending, c, u, n⟩ := s
  induction pending generalizing c with
  | nil => simp [Rounds.rejected]
  | cons x rest ih =>
    refine (ih _).trans ?_
    change k ∈ c.notCreated.insert x.1 _ ∨ _ ↔ _
    rw [Map.mem_insert_iff, List.map_cons, List.mem_cons, or_assoc]

end Runs

/-! ## What the creates leave alone -/

section Spared

variable {f : CallState → β} (hf : ∀ cid, Spares f cid) (sc : Scanner) (st : StdType)

include hf

theorem createRounds_keeps (hooks : SetHooks) (fuel : ℕ) (pending : List (JmapId × Pending)) :
    (createRounds sc st hooks fuel pending).Keeps f := by
  induction fuel generalizing pending with
  | zero => exact .pure _
  | succ fuel ih =>
    rw [createRounds]
    split
    · exact .pure _
    refine .bind (createPass_keeps st hooks sc fun x _ => hf x.1) fun left => ?_
    split
    · exact rejectUnresolved_keeps st (fun cid => (hf cid).reject) left
    · exact ih left

theorem stageCreates_keeps (create : Map JmapId Raw) (prepared : List Prepared) :
    (stageCreates sc st create prepared).Keeps f := by
  unfold stageCreates
  split
  · exact commitPreparedCreates_keeps fun p _ => hf p.cid
  · exact .bind (prepareCreates_keeps st (fun cid => (hf cid).reject) _ _) fun pending =>
      createRounds_keeps hf sc st _ _ pending

end Spared

/-! ## Whole calls -/

/-- A method that answered: its callback ran to the end and the batch was written. -/
theorem answerOf_update_eq_ok {typeName : String} {m : CallM Unit} {oldState : ℕ}
    (h : answerOf oldState (m.update env typeName c n) = .ok resp) :
    ∃ (u : Update) (n' : ℕ) (newState : Option ℕ),
      m.exec env c { sequence := (env.schedule n).seq + 1 } (n + 1) = ((.ok (), resp.resp), u, n') ∧
        commitUpdate env typeName u = .ok newState ∧ resp.oldState = oldState ∧
        resp.newState = newState.getD oldState := by
  unfold CallM.update at h
  cases ha : env.acquired with
  | error e =>
    rw [ha] at h
    cases h
  | ok _ =>
    rw [ha] at h
    rcases hexec : m.exec env c { sequence := (env.schedule n).seq + 1 } (n + 1) with
      ⟨⟨e | ⟨⟩, c'⟩, u, n'⟩
    · rw [hexec] at h
      cases h
    · rw [hexec] at h
      cases hcommit : commitUpdate env typeName u with
      | error e =>
        simp only [hcommit] at h
        cases h
      | ok newState =>
        simp only [hcommit] at h
        cases h
        exact ⟨u, n', newState, rfl, hcommit, rfl, rfl⟩

/-- A `/set` that answered, phase by phase; the callback's first read is the type state. -/
theorem fooSet_stages {st : StdType} {a : SetArgs} {ids : CreatedIds}
    (h : (fooSet env st a ids).1 = .ok resp) :
    ∃ (prepared : List Prepared) (n0 : ℕ) (afterCreates afterUpdates : CallState × Update × ℕ)
      (final : Update × ℕ) (newState : Option ℕ),
      (prepareSet st a ids).runAt env.schedule 0 = (.ok prepared, n0) ∧
      (stageCreates env.db.scan st a.create prepared).exec env { createdIds := ids }
        { sequence := (env.schedule n0).seq + 1 } (n0 + 2) =
          ((.ok (), afterCreates.1), afterCreates.2) ∧
      (processUpdates env.db.scan st a.update.toList).exec env afterCreates.1 afterCreates.2.1
        afterCreates.2.2 = ((.ok (), afterUpdates.1), afterUpdates.2) ∧
      (processDestroys st a.destroy).exec env afterUpdates.1 afterUpdates.2.1 afterUpdates.2.2 =
        ((.ok (), resp.resp), final) ∧
      (setCallback env.db.scan st a prepared).exec env { createdIds := ids }
        { sequence := (env.schedule n0).seq + 1 } (n0 + 1) = ((.ok (), resp.resp), final) ∧
      commitUpdate env st.desc.name final.1 = .ok newState ∧
      resp.newState = newState.getD resp.oldState := by
  unfold fooSet at h
  split at h
  · cases h
  split at h
  · cases h
  rename_i prepared n0 hprepared
  obtain ⟨u, n, newState, hexec, hcommit, hold, hnew⟩ := answerOf_update_eq_ok h
  have hcallback := hexec
  rw [setCallback, CallM.exec_bind, checkState_exec] at hexec
  split at hexec
  rotate_left
  · cases hexec
  rename_i hchecked
  rw [Prod.mk.injEq, Prod.mk.injEq] at hchecked
  obtain ⟨⟨-, rfl⟩, rfl, rfl⟩ := hchecked
  rw [CallM.exec_bind] at hexec
  rcases hcreates : (stageCreates env.db.scan st a.create prepared).exec env { createdIds := ids }
    { sequence := (env.schedule n0).seq + 1 } (n0 + 2) with ⟨⟨e | ⟨⟩, c1⟩, u1, n1⟩
  · rw [hcreates] at hexec
    cases hexec
  rw [hcreates] at hexec
  dsimp only at hexec
  rw [CallM.exec_bind] at hexec
  rcases hupdates : (processUpdates env.db.scan st a.update.toList).exec env c1 u1 n1 with
    ⟨⟨e | ⟨⟩, c2⟩, u2, n2⟩
  · rw [hupdates] at hexec
    cases hexec
  rw [hupdates] at hexec
  exact ⟨prepared, n0, (c1, u1, n1), (c2, u2, n2), (u, n), newState, hprepared, hcreates, hupdates,
    hexec, hcallback, hcommit, by rw [hnew, hold]⟩

def CommitEnv.opened (env : CommitEnv) : Update := { sequence := (env.schedule 0).seq + 1 }

/-- A `/set` of a type with the standard create pipeline that answered, phase by phase. -/
structure SetPhases (env : CommitEnv) (st : StdType) (a : SetArgs) (ids : CreatedIds)
    (resp : SetResponse) where
  afterCreates : Rounds
  afterUpdates : CallState × Update × ℕ
  final : Update × ℕ
  -- the callback's first read is the type state
  creates : (processCreates env.db.scan st a.create).exec env { createdIds := ids } env.opened 2 =
    ((.ok (), afterCreates.call), afterCreates.update, afterCreates.index)
  updates : (processUpdates env.db.scan st a.update.toList).exec env afterCreates.call
    afterCreates.update afterCreates.index = ((.ok (), afterUpdates.1), afterUpdates.2)
  destroys : (processDestroys st a.destroy).exec env afterUpdates.1 afterUpdates.2.1
    afterUpdates.2.2 = ((.ok (), resp.resp), final)
  committed : ∃ newState, commitUpdate env st.desc.name final.1 = .ok newState ∧
    resp.newState = newState.getD resp.oldState

theorem fooSet_phases {st : StdType} {a : SetArgs} {ids : CreatedIds}
    (hstd : st.hooks.prepareCreate = none) (h : (fooSet env st a ids).1 = .ok resp) :
    Nonempty (SetPhases env st a ids resp) := by
  obtain ⟨prepared, n0, c1, c2, final, newState, hprepared, hcreates, hupdates, hdestroys, -,
    hcommit⟩ := fooSet_stages h
  simp only [prepareSet, hstd, ReadM.runAt_pure, Prod.mk.injEq] at hprepared
  obtain ⟨-, rfl⟩ := hprepared
  simp only [stageCreates, hstd] at hcreates
  exact ⟨{ afterCreates := ⟨[], c1.1, c1.2.1, c1.2.2⟩, afterUpdates := c2, final := final,
           creates := hcreates, updates := hupdates, destroys := hdestroys,
           committed := ⟨newState, hcommit⟩ }⟩

end NaustJmap.Runtime
