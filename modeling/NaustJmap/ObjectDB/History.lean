import NaustJmap.ObjectDB.CommitSpec

/-!
# Histories of an Account

An account evolves by commits and by trims of its change log, both atomic under its lease.  The fact
every reader of the log relies on is `Run.window`: as long as the floor has not passed a state,
the log tells for every id the exact sequence of events since that state.
-/

namespace NaustJmap.ObjectDB

open Library

/-! ## Trims -/

/-- Everything below the new floor is gone, and nothing else changed. -/
structure TrimEffect (s s' : Store) : Prop where
  last : ∃ n e, s.log[n]? = some e ∧ s'.floor = n + 1
  log : ∀ n : ℕ, s'.log[n]? = if n < s'.floor then none else s.log[n]?
  rest : s'.SameButLog s

theorem pairwise_logFrom (s : Store) (first : ℕ) :
    (s.logFrom first).Pairwise fun a b => a.1 < b.1 :=
  ((s.log.ordered_keys_toList).imp fun h => compare_lt_iff_lt.mp h).filter _

variable {s : Store} {first n : ℕ} {l : List (ℕ × LogEntry)} {batch : List BatchOp}
  {id acct : JmapId} {db : DB}

theorem logFrom_eq (hs : l.Pairwise fun a b => a.1 < b.1)
    (hm : ∀ n e, (n, e) ∈ l ↔ s.log[n]? = some e ∧ first ≤ n) : s.logFrom first = l := by
  have nodup : ∀ {l : List (ℕ × LogEntry)}, l.Pairwise (fun a b => a.1 < b.1) → l.Nodup :=
    fun h => h.imp fun hlt heq => by simp [heq] at hlt
  have hperm : (s.logFrom first).Perm l := by
    refine (List.perm_ext_iff_of_nodup (nodup (pairwise_logFrom s first)) (nodup hs)).mpr ?_
    rintro ⟨n, e⟩
    rw [Store.mem_logFrom, hm]
  exact hperm.eq_of_pairwise (fun a b _ _ hab hba => absurd (hab.trans hba) (lt_irrefl _))
    (pairwise_logFrom s first) hs

theorem applyBatch_deleteLog (victims : List (ℕ × LogEntry)) (s : Store) (n : ℕ) :
    (applyBatch (victims.map (.deleteLog ·.1)) s).log[n]? =
      if n ∈ victims.map Prod.fst then none else s.log[n]? := by
  induction victims generalizing s with
  | nil => simp
  | cons v victims ih =>
    rw [List.map_cons, applyBatch_cons, ih]
    simp only [BatchOp.apply, Map.getElem?_erase, List.map_cons, List.mem_cons]
    by_cases h : n ∈ victims.map Prod.fst
    · simp [h]
    · by_cases h' : v.1 = n
      · simp [h']
      · simp [h, h', Ne.symm h']

theorem trimChanges_eq_some {a : TrimArgs} (h : (DB.trimChanges a).run s = some batch) :
    ∃ d, trimBatch ((s.logFrom 0).take d) = some batch := by
  simp only [DB.trimChanges] at h
  by_cases hoff : a.retention ≤ 0 ∧ a.maxEntries ≤ 0
  · simp [hoff] at h
  simp only [if_neg hoff, Reads.run_get_bind] at h
  by_cases hnone : s.seq < max s.floor 1
  · simp only [if_pos hnone, Reads.run_pure, reduceCtorEq] at h
  simp only [if_neg hnone, Reads.run_get_bind] at h
  generalize trimDrop a (trimOverCap a (max s.floor 1) s.seq) (s.logFrom 0) = d at h
  by_cases hd : d = 0
  · simp [hd] at h
  simp only [if_neg hd, Reads.run_get_bind, Reads.run_pure] at h
  exact ⟨d, h⟩

theorem trim_effect {a : TrimArgs} (h : (DB.trimChanges a).run s = some batch) :
    TrimEffect s (applyBatch batch s) := by
  obtain ⟨d, hb⟩ := trimChanges_eq_some h
  unfold trimBatch at hb
  split at hb
  · simp at hb
  rename_i last hlast
  cases hb
  obtain ⟨n, e⟩ := last
  obtain ⟨init, hinit⟩ : ∃ init, (s.logFrom 0).take d = init ++ [(n, e)] := by
    exact ⟨_, (List.dropLast_append_getLast? _ hlast).symm⟩
  have hlog : s.logFrom 0 = init ++ (n, e) :: (s.logFrom 0).drop d := by
    conv_lhs => rw [← List.take_append_drop d (s.logFrom 0), hinit]
    simp
  have hsorted := pairwise_logFrom s 0
  rw [hlog, List.pairwise_append, List.pairwise_cons] at hsorted
  obtain ⟨-, ⟨hafter, -⟩, hbefore⟩ := hsorted
  have hmem : ∀ m e', s.log[m]? = some e' ↔ (m, e') ∈ init ++ (n, e) :: (s.logFrom 0).drop d := by
    intro m e'
    rw [← hlog, Store.mem_logFrom]
    simp
  have hrest : ∀ op ∈ ((s.logFrom 0).take d).map (BatchOp.deleteLog ·.1) ++
      [BatchOp.setFloor (n + 1)], ∀ r : Store, { op.apply r with log := ∅, floor := 0 } =
        ({ r with log := ∅, floor := 0 } : Store) := by
    intro op hop r
    rcases List.mem_append.mp hop with hop | hop
    · obtain ⟨v, -, rfl⟩ := List.mem_map.mp hop
      rfl
    · obtain rfl := List.mem_singleton.mp hop
      rfl
  have hframe := applyBatch_frame (fun r : Store => { r with log := ∅, floor := 0 }) hrest s
  refine ⟨⟨n, e, (hmem n e).mpr (by simp), ?_⟩, fun m => ?_, Store.sameButLog_iff.mpr hframe⟩
  · simp [applyBatch_append, BatchOp.apply]
  · simp only [applyBatch_append, applyBatch_cons, applyBatch_nil, BatchOp.apply]
    rw [applyBatch_deleteLog, hinit]
    by_cases hm : m < n + 1
    · split
      · rfl
      · rename_i hnot
        -- an entry at or below `n` is among the victims
        by_contra hsome
        obtain ⟨e', he'⟩ := Option.ne_none_iff_exists'.mp hsome
        have hin := (hmem m e').mp he'
        simp only [List.map_append, List.map_cons, List.map_nil, List.mem_append, List.mem_map,
          List.mem_cons, List.not_mem_nil, or_false, not_or] at hnot
        rcases List.mem_append.mp hin with hin | hin
        · exact hnot.1 ⟨_, hin, rfl⟩
        · rcases List.mem_cons.mp hin with heq | hin
          · exact hnot.2 (congrArg Prod.fst heq)
          · have := hafter _ hin
            omega
    · rw [if_neg hm, if_neg]
      simp only [List.map_append, List.map_cons, List.map_nil, List.mem_append, List.mem_map,
        List.mem_cons, List.not_mem_nil, or_false, not_or, not_exists, not_and]
      refine ⟨fun v hv heq => ?_, by omega⟩
      have := hbefore v hv (n, e) List.mem_cons_self
      omega

/-! ## Steps and runs -/

/-- An account, with its untrimmed twin and the ids ever handed out. -/
structure World where
  store : Store
  untrimmed : Store
  issued : Set JmapId

def World.init : World := ⟨{}, {}, ∅⟩

def World.afterCommit (w : World) (db : DB) (c : Commit) (batch : List BatchOp) : World where
  store := applyBatch batch w.store
  untrimmed := applyBatch batch w.untrimmed
  issued := w.issued ∪ {id | ∃ i < c.drawn db w.store, id = c.draw i}

inductive Action where
  | commit (c : Commit)
  | trim (a : TrimArgs)

/-- One atomic step of an account; the ids a commit draws are valid and new. -/
inductive Step (db : DB) (acct : JmapId) (w : World) : Action → World → Prop where
  | commit {c : Commit} {batch : List BatchOp}
      (hfresh : ∀ i < c.drawn db w.store, c.draw i ∉ w.issued)
      (hvalid : ∀ i < c.drawn db w.store, JmapId.valid (c.draw i))
      (h : (db.update acct c).run w.store = .ok (some batch)) :
      Step db acct w (.commit c) (w.afterCommit db c batch)
  | trim {a : TrimArgs} {batch : List BatchOp} (h : (DB.trimChanges a).run w.store = some batch) :
      Step db acct w (.trim a) ⟨applyBatch batch w.store, w.untrimmed, w.issued⟩

/-- A run: any number of steps, with the actions taken. -/
inductive Run (db : DB) (acct : JmapId) (w : World) : List Action → World → Prop where
  | nil : Run db acct w [] w
  | snoc {acts : List Action} {w1 w2 : World} {a : Action} (hrun : Run db acct w acts w1)
      (hstep : Step db acct w1 a w2) : Run db acct w (acts ++ [a]) w2

def Reachable (db : DB) (acct : JmapId) (w : World) : Prop :=
  ∃ acts, Run db acct World.init acts w

section Runs

variable {w w1 w2 : World} {acts : List Action}

theorem Run.trans {acts' : List Action} (h1 : Run db acct w acts w1)
    (h2 : Run db acct w1 acts' w2) : Run db acct w (acts ++ acts') w2 := by
  induction h2 with
  | nil => simpa using h1
  | snoc _ hstep ih =>
    rw [← List.append_assoc]
    exact ih.snoc hstep

theorem Reachable.run (h : Reachable db acct w) (hrun : Run db acct w acts w1) :
    Reachable db acct w1 :=
  let ⟨_, h⟩ := h
  ⟨_, h.trans hrun⟩

/-- An invariant of runs: what holds at the start and is kept by every step. -/
theorem Run.induct {P : World → Prop} (hstep : ∀ {w a w'}, P w → Step db acct w a w' → P w')
    (hrun : Run db acct w acts w1) (hw : P w) : P w1 := by
  induction hrun with
  | nil => exact hw
  | snoc _ h ih => exact hstep ih h

end Runs

/-! ## Invariants of the log -/

/-- The log is the untrimmed one from the floor on, below the sequence; ids are handed out. -/
structure World.Ok (w : World) : Prop where
  issued : ∀ {k : RecKey} {obj : Object}, w.store.objs[k]? = some obj → k.id ∈ w.issued
  same : w.untrimmed.SameButLog w.store
  floor_zero : w.untrimmed.floor = 0
  log : ∀ n : ℕ, w.store.log[n]? = if n < w.store.floor then none else w.untrimmed.log[n]?
  log_le_seq : ∀ {n : ℕ} {e : LogEntry}, w.untrimmed.log[n]? = some e → n ≤ w.store.seq
  floor_le_seq : w.store.floor ≤ w.store.seq + 1
  typeState_le_seq : ∀ T : String, w.store.typeState T ≤ w.store.seq
  log_le_typeState : ∀ {n : ℕ} {e : LogEntry} {T : String} {te : LogTypeEntry},
    w.untrimmed.log[n]? = some e → e.types[T]? = some te → n ≤ w.store.typeState T
  nodup : ∀ {n : ℕ} {e : LogEntry} {T : String} {te : LogTypeEntry},
    w.untrimmed.log[n]? = some e → e.types[T]? = some te → te.ids.Nodup

theorem World.Ok.init : World.Ok World.init := by
  constructor <;> simp [World.init, Store.typeState, Store.SameButLog]

section Invariants

variable {w w' : World}

theorem World.Ok.freshDraw (hw : w.Ok) {draw : ℕ → JmapId} (hfresh : ∀ i < n, draw i ∉ w.issued) :
    FreshDraw draw w.store n := by
  intro i hi T
  by_contra h
  obtain ⟨obj, hobj⟩ := Option.ne_none_iff_exists'.mp h
  exact hfresh i hi (hw.issued hobj)

theorem CommitEffect.log_cases {c : Commit} {te : String → LogTypeEntry} {s' r : Store}
    (heff : CommitEffect db c te batch s s') {e : LogEntry}
    (h : (applyBatch batch r).log[n]? = some e) :
    r.log[n]? = some e ∨ n = s.seq + 1 ∧ ∀ (T : String) (te' : LogTypeEntry),
      e.types[T]? = some te' → te' = te T ∧ ¬ (te T).isEmpty := by
  rcases heff.log with ⟨-, hlog⟩ | ⟨e0, hlog, htypes⟩
  · exact .inl (hlog r ▸ h)
  · rw [hlog, Map.getElem?_insert] at h
    split at h
    · rename_i hn
      cases h
      refine .inr ⟨hn.symm, fun T te' hT => ?_⟩
      rw [htypes] at hT
      split at hT
      · cases hT
      · exact ⟨(Option.some.inj hT).symm, by assumption⟩
    · exact .inl h

theorem World.Ok.commit (hw : w.Ok) {c : Commit}
    (hfresh : ∀ i < c.drawn db w.store, c.draw i ∉ w.issued)
    (h : (db.update acct c).run w.store = .ok (some batch)) : (w.afterCommit db c batch).Ok := by
  obtain ⟨te, heff⟩ := commit_effect (hw.freshDraw hfresh) h
  have hseq := heff.seq
  have hstate : ∀ T, (applyBatch batch w.store).typeState T = w.store.typeState T ∨
      (applyBatch batch w.store).typeState T = w.store.seq + 1 := by
    intro T
    by_cases hT : (te T).isEmpty
    · exact heff.typeState_other hT
    · exact .inr (heff.typeState_touched hT)
  unfold World.afterCommit
  refine ⟨?_, hw.same.applyBatch batch, ?_, ?_, ?_, ?_, ?_, ?_, ?_⟩ <;> dsimp only
  · intro k obj hk
    cases hold : w.store.objs[k]? with
    | some old => exact .inl (hw.issued hold)
    | none =>
      exact .inr (heff.drawn (heff.created.mpr ⟨hold, by simp [hk]⟩))
  · rw [heff.floor]
    exact hw.floor_zero
  · intro n
    have hle := hw.floor_le_seq
    rw [heff.floor]
    rcases heff.log with ⟨-, hlog⟩ | ⟨e, hlog, -⟩
    · rw [hlog, hlog]
      exact hw.log n
    · rw [hlog, hlog, Map.getElem?_insert, Map.getElem?_insert, hw.log n]
      -- the new entry is past the floor
      by_cases hn : w.store.seq + 1 = n
      · rw [if_pos hn, if_neg (by omega), if_pos hn]
      · rw [if_neg hn, if_neg hn]
  · intro n e hn
    rcases heff.log_cases hn with hold | ⟨rfl, -⟩
    · have := hw.log_le_seq hold
      omega
    · omega
  · have := hw.floor_le_seq
    rw [heff.floor]
    omega
  · intro T
    have := hw.typeState_le_seq T
    rcases hstate T with h | h <;> omega
  · intro n e T te' hn hT
    rcases heff.log_cases hn with hold | ⟨rfl, htypes⟩
    · have h1 := hw.log_le_typeState hold hT
      have h2 := hw.log_le_seq hold
      rcases hstate T with h | h <;> omega
    · rw [heff.typeState_touched (htypes T te' hT).2]
  · intro n e T te' hn hT
    rcases heff.log_cases hn with hold | ⟨rfl, htypes⟩
    · exact hw.nodup hold hT
    · rw [(htypes T te' hT).1]
      exact heff.nodup T

theorem World.Ok.trim (hw : w.Ok) {s' : Store} (heff : TrimEffect w.store s') :
    World.Ok ⟨s', w.untrimmed, w.issued⟩ := by
  obtain ⟨⟨m, em, hm, hfl⟩, hlog, hrest⟩ := heff
  have hold : w.store.floor ≤ m ∧ w.untrimmed.log[m]? = some em := by
    rw [hw.log] at hm
    split at hm
    · cases hm
    · exact ⟨by omega, hm⟩
  refine ⟨?_, ?_, hw.floor_zero, ?_, ?_, ?_, ?_, ?_, hw.nodup⟩ <;> dsimp only
  · rw [hrest.objs_eq]
    exact hw.issued
  · exact hw.same.trans hrest.symm
  · intro n
    rw [hlog n, hw.log n]
    by_cases hn : n < s'.floor
    · rw [if_pos hn, if_pos hn]
    · rw [if_neg hn, if_neg hn, if_neg (by omega)]
  · rw [hrest.seq_eq]
    exact hw.log_le_seq
  · have := hw.log_le_seq hold.2
    rw [hrest.seq_eq]
    omega
  · rw [hrest.seq_eq, hrest.typeState_eq]
    exact hw.typeState_le_seq
  · rw [hrest.typeState_eq]
    exact hw.log_le_typeState

theorem World.Ok.step {a : Action} (hw : w.Ok) (hstep : Step db acct w a w') : w'.Ok := by
  cases hstep with
  | commit hfresh _ h => exact hw.commit hfresh h
  | trim h => exact hw.trim (trim_effect h)

theorem Run.ok {acts : List Action} (hrun : Run db acct w acts w') (hw : w.Ok) : w'.Ok :=
  hrun.induct (fun h hstep => h.step hstep) hw

theorem Reachable.ok (h : Reachable db acct w) : w.Ok :=
  let ⟨_, hrun⟩ := h
  hrun.ok World.Ok.init

end Invariants

/-! ## What the log tells about one id -/

def Store.has (s : Store) (T : String) (id : JmapId) : Bool := (s.objs[RecKey.mk T id]?).isSome

def LogTypeEntry.eventsOf (te : LogTypeEntry) (id : JmapId) : List Disp :=
  (te.events.filter (·.1 = id)).map Prod.snd

/-- The events a part of the log holds for one id of a type, in order. -/
def history (T : String) (id : JmapId) (entries : List (ℕ × LogEntry)) : List Disp :=
  entries.flatMap fun e => (e.2.types[T]?).elim [] (·.eventsOf id)

/-- An event takes a record from absent or present to absent or present. -/
def Disp.takes (d : Disp) (before after : Bool) : Bool :=
  match d with
  | .created => !before && after
  | .updated => before && after
  | .destroyed => before && !after

/-- The event lists a record can go through, from `before` to present or absent at the end. -/
inductive Lifeline (before : Bool) : List Disp → Bool → Prop where
  | nil : Lifeline before [] before
  | snoc {evs : List Disp} {mid after : Bool} {d : Disp} (h : Lifeline before evs mid)
      (hd : d.takes mid after = true) : Lifeline before (evs ++ [d]) after

theorem history_append (T : String) (id : JmapId) (l1 l2 : List (ℕ × LogEntry)) :
    history T id (l1 ++ l2) = history T id l1 ++ history T id l2 := by
  simp [history]

theorem history_filter {T : String} {keep : ℕ × LogEntry → Bool}
    (h : ∀ e ∈ l, keep e = false → e.2.types[T]? = none) :
    history T id (l.filter keep) = history T id l := by
  induction l with
  | nil => rfl
  | cons e l ih =>
    have ih := ih fun e' he' => h e' (List.mem_cons_of_mem _ he')
    cases hk : keep e with
    | true =>
      rw [List.filter_cons_of_pos hk]
      exact congrArg (_ ++ ·) ih
    | false =>
      rw [List.filter_cons_of_neg (by simp [hk]), ih]
      simp [history, h e List.mem_cons_self hk]

theorem history_eq_nil {T : String} (h : ∀ e ∈ l, e.2.types[T]? = none) : history T id l = [] := by
  simp only [history, List.flatMap_eq_nil_iff]
  intro e he
  rw [h e he]
  rfl

theorem filter_eq_of_nodup {l : List JmapId} (h : l.Nodup) (id : JmapId) :
    l.filter (· = id) = if id ∈ l then [id] else [] := by
  have heq : l.filter (· == id) = _ := List.filter_beq id
  simp only [beq_eq_decide] at heq
  rw [heq]
  split
  · rename_i hmem
    rw [List.count_eq_one_of_mem h hmem]
    rfl
  · rename_i hmem
    rw [List.count_eq_zero_of_not_mem hmem]
    rfl

def LogTypeEntry.idsOf (te : LogTypeEntry) : Disp → List JmapId
  | .created => te.created
  | .updated => te.updated
  | .destroyed => te.destroyed

theorem LogTypeEntry.mem_eventsOf {te : LogTypeEntry} {d : Disp} :
    d ∈ te.eventsOf id ↔ id ∈ te.idsOf d := by
  cases d <;> simp [eventsOf, events, idsOf]

theorem LogTypeEntry.eventsOf_eq {te : LogTypeEntry} (h : te.ids.Nodup) (id : JmapId) :
    te.eventsOf id =
      (if id ∈ te.created then [.created] else []) ++
      (if id ∈ te.updated then [.updated] else []) ++
      (if id ∈ te.destroyed then [.destroyed] else []) := by
  obtain ⟨hcu, hd, -⟩ := List.nodup_append.mp h
  obtain ⟨hc, hu, -⟩ := List.nodup_append.mp hcu
  have part : ∀ (l : List JmapId) (d : Disp), l.Nodup →
      ((l.map (·, d)).filter (·.1 = id)).map Prod.snd = if id ∈ l then [d] else [] := by
    intro l d hl
    have : (l.map (·, d)).filter (·.1 = id) = (l.filter (· = id)).map (·, d) := by
      rw [List.filter_map]
      rfl
    rw [this, filter_eq_of_nodup hl]
    split <;> rfl
  simp only [eventsOf, events, List.filter_append, List.map_append, part _ _ hc, part _ _ hu,
    part _ _ hd]

section Window

variable {w w' : World} {s' : Store} {c : Commit} {te : String → LogTypeEntry} {T : String}

theorem LogTypeEntry.eventsOf_of_isEmpty {te : LogTypeEntry} (h : te.isEmpty) (id : JmapId) :
    te.eventsOf id = [] := by
  simp only [LogTypeEntry.isEmpty, Bool.and_eq_true, List.isEmpty_iff] at h
  simp [eventsOf, events, h.1.1, h.1.2, h.2]

theorem CommitEffect.lifeline (heff : CommitEffect db c te batch s s') {before : Bool}
    {evs : List Disp} (h : Lifeline before evs (s.has T id)) :
    Lifeline before (evs ++ (te T).eventsOf id) (s'.has T id) := by
  rw [LogTypeEntry.eventsOf_eq (heff.nodup T)]
  have hc := @heff.created T id
  have hd := @heff.destroyed T id
  have hu := @heff.updated T id
  unfold Store.has at h ⊢
  cases hb : s.objs[RecKey.mk T id]? <;> cases ha : s'.objs[RecKey.mk T id]? <;>
    simp only [hb, ha, Option.isSome_none, Option.isSome_some, reduceCtorEq, Bool.false_eq_true,
      and_false, false_and, and_self, iff_false, iff_true, imp_false] at h hc hd hu ⊢
  case none.none => simpa [hc, hd, hu] using h
  case none.some => simpa [hc, hd, hu] using h.snoc rfl
  case some.none => simpa [hc, hd, hu] using h.snoc rfl
  case some.some =>
    by_cases hmem : id ∈ (te T).updated
    · simpa [hc, hd, hmem] using h.snoc rfl
    · simpa [hc, hd, hmem] using h

/-- The log after a commit; `r` is the store or its untrimmed twin. -/
theorem CommitEffect.history (heff : CommitEffect db c te batch s s') {r : Store}
    (hle : ∀ {n : ℕ} {e : LogEntry}, r.log[n]? = some e → n ≤ s.seq) (hfirst : first ≤ s.seq + 1) :
    history T id ((applyBatch batch r).logFrom first) =
      history T id (r.logFrom first) ++ (te T).eventsOf id := by
  rcases heff.log with ⟨hempty, hlog⟩ | ⟨e, hlog, htypes⟩
  · rw [LogTypeEntry.eventsOf_of_isEmpty (hempty T)]
    simp [Store.logFrom, hlog]
  · have hscan : (applyBatch batch r).logFrom first = r.logFrom first ++ [(s.seq + 1, e)] := by
      refine logFrom_eq ?_ fun n e' => ?_
      · refine List.pairwise_append.mpr ⟨pairwise_logFrom r first, by simp, ?_⟩
        rintro ⟨n, e'⟩ hmem _ hlast
        obtain rfl := List.mem_singleton.mp hlast
        exact Nat.lt_succ_of_le (hle (Store.mem_logFrom.mp hmem).1)
      · rw [List.mem_append, Store.mem_logFrom, hlog, Map.getElem?_insert]
        by_cases hn : s.seq + 1 = n
        · subst hn
          have hnone : r.log[s.seq + 1]? = none := by
            by_contra hsome
            obtain ⟨e'', he''⟩ := Option.ne_none_iff_exists'.mp hsome
            have := hle he''
            omega
          simp [hnone, hfirst, eq_comm]
        · simp [hn, Ne.symm hn]
    rw [hscan, history_append]
    congr 1
    simp only [ObjectDB.history, List.flatMap_cons, List.flatMap_nil, List.append_nil, htypes]
    split
    · rename_i hT
      simp [LogTypeEntry.eventsOf_of_isEmpty hT]
    · rfl

theorem World.Ok.store_log_le_seq (hw : w.Ok) {e : LogEntry} (h : w.store.log[n]? = some e) :
    n ≤ w.store.seq := by
  rw [hw.log] at h
  split at h
  · cases h
  · exact hw.log_le_seq h

theorem World.Ok.logFrom (hw : w.Ok) (hfloor : w.store.floor ≤ first) :
    w.store.logFrom first = w.untrimmed.logFrom first := by
  refine logFrom_eq (pairwise_logFrom _ _) fun n e => ?_
  rw [Store.mem_logFrom, hw.log]
  constructor
  · rintro ⟨hn, hle⟩
    exact ⟨by rwa [if_neg (by omega)], hle⟩
  · rintro ⟨hn, hle⟩
    exact ⟨by rwa [if_neg (by omega)] at hn, hle⟩

def Action.trace (db : DB) (s : Store) : Action → List WriteOp
  | .commit c => c.trace db s
  | .trim _ => []

def Action.apply (db : DB) (acct : JmapId) (s : Store) : Action → Store
  | .commit c =>
    match (db.update acct c).run s with
    | .ok (some batch) => applyBatch batch s
    | _ => s
  | .trim a => ((DB.trimChanges a).run s).elim s (applyBatch · s)

def opsOf (db : DB) (acct : JmapId) : Store → List Action → List WriteOp
  | _, [] => []
  | s, a :: acts => a.trace db s ++ opsOf db acct (a.apply db acct s) acts

theorem Step.store_eq {a : Action} (h : Step db acct w a w') :
    w'.store = a.apply db acct w.store := by
  cases h with
  | commit _ _ h => simp [Action.apply, h, World.afterCommit]
  | trim h => simp [Action.apply, h]

theorem Run.store_eq {acts : List Action} (h : Run db acct w acts w') :
    w'.store = acts.foldl (Action.apply db acct) w.store := by
  induction h with
  | nil => rfl
  | snoc _ hstep ih => rw [hstep.store_eq, ih, List.foldl_concat]

theorem opsOf_append (s : Store) (acts acts' : List Action) :
    opsOf db acct s (acts ++ acts') =
      opsOf db acct s acts ++ opsOf db acct (acts.foldl (Action.apply db acct) s) acts' := by
  induction acts generalizing s with
  | nil => rfl
  | cons a acts ih => simp [opsOf, ih]

/-- What the untrimmed log from `first` on tells of one id, for a run of `ops`. -/
structure WindowSpec (db : DB) (w w' : World) (T : String) (id : JmapId) (first : ℕ)
    (ops : List WriteOp) : Prop where
  lifeline : Lifeline (w.store.has T id) (history T id (w'.untrimmed.logFrom first))
    (w'.store.has T id)
  /-- A record that exists at both ends and that the log says nothing about looks the same. -/
  quiet : history T id (w'.untrimmed.logFrom first) = [] → ∀ {t : TypeDesc} {old new : Object},
    db.types[T]? = some t → w.store.objs[RecKey.mk T id]? = some old →
      w'.store.objs[RecKey.mk T id]? = some new → SameVisible t old new
  /-- An id is not created a second time. -/
  fresh : .created ∈ history T id (w'.untrimmed.logFrom first) → id ∉ w.issued
  loud : .updated ∈ history T id (w'.untrimmed.logFrom first) → ∃ obj, .put T id obj ∈ ops

theorem Lifeline.eq_of_nil {b b' : Bool} (h : Lifeline b [] b') : b' = b := by
  generalize hevs : ([] : List Disp) = evs at h
  cases h with
  | nil => rfl
  | snoc => simp at hevs

/-- Some action takes the account from one state to the other. -/
def Moves (db : DB) (acct : JmapId) (w w' : World) : Prop := ∃ a, Step db acct w a w'

theorem Run.of_moves (h : Relation.ReflTransGen (Moves db acct) w w') :
    ∃ acts, Run db acct w acts w' := by
  induction h with
  | refl => exact ⟨[], .nil⟩
  | tail _ hstep ih =>
    obtain ⟨acts, hrun⟩ := ih
    obtain ⟨a, hstep⟩ := hstep
    exact ⟨_, hrun.snoc hstep⟩

variable {acts : List Action} (hrun : Run db acct w acts w') (hw : w.Ok)

include hrun

theorem Run.issued_subset : w.issued ⊆ w'.issued := by
  refine hrun.induct (P := fun v => w.issued ⊆ v.issued) (fun h hstep => ?_) subset_rfl
  cases hstep with
  | commit => exact h.trans Set.subset_union_left
  | trim => exact h

include hw

theorem Run.seq_le : w.store.seq ≤ w'.store.seq := by
  refine (hrun.induct (P := fun v => v.Ok ∧ w.store.seq ≤ v.store.seq) (fun h hstep => ?_)
    ⟨hw, le_rfl⟩).2
  refine ⟨h.1.step hstep, h.2.trans ?_⟩
  cases hstep with
  | commit hfresh _ h' =>
    obtain ⟨te, heff⟩ := commit_effect (h.1.freshDraw hfresh) h'
    exact heff.seq ▸ Nat.le_succ _
  | trim h' => exact (trim_effect h').rest.seq_eq.ge

theorem Run.floor_le : w.store.floor ≤ w'.store.floor := by
  refine (hrun.induct (P := fun v => v.Ok ∧ w.store.floor ≤ v.store.floor) (fun h hstep => ?_)
    ⟨hw, le_rfl⟩).2
  refine ⟨h.1.step hstep, h.2.trans ?_⟩
  cases hstep with
  | commit hfresh _ h' =>
    obtain ⟨te, heff⟩ := commit_effect (h.1.freshDraw hfresh) h'
    exact (heff.floor _).ge
  | trim h' =>
    obtain ⟨n, e, hn, hfloor⟩ := (trim_effect h').last
    rw [h.1.log] at hn
    split at hn
    · cases hn
    · exact hfloor ▸ by omega

theorem Run.untrimmed_log (hn : n ≤ w.store.seq) : w'.untrimmed.log[n]? = w.untrimmed.log[n]? := by
  induction hrun with
  | nil => rfl
  | @snoc acts w1 w2 a hrun hstep ih =>
    rw [← ih]
    cases hstep with
    | trim => rfl
    | @commit c batch hfresh _ h =>
      obtain ⟨te, heff⟩ := commit_effect ((hrun.ok hw).freshDraw hfresh) h
      have := hrun.seq_le hw
      rcases heff.log with ⟨-, hlog⟩ | ⟨e, hlog, -⟩
      · simp only [World.afterCommit, hlog]
      · simp only [World.afterCommit, hlog, Map.getElem?_insert]
        rw [if_neg (by omega)]

theorem Run.untrimmed_logFrom (first : ℕ) :
    w'.untrimmed.logFrom first = w.untrimmed.logFrom first ++
      (w'.untrimmed.logFrom first).filter (w.store.seq < ·.1) := by
  refine logFrom_eq ?_ fun n e => ?_
  · refine List.pairwise_append.mpr
      ⟨pairwise_logFrom _ _, (pairwise_logFrom _ _).filter _, fun a ha b hb => ?_⟩
    have h1 := hw.log_le_seq (Store.mem_logFrom.mp ha).1
    have h2 := of_decide_eq_true (List.mem_filter.mp hb).2
    exact h1.trans_lt h2
  · rw [List.mem_append, List.mem_filter, Store.mem_logFrom, Store.mem_logFrom]
    by_cases hn : n ≤ w.store.seq
    · simp [hrun.untrimmed_log hw hn, hn]
    · have hnone : w.untrimmed.log[n]? = none := by
        by_contra hsome
        obtain ⟨e', he'⟩ := Option.ne_none_iff_exists'.mp hsome
        exact hn (hw.log_le_seq he')
      simp [hnone, Nat.not_le.mp hn]

/-- **The log tells what happened**: for every id its exact events since a point. -/
theorem Run.window (hstate : w.store.typeState T < first) (hseq : first ≤ w.store.seq + 1) :
    WindowSpec db w w' T id first (opsOf db acct w.store acts) := by
  induction hrun with
  | nil =>
    -- the window starts after the last change of the type
    have hnil : history T id (w.untrimmed.logFrom first) = [] := by
      refine history_eq_nil fun e he => ?_
      by_contra hsome
      obtain ⟨te, hte⟩ := Option.ne_none_iff_exists'.mp hsome
      obtain ⟨hlog, hle⟩ := Store.mem_logFrom.mp he
      have := hw.log_le_typeState hlog hte
      omega
    refine ⟨by rw [hnil]; exact .nil, fun _ t old new _ hold hnew => ?_, ?_, ?_⟩
    · cases hold.symm.trans hnew
      exact SameVisible.refl t old
    · simp [hnil]
    · simp [hnil]
  | @snoc acts w1 w2 a hrun hstep ih =>
    have hw1 := hrun.ok hw
    rw [opsOf_append]
    cases hstep with
    | @commit c batch hfresh _ h =>
      obtain ⟨te, heff⟩ := commit_effect (hw1.freshDraw hfresh) h
      have hhist : history T id ((applyBatch batch w1.untrimmed).logFrom first) = _ :=
        heff.history hw1.log_le_seq (hseq.trans (Nat.succ_le_succ (hrun.seq_le hw)))
      constructor <;> simp only [World.afterCommit, hhist]
      · exact heff.lifeline ih.lifeline
      · intro hnil t old new ht hold hnew
        obtain ⟨hnil1, hnil2⟩ := List.append_eq_nil_iff.mp hnil
        have hhas : w1.store.has T id = true := by
          have := hnil1 ▸ ih.lifeline
          rw [this.eq_of_nil, Store.has, hold]
          rfl
        obtain ⟨mid, hmid⟩ := Option.isSome_iff_exists.mp hhas
        refine (ih.quiet hnil1 ht hold hmid).trans (heff.quiet ht hmid hnew fun hid => ?_)
        simpa [hnil2] using LogTypeEntry.mem_eventsOf (d := .updated).mpr hid
      · intro hmem
        rcases List.mem_append.mp hmem with hmem | hmem
        · exact ih.fresh hmem
        · obtain ⟨i, hi, rfl⟩ := heff.drawn (LogTypeEntry.mem_eventsOf.mp hmem)
          exact fun hin => hfresh i hi (hrun.issued_subset hin)
      · intro hmem
        rcases List.mem_append.mp hmem with hmem | hmem
        · obtain ⟨obj, hobj⟩ := ih.loud hmem
          exact ⟨obj, List.mem_append_left _ hobj⟩
        · obtain ⟨obj, hobj⟩ := heff.loud (LogTypeEntry.mem_eventsOf.mp hmem)
          refine ⟨obj, List.mem_append_right _ ?_⟩
          rw [← hrun.store_eq]
          exact List.mem_append_left _ hobj
    | trim h =>
      have hobjs := (trim_effect h).rest.objs_eq
      refine ⟨?_, ?_, ih.fresh, fun hmem => ?_⟩
      · simpa only [Store.has, hobjs] using ih.lifeline
      · simpa only [hobjs] using ih.quiet
      · obtain ⟨obj, hobj⟩ := ih.loud hmem
        exact ⟨obj, List.mem_append_left _ hobj⟩

end Window

/-! ## Running commits

Whether a list of commits runs on an account can be computed. -/

def World.commit (db : DB) (acct : JmapId) (w : World) (c : Commit) : World :=
  match (db.update acct c).run w.store with
  | .ok (some batch) => w.afterCommit db c batch
  | _ => w

/-- The ids a commit draws on `s`. -/
def Commit.drawnIds (db : DB) (s : Store) (c : Commit) : List JmapId :=
  (List.range (c.drawn db s)).map c.draw

/-- Every commit writes something and draws valid ids that are not among `issued`. -/
def runsOn (db : DB) (acct : JmapId) : Store → List JmapId → List Commit → Bool
  | _, _, [] => true
  | s, issued, c :: cs =>
    match (db.update acct c).run s with
    | .ok (some batch) =>
      (c.drawnIds db s).all (fun id => JmapId.valid id && id ∉ issued) &&
        runsOn db acct (applyBatch batch s) (issued ++ c.drawnIds db s) cs
    | _ => false

theorem runsOn_cons {c : Commit} {cs : List Commit} {w : World} {issued : List JmapId}
    (hissued : ∀ id ∈ w.issued, id ∈ issued) (h : runsOn db acct w.store issued (c :: cs) = true) :
    Step db acct w (.commit c) (w.commit db acct c) ∧
      ∃ issued', (∀ id ∈ (w.commit db acct c).issued, id ∈ issued') ∧
        runsOn db acct (w.commit db acct c).store issued' cs = true := by
  rw [runsOn] at h
  split at h
  · rename_i batch hbatch
    obtain ⟨hids, hrest⟩ := Bool.and_eq_true_iff.mp h
    have hids : ∀ i < c.drawn db w.store, JmapId.valid (c.draw i) ∧ c.draw i ∉ issued := by
      simpa [Commit.drawnIds] using hids
    have hcommit : w.commit db acct c = w.afterCommit db c batch := by
      rw [World.commit, hbatch]
    rw [hcommit]
    refine ⟨.commit (fun i hi hmem => (hids i hi).2 (hissued _ hmem))
      (fun i hi => (hids i hi).1) hbatch, _, ?_, hrest⟩
    rintro id (hid | ⟨i, hi, rfl⟩)
    · exact List.mem_append_left _ (hissued id hid)
    · exact List.mem_append_right _ (List.mem_map.mpr ⟨i, List.mem_range.mpr hi, rfl⟩)
  · cases h

def World.commits (db : DB) (acct : JmapId) (w : World) (cs : List Commit) : World :=
  cs.foldl (World.commit db acct) w

theorem Run.of_runsOn {cs cs' : List Commit} {w : World} {issued : List JmapId}
    (hissued : ∀ id ∈ w.issued, id ∈ issued)
    (h : runsOn db acct w.store issued (cs ++ cs') = true) :
    Run db acct w (cs.map .commit) (w.commits db acct cs) ∧
      Run db acct (w.commits db acct cs) (cs'.map .commit)
        ((w.commits db acct cs).commits db acct cs') := by
  induction cs generalizing w issued with
  | cons c cs ih =>
    obtain ⟨hstep, issued', hissued', hrest⟩ := runsOn_cons hissued h
    obtain ⟨h1, h2⟩ := ih hissued' hrest
    exact ⟨(Run.nil.snoc hstep).trans h1, h2⟩
  | nil =>
    refine ⟨.nil, ?_⟩
    induction cs' generalizing w issued with
    | nil => exact .nil
    | cons c cs' ih =>
      obtain ⟨hstep, issued', hissued', hrest⟩ := runsOn_cons hissued h
      exact (Run.nil.snoc hstep).trans (ih hissued' hrest)

def World.of (db : DB) (acct : JmapId) (cs : List Commit) : World :=
  World.init.commits db acct cs

theorem Reachable.of_runsOn {db : DB} {acct : JmapId} {cs cs' : List Commit}
    (h : runsOn db acct {} [] (cs ++ cs') = true) :
    Reachable db acct (World.of db acct cs) ∧
      Run db acct (World.of db acct cs) (cs'.map .commit)
        ((World.of db acct cs).commits db acct cs') := by
  obtain ⟨h1, h2⟩ := Run.of_runsOn (w := World.init) (by simp [World.init]) h
  exact ⟨⟨_, h1⟩, h2⟩

theorem Run.moves {w w' : World} {acts : List Action} (h : Run db acct w acts w') :
    Relation.ReflTransGen (Moves db acct) w w' := by
  induction h with
  | nil => exact .refl
  | snoc _ hstep ih => exact ih.tail ⟨_, hstep⟩

/-! ## A small account

One type with a visible and a hidden property, over a scanner that knows quoted strings
without escapes; concrete runs below are runs of this account. -/

def plainString (raw : Raw) : Option String :=
  match raw.toList with
  | '"' :: rest => if rest.getLast? = some '"' then some (String.ofList rest.dropLast) else none
  | _ => none

def plainScanner : Scanner where
  string := plainString
  stringFolded raw := (plainString raw).map bytesOf
  validString raw := (plainString raw).isSome
  bool _ := none
  int _ := none
  validObject _ := false
  validArray _ := false
  eachKey _ := none
  eachString _ := none
  validValue raw := (plainString raw).isSome
  parseTime _ := none

def noteType : TypeDesc where
  name := "Note"
  capability := "urn:note"
  properties := ((∅ : Map String Property).insert "title" { kind := .string }).insert "mark"
    { kind := .string, internal := true }

def noteDB : DB := (DB.new plainScanner).add noteType (by decide +kernel)

theorem noteDB_types : noteDB.types[noteType.name]? = some noteType :=
  DB.types_add

def createNotes (ids : List JmapId) : Commit where
  fn := ids.foldr (fun _ rest => .create "Note" ∅ fun _ => rest) (.done (.ok ()))
  draw i := ids.getD i "Z"
  now := 0

def putNote (id : JmapId) (title mark : Raw) : Commit where
  fn := .write (.put "Note" id
    ((((∅ : Object).insert "id" (quoteId id)).insert "title" title).insert "mark" mark))
    fun r => .done r
  draw _ := "Z"
  now := 0

def markNote (id : JmapId) (mark : Raw) : Commit where
  fn := .get "Note" id fun r =>
    .write (.putInternal "Note" id ((r.toOption.getD ∅).insert "mark" mark)) fun r => .done r
  draw _ := "Z"
  now := 0

def destroyNote (id : JmapId) : Commit where
  fn := .write (.destroy "Note" id) fun r => .done r
  draw _ := "Z"
  now := 0

end NaustJmap.ObjectDB
