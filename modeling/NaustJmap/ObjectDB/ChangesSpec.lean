import NaustJmap.ObjectDB.History

/-!
# What `DB.Changes` Answers

The scan of `DB.Changes` folds the events of the log into one disposition per id.
`ScanSpec` says what a scan has consumed, wherever a page ended; the answers of an unpaged
call, of an interleaved one and of a sequence of pages are read off it.
-/

namespace NaustJmap.ObjectDB

open Library

/-! ## Coalescing -/

/-- The disposition of an id with these events. -/
def outcome (evs : List Disp) : Option Disp := evs.foldl Disp.coalesce none

/-- The disposition that sums up the difference between two ends of a lifeline. -/
def Disp.between (before after touched : Bool) : Option Disp :=
  match before, after with
  | false, false => none
  | false, true => some .created
  | true, false => some .destroyed
  | true, true => if touched then some .updated else none

variable {before after touched : Bool} {evs : List Disp} {maxChanges : Int}
  {entries : List (ℕ × LogEntry)}

theorem Disp.between_eq_created :
    Disp.between before after touched = some .created ↔ before = false ∧ after = true := by
  revert before after touched
  decide

theorem Disp.between_eq_destroyed :
    Disp.between before after touched = some .destroyed ↔ before = true ∧ after = false := by
  revert before after touched
  decide

theorem Disp.between_eq_updated :
    Disp.between before after touched = some .updated ↔
      before = true ∧ after = true ∧ touched = true := by
  revert before after touched
  decide

theorem Lifeline.outcome_eq (h : Lifeline before evs after) :
    outcome evs = Disp.between before after (evs ≠ []) := by
  -- one more event on top of the difference so far
  have step : ∀ (before mid after touched : Bool) (d : Disp), d.takes mid after = true →
      (touched = false → before = mid) →
      Disp.coalesce (Disp.between before mid touched) d = Disp.between before after true := by
    intro before mid after touched d
    cases before <;> cases mid <;> cases after <;> cases touched <;> cases d <;> decide
  induction h with
  | nil => cases before <;> rfl
  | @snoc evs mid after d h hd ih =>
    rw [outcome, List.foldl_concat, ← outcome, ih]
    have htouched : decide (evs ++ [d] ≠ []) = true := by simp
    rw [htouched]
    refine step before mid after _ d hd fun hnil => ?_
    have hevs : evs = [] := by simpa using hnil
    subst hevs
    exact h.eq_of_nil.symm

theorem Lifeline.split {evs1 evs2 : List Disp} (h : Lifeline before evs after)
    (heq : evs = evs1 ++ evs2) : ∃ mid, Lifeline before evs1 mid ∧ Lifeline mid evs2 after := by
  induction h generalizing evs2 with
  | nil =>
    obtain ⟨rfl, rfl⟩ := List.append_eq_nil_iff.mp heq.symm
    exact ⟨_, .nil, .nil⟩
  | snoc h hd ih =>
    obtain rfl | ⟨evs2, d, rfl⟩ := List.eq_nil_or_concat' evs2
    · rw [List.append_nil] at heq
      exact ⟨_, heq ▸ h.snoc hd, .nil⟩
    · rw [← List.append_assoc] at heq
      obtain ⟨hinit, hlast⟩ := List.append_inj' heq rfl
      obtain ⟨mid, h1, h2⟩ := ih hinit
      obtain rfl := List.singleton_inj.mp hlast
      exact ⟨mid, h1, h2.snoc hd⟩

theorem Lifeline.before_eq_true (h : Lifeline before evs after) (hfresh : .created ∉ evs)
    (hafter : after = true) : before = true := by
  induction h with
  | nil => exact hafter
  | @snoc evs mid after d h hd ih =>
    obtain ⟨hfresh, hd'⟩ : .created ∉ evs ∧ .created ≠ d := by simpa using hfresh
    refine ih hfresh ?_
    cases d <;> simp_all [Disp.takes]

/-! ## The reply -/

section IdsWith

variable {δ : Type} [DecidableEq δ] {m : Map JmapId δ} {d : δ}

theorem mem_idsWith {id : JmapId} : id ∈ idsWith m d ↔ m[id]? = some d := by
  simp [idsWith]

theorem nodup_idsWith : (idsWith m d).Nodup :=
  (Map.nodup_toList_keys m).sublist (List.filter_sublist.map _)

end IdsWith

def ChangeSet.ids (cs : ChangeSet) : List JmapId := cs.created ++ cs.updated ++ cs.destroyed

def ChangeSet.idsOf (cs : ChangeSet) : Disp → List JmapId
  | .created => cs.created
  | .updated => cs.updated
  | .destroyed => cs.destroyed

namespace ChangesScan

theorem mem_changeSet {st : ChangesScan} {n : ℕ} {id : JmapId} {d : Disp} :
    id ∈ (st.changeSet n).idsOf d ↔ st.disp[id]? = some d := by
  cases d <;> exact mem_idsWith

theorem nodup_changeSet (st : ChangesScan) (n : ℕ) : (st.changeSet n).ids.Nodup := by
  have disjoint : ∀ {d d' : Disp}, d ≠ d' →
      ∀ a ∈ idsWith st.disp d, ∀ b ∈ idsWith st.disp d', a ≠ b := by
    rintro d d' hne a ha _ hb rfl
    exact hne (Option.some.inj ((mem_idsWith.mp ha).symm.trans (mem_idsWith.mp hb)))
  refine List.nodup_append.mpr ⟨List.nodup_append.mpr ⟨nodup_idsWith, nodup_idsWith,
    disjoint (by decide)⟩, nodup_idsWith, fun a ha b hb => ?_⟩
  rcases List.mem_append.mp ha with ha | ha
  · exact disjoint (by decide) a ha b hb
  · exact disjoint (by decide) a ha b hb

theorem length_changeSet (st : ChangesScan) (n : ℕ) :
    (st.changeSet n).ids.length = st.disp.size := by
  have split : ∀ l : List (JmapId × Disp),
      (l.filter (·.2 = .created)).length + (l.filter (·.2 = .updated)).length +
        (l.filter (·.2 = .destroyed)).length = l.length := by
    intro l
    induction l with
    | nil => rfl
    | cons x l ih =>
      obtain ⟨id, d⟩ := x
      cases d <;> simp <;> omega
  rw [← Std.ExtTreeMap.length_toList, ← split]
  simp [ChangeSet.ids, changeSet, idsWith, Nat.add_assoc]

/-! ## The scan -/

/-- What a scan that came from `st` to `st'` has consumed. -/
structure Consumed (T : String) (st st' : ChangesScan) (part : List (ℕ × LogEntry)) : Prop where
  disp : ∀ id, st'.disp[id]? = (history T id part).foldl Disp.coalesce st.disp[id]?
  cursor_le : st.lastConsumed ≤ st'.lastConsumed
  /-- What was read past the cursor tells nothing about the type. -/
  past : ∀ e ∈ part, st'.lastConsumed < e.1 → e.2.types[T]? = none
  cursor : st'.lastConsumed = st.lastConsumed ∨ st'.lastConsumed ∈ part.map Prod.fst
  progress : ¬ st'.disp.isEmpty → ¬ st.disp.isEmpty ∨ st.lastConsumed < st'.lastConsumed

variable {T : String} {st st' st1 st2 : ChangesScan} {part part1 part2 : List (ℕ × LogEntry)}

theorem Consumed.refl (T : String) (st : ChangesScan) : Consumed T st st [] :=
  ⟨fun _ => rfl, le_rfl, by simp, .inl rfl, .inl⟩

theorem Consumed.trans (h1 : Consumed T st st1 part1) (h2 : Consumed T st1 st2 part2) :
    Consumed T st st2 (part1 ++ part2) where
  disp id := by rw [history_append, List.foldl_append, ← h1.disp, h2.disp]
  cursor_le := h1.cursor_le.trans h2.cursor_le
  past e he hlt := by
    rcases List.mem_append.mp he with he | he
    · exact h1.past e he (h2.cursor_le.trans_lt hlt)
    · exact h2.past e he hlt
  cursor := by
    rw [List.map_append, List.mem_append]
    rcases h2.cursor with h | h
    · rw [h]
      exact h1.cursor.imp_right .inl
    · exact .inr (.inr h)
  progress hne := by
    rcases h2.progress hne with h | h
    · exact (h1.progress h).imp_right (·.trans_le h2.cursor_le)
    · exact .inr (h1.cursor_le.trans_lt h)

theorem apply_disp (st : ChangesScan) (ev : JmapId × Disp) (id : JmapId) :
    (st.apply ev).disp[id]? =
      if ev.1 = id then Disp.coalesce st.disp[id]? ev.2 else st.disp[id]? := by
  unfold apply
  by_cases h : ev.1 = id
  · subst h
    cases Disp.coalesce st.disp[ev.1]? ev.2 <;> simp
  · cases Disp.coalesce st.disp[ev.1]? ev.2 <;>
      simp [h, Map.getElem?_insert, Map.getElem?_erase]

theorem foldl_apply_disp (evs : List (JmapId × Disp)) (st : ChangesScan) (id : JmapId) :
    (evs.foldl apply st).disp[id]? =
      ((evs.filter (·.1 = id)).map Prod.snd).foldl Disp.coalesce st.disp[id]? := by
  induction evs generalizing st with
  | nil => rfl
  | cons ev evs ih =>
    rw [List.foldl_cons, ih, apply_disp]
    by_cases h : ev.1 = id <;> simp [h]

theorem foldl_apply_hasMore (evs : List (JmapId × Disp)) (st : ChangesScan) :
    (evs.foldl apply st).hasMore = st.hasMore := by
  induction evs generalizing st with
  | nil => rfl
  | cons ev evs ih => rw [List.foldl_cons, ih]; rfl

theorem size_foldl_apply_le (evs : List (JmapId × Disp)) (st : ChangesScan) :
    (evs.foldl apply st).disp.size ≤ st.disp.size + evs.length := by
  induction evs generalizing st with
  | nil => simp
  | cons ev evs ih =>
    have hone : (st.apply ev).disp.size ≤ st.disp.size + 1 := by
      unfold apply
      split
      · exact Std.ExtTreeMap.size_insert_le
      · exact Std.ExtTreeMap.size_erase_le.trans (Nat.le_succ _)
    have := ih (st.apply ev)
    rw [List.foldl_cons, List.length_cons]
    omega

theorem consume_eq (st : ChangesScan) (seq : ℕ) (te : LogTypeEntry) :
    (st.consume seq te).disp = (te.events.foldl apply st).disp ∧
      (st.consume seq te).lastConsumed = seq ∧ (st.consume seq te).hasMore = st.hasMore := by
  rw [← foldl_apply_hasMore te.events st]
  unfold consume
  split
  · exact ⟨rfl, rfl, rfl⟩
  · split <;> exact ⟨rfl, rfl, rfl⟩

theorem consume_disp {seq : ℕ} {e : LogEntry} {te : LogTypeEntry} (hT : e.types[T]? = some te)
    (id : JmapId) : (st.consume seq te).disp[id]? =
      (history T id [(seq, e)]).foldl Disp.coalesce st.disp[id]? := by
  rw [(consume_eq st seq te).1, foldl_apply_disp]
  simp [history, hT, LogTypeEntry.eventsOf]

theorem consumed_consume {seq : ℕ} {e : LogEntry} {te : LogTypeEntry}
    (hT : e.types[T]? = some te) (hlt : st.lastConsumed < seq) :
    Consumed T st (st.consume seq te) [(seq, e)] := by
  obtain ⟨-, hlast, -⟩ := consume_eq st seq te
  exact ⟨consume_disp hT, hlt.le, by simp [hlast], .inr (by simp [hlast]),
    fun _ => .inr (hlast ▸ hlt)⟩

theorem consumed_skip {seq : ℕ} {e : LogEntry} (hT : e.types[T]? = none)
    (hlt : st.lastConsumed < seq) :
    Consumed T st (if st.disp.isEmpty then { st with lastConsumed := seq } else st)
      [(seq, e)] := by
  have hnil : ∀ id, history T id [(seq, e)] = [] := fun id => history_eq_nil (by simpa using hT)
  split
  · rename_i hempty
    exact ⟨fun id => by rw [hnil]; rfl, hlt.le, by simp, .inr (by simp),
      fun h => absurd hempty h⟩
  · exact ⟨fun id => by rw [hnil]; rfl, le_rfl, by simpa using fun _ => hT, .inl rfl, .inl⟩

/-- A scan read everything, or stopped before an entry that no longer fits the page. -/
inductive Ended (T : String) (maxChanges : Int) (st' : ChangesScan) :
    List (ℕ × LogEntry) → Prop where
  | all (h : st'.hasMore = false) : Ended T maxChanges st' []
  | full {seq : ℕ} {e : LogEntry} {te : LogTypeEntry} {rest : List (ℕ × LogEntry)}
      (h : st'.hasMore = true) (hmax : 0 < maxChanges) (hT : e.types[T]? = some te)
      (hheld : ¬ st'.disp.isEmpty) : Ended T maxChanges st' ((seq, e) :: rest)

/-- **What a scan answers from.** -/
theorem scan_eq_ok (h : scan T maxChanges st entries = .ok st') (hmore : st.hasMore = false)
    (hsorted : entries.Pairwise fun a b => a.1 < b.1) (hlt : ∀ e ∈ entries, st.lastConsumed < e.1) :
    ∃ part rest, entries = part ++ rest ∧ Consumed T st st' part ∧ Ended T maxChanges st' rest ∧
      (0 < maxChanges → st.disp.size ≤ maxChanges → st'.disp.size ≤ maxChanges) := by
  induction entries generalizing st with
  | nil =>
    obtain rfl := Except.ok.inj h
    exact ⟨[], [], rfl, .refl T st, .all hmore, fun _ h => h⟩
  | cons x entries ih =>
    obtain ⟨seq, e⟩ := x
    obtain ⟨hhead, hsorted⟩ := List.pairwise_cons.mp hsorted
    have hseq : st.lastConsumed < seq := hlt (seq, e) List.mem_cons_self
    have hrest : ∀ e' ∈ entries, st.lastConsumed < e'.1 :=
      fun e' he' => hlt e' (List.mem_cons_of_mem _ he')
    rw [scan] at h
    split at h
    · rename_i hT
      -- an entry without the type moves the state on only while nothing is held
      have hskip := consumed_skip hT hseq
      generalize hst1 : (if st.disp.isEmpty then { st with lastConsumed := seq } else st) = st1
        at h hskip
      have hmore1 : st1.hasMore = false ∧ st1.disp = st.disp ∧
          (st1.lastConsumed = st.lastConsumed ∨ st1.lastConsumed = seq) := by
        subst hst1
        split <;> simp [hmore]
      obtain ⟨part, rest, rfl, hc, he, hsize⟩ := ih h hmore1.1 hsorted (fun e' he' => by
        rcases hmore1.2.2 with h | h <;> rw [h]
        · exact hrest e' he'
        · exact hhead e' he')
      exact ⟨(seq, e) :: part, rest, rfl, hskip.trans hc, he, by rwa [hmore1.2.1] at hsize⟩
    · rename_i te hT
      dsimp only at h
      split at h
      · rename_i hfull
        -- the page is full: a held change lets it end before this entry
        split at h
        · cases h
        · rename_i hheld
          cases h
          exact ⟨[], (seq, e) :: entries, rfl,
            ⟨fun _ => rfl, le_rfl, by simp, .inl rfl, .inl⟩, .full rfl hfull.1 hT hheld,
            fun _ h => h⟩
      · rename_i hfits
        obtain ⟨hdisp, hlast, hmore'⟩ := consume_eq st seq te
        obtain ⟨part, rest, rfl, hc, he, hsize⟩ := ih h (hmore'.trans hmore) hsorted
          (by exact hhead)
        refine ⟨(seq, e) :: part, rest, rfl, (consumed_consume hT hseq).trans hc, he,
          fun hpos _ => hsize hpos ?_⟩
        have hle := size_foldl_apply_le te.events st
        simp only [LogTypeEntry.events, List.length_append, List.length_map] at hle
        rw [hdisp]
        simp only [LogTypeEntry.events]
        omega

/-- A scan refuses an entry larger than a page, when what it read before it comes to nothing. -/
theorem scan_eq_error {err : Err} (h : scan T maxChanges st entries = .error err) :
    err = .cannotCalculateChanges ∧ 0 < maxChanges ∧
      ∃ part n e te rest, entries = part ++ (n, e) :: rest ∧
        (∀ id : JmapId, (history T id part).foldl Disp.coalesce st.disp[id]? = none) ∧
        e.types[T]? = some te ∧ maxChanges < te.ids.length := by
  induction entries generalizing st with
  | nil => cases h
  | cons x entries ih =>
    obtain ⟨seq, e⟩ := x
    have later : ∀ {st1 : ChangesScan}, (∀ id : JmapId, st1.disp[id]? =
        (history T id [(seq, e)]).foldl Disp.coalesce st.disp[id]?) → ∀ {part id},
        (history T id part).foldl Disp.coalesce st1.disp[id]? = none →
          (history T id ((seq, e) :: part)).foldl Disp.coalesce st.disp[id]? = none := by
      intro st1 hdisp part id hnone
      rw [← List.singleton_append, history_append, List.foldl_append, ← hdisp, hnone]
    rw [scan] at h
    split at h
    · rename_i hT
      obtain ⟨herr, hpos, part, n, e', te, rest, rfl, hnone, hrest⟩ := ih h
      refine ⟨herr, hpos, (seq, e) :: part, n, e', te, rest, rfl,
        fun id => later (fun id => ?_) (hnone id), hrest⟩
      rw [history_eq_nil (by simpa using hT)]
      split <;> rfl
    · rename_i te hT
      dsimp only at h
      split at h
      · rename_i hfull
        split at h
        · rename_i hempty
          have hnone := Std.ExtTreeMap.isEmpty_iff.mp hempty
          refine ⟨(Except.error.inj h).symm, hfull.1, [], seq, e, te, entries, rfl,
            fun id => by simp [history, hnone], hT, ?_⟩
          have hzero : st.disp.size = 0 := by
            rw [hnone]
            rfl
          simp only [LogTypeEntry.ids, List.length_append]
          omega
        · cases h
      · obtain ⟨herr, hpos, part, n, e', te', rest, rfl, hnone, hrest⟩ := ih h
        exact ⟨herr, hpos, (seq, e) :: part, n, e', te', rest, rfl,
          fun id => later (consume_disp hT) (hnone id), hrest⟩

end ChangesScan

/-! ## The call -/

/-- `DB.Changes` as a function of its five reads, at the instants `n`, …, `n + 4`. -/
theorem changes_runAt (db : DB) (T : String) (since : ℕ) (maxChanges : Int) (σ : ℕ → Store)
    (n : ℕ) :
    (ReadM.runAt σ (db.changes T (some since) maxChanges) n).1 =
      if (db.types[T]?).isSome then
        if since ≤ (σ n).seq ∧ (σ (n + 1)).floor ≤ since + 1 then
          match ChangesScan.scan T maxChanges { lastConsumed := since }
            ((σ (n + 2)).logFrom (since + 1)) with
          | .error e => .error e
          | .ok st =>
            if (σ (n + 3)).floor ≤ since + 1 then
              .ok (st.changeSet
                (if st.hasMore then st.lastConsumed else (σ (n + 4)).typeState T))
            else .error .cannotCalculateChanges
        else .error .cannotCalculateChanges
      else .error .unknownType := by
  simp only [DB.changes, ReadM.runAt_ensure_bind, ReadM.runAt_ofExcept_bind,
    ReadM.runAt_get_bind, Option.elim, Int.natCast_nonneg, if_true, Int.toNat_natCast]
  by_cases hT : (db.types[T]?).isSome
  · simp only [if_pos hT]
    by_cases hseq : since ≤ (σ n).seq
    · by_cases hfloor : (σ (n + 1)).floor ≤ since + 1
      · simp only [if_pos hseq, if_pos hfloor, if_pos (And.intro hseq hfloor)]
        split
        · rename_i st hst
          simp only [hst]
          by_cases hfloor' : (σ (n + 3)).floor ≤ since + 1
          · simp only [if_pos hfloor']
            cases hmore : st.hasMore <;> simp
          · simp only [if_neg hfloor']
        · rename_i e he
          simp only [he]
      · simp [hseq, hfloor]
    · simp [hseq]
  · simp only [if_neg hT]

theorem changes_run (db : DB) (T : String) (since : ℕ) (maxChanges : Int) (s : Store) :
    (db.changes T (some since) maxChanges).run s =
      if (db.types[T]?).isSome then
        if since ≤ s.seq ∧ s.floor ≤ since + 1 then
          match ChangesScan.scan T maxChanges { lastConsumed := since } (s.logFrom (since + 1)) with
          | .error e => .error e
          | .ok st =>
            .ok (st.changeSet (if st.hasMore then st.lastConsumed else s.typeState T))
        else .error .cannotCalculateChanges
      else .error .unknownType := by
  rw [ReadM.run_eq_runAt, changes_runAt]
  by_cases hok : since ≤ s.seq ∧ s.floor ≤ since + 1
  · simp only [if_pos hok, if_pos hok.2]
  · simp only [if_neg hok]

/-! ## Exactness -/

/-- A reply is the difference between two stores, for a run that did the operations `ops`. -/
structure ChangesExact (t : TypeDesc) (s s' : Store) (ops : List WriteOp) (cs : ChangeSet) :
    Prop where
  created : ∀ id, id ∈ cs.created ↔ s.has t.name id = false ∧ s'.has t.name id = true
  destroyed : ∀ id, id ∈ cs.destroyed ↔ s.has t.name id = true ∧ s'.has t.name id = false
  present : ∀ id ∈ cs.updated, s.has t.name id = true ∧ s'.has t.name id = true
  /-- Every visible difference is reported. -/
  updated : ∀ {id : JmapId} {old new : Object}, s.objs[RecKey.mk t.name id]? = some old →
    s'.objs[RecKey.mk t.name id]? = some new → ¬ SameVisible t old new → id ∈ cs.updated
  /-- Bookkeeping writes alone are not. -/
  internal : ∀ {id : JmapId}, (∀ op ∈ ops, op.target = some ⟨t.name, id⟩ →
    ∃ obj, op = .putInternal t.name id obj) → id ∉ cs.updated
  nodup : cs.ids.Nodup

section Exact

variable {db : DB} {acct : JmapId} {w w' : World} {acts : List Action} {t : TypeDesc}
  {since : ℕ}

theorem Lifeline.updated_mem (h : Lifeline true evs true) (hne : evs ≠ [])
    (hfresh : .created ∉ evs) : .updated ∈ evs := by
  cases h with
  | nil => exact absurd rfl hne
  | @snoc evs mid after d h hd =>
    cases d <;> simp_all [Disp.takes]

theorem ChangesScan.exact {st : ChangesScan} {n : ℕ} (hw : w.Ok)
    (hwin : ∀ id, WindowSpec db w w' t.name id (since + 1) (opsOf db acct w.store acts))
    (ht : db.types[t.name]? = some t)
    (hdisp : ∀ id, st.disp[id]? = outcome (history t.name id (w'.untrimmed.logFrom (since + 1)))) :
    ChangesExact t w.store w'.store (opsOf db acct w.store acts) (st.changeSet n) := by
  have hmem : ∀ id d, id ∈ (st.changeSet n).idsOf d ↔
      outcome (history t.name id (w'.untrimmed.logFrom (since + 1))) = some d := by
    intro id d
    rw [mem_changeSet, hdisp]
  have hpresent : ∀ id ∈ (st.changeSet n).updated, w.store.has t.name id = true ∧
      w'.store.has t.name id = true ∧
      history t.name id (w'.untrimmed.logFrom (since + 1)) ≠ [] := by
    intro id hid
    have h := (hmem id .updated).mp hid
    rw [(hwin id).lifeline.outcome_eq, Disp.between_eq_updated] at h
    simpa using h
  refine ⟨fun id => ?_, fun id => ?_, fun id hid => ?_, fun {id old new} hold hnew hdiff => ?_,
    fun {id} hops hid => ?_, nodup_changeSet st n⟩
  · refine (hmem id .created).trans ?_
    rw [(hwin id).lifeline.outcome_eq, Disp.between_eq_created]
  · refine (hmem id .destroyed).trans ?_
    rw [(hwin id).lifeline.outcome_eq, Disp.between_eq_destroyed]
  · exact ⟨(hpresent id hid).1, (hpresent id hid).2.1⟩
  · refine (hmem id .updated).mpr ?_
    rw [(hwin id).lifeline.outcome_eq, Disp.between_eq_updated]
    refine ⟨by rw [Store.has, hold]; rfl, by rw [Store.has, hnew]; rfl, decide_eq_true ?_⟩
    exact fun hnil => hdiff ((hwin id).quiet hnil ht hold hnew)
  · -- only an ordinary put makes the log say "updated", and no id is created twice
    obtain ⟨hb, ha, hne⟩ := hpresent id hid
    have hline := (hwin id).lifeline
    rw [hb, ha] at hline
    obtain ⟨old, hold⟩ := Option.isSome_iff_exists.mp hb
    have hloud := hline.updated_mem hne fun hc => (hwin id).fresh hc (hw.issued hold)
    obtain ⟨obj, hobj⟩ := (hwin id).loud hloud
    obtain ⟨obj', heq⟩ := hops _ hobj rfl
    cases heq

theorem ChangesScan.scan_unpaged {T : String} (hmax : maxChanges ≤ 0) (s : Store) (since : ℕ) :
    ∃ st, scan T maxChanges { lastConsumed := since } (s.logFrom (since + 1)) = .ok st ∧
      st.hasMore = false ∧
      ∀ id, st.disp[id]? = outcome (history T id (s.logFrom (since + 1))) := by
  cases hscan : scan T maxChanges { lastConsumed := since } (s.logFrom (since + 1)) with
  | error e =>
    have := (scan_eq_error hscan).2.1
    omega
  | ok st =>
    obtain ⟨part, rest, heq, hc, hend, -⟩ := scan_eq_ok hscan rfl (pairwise_logFrom s _)
      fun e he => (Store.mem_logFrom.mp he).2
    cases hend with
    | all hmore =>
      exact ⟨st, rfl, hmore, fun id => by rw [hc.disp, heq]; simp [outcome]⟩
    | full _ hpos => omega

/-- **An unpaged `DB.Changes` is exact.**  Between any two states of an account, from any
    client state that covers the earlier one, the call refuses if the floor has passed the
    client state and otherwise answers the difference, whatever the commits in between
    staged. -/
theorem changes_exact (hreach : Reachable db acct w) (hrun : Run db acct w acts w')
    (ht : db.types[t.name]? = some t) (hstate : w.store.typeState t.name ≤ since)
    (hseq : since ≤ w.store.seq) {maxChanges : Int} (hmax : maxChanges ≤ 0) :
    if w'.store.floor ≤ since + 1 then
      ∃ cs, (db.changes t.name (some since) maxChanges).run w'.store = .ok cs ∧
        ChangesExact t w.store w'.store (opsOf db acct w.store acts) cs ∧
        cs.newState = w'.store.typeState t.name ∧ cs.hasMore = false
    else
      (db.changes t.name (some since) maxChanges).run w'.store =
        .error .cannotCalculateChanges := by
  have hw := hreach.ok
  have hle := hseq.trans (hrun.seq_le hw)
  have htype : (db.types[t.name]?).isSome := by rw [ht]; rfl
  have hrun' := changes_run db t.name since maxChanges w'.store
  rw [if_pos htype] at hrun'
  by_cases hfloor : w'.store.floor ≤ since + 1
  · obtain ⟨st, hscan, hmore, hdisp⟩ :=
      ChangesScan.scan_unpaged hmax w'.store since
    rw [if_pos ⟨hle, hfloor⟩, hscan] at hrun'
    rw [if_pos hfloor]
    refine ⟨_, hrun', ?_, ?_, ?_⟩
    · rw [(hrun.ok hw).logFrom hfloor] at hdisp
      exact ChangesScan.exact hw
        (fun id => hrun.window hw (Nat.lt_succ_of_le hstate) (Nat.succ_le_succ hseq)) ht hdisp
    · simp [ChangesScan.changeSet, hmore]
    · simp [ChangesScan.changeSet, hmore]
  · rw [if_neg hfloor, hrun', if_neg fun h => hfloor h.2]

end Exact

/-- One note; then a second comes and goes, a third stays and the first gets a title. -/
def noteWorld : World := World.of noteDB "u" [createNotes ["A"]]

def laterNotes : List Commit :=
  [createNotes ["B", "C"], putNote "A" "\"t\"" "\"x\"", destroyNote "B"]

def laterWorld : World := noteWorld.commits noteDB "u" laterNotes

theorem laterWorld_run :
    Reachable noteDB "u" noteWorld ∧
      Run noteDB "u" noteWorld (laterNotes.map .commit) laterWorld :=
  @Reachable.of_runsOn noteDB "u" [createNotes ["A"]] laterNotes (by decide +kernel)

theorem changes_exact_notes :
    ∃ cs, (noteDB.changes "Note" (some 1) 0).run laterWorld.store = .ok cs ∧
      ChangesExact noteType noteWorld.store laterWorld.store
        (opsOf noteDB "u" noteWorld.store (laterNotes.map .commit)) cs ∧
      cs.created = ["C"] ∧ cs.updated = ["A"] ∧ cs.destroyed = [] := by
  obtain ⟨hreach, hrun⟩ := laterWorld_run
  have h := changes_exact hreach hrun noteDB_types
    (show _ ≤ 1 by decide +kernel) (by decide +kernel) (le_refl 0)
  rw [if_pos (by decide +kernel)] at h
  obtain ⟨cs, hcs, hexact, -⟩ := h
  have hval : (noteDB.changes "Note" (some 1) 0).run laterWorld.store =
      .ok ⟨4, false, ["C"], ["A"], [], some ["title"]⟩ := by
    decide +kernel
  cases hcs.symm.trans hval
  exact ⟨_, hcs, hexact, rfl, rfl, rfl⟩

section Exact

variable {db : DB} {acct : JmapId} {w w' : World} {acts : List Action} {t : TypeDesc}
  {since : ℕ}

/-! ## Calls that run beside commits and trims -/

theorem scanned_untrimmed {σ : ℕ → World} (hσ : Interleaving (Moves db acct) σ) {i j : ℕ}
    (hij : i ≤ j) (hok : (σ i).Ok) {first : ℕ} (hfloor : (σ j).store.floor ≤ first) :
    (σ i).store.logFrom first = (σ i).untrimmed.logFrom first := by
  obtain ⟨acts, hrun⟩ := Run.of_moves (hσ.reaches hij)
  exact hok.logFrom ((hrun.floor_le hok).trans hfloor)

/-- **An unpaged `DB.Changes` beside commits and trims.**  If no commit that reports the type
    takes effect between the scan of the log and the read of the type state, the answer
    accounts for every commit up to the state it returns. -/
theorem changes_interleaved {σ : ℕ → World} {n : ℕ} (hreach : Reachable db acct w)
    (hbefore : Relation.ReflTransGen (Moves db acct) w (σ n))
    (hσ : Interleaving (Moves db acct) σ) (ht : db.types[t.name]? = some t)
    (hstate : w.store.typeState t.name ≤ since) (hseq : since ≤ w.store.seq)
    {maxChanges : Int} (hmax : maxChanges ≤ 0)
    (hquiet : ∀ m e, (σ (n + 4)).untrimmed.log[m]? = some e → (σ (n + 2)).store.seq < m →
      e.types[t.name]? = none) {cs : ChangeSet}
    (hcs : (ReadM.runAt (fun i => (σ i).store) (db.changes t.name (some since) maxChanges) n).1 =
      .ok cs) :
    cs.newState = (σ (n + 4)).store.typeState t.name ∧ cs.hasMore = false ∧ cs.ids.Nodup ∧
      (∀ id d, id ∈ cs.idsOf d ↔ outcome (history t.name id
        (((σ (n + 4)).untrimmed.logFrom (since + 1)).filter (·.1 ≤ cs.newState))) = some d) ∧
      (∀ id, id ∈ cs.created ↔
        w.store.has t.name id = false ∧ (σ (n + 4)).store.has t.name id = true) ∧
      ∀ id, id ∈ cs.destroyed ↔
        w.store.has t.name id = true ∧ (σ (n + 4)).store.has t.name id = false := by
  have hw := hreach.ok
  have hok : ∀ i, n ≤ i → (σ i).Ok := fun i hi => by
    obtain ⟨acts, hrun⟩ := Run.of_moves (hbefore.trans (hσ.reaches hi))
    exact hrun.ok hw
  have htype : (db.types[t.name]?).isSome := by rw [ht]; rfl
  rw [changes_runAt, if_pos htype] at hcs
  split at hcs
  swap
  · cases hcs
  obtain ⟨st, hscan, hmore, hdisp⟩ :=
    ChangesScan.scan_unpaged (T := t.name) hmax (σ (n + 2)).store since
  simp only [hscan] at hcs
  split at hcs
  swap
  · cases hcs
  rename_i hfloor
  simp only [hmore, Bool.false_eq_true, if_false, Except.ok.injEq] at hcs
  subst hcs
  -- what was scanned is, for this type, the whole log at the instant of the last read
  obtain ⟨acts2, hrun2⟩ := Run.of_moves (hσ.reaches (show n + 2 ≤ n + 4 by omega))
  have hhist : ∀ id, history t.name id ((σ (n + 2)).store.logFrom (since + 1)) =
      history t.name id ((σ (n + 4)).untrimmed.logFrom (since + 1)) := by
    intro id
    rw [scanned_untrimmed hσ (show n + 2 ≤ n + 3 by omega) (hok _ (by omega)) hfloor,
      hrun2.untrimmed_logFrom (hok _ (by omega)), history_append]
    refine (List.append_right_eq_self.mpr (history_eq_nil fun e he => ?_)).symm
    obtain ⟨hlog, hlt⟩ := List.mem_filter.mp he
    exact hquiet e.1 e.2 (Store.mem_logFrom.mp hlog).1 (of_decide_eq_true hlt)
  have hupto : ∀ id, history t.name id (((σ (n + 4)).untrimmed.logFrom (since + 1)).filter
      (·.1 ≤ (σ (n + 4)).store.typeState t.name)) =
      history t.name id ((σ (n + 4)).untrimmed.logFrom (since + 1)) := by
    refine fun id => history_filter fun e he hkeep => ?_
    by_contra hsome
    obtain ⟨te, hte⟩ := Option.ne_none_iff_exists'.mp hsome
    have := (hok _ (by omega)).log_le_typeState (Store.mem_logFrom.mp he).1 hte
    simp [this] at hkeep
  obtain ⟨acts, hrun⟩ := Run.of_moves (hbefore.trans (hσ.reaches (show n ≤ n + 4 by omega)))
  have hwin : ∀ id, WindowSpec db w (σ (n + 4)) t.name id (since + 1)
      (opsOf db acct w.store acts) :=
    fun id => hrun.window hw (Nat.lt_succ_of_le hstate) (Nat.succ_le_succ hseq)
  have hexact := ChangesScan.exact (n := (σ (n + 4)).store.typeState t.name) hw hwin ht
    (fun id => by rw [hdisp, hhist])
  refine ⟨rfl, hmore, hexact.nodup, fun id d => ?_, hexact.created, hexact.destroyed⟩
  rw [ChangesScan.mem_changeSet, hdisp, hhist, ← hupto]
  rfl

end Exact

def noteWorld' : World := noteWorld.commits noteDB "u" [createNotes ["B"]]

theorem noteWorld_moves :
    Reachable noteDB "u" noteWorld ∧
      Relation.ReflTransGen (Moves noteDB "u") noteWorld noteWorld' := by
  obtain ⟨hreach, hrun⟩ := @Reachable.of_runsOn noteDB "u" [createNotes ["A"]] [createNotes ["B"]]
    (by decide +kernel)
  exact ⟨hreach, hrun.moves⟩

/-- The second note is created right before the log is scanned: it is reported. -/
theorem changes_interleaved_notes :
    ∃ cs, (ReadM.runAt (fun i => (switchAt 2 noteWorld noteWorld' i).store)
        (noteDB.changes "Note" (some 1) 0) 0).1 = .ok cs ∧
      cs.newState = 2 ∧ cs.created = ["B"] ∧
      ∀ id, id ∈ cs.created ↔
        noteWorld.store.has "Note" id = false ∧ noteWorld'.store.has "Note" id = true := by
  obtain ⟨hreach, hmoves⟩ := noteWorld_moves
  have hcs : (ReadM.runAt (fun i => (switchAt 2 noteWorld noteWorld' i).store)
      (noteDB.changes noteType.name (some ((1 : ℕ) : Int)) 0) 0).1 =
      .ok ⟨2, false, ["B"], [], [], some []⟩ := by
    decide +kernel
  have hok : noteWorld'.Ok := by
    obtain ⟨acts, hrun⟩ := Run.of_moves hmoves
    exact hrun.ok hreach.ok
  have h := changes_interleaved hreach .refl (.switchAt 2 hmoves) noteDB_types
    (by decide +kernel) (by decide +kernel) (le_refl 0)
    (fun m e hm hlt => absurd (hok.log_le_seq hm) (Nat.not_le.mpr hlt)) hcs
  exact ⟨_, hcs, rfl, rfl, h.2.2.2.2.1⟩

/-- The second note is created right after the log is scanned: the call returns the state
    after its commit without reporting it, and the next call no longer sees it. -/
theorem changes_misses_commit :
    Reachable noteDB "u" noteWorld ∧
      Interleaving (Moves noteDB "u") (switchAt 3 noteWorld noteWorld') ∧
      (∃ cs, (ReadM.runAt (fun i => (switchAt 3 noteWorld noteWorld' i).store)
          (noteDB.changes "Note" (some 1) 0) 0).1 = .ok cs ∧
        cs.newState = 2 ∧ "B" ∉ cs.ids) ∧
      (∃ e te, noteWorld'.store.log[2]? = some e ∧ e.types[("Note" : String)]? = some te ∧
        te.created = ["B"]) ∧
      ∃ cs, (noteDB.changes "Note" (some 2) 0).run noteWorld'.store = .ok cs ∧
        cs.newState = 2 ∧ cs.ids = [] := by
  obtain ⟨hreach, hmoves⟩ := noteWorld_moves
  refine ⟨hreach, .switchAt 3 hmoves, ?_, ?_, ?_⟩
  · exact ⟨⟨2, false, [], [], [], some []⟩, by decide +kernel, rfl, by decide⟩
  · have h : ((noteWorld'.store.log[2]?).bind (·.types[("Note" : String)]?)).map (·.created) =
        some ["B"] := by
      decide +kernel
    simpa [Option.bind_eq_some_iff] using h
  · exact ⟨⟨2, false, [], [], [], some []⟩, by decide +kernel, rfl, rfl⟩

end NaustJmap.ObjectDB
