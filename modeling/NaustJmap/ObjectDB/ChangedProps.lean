import NaustJmap.ObjectDB.Paging

/-!
# Which Properties Changed

The log entry of a commit lists the visible properties that its updates changed, and `DB.Changes`
answers the union of these lists over the entries it consumed (`UpdatedProps`).  A commit that
changes a visible property names it (`commit_changed_logged`); a run that changes one has a commit
that did, since no id is given out twice (`Run.changed_logged`); and a scan takes up the names of
every entry it consumed (`ChangesScan.scan_props`).
-/

namespace NaustJmap.ObjectDB

open Library

variable {name T : String} {m : Map String LogTypeEntry} {l : List (RecKey × StagedRecord)}
  {id : JmapId} {new : Object} {acts : List Action}

theorem mem_mergeProps {a b : List String} : name ∈ mergeProps a b ↔ name ∈ a ∨ name ∈ b := by
  simp [mergeProps, List.mem_insertionSort]

/-! ## The entry of a commit -/

/-- The entry lists the property among those that may have changed. -/
def LogTypeEntry.Lists (te : LogTypeEntry) (name : String) : Prop :=
  ∃ props, te.updatedProps = some props ∧ name ∈ props

section Entry

variable {db : DB}

theorem LogTypeEntry.Lists.logStep (e : RecKey × StagedRecord) (h : (m[T]?.getD {}).Lists name) :
    ((logStep db m e)[T]?.getD {}).Lists name := by
  obtain ⟨props, hprops, hname⟩ := h
  rw [logStep_getD]
  split
  · unfold logStaged
    split
    · exact ⟨props, hprops, hname⟩
    · split
      · exact ⟨props, hprops, hname⟩
      · split
        · exact ⟨props, hprops, hname⟩
        · refine ⟨_, rfl, mem_mergeProps.mpr (.inl ?_)⟩
          rwa [hprops]
  · exact ⟨props, hprops, hname⟩

theorem LogTypeEntry.Lists.foldl (h : (m[T]?.getD {}).Lists name) :
    ((l.foldl (ObjectDB.logStep db) m)[T]?.getD {}).Lists name := by
  induction l generalizing m with
  | nil => exact h
  | cons e l ih => exact ih (h.logStep e)

theorem foldl_logStep_lists {st : StagedRecord} {t : TypeDesc} (hmem : (⟨T, id⟩, st) ∈ l)
    (ht : db.types[T]? = some t) (hst : st.isUpdate = true) (hnew : st.new = some new)
    (hdiff : name ∈ diffProps (st.old.getD ∅) new) (hvis : t.hides name = false)
    (m : Map String LogTypeEntry) : ((l.foldl (logStep db) m)[T]?.getD {}).Lists name := by
  simp only [StagedRecord.isUpdate, Bool.and_eq_true, Bool.not_eq_true'] at hst
  obtain ⟨⟨hcreated, hquiet⟩, -⟩ := hst
  induction l generalizing m with
  | nil => cases hmem
  | cons e l ih =>
    rcases List.mem_cons.mp hmem with rfl | hmem
    · -- the round of the record itself
      rw [List.foldl_cons]
      refine LogTypeEntry.Lists.foldl ?_
      rw [logStep_getD]
      simp only [logStaged, hnew, hcreated, hquiet, ht]
      refine ⟨_, rfl, mem_mergeProps.mpr (.inr (List.mem_filter.mpr ⟨hdiff, ?_⟩))⟩
      simp [hvis]
    · exact ih hmem _

end Entry

section Runs

variable {db : DB} {acct : JmapId} {t : TypeDesc} {old : Object}

theorem commit_changed_logged {c : Commit} {s : Store} {batch : List BatchOp}
    (hfresh : FreshDraw c.draw s (c.drawn db s))
    (h : (db.update acct c).run s = .ok (some batch)) (ht : db.types[T]? = some t)
    (hold : s.objs[RecKey.mk T id]? = some old)
    (hnew : (applyBatch batch s).objs[RecKey.mk T id]? = some new)
    (hvis : t.hides name = false) (hne : old[name]? ≠ new[name]?) :
    ∃ e te, (∀ r, (applyBatch batch r).log[s.seq + 1]? = some e) ∧ e.types[T]? = some te ∧
      id ∈ te.updated ∧ te.Lists name := by
  obtain ⟨u, ops, hexec, hops, rfl⟩ := update_eq_some h
  obtain ⟨hok, -, hsequence⟩ := exec_stagedOk hfresh hexec
  have hbatch := applyBatch_buildBatch hops
  rw [objs_of_stagedOk hok (hbatch s).2.2.1] at hnew
  cases hst : u.staged[RecKey.mk T id]? with
  | none =>
    -- an untouched record is the same
    rw [hst] at hnew
    exact absurd (by rw [Option.some.inj (hold.symm.trans hnew)]) hne
  | some st =>
    rw [hst] at hnew
    have hrec := hok _ st hst
    have hcreated : st.created = false := by
      by_contra hc
      rw [(hrec.created (by simpa using hc)).1] at hold
      cases hold
    have hquiet : st.quiet = false := by
      by_contra hq
      exact hne (hrec.quiet (by simpa using hq) ht hold hnew name hvis)
    have hupdate : st.isUpdate = true := by
      have hsome : st.new = some new := hnew
      simp [StagedRecord.isUpdate, hcreated, hquiet, hsome]
    have hpre : st.old = some old := (hrec.existing hcreated).1.trans hold
    have hreported : id ∈ (u.typeEntry db T).updated := by
      rw [(typeEntry_lists db u T).2.1]
      exact mem_reported.mpr ⟨st, hst, hupdate⟩
    have hlisted : (u.typeEntry db T).Lists name :=
      foldl_logStep_lists ((Map.mem_toList _ _ _).mpr hst) ht hupdate hnew
        (by rw [hpre]; exact mem_diffProps_iff.mpr hne) hvis ∅
    have hentry : (u.logTypes db)[T]? = some (u.typeEntry db T) := by
      rw [logTypes_getElem?, if_neg]
      intro hempty
      simp only [LogTypeEntry.isEmpty, Bool.and_eq_true, List.isEmpty_iff] at hempty
      rw [hempty.1.2] at hreported
      cases hreported
    refine ⟨⟨u.logTypes db, c.now⟩, _, fun r => ?_, hentry, hreported, hlisted⟩
    rw [(hbatch r).2.2.2.1, if_neg, hsequence]
    · simp
    · intro hempty
      rw [(Map.isEmpty_iff_forall _).mp hempty T] at hentry
      cases hentry

/-- A record at both ends of a run was there all the time: ids are not given out twice. -/
theorem Run.present {w w1 w2 : World} {a : Action} {k : RecKey} (hrun : Run db acct w acts w1)
    (hw : w.Ok) (hstep : Step db acct w1 a w2) (hold : w.store.objs[k]? = some old)
    (hnew : w2.store.objs[k]? = some new) : ∃ mid, w1.store.objs[k]? = some mid := by
  cases hstep with
  | trim h => exact ⟨new, (trim_effect h).rest.objs_eq ▸ hnew⟩
  | commit hfresh _ h =>
    by_contra hnone
    have hnone : w1.store.objs[k]? = none := by
      simpa only [not_exists, ← Option.eq_none_iff_forall_ne_some] using hnone
    -- then the commit created it, with an id that was handed out before the run
    obtain ⟨te, heff⟩ := commit_effect ((hrun.ok hw).freshDraw hfresh) h
    have hnew : (applyBatch _ w1.store).objs[k]? = some new := hnew
    obtain ⟨i, hi, hdraw⟩ := heff.drawn (heff.created.mpr ⟨hnone, by rw [hnew]; rfl⟩)
    exact hfresh i hi (hrun.issued_subset (hdraw ▸ hw.issued hold))

theorem Run.changed_logged {w w' : World} (hrun : Run db acct w acts w') (hw : w.Ok)
    (ht : db.types[T]? = some t) (hold : w.store.objs[RecKey.mk T id]? = some old)
    (hnew : w'.store.objs[RecKey.mk T id]? = some new) (hvis : t.hides name = false)
    (hne : old[name]? ≠ new[name]?) :
    ∃ n e te, w.store.seq < n ∧ n ≤ w'.store.seq ∧ w'.untrimmed.log[n]? = some e ∧
      e.types[T]? = some te ∧ id ∈ te.updated ∧ te.Lists name := by
  induction hrun generalizing new with
  | nil => exact absurd (by rw [Option.some.inj (hold.symm.trans hnew)]) hne
  | @snoc acts w1 w2 a hrun hstep ih =>
    obtain ⟨mid, hmid⟩ := hrun.present hw hstep hold hnew
    have hone : Run db acct w1 [a] w2 := Run.nil.snoc hstep
    by_cases hmidne : old[name]? = mid[name]?
    · -- the last step made the difference
      rw [hmidne] at hne
      cases hstep with
      | trim h =>
        rw [(trim_effect h).rest.objs_eq] at hnew
        exact absurd (by rw [Option.some.inj (hmid.symm.trans hnew)]) hne
      | commit hfresh _ h =>
        have hfresh' := (hrun.ok hw).freshDraw hfresh
        obtain ⟨e, te, hlog, hrest⟩ := commit_changed_logged hfresh' h ht hmid hnew hvis hne
        have hle := hrun.seq_le hw
        have hseq : (applyBatch _ w1.store).seq = w1.store.seq + 1 := update_seq h
        exact ⟨_, e, te, Nat.lt_succ_of_le hle, hseq.ge, hlog _, hrest⟩
    · -- it was there before, and its entry is still in the untrimmed log
      obtain ⟨n, e, te, hlt, hle, hlog, hrest⟩ := ih hmid hmidne
      refine ⟨n, e, te, hlt, hle.trans (hone.seq_le (hrun.ok hw)), ?_, hrest⟩
      rw [hone.untrimmed_log (hrun.ok hw) hle]
      exact hlog

end Runs

/-! ## The union a scan answers -/

namespace ChangesScan

variable {st st' : ChangesScan}

theorem foldl_apply_updatedProps (evs : List (JmapId × Disp)) (st : ChangesScan) :
    (evs.foldl apply st).updatedProps = st.updatedProps := by
  induction evs generalizing st with
  | nil => rfl
  | cons ev evs ih => rw [List.foldl_cons, ih]; rfl

theorem mem_consume_updatedProps {seq : ℕ} {te : LogTypeEntry}
    (h : name ∈ st.updatedProps ∨ te.updated ≠ [] ∧ te.Lists name) :
    name ∈ (st.consume seq te).updatedProps := by
  have hfold := foldl_apply_updatedProps te.events st
  unfold consume
  split
  · next hnil =>
    rcases h with h | h
    · rwa [hfold]
    · exact absurd hnil h.1
  · split
    · next hnone =>
      rcases h with h | ⟨-, props, hprops, -⟩
      · rwa [hfold]
      · rw [hnone] at hprops
        cases hprops
    · next props hsome =>
      refine mem_mergeProps.mpr ?_
      rcases h with h | ⟨-, props', hprops, hname⟩
      · exact .inl (hfold ▸ h)
      · rw [hsome] at hprops
        exact .inr (Option.some.inj hprops ▸ hname)

/-- A scan takes up what the entries up to its cursor list. -/
theorem scan_props {maxChanges : Int} {entries : List (ℕ × LogEntry)}
    (h : scan T maxChanges st entries = .ok st') (hmore : st.hasMore = false)
    (hsorted : entries.Pairwise fun a b => a.1 < b.1)
    (hlt : ∀ e ∈ entries, st.lastConsumed < e.1)
    (hname : name ∈ st.updatedProps ∨ ∃ n e te, (n, e) ∈ entries ∧
      (st'.hasMore = true → n ≤ st'.lastConsumed) ∧ e.types[T]? = some te ∧ te.updated ≠ [] ∧
        te.Lists name) : name ∈ st'.updatedProps := by
  induction entries generalizing st with
  | nil =>
    cases h
    rcases hname with h | ⟨_, _, _, hmem, _⟩
    · exact h
    · cases hmem
  | cons x entries ih =>
    obtain ⟨seq, e⟩ := x
    obtain ⟨hhead, hsorted⟩ := List.pairwise_cons.mp hsorted
    have hrest : ∀ e' ∈ entries, st.lastConsumed < e'.1 :=
      fun e' he' => hlt e' (List.mem_cons_of_mem _ he')
    rw [scan] at h
    split at h
    · -- an entry of other types
      next hT =>
      refine ih h ?_ hsorted ?_ ?_
      · split <;> exact hmore
      · intro e' he'
        split
        · exact hhead e' he'
        · exact hrest e' he'
      · rcases hname with h | ⟨n, e', te, hmem, hn, hT', hne, hlists⟩
        · exact .inl (by split <;> exact h)
        · rcases List.mem_cons.mp hmem with heq | hmem
          · obtain ⟨rfl, rfl⟩ := Prod.mk.inj heq
            rw [hT] at hT'
            cases hT'
          · exact .inr ⟨n, e', te, hmem, hn, hT', hne, hlists⟩
    · next te hT =>
      dsimp only at h
      split at h
      · -- the page is full: nothing was consumed past the cursor
        split at h
        · cases h
        · cases h
          rcases hname with h | ⟨n, e', te', hmem, hn, -⟩
          · exact h
          · have hle : n ≤ st.lastConsumed := hn rfl
            exact absurd (hlt _ hmem) (Nat.not_lt.mpr hle)
      · obtain ⟨-, hlast, hmore'⟩ := consume_eq st seq te
        refine ih h (hmore'.trans hmore) hsorted (by exact hhead) ?_
        rcases hname with h | ⟨n, e', te', hmem, hn, hT', hne, hlists⟩
        · exact .inl (mem_consume_updatedProps (.inl h))
        · rcases List.mem_cons.mp hmem with heq | hmem
          · obtain ⟨rfl, rfl⟩ := Prod.mk.inj heq
            cases hT.symm.trans hT'
            exact .inl (mem_consume_updatedProps (.inr ⟨hne, hlists⟩))
          · exact .inr ⟨n, e', te', hmem, hn, hT', hne, hlists⟩

end ChangesScan

/-! ## Answers -/

section Answers

variable {db : DB} {acct : JmapId} {t : TypeDesc} {w w1 w2 : World} {acts1 acts2 : List Action}
  {since : ℕ} {limit : Int} {cs : ChangeSet}

/-- The state an answer brings its client up to: that of its page if there is a further one. -/
def ChangeSet.BringsTo (cs : ChangeSet) (w1 w2 : World) : Prop :=
  if cs.hasMore then w1.store.seq = cs.newState else w1 = w2

theorem changes_updated_present (hreach : Reachable db acct w) (hrun1 : Run db acct w acts1 w1)
    (hrun2 : Run db acct w1 acts2 w2) (hstate : w.store.typeState t.name ≤ since)
    (hseq : since ≤ w.store.seq)
    (h : (db.changes t.name (some since) limit).run w2.store = .ok cs) (hend : cs.BringsTo w1 w2)
    (hid : id ∈ cs.updated) : w.store.has t.name id = true ∧ w1.store.has t.name id = true := by
  have hw := hreach.ok
  have hw1 := hrun1.ok hw
  have hwindow : WindowSpec db w w1 t.name id (since + 1) (opsOf db acct w.store acts1) :=
    hrun1.window hw (Nat.lt_succ_of_le hstate) (Nat.succ_le_succ hseq)
  have hline := hwindow.lifeline
  obtain ⟨-, hfloor, -⟩ := changes_eq_ok h
  obtain ⟨evs, hcovers, hevs⟩ := changes_covers h
  -- the answer accounts for the events up to the end it brings to
  have hhist : history t.name id (w1.untrimmed.logFrom (since + 1)) = evs id := by
    unfold ChangeSet.BringsTo at hend
    split at hend
    · next hmore =>
      rw [if_pos hmore] at hevs
      obtain ⟨hlt, -, hsplit⟩ := hevs
      have hsplit := hsplit id
      rw [((hrun2.ok hw1).logFrom hfloor), (hrun2.ok hw1).logFrom (by omega),
        hrun2.untrimmed_logFrom hw1 (since + 1), history_append] at hsplit
      have hrest : w2.untrimmed.logFrom (cs.newState + 1) =
          (w2.untrimmed.logFrom (since + 1)).filter (w1.store.seq < ·.1) := by
        refine logFrom_eq ((pairwise_logFrom _ _).filter _) fun n e => ?_
        rw [List.mem_filter, Store.mem_logFrom, decide_eq_true_eq, hend]
        constructor
        · rintro ⟨⟨h1, -⟩, h2⟩
          exact ⟨h1, h2⟩
        · rintro ⟨h1, h2⟩
          exact ⟨⟨h1, by omega⟩, h2⟩
      rw [← hrest] at hsplit
      exact List.append_cancel_right hsplit
    · next hmore =>
      rw [if_neg hmore] at hevs
      subst hend
      rw [← hw1.logFrom hfloor]
      exact hevs id
  have hout := (hcovers id .updated).mp hid
  rw [← hhist, hline.outcome_eq, Disp.between_eq_updated] at hout
  exact ⟨hout.1, hout.2.1⟩

theorem changes_lists_changed (hreach : Reachable db acct w) (hrun1 : Run db acct w acts1 w1)
    (hrun2 : Run db acct w1 acts2 w2) (ht : db.types[t.name]? = some t)
    (hseq : since ≤ w.store.seq)
    (h : (db.changes t.name (some since) limit).run w2.store = .ok cs) (hend : cs.BringsTo w1 w2)
    {props : List String} (hprops : cs.updatedProps = some props) {old : Object}
    (hold : w.store.objs[RecKey.mk t.name id]? = some old)
    (hnew : w1.store.objs[RecKey.mk t.name id]? = some new) (hvis : t.hides name = false)
    (hne : old[name]? ≠ new[name]?) : name ∈ props := by
  have hw := hreach.ok
  have hw1 := hrun1.ok hw
  obtain ⟨n, e, te, hlt, hle, hlog, hT, hid, hlists⟩ :=
    hrun1.changed_logged hw ht hold hnew hvis hne
  obtain ⟨-, hfloor, st, hscan, rfl⟩ := changes_eq_ok h
  have hmem : (n, e) ∈ w2.store.logFrom (since + 1) := by
    rw [(hrun2.ok hw1).logFrom hfloor]
    exact Store.mem_logFrom.mpr ⟨(hrun2.untrimmed_log hw1 hle).trans hlog, by omega⟩
  have hcursor : st.hasMore = true → n ≤ st.lastConsumed := by
    intro hmore
    have hend : w1.store.seq = st.lastConsumed := by
      simpa [ChangeSet.BringsTo, ChangesScan.changeSet, hmore] using hend
    omega
  have hin : name ∈ st.updatedProps := ChangesScan.scan_props hscan rfl
    (pairwise_logFrom _ _) (fun e he => (Store.mem_logFrom.mp he).2)
    (.inr ⟨n, e, te, hmem, hcursor, hT, List.ne_nil_of_mem hid, hlists⟩)
  simp only [ChangesScan.changeSet] at hprops
  split at hprops
  · exact Option.some.inj hprops ▸ hin
  · cases hprops

end Answers

end NaustJmap.ObjectDB
