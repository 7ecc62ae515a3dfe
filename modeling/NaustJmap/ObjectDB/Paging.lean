import NaustJmap.ObjectDB.ChangesSpec

/-!
# Paging Through `DB.Changes`

A client gets a page and, while `HasMoreChanges` is set, asks again from its state.  The pages end,
each one fits its limit, and together they leave the client where the unpaged answer would have.  A
commit that reports more ids than the limit cannot be split, and is refused (RFC 8620 section 5.2).
-/

namespace NaustJmap.ObjectDB

open Library

/-! ## The client -/

/-- Pages from `since` on, the `k`-th with the limit `limits k`; `none` when the fuel runs out. -/
def DB.changesPages (db : DB) (typeName : String) (limits : ℕ → Int) (s : Store) :
    (fuel k since : ℕ) → Option (List ChangeSet × Option Err)
  | 0, _, _ => none
  | fuel + 1, k, since =>
    match (db.changes typeName (some since) (limits k)).run s with
    | .error e => some ([], some e)
    | .ok cs =>
      if cs.hasMore then
        (changesPages db typeName limits s fuel (k + 1) cs.newState).map fun r =>
          (cs :: r.1, r.2)
      else some ([cs], none)

structure Client where
  ids : Set JmapId
  dirty : Set JmapId

def Client.apply (c : Client) (cs : ChangeSet) : Client where
  ids := {id | (id ∈ c.ids ∨ id ∈ cs.created) ∧ id ∉ cs.destroyed}
  dirty := {id | (id ∈ c.dirty ∨ id ∈ cs.updated) ∧ id ∉ cs.destroyed}

/-! ## One page -/

/-- A reply accounts for these events of each id. -/
def ChangeSet.Covers (cs : ChangeSet) (evs : JmapId → List Disp) : Prop :=
  ∀ id d, id ∈ cs.idsOf d ↔ outcome (evs id) = some d

section Page

variable {db : DB} {T : String} {since : ℕ} {limit : Int} {s : Store} {cs : ChangeSet}

theorem history_past_cursor {st : ChangesScan} {part rest : List (ℕ × LogEntry)} {id : JmapId}
    (hlog : s.logFrom (since + 1) = part ++ rest)
    (hc : ChangesScan.Consumed T { lastConsumed := since } st part) :
    history T id (s.logFrom (st.lastConsumed + 1)) = history T id rest := by
  have hle : since ≤ st.lastConsumed := hc.cursor_le
  have hsorted := pairwise_logFrom s (since + 1)
  rw [hlog] at hsorted
  have hbeyond : ∀ e ∈ rest, st.lastConsumed < e.1 := by
    intro e he
    rcases hc.cursor with hcur | hcur
    · rw [hcur]
      exact (Store.mem_logFrom.mp (hlog ▸ List.mem_append_right part he)).2
    · obtain ⟨e', he', hcur⟩ := List.mem_map.mp hcur
      exact hcur ▸ (List.pairwise_append.mp hsorted).2.2 e' he' e he
  have hsplit : s.logFrom (st.lastConsumed + 1) =
      (s.logFrom (since + 1)).filter (st.lastConsumed < ·.1) := by
    refine logFrom_eq ((pairwise_logFrom _ _).filter _) fun n e => ?_
    rw [List.mem_filter, Store.mem_logFrom, decide_eq_true_eq]
    constructor
    · rintro ⟨⟨h1, h2⟩, h3⟩
      exact ⟨h1, h3⟩
    · rintro ⟨h1, h2⟩
      exact ⟨⟨h1, by omega⟩, h2⟩
  rw [hsplit, hlog, List.filter_append, history_append,
    history_eq_nil fun e he => hc.past e (List.mem_filter.mp he).1
      (of_decide_eq_true (List.mem_filter.mp he).2),
    List.filter_eq_self.mpr fun e he => decide_eq_true (hbeyond e he), List.nil_append]

theorem changes_eq_ok (h : (db.changes T (some since) limit).run s = .ok cs) :
    since ≤ s.seq ∧ s.floor ≤ since + 1 ∧ ∃ st, ChangesScan.scan T limit { lastConsumed := since }
      (s.logFrom (since + 1)) = .ok st ∧
        cs = st.changeSet (if st.hasMore then st.lastConsumed else s.typeState T) := by
  rw [changes_run] at h
  split at h
  swap
  · cases h
  split at h
  swap
  · cases h
  rename_i hwin
  cases hscan : ChangesScan.scan T limit { lastConsumed := since } (s.logFrom (since + 1)) with
  | error e => simp [hscan] at h
  | ok st =>
    simp only [hscan, Except.ok.injEq] at h
    exact ⟨hwin.1, hwin.2, st, rfl, h.symm⟩

/-- An answer accounts for everything up to its state, which is further on if there is more. -/
theorem changes_covers (h : (db.changes T (some since) limit).run s = .ok cs) :
    ∃ evs : JmapId → List Disp, cs.Covers evs ∧
      if cs.hasMore then
        since < cs.newState ∧ (∃ e, s.log[cs.newState]? = some e) ∧
          ∀ id, history T id (s.logFrom (since + 1)) =
            evs id ++ history T id (s.logFrom (cs.newState + 1))
      else ∀ id, history T id (s.logFrom (since + 1)) = evs id := by
  obtain ⟨-, -, st, hscan, rfl⟩ := changes_eq_ok h
  obtain ⟨part, rest, hlog, hc, hend, -⟩ := ChangesScan.scan_eq_ok hscan rfl
    (pairwise_logFrom s _) fun e he => (Store.mem_logFrom.mp he).2
  refine ⟨fun id => history T id part, fun id d => ?_, ?_⟩
  · rw [ChangesScan.mem_changeSet, hc.disp]
    simp [outcome]
  · cases hend with
    | all hall =>
      rw [if_neg (by simp [ChangesScan.changeSet, hall])]
      intro id
      rw [hlog, List.append_nil]
    | full hfull _ _ hheld =>
      have hlt : since < st.lastConsumed := by
        simpa using hc.progress hheld
      rw [if_pos hfull]
      refine (if_pos hfull).mpr ⟨hlt, ?_, fun id => ?_⟩
      · rcases hc.cursor with hcur | hcur
        · exact absurd hcur (Nat.ne_of_gt hlt)
        · obtain ⟨e, he, hcur⟩ := List.mem_map.mp hcur
          exact ⟨e.2, hcur ▸ (Store.mem_logFrom.mp (hlog ▸ List.mem_append_left _ he)).1⟩
      · change _ = _ ++ history T id (s.logFrom (st.lastConsumed + 1))
        rw [history_past_cursor hlog hc, hlog, history_append]

theorem changes_page (hlimit : 1 ≤ limit)
    (h : (db.changes T (some since) limit).run s = .ok cs) :
    cs.ids.length ≤ limit ∧ since ≤ s.seq ∧ s.floor ≤ since + 1 ∧
      ∃ evs : JmapId → List Disp, cs.Covers evs ∧
        if cs.hasMore then
          since < cs.newState ∧ (∃ e, s.log[cs.newState]? = some e) ∧
            ∀ id, history T id (s.logFrom (since + 1)) =
              evs id ++ history T id (s.logFrom (cs.newState + 1))
        else ∀ id, history T id (s.logFrom (since + 1)) = evs id := by
  obtain ⟨hseq, hfloor, st, hscan, rfl⟩ := changes_eq_ok h
  obtain ⟨-, -, -, -, -, hsize⟩ := ChangesScan.scan_eq_ok hscan rfl
    (pairwise_logFrom s _) fun e he => (Store.mem_logFrom.mp he).2
  refine ⟨?_, hseq, hfloor, changes_covers h⟩
  rw [ChangesScan.length_changeSet]
  exact hsize (by omega) (by simp; omega)

end Page

/-! ## The client after some pages -/

/-- The client has taken in `seen` from `before`, with those of `stale` to be fetched again. -/
structure Client.Tracks (before : JmapId → Bool) (stale : Set JmapId) (seen : JmapId → List Disp)
    (c : Client) : Prop where
  ids : ∀ {id after}, Lifeline (before id) (seen id) after → (id ∈ c.ids ↔ after = true)
  /-- What was there all along and changed is to be fetched again. -/
  covers : ∀ {id}, before id = true → Lifeline (before id) (seen id) true →
    id ∈ stale ∨ seen id ≠ [] → id ∈ c.dirty
  /-- Nothing is to be fetched again without a reason. -/
  reason : ∀ {id after}, Lifeline (before id) (seen id) after → id ∈ c.dirty →
    after = true ∧ (before id = true → id ∈ stale ∨ seen id ≠ [])

section Tracks

variable {before : JmapId → Bool} {stale : Set JmapId} {seen evs : JmapId → List Disp}
  {c : Client} {cs : ChangeSet}

theorem Client.tracks_start (hstale : ∀ id ∈ stale, before id = true) :
    Client.Tracks before stale (fun _ => []) ⟨{id | before id = true}, stale⟩ where
  ids h := by rw [h.eq_of_nil]; rfl
  covers _ _ h := by simpa using h
  reason h hid := ⟨h.eq_of_nil.trans (hstale _ hid), fun _ => .inl hid⟩

theorem ChangeSet.Covers.mem (hcs : cs.Covers evs) {id : JmapId} {mid after : Bool}
    (h : Lifeline mid (evs id) after) :
    (id ∈ cs.created ↔ mid = false ∧ after = true) ∧
      (id ∈ cs.updated ↔ mid = true ∧ after = true ∧ evs id ≠ []) ∧
      (id ∈ cs.destroyed ↔ mid = true ∧ after = false) := by
  have hmem := fun d => hcs id d
  simp only [h.outcome_eq] at hmem
  refine ⟨(hmem .created).trans Disp.between_eq_created, (hmem .updated).trans ?_,
    (hmem .destroyed).trans Disp.between_eq_destroyed⟩
  simp [Disp.between_eq_updated]

theorem Client.Tracks.apply (h : c.Tracks before stale seen) (hcs : cs.Covers evs)
    (hfresh : ∀ id, before id = true → .created ∉ seen id ++ evs id) :
    (c.apply cs).Tracks before stale fun id => seen id ++ evs id where
  ids {id after} hline := by
    obtain ⟨mid, h1, h2⟩ := hline.split rfl
    obtain ⟨hc, -, hd⟩ := hcs.mem h2
    show (id ∈ c.ids ∨ id ∈ cs.created) ∧ id ∉ cs.destroyed ↔ _
    rw [h.ids h1, hc, hd]
    cases mid <;> cases after <;> simp
  covers {id} hbefore hline hreason := by
    obtain ⟨mid, h1, h2⟩ := hline.split rfl
    obtain ⟨-, hu, hd⟩ := hcs.mem h2
    -- no id is created twice, so the record was there in between
    have hmid : mid = true := h2.before_eq_true
      (fun hmem => hfresh id hbefore (List.mem_append_right _ hmem)) rfl
    subst hmid
    refine ⟨?_, by simp [hd]⟩
    by_cases hold : id ∈ stale ∨ seen id ≠ []
    · exact .inl (h.covers hbefore h1 hold)
    · refine .inr (hu.mpr ⟨rfl, rfl, fun hnil => hold ?_⟩)
      simpa [hnil] using hreason
  reason {id after} hline hid := by
    obtain ⟨mid, h1, h2⟩ := hline.split rfl
    obtain ⟨-, hu, hd⟩ := hcs.mem h2
    obtain ⟨hid | hid, hnot⟩ := hid
    · obtain ⟨hmid, hwhy⟩ := h.reason h1 hid
      refine ⟨?_, fun hb => (hwhy hb).imp_right fun hne => by simp [hne]⟩
      by_contra hafter
      exact hnot (hd.mpr ⟨hmid, by simpa using hafter⟩)
    · obtain ⟨-, hafter, hne⟩ := hu.mp hid
      exact ⟨hafter, fun _ => .inr (by simp [hne])⟩

end Tracks

/-! ## All pages -/

/-- The call from `since` comes upon a commit that reports more ids of the type than its page may
    hold, with nothing to report before it. -/
def Oversized (T : String) (limit : Int) (s : Store) (since : ℕ) : Prop :=
  ∃ part n e te rest, s.logFrom (since + 1) = part ++ (n, e) :: rest ∧
    (∀ id, outcome (history T id part) = none) ∧ e.types[T]? = some te ∧ limit < te.ids.length

/-- The state the client asks from after the pages. -/
def reached (since : ℕ) (pages : List ChangeSet) : ℕ :=
  pages.foldl (fun _ cs => cs.newState) since

section Pages

variable {db : DB} {T : String} {since : ℕ} {limits : ℕ → Int} {s : Store}

theorem changes_refused (htype : (db.types[T]?).isSome) (hseq : since ≤ s.seq) {limit : Int}
    {e : Err} (h : (db.changes T (some since) limit).run s = .error e) :
    e = .cannotCalculateChanges ∧ (since + 1 < s.floor ∨ Oversized T limit s since) := by
  rw [changes_run, if_pos htype] at h
  by_cases hfloor : s.floor ≤ since + 1
  · rw [if_pos ⟨hseq, hfloor⟩] at h
    split at h
    · rename_i err hscan
      cases h
      obtain ⟨herr, -, part, n, e, te, rest, hlog, hnone, hT, hlen⟩ :=
        ChangesScan.scan_eq_error hscan
      refine ⟨herr, .inr ⟨part, n, e, te, rest, hlog, fun id => ?_, hT, hlen⟩⟩
      simpa [outcome] using hnone id
    · cases h
  · rw [if_neg fun hok => hfloor hok.2] at h
    exact ⟨(Except.error.inj h).symm, .inl (Nat.not_le.mp hfloor)⟩

/-- What a sequence of pages from `since` on amounts to, for a client in state `c`. -/
structure PagesSpec (before : JmapId → Bool) (stale : Set JmapId) (total : JmapId → List Disp)
    (T : String) (limits : ℕ → Int) (s : Store) (k since : ℕ) (c : Client)
    (pages : List ChangeSet) (stop : Option Err) : Prop where
  fits : ∀ {i cs}, pages[i]? = some cs → cs.ids.length ≤ limits (k + i)
  increasing : (since :: (pages.filter (·.hasMore)).map (·.newState)).Pairwise (· < ·)
  finished : stop = none → s.floor ≤ since + 1 ∧
    Client.Tracks before stale total (pages.foldl Client.apply c)
  refused : ∀ {e}, stop = some e → e = .cannotCalculateChanges ∧
    (since + 1 < s.floor ∨ Oversized T (limits (k + pages.length)) s (reached since pages))

variable {before : JmapId → Bool} {stale : Set JmapId} {total : JmapId → List Disp}

theorem changesPages_spec (htype : (db.types[T]?).isSome) (hlimits : ∀ k, 1 ≤ limits k)
    (hlog : ∀ {n : ℕ} {e : LogEntry}, s.log[n]? = some e → n ≤ s.seq)
    (hfresh : ∀ id, before id = true → .created ∉ total id) {fuel k : ℕ}
    (hseq : since ≤ s.seq) (hfuel : s.seq - since < fuel) {seen : JmapId → List Disp} {c : Client}
    (htotal : ∀ id, total id = seen id ++ history T id (s.logFrom (since + 1)))
    (hc : c.Tracks before stale seen) :
    ∃ pages stop, db.changesPages T limits s fuel k since = some (pages, stop) ∧
      PagesSpec before stale total T limits s k since c pages stop := by
  induction fuel generalizing k since seen c with
  | zero => omega
  | succ fuel ih =>
    rw [DB.changesPages]
    cases hrun : (db.changes T (some since) (limits k)).run s with
    | error e =>
      exact ⟨[], some e, rfl, by simp, by simp, by simp,
        fun he => Option.some.inj he ▸ changes_refused htype hseq hrun⟩
    | ok cs =>
      obtain ⟨hfits, -, hfloor, evs, hcovers, hpage⟩ := changes_page (hlimits k) hrun
      -- the page is a part of the log, so it creates no id the client had
      have hpart : ∀ id, before id = true → .created ∉ seen id ++ evs id := by
        intro id hb hmem
        refine hfresh id hb ?_
        rw [htotal]
        refine List.mem_append.mpr ((List.mem_append.mp hmem).imp_right fun hmem => ?_)
        split at hpage
        · rw [hpage.2.2]
          exact List.mem_append_left _ hmem
        · rwa [hpage]
      have hnext := hc.apply hcovers hpart
      cases hmore : cs.hasMore with
      | false =>
        rw [if_neg (by simp [hmore])] at hpage
        refine ⟨[cs], none, by simp [hmore], ?_, by simp [hmore], fun _ => ⟨hfloor, ?_⟩, by simp⟩
        · intro i cs' hi
          obtain ⟨rfl, rfl⟩ : i = 0 ∧ cs = cs' := by
            cases i <;> simp_all
          exact hfits
        · have heq : total = fun id => seen id ++ evs id := funext fun id => by
            rw [htotal, hpage]
          rw [heq]
          exact hnext
      | true =>
        rw [if_pos hmore] at hpage
        -- the next page begins where this one stopped, with less of the log ahead
        obtain ⟨hlt, ⟨e, he⟩, hrest⟩ := hpage
        have hle := hlog he
        obtain ⟨pages, stop, hpages, hspec⟩ := @ih cs.newState (k + 1) hle (by omega) _ _
          (fun id => by rw [htotal, hrest, List.append_assoc]) hnext
        refine ⟨cs :: pages, stop, by simp [hmore, hpages], ?_, ?_, fun h => ⟨hfloor, ?_⟩,
          fun h => ?_⟩
        · rintro (_ | i) cs' hi
          · obtain rfl : cs = cs' := by simpa using hi
            exact hfits
          · rw [show k + (i + 1) = k + 1 + i by omega]
            exact hspec.fits (by simpa using hi)
        · rw [List.filter_cons_of_pos hmore]
          refine List.pairwise_cons.mpr ⟨fun n hn => ?_, hspec.increasing⟩
          rcases List.mem_cons.mp hn with rfl | hn
          · exact hlt
          · exact hlt.trans ((List.pairwise_cons.mp hspec.increasing).1 n hn)
        · exact (hspec.finished h).2
        · obtain ⟨herr, hwhy⟩ := hspec.refused h
          refine ⟨herr, hwhy.imp (by omega) fun hover => ?_⟩
          rw [List.length_cons, show k + (pages.length + 1) = k + 1 + pages.length by omega]
          exact hover

end Pages

section Client

variable {db : DB} {acct : JmapId} {w w' : World} {acts : List Action} {T : String} {since : ℕ}
  {limits : ℕ → Int}

/-- **Paging through `DB.Changes`.**  From any client state that covers an earlier state of
    the account, with any limits of at least one: the pages end, each fits its limit, their
    states increase while there is more, and the only reason to stop early is the floor or a
    commit larger than the page of the call that comes upon it.  Otherwise the client ends up with
    the same ids as after the single unpaged answer, and has marked every id that answer reports
    as updated; beyond those it has marked only ids the answer reports as created. -/
theorem changes_pages (hreach : Reachable db acct w) (hrun : Run db acct w acts w')
    (htype : (db.types[T]?).isSome) (hstate : w.store.typeState T ≤ since)
    (hseq : since ≤ w.store.seq) (hlimits : ∀ k, 1 ≤ limits k) {stale : Set JmapId}
    (hstale : ∀ id ∈ stale, w.store.has T id = true) :
    ∃ pages stop,
      db.changesPages T limits w'.store (w'.store.seq - since + 1) 0 since = some (pages, stop) ∧
      (∀ {i cs}, pages[i]? = some cs → cs.ids.length ≤ limits i) ∧
      (since :: (pages.filter (·.hasMore)).map (·.newState)).Pairwise (· < ·) ∧
      match stop with
      | some e => e = .cannotCalculateChanges ∧
          (since + 1 < w'.store.floor ∨
            Oversized T (limits pages.length) w'.store (reached since pages))
      | none =>
        ∃ cs, (db.changes T (some since) 0).run w'.store = .ok cs ∧
          let start : Client := ⟨{id | w.store.has T id = true}, stale⟩
          let paged := pages.foldl Client.apply start
          paged.ids = (start.apply cs).ids ∧ (start.apply cs).dirty ⊆ paged.dirty ∧
            paged.dirty ⊆ (start.apply cs).dirty ∪ {id | id ∈ cs.created} := by
  have hw := hreach.ok
  have hle := hseq.trans (hrun.seq_le hw)
  by_cases hfloor : w'.store.floor ≤ since + 1
  swap
  · refine ⟨[], some .cannotCalculateChanges, ?_, by simp, by simp, rfl,
      .inl (Nat.not_le.mp hfloor)⟩
    have := changes_run db T since (limits 0) w'.store
    rw [if_pos htype, if_neg fun h => hfloor h.2] at this
    simp [DB.changesPages, this]
  -- what the log tells of an id is its history since the client's state
  have hwin : ∀ id, WindowSpec db w w' T id (since + 1) _ := fun id =>
    hrun.window hw (Nat.lt_succ_of_le hstate) (Nat.succ_le_succ hseq)
  have hlog := (hrun.ok hw).logFrom hfloor
  have hline : ∀ id, Lifeline (w.store.has T id) (history T id (w'.store.logFrom (since + 1)))
      (w'.store.has T id) := fun id => hlog ▸ (hwin id).lifeline
  have hfresh : ∀ id, w.store.has T id = true →
      .created ∉ history T id (w'.store.logFrom (since + 1)) := by
    intro id hb hmem
    obtain ⟨obj, hobj⟩ := Option.isSome_iff_exists.mp hb
    exact (hwin id).fresh (hlog ▸ hmem) (hw.issued hobj)
  obtain ⟨pages, stop, hpages, hspec⟩ := changesPages_spec htype hlimits
    (fun hn => (hrun.ok hw).store_log_le_seq hn) hfresh hle (Nat.lt_succ_self _)
    (fun id => (List.nil_append _).symm) (Client.tracks_start hstale)
  refine ⟨pages, stop, hpages, fun h => by simpa using hspec.fits h, hspec.increasing, ?_⟩
  cases stop with
  | some e => simpa using hspec.refused rfl
  | none =>
    have hpaged := (hspec.finished rfl).2
    obtain ⟨st, hscan, hmore, hdisp⟩ := ChangesScan.scan_unpaged (le_refl 0)
      w'.store since
    refine ⟨_, by rw [changes_run, if_pos htype, if_pos ⟨hle, hfloor⟩, hscan], ?_⟩
    have hcovers : (st.changeSet (if st.hasMore then st.lastConsumed
        else w'.store.typeState T)).Covers fun id => history T id (w'.store.logFrom (since + 1)) :=
      fun id d => by rw [ChangesScan.mem_changeSet, hdisp]
    have hsingle := (Client.tracks_start hstale).apply hcovers (by simpa using hfresh)
    refine ⟨Set.ext fun id => ?_, fun id hid => ?_, fun id hid => ?_⟩
    -- both clients know the ids there are now; an id the pages created may be dirty too
    · rw [hpaged.ids (hline id), hsingle.ids (hline id)]
    · obtain ⟨hafter, hwhy⟩ := hsingle.reason (hline id) hid
      have hbefore : w.store.has T id = true := by
        rcases hid.1 with hid | hid
        · exact hstale id hid
        · exact ((hcovers.mem (hline id)).2.1.mp hid).1
      exact hpaged.covers hbefore (hafter ▸ hline id) (hwhy hbefore)
    · obtain ⟨hafter, hwhy⟩ := hpaged.reason (hline id) hid
      cases hbefore : w.store.has T id with
      | true => exact .inl (hsingle.covers hbefore (hafter ▸ hline id) (hwhy hbefore))
      | false => exact .inr ((hcovers.mem (hline id)).1.mpr ⟨hbefore, hafter⟩)

end Client

/-- Two pages of at most two ids each bring the client of one note up to date. -/
theorem changes_pages_notes :
    ∃ pages cs,
      noteDB.changesPages "Note" (fun _ => 2) laterWorld.store 4 0 1 = some (pages, none) ∧
      pages.length = 2 ∧ (noteDB.changes "Note" (some 1) 0).run laterWorld.store = .ok cs ∧
      let start : Client := ⟨{id | noteWorld.store.has "Note" id = true}, ∅⟩
      (pages.foldl Client.apply start).ids = (start.apply cs).ids := by
  obtain ⟨hreach, hrun⟩ := laterWorld_run
  have hnone : ∀ id ∈ (∅ : Set JmapId), noteWorld.store.has "Note" id = true := by simp
  obtain ⟨pages, stop, hpages, -, -, h⟩ := changes_pages hreach hrun (by decide +kernel)
    (show _ ≤ 1 by decide +kernel) (by decide +kernel) (fun _ => one_le_two) hnone
  have hval : (noteDB.changesPages "Note" (fun _ => 2) laterWorld.store 4 0 1).map
      (fun r => (r.1.length, r.2)) = some (2, none) := by
    decide +kernel
  have hfuel : laterWorld.store.seq - 1 + 1 = 4 := by decide +kernel
  rw [hfuel] at hpages
  rw [hpages] at hval
  obtain ⟨hlen, rfl⟩ := Prod.mk.inj (Option.some.inj hval)
  obtain ⟨cs, hcs, hids, -⟩ := h
  exact ⟨pages, cs, hpages, hlen, hcs, hids⟩

/-- With pages of one id the commit that creates two notes is refused, although the unpaged
    call answers. -/
theorem changes_pages_refused :
    Reachable noteDB "u" laterWorld ∧
      noteDB.changesPages "Note" (fun _ => 1) laterWorld.store 4 0 1 =
        some ([], some .cannotCalculateChanges) ∧
      ∃ cs, (noteDB.changes "Note" (some 1) 0).run laterWorld.store = .ok cs ∧
        cs.created = ["C"] ∧ cs.updated = ["A"] := by
  obtain ⟨hreach, hrun⟩ := laterWorld_run
  exact ⟨hreach.run hrun, by decide +kernel,
    ⟨4, false, ["C"], ["A"], [], some ["title"]⟩, by decide +kernel, rfl, rfl⟩

end NaustJmap.ObjectDB
