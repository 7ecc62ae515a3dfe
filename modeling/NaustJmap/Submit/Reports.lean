import NaustJmap.Submit.Worklist

/-!
# The Slots a Report Consumes

Each recipient has three slots for reports: one interim and one terminal DSN, one MDN.
`IngestReport` reads the slots that are taken before it looks at the report, so that within one
report it sees those of earlier reports only.  What stops a second terminal group is the delivered
value the first one wrote, which a fallback correlation does not write; nothing stops a second
delayed group.  `slots_unique_iff` says when a history of commits leaves at most one record per
slot.
-/

namespace NaustJmap.Submit

open Library ObjectDB
open Lease (Token)

/-! ## Groups of one recipient -/

/-- The group tells how the delivery ended. -/
def ReportRecipient.isOutcome (g : ReportRecipient) : Bool :=
  g.action = "delivered" || g.action = "failed"

def ReportRecipient.isDelay (g : ReportRecipient) : Bool := g.action = "delayed"

section

variable (fold : Folding) (rows : List ReportRow) (exact : Bool) (ds : Map String DeliveryStatus)

/-- The recipient is neither settled nor has its terminal slot been consumed. -/
def isOpen (rcpt : String) : Bool :=
  (ds[rcpt]?).any (fun cur => !decide (Settles cur.delivered)) && !taken fold rows rcpt .terminal

/-- The groups about the recipient, each as its own range finds it. -/
def groupsFor (rcpt : String) (gs : List ReportRecipient) : List ReportRecipient :=
  gs.filter fun g => matchEnvelopeRecipient fold g.range ds g.addr = some rcpt

/-- The delayed groups that count: with an exact correlation those before the first outcome. -/
def delays (gs : List ReportRecipient) : ℕ :=
  (if exact then gs.takeWhile (fun g => !g.isOutcome) else gs).countP (·.isDelay)

/-- The outcomes among them that count: with an exact correlation the first one. -/
def outcomes (gs : List ReportRecipient) : ℕ :=
  if exact then (if gs.any (·.isOutcome) then 1 else 0) else gs.countP (·.isOutcome)

/-- Of the groups about an open recipient one is a delay and one settles it, at most. -/
def SlotsOnce (gs : List ReportRecipient) : Prop :=
  ∀ rcpt : String, isOpen fold rows ds rcpt →
    (!taken fold rows rcpt .interim → delays exact (groupsFor fold ds rcpt gs) ≤ 1) ∧
      (!exact → (groupsFor fold ds rcpt gs).countP (·.isOutcome) ≤ 1)

end

variable {key rcpt : String} {ds : Map String DeliveryStatus}

section Groups

variable {fold : Folding} {rows : List ReportRow} {exact : Bool} {st : Ingestion}
  {g : ReportRecipient} {slot : Slot} {gs : List ReportRecipient} {new : DeliveryStatus}

theorem ReportRecipient.isOutcome_of_isDelay (h : g.isDelay) : g.isOutcome = false := by
  have hact : g.action = "delayed" := by simpa [isDelay] using h
  simp [isOutcome, hact]

theorem matchEnvelopeRecipient_mem {range : RangeOrder String} {addr : String}
    (h : matchEnvelopeRecipient fold range ds addr = some rcpt) : rcpt ∈ ds := by
  unfold matchEnvelopeRecipient at h
  split at h
  · cases h
  · split at h
    · next haddr => exact Option.some.inj h ▸ haddr
    · exact Std.ExtTreeMap.mem_keys.mp ((range.perm _).mem_iff.mp (List.mem_of_find?_eq_some h))

theorem matchEnvelopeRecipient_insert {range : RangeOrder String} (h : key ∈ ds)
    (new : DeliveryStatus) (addr : String) :
    matchEnvelopeRecipient fold range (ds.insert key new) addr =
      matchEnvelopeRecipient fold range ds addr := by
  have hmem : addr ∈ ds.insert key new ↔ addr ∈ ds := by
    rw [Map.mem_insert_iff]
    exact or_iff_left_of_imp fun ha => ha ▸ h
  simp only [matchEnvelopeRecipient, hmem, Map.keys_insert_of_mem h]

theorem isOpen_iff {cur : DeliveryStatus} (hcur : ds[rcpt]? = some cur) :
    isOpen fold rows ds rcpt ↔ ¬ (cur.delivered = "yes" ∨ cur.delivered = "no" ∨
      taken fold rows rcpt .terminal) := by
  simp only [isOpen, hcur, Option.any_some, Bool.and_eq_true, Bool.not_eq_true',
    decide_eq_false_iff_not]
  simp only [Settles, not_or, and_assoc, Bool.not_eq_true]

/-- What one recipient group of a report does to the ingestion. -/
inductive GroupSpec (fold : Folding) (rows : List ReportRow) (exact : Bool) (st : Ingestion)
    (g : ReportRecipient) : Ingestion → Prop where
  /-- It is about none, or about one that takes nothing of it. -/
  | skip (h : ∀ rcpt, matchEnvelopeRecipient fold g.range st.ds g.addr = some rcpt →
        isOpen fold rows st.ds rcpt → g.isOutcome = false ∧
          (g.isDelay → taken fold rows rcpt .interim)) :
      GroupSpec fold rows exact st g st
  | delay {rcpt : String} {cur new : DeliveryStatus}
      (hrcpt : matchEnvelopeRecipient fold g.range st.ds g.addr = some rcpt)
      (hcur : st.ds[rcpt]? = some cur) (hopen : isOpen fold rows st.ds rcpt) (hact : g.isDelay)
      (hfree : !taken fold rows rcpt .interim) (hnew : new.delivered = cur.delivered) :
      GroupSpec fold rows exact st g
        ⟨st.ds.insert rcpt new, st.consumed ++ [(rcpt, .interim)]⟩
  | outcome {rcpt : String} {cur new : DeliveryStatus}
      (hrcpt : matchEnvelopeRecipient fold g.range st.ds g.addr = some rcpt)
      (hcur : st.ds[rcpt]? = some cur) (hopen : isOpen fold rows st.ds rcpt)
      (hact : g.isOutcome)
      (hnew : if exact then Settles new.delivered else new = cur) :
      GroupSpec fold rows exact st g
        ⟨st.ds.insert rcpt new, st.consumed ++ [(rcpt, .terminal)]⟩

theorem ingestGroup_spec (fold : Folding) (rows : List ReportRow) (exact : Bool)
    (st : Ingestion) (g : ReportRecipient) :
    GroupSpec fold rows exact st g (ingestGroup fold rows exact st g) := by
  unfold ingestGroup
  split
  · next hnone => exact .skip fun rcpt hrcpt => absurd (hnone.symm.trans hrcpt) (by simp)
  next rcpt hrcpt =>
  -- a group is about one recipient
  have hskip : (isOpen fold rows st.ds rcpt → g.isOutcome = false ∧
      (g.isDelay → taken fold rows rcpt .interim)) → GroupSpec fold rows exact st g st :=
    fun h => .skip fun rcpt' hrcpt' => by
      obtain rfl := Option.some.inj (hrcpt.symm.trans hrcpt')
      exact h
  obtain ⟨cur, hcur⟩ := (Map.mem_keys_iff st.ds rcpt).mp
    (Std.ExtTreeMap.mem_keys.mpr (matchEnvelopeRecipient_mem hrcpt))
  rw [hcur]
  have hsealed : isOpen fold rows st.ds rcpt ↔ _ := isOpen_iff hcur
  dsimp only
  split
  · next hact =>
    have hdelay : g.isDelay := by simpa [ReportRecipient.isDelay] using hact
    split
    · next hclosed =>
      exact hskip fun hopen => ⟨g.isOutcome_of_isDelay hdelay, fun _ =>
        hclosed.resolve_left (hsealed.mp hopen)⟩
    · next hfree =>
      obtain ⟨hopen, hfree⟩ := not_or.mp hfree
      have hfree : !taken fold rows rcpt .interim := by simpa using hfree
      split
      · exact .delay hrcpt hcur (hsealed.mpr hopen) hdelay hfree rfl
      · -- nothing is written
        conv => arg 6; rw [← Map.insert_eq_self hcur]
        exact .delay hrcpt hcur (hsealed.mpr hopen) hdelay hfree rfl
  · next hact =>
    have hdelay : g.isDelay = false := by simpa [ReportRecipient.isDelay] using hact
    split
    · next hout =>
      have hout : g.isOutcome := by simpa [ReportRecipient.isOutcome] using hout
      split
      · next hclosed => exact hskip fun hopen => absurd hclosed (hsealed.mp hopen)
      · next hopen =>
        split
        · next hexact =>
          refine .outcome hrcpt hcur (hsealed.mpr hopen) hout ?_
          rw [if_pos hexact]
          dsimp only
          split
          · exact .inl rfl
          · exact .inr rfl
        · next hexact =>
          conv => arg 6; rw [← Map.insert_eq_self hcur]
          exact .outcome hrcpt hcur (hsealed.mpr hopen) hout (by rw [if_neg hexact])
    · next hout =>
      refine hskip fun _ => ⟨?_, fun h => absurd h (by simp [hdelay])⟩
      simpa [ReportRecipient.isOutcome] using hout

theorem delays_cons :
    delays exact (g :: gs) = if g.isDelay then delays exact gs + 1
      else if exact ∧ g.isOutcome then 0 else delays exact gs := by
  by_cases hdelay : g.isDelay
  · cases exact <;> simp [delays, hdelay, g.isOutcome_of_isDelay hdelay]
  · cases exact <;> cases hout : g.isOutcome <;> simp [delays, hdelay, hout]

theorem outcomes_cons :
    outcomes exact (g :: gs) = if g.isOutcome then (if exact then 1 else outcomes exact gs + 1)
      else outcomes exact gs := by
  cases exact <;> cases hout : g.isOutcome <;> simp [outcomes, hout]

theorem groupsFor_insert (h : key ∈ ds) :
    groupsFor fold (ds.insert key new) rcpt gs = groupsFor fold ds rcpt gs := by
  simp only [groupsFor, matchEnvelopeRecipient_insert h]

theorem groupsFor_cons :
    groupsFor fold ds rcpt (g :: gs) =
      if matchEnvelopeRecipient fold g.range ds g.addr = some rcpt then
        g :: groupsFor fold ds rcpt gs
      else groupsFor fold ds rcpt gs := by
  by_cases h : matchEnvelopeRecipient fold g.range ds g.addr = some rcpt <;> simp [groupsFor, h]

theorem isOpen_insert :
    isOpen fold rows (ds.insert key new) rcpt =
      if key = rcpt then !decide (Settles new.delivered) && !taken fold rows rcpt .terminal
      else isOpen fold rows ds rcpt := by
  by_cases h : key = rcpt <;> simp [isOpen, Map.getElem?_insert, h]

/-- How often the groups of a report consume a slot of the recipient. -/
def slotCount (fold : Folding) (rows : List ReportRow) (exact : Bool)
    (ds : Map String DeliveryStatus) (gs : List ReportRecipient) (rcpt : String) : Slot → ℕ
  | .interim =>
    if isOpen fold rows ds rcpt && !taken fold rows rcpt .interim then
      delays exact (groupsFor fold ds rcpt gs) else 0
  | .terminal =>
    if isOpen fold rows ds rcpt then outcomes exact (groupsFor fold ds rcpt gs) else 0
  | .receipt => 0

theorem slotCount_insert_of_ne (hkey : key ∈ ds) (hne : key ≠ rcpt) :
    slotCount fold rows exact (ds.insert key new) gs rcpt slot =
      slotCount fold rows exact ds gs rcpt slot := by
  cases slot <;> simp [slotCount, groupsFor_insert hkey, isOpen_insert, hne]

theorem slotCount_cons_of_ne (hne : matchEnvelopeRecipient fold g.range ds g.addr ≠ some rcpt) :
    slotCount fold rows exact ds (g :: gs) rcpt slot =
      slotCount fold rows exact ds gs rcpt slot := by
  cases slot <;> simp [slotCount, groupsFor_cons, hne]

theorem GroupSpec.count {st' : Ingestion} (h : GroupSpec fold rows exact st g st') :
    st'.consumed.count (rcpt, slot) + slotCount fold rows exact st'.ds gs rcpt slot =
      st.consumed.count (rcpt, slot) + slotCount fold rows exact st.ds (g :: gs) rcpt slot := by
  cases h with
  | skip hskip =>
    by_cases hrcpt : matchEnvelopeRecipient fold g.range st.ds g.addr = some rcpt
    · cases hopen : isOpen fold rows st.ds rcpt with
      | false => cases slot <;> simp [slotCount, hopen]
      | true =>
        obtain ⟨hout, hdelay⟩ := hskip rcpt hrcpt hopen
        cases slot with
        | receipt => rfl
        | terminal => simp [slotCount, hopen, groupsFor_cons, hrcpt, outcomes_cons, hout]
        | interim =>
          cases hfree : taken fold rows rcpt .interim with
          | true => simp [slotCount, hfree]
          | false =>
            have hdelay : ¬ g.isDelay := fun h => absurd (hdelay h) (by simp [hfree])
            simp [slotCount, hopen, hfree, groupsFor_cons, hrcpt, delays_cons, hout, hdelay]
    · rw [slotCount_cons_of_ne hrcpt]
  | @delay key cur new hrcpt hcur hopen hdelay hfree hnew =>
    have hkey := matchEnvelopeRecipient_mem hrcpt
    by_cases heq : key = rcpt
    · subst heq
      -- the recipient stays open
      have hopen' : isOpen fold rows (st.ds.insert key new) key = true := by
        simpa [hnew, isOpen, hcur] using hopen
      have hout := g.isOutcome_of_isDelay hdelay
      cases slot with
      | receipt => simp [slotCount]
      | terminal =>
        simp [slotCount, hopen, hopen', groupsFor_insert hkey, groupsFor_cons, hrcpt,
          outcomes_cons, hout]
      | interim =>
        simp [slotCount, hopen, hopen', hfree, groupsFor_insert hkey, groupsFor_cons, hrcpt,
          delays_cons, hdelay]
        omega
    · rw [slotCount_insert_of_ne hkey heq, slotCount_cons_of_ne (by simpa [hrcpt] using heq)]
      simp [heq]
  | @outcome key cur new hrcpt hcur hopen hout hnew =>
    have hkey := matchEnvelopeRecipient_mem hrcpt
    by_cases heq : key = rcpt
    · subst heq
      have hdelay : ¬ g.isDelay := fun h => by simp [g.isOutcome_of_isDelay h] at hout
      cases exact with
      | true =>
        -- the outcome is written, which closes the recipient
        have hclosed : isOpen fold rows (st.ds.insert key new) key = false := by
          simp [isOpen_insert, show Settles new.delivered by simpa using hnew]
        cases slot <;>
          simp [slotCount, hopen, hclosed, groupsFor_cons, hrcpt, outcomes_cons, delays_cons, hout,
            hdelay]
      | false =>
        obtain rfl : new = cur := by simpa using hnew
        rw [Map.insert_eq_self hcur]
        cases slot <;>
          simp [slotCount, hopen, groupsFor_cons, hrcpt, outcomes_cons, delays_cons, hout, hdelay]
        omega
    · rw [slotCount_insert_of_ne hkey heq, slotCount_cons_of_ne (by simpa [hrcpt] using heq)]
      simp [heq]

theorem count_foldl_ingestGroup :
    (gs.foldl (ingestGroup fold rows exact) st).consumed.count (rcpt, slot) =
      st.consumed.count (rcpt, slot) + slotCount fold rows exact st.ds gs rcpt slot := by
  induction gs generalizing st with
  | nil => cases slot <;> simp [slotCount, groupsFor, delays, outcomes]
  | cons g gs ih =>
    rw [List.foldl_cons, ih]
    exact (ingestGroup_spec fold rows exact st g).count

theorem nodup_consumed_iff :
    (gs.foldl (ingestGroup fold rows exact) { ds := ds }).consumed.Nodup ↔
      SlotsOnce fold rows exact ds gs := by
  rw [List.nodup_iff_count_le_one]
  simp only [Prod.forall, count_foldl_ingestGroup, List.count_nil, Nat.zero_add]
  constructor
  · intro h rcpt hopen
    refine ⟨fun hfree => ?_, fun hexact => ?_⟩
    · simpa [slotCount, hopen, hfree] using h rcpt .interim
    · have hexact : exact = false := by simpa using hexact
      simpa [slotCount, hopen, outcomes, hexact] using h rcpt .terminal
  · intro h rcpt slot
    cases slot with
    | receipt => exact Nat.zero_le 1
    | interim =>
      simp only [slotCount]
      split
      · next hboth =>
        obtain ⟨hopen, hfree⟩ := Bool.and_eq_true_iff.mp hboth
        exact (h rcpt hopen).1 hfree
      · exact Nat.zero_le 1
    | terminal =>
      simp only [slotCount]
      split
      · next hopen =>
        cases exact with
        | true =>
          simp only [outcomes, if_true]
          split <;> omega
        | false => exact (h rcpt hopen).2 rfl
      · exact Nat.zero_le 1

end Groups

/-! ## Report records -/

/-- The report rows of a submission. -/
def Account.rowsOf (a : Account) (subId : JmapId) : List ReportRow :=
  (a.reports.toList.map Prod.snd).filter fun r => r.submissionId = subId

/-- At most one report record per submission, recipient and slot. -/
structure Account.SlotsUnique (a : Account) : Prop where
  unique : ∀ (i j : JmapId) (row row' : ReportRow), a.reports[i]? = some row →
    a.reports[j]? = some row' → row.submissionId = row'.submissionId →
    row.recipient = row'.recipient → row.slot = row'.slot → i = j
  dsns : ∀ (id : JmapId) (sub : Submission), a.submissions[id]? = some sub →
    (a.rowsOf id).countP (·.kind = .dsn) ≤ 2 * sub.deliveryStatus.size
  mdns : ∀ (id : JmapId) (sub : Submission), a.submissions[id]? = some sub →
    (a.rowsOf id).countP (·.kind = .mdn) ≤ sub.deliveryStatus.size

/-- The rows a report of this kind may write for a recipient. -/
def ReportKind.slots : ReportKind → List Slot
  | .dsn => [.interim, .terminal]
  | .mdn => [.receipt]

/-- What the ingestion of reports keeps true of the records. -/
structure Account.RowsOk (a : Account) : Prop where
  unique : ∀ (i j : JmapId) (row row' : ReportRow), a.reports[i]? = some row →
    a.reports[j]? = some row' → row.submissionId = row'.submissionId →
    row.recipient = row'.recipient → row.slot = row'.slot → i = j
  addressed : ∀ (i : JmapId) (row : ReportRow), a.reports[i]? = some row →
    ∃ sub, a.submissions[row.submissionId]? = some sub ∧ row.recipient ∈ sub.deliveryStatus
  slot_mem : ∀ (i : JmapId) (row : ReportRow), a.reports[i]? = some row →
    row.slot ∈ row.kind.slots

section Rows

variable {a a' : Account} {id : JmapId} {sub : Submission} {row : ReportRow}

theorem Account.mem_rowsOf : row ∈ a.rowsOf id ↔
    row.submissionId = id ∧ ∃ i : JmapId, a.reports[i]? = some row := by
  simp only [rowsOf, List.mem_filter, List.mem_map, Prod.exists, Map.mem_toList,
    exists_eq_right, decide_eq_true_eq]
  exact and_comm

theorem Account.RowsOk.pairwise (h : a.RowsOk) (id : JmapId) :
    (a.rowsOf id).Pairwise fun row row' =>
      (row.recipient, row.slot) ≠ (row'.recipient, row'.slot) := by
  refine List.pairwise_filter.mpr (List.pairwise_map.mpr ?_)
  refine (List.pairwise_map.mp (Map.nodup_toList_keys a.reports)).imp_of_mem ?_
  intro e e' he he' hne hid hid' heq
  obtain ⟨hrcpt, hslot⟩ := Prod.mk.inj heq
  have hsame : e.2.submissionId = e'.2.submissionId :=
    (of_decide_eq_true hid).trans (of_decide_eq_true hid').symm
  exact hne (h.unique e.1 e'.1 e.2 e'.2 ((Map.mem_toList _ _ _).mp he)
    ((Map.mem_toList _ _ _).mp he') hsame hrcpt hslot)

theorem Account.RowsOk.countP_le (h : a.RowsOk) (hsub : a.submissions[id]? = some sub)
    (kind : ReportKind) : (a.rowsOf id).countP (·.kind = kind) ≤
      kind.slots.length * sub.deliveryStatus.size := by
  have hnodup : (((a.rowsOf id).filter (·.kind = kind)).map fun row =>
      (row.recipient, row.slot)).Nodup :=
    List.pairwise_map.mpr ((h.pairwise id).filter _)
  have hsubset : (((a.rowsOf id).filter (·.kind = kind)).map fun row =>
      (row.recipient, row.slot)) ⊆ sub.deliveryStatus.keys ×ˢ kind.slots := by
    intro pair hpair
    obtain ⟨row, hrow, rfl⟩ := List.mem_map.mp hpair
    obtain ⟨hrow, hkind⟩ := List.mem_filter.mp hrow
    obtain ⟨hid, i, hi⟩ := Account.mem_rowsOf.mp hrow
    obtain ⟨sub', hsub', hrcpt⟩ := h.addressed i row hi
    rw [hid, hsub] at hsub'
    obtain rfl := Option.some.inj hsub'
    refine List.mem_product.mpr ⟨Std.ExtTreeMap.mem_keys.mpr hrcpt, ?_⟩
    exact of_decide_eq_true hkind ▸ h.slot_mem i row hi
  have hle := (List.subperm_of_subset hnodup hsubset).length_le
  rw [List.length_map, ← List.countP_eq_length_filter, List.length_product,
    Std.ExtTreeMap.length_keys] at hle
  rwa [Nat.mul_comm]

theorem Account.RowsOk.slotsUnique (h : a.RowsOk) : a.SlotsUnique where
  unique := h.unique
  dsns _ _ hsub := h.countP_le hsub .dsn
  mdns _ _ hsub := (h.countP_le hsub .mdn).trans_eq (Nat.one_mul _)

theorem Account.RowsOk.mono (h : a.RowsOk)
    (hkeep : ∀ (i : JmapId) (row : ReportRow), a'.reports[i]? = some row →
      a.reports[i]? = some row ∧ ∀ sub, a.submissions[row.submissionId]? = some sub →
        ∃ sub', a'.submissions[row.submissionId]? = some sub' ∧
          ∀ rcpt, rcpt ∈ sub.deliveryStatus → rcpt ∈ sub'.deliveryStatus) : a'.RowsOk where
  unique i j row row' hi hj := h.unique i j row row' (hkeep i row hi).1 (hkeep j row' hj).1
  addressed i row hi := by
    obtain ⟨hold, hsubs⟩ := hkeep i row hi
    obtain ⟨sub, hsub, hrcpt⟩ := h.addressed i row hold
    obtain ⟨sub', hsub', hmem⟩ := hsubs sub hsub
    exact ⟨sub', hsub', hmem _ hrcpt⟩
  slot_mem i row hi := h.slot_mem i row (hkeep i row hi).1

/-! ## One report -/

variable {fold : Folding} {fallback exact : Bool} {rep : Inbound} {draw : ℕ → JmapId}
  {rows : List ReportRow}

theorem of_mem_consumed {c : String × Slot} (h : c ∈ (ingest fold rows exact rep ds).consumed) :
    c.1 ∈ ds ∧ taken fold rows c.1 c.2 = false ∧ c.2 ∈ rep.kind.slots := by
  obtain ⟨rcpt, slot⟩ := c
  unfold ingest at h
  split at h
  · next hkind =>
    -- a slot that is consumed is counted
    have hpos := List.count_pos_iff.mpr h
    rw [count_foldl_ingestGroup, List.count_nil] at hpos
    have hmem : isOpen fold rows ds rcpt → rcpt ∈ ds := by
      intro hopen
      obtain ⟨cur, hcur, -⟩ := (Option.any_eq_true _ _).mp (Bool.and_eq_true_iff.mp hopen).1
      exact Map.mem_of_getElem? hcur
    rw [hkind]
    cases slot with
    | receipt => simp [slotCount] at hpos
    | interim =>
      simp only [slotCount] at hpos
      split at hpos
      · next hboth =>
        obtain ⟨hopen, hfree⟩ := Bool.and_eq_true_iff.mp hboth
        exact ⟨hmem hopen, by simpa using hfree, by simp [ReportKind.slots]⟩
      · omega
    | terminal =>
      simp only [slotCount] at hpos
      split at hpos
      · next hopen =>
        exact ⟨hmem hopen, by simpa using (Bool.and_eq_true_iff.mp hopen).2,
          by simp [ReportKind.slots]⟩
      · omega
  · next hkind =>
    unfold ingestDisposition at h
    dsimp only at h
    split at h
    · simp at h
    · next key hkey =>
      split at h
      · simp at h
      · next hfree =>
        obtain ⟨rfl, rfl⟩ := Prod.mk.inj (List.mem_singleton.mp h)
        refine ⟨?_, by simpa using hfree, by simp [hkind, ReportKind.slots]⟩
        split at hkey
        · next rcpt hrcpt => exact Option.some.inj hkey ▸ matchEnvelopeRecipient_mem hrcpt
        · split at hkey
          · exact Std.ExtTreeMap.mem_keys.mp (List.mem_of_mem_head? hkey)
          · cases hkey

theorem nodup_ingest_iff : (ingest fold rows exact rep ds).consumed.Nodup ↔
    (rep.kind = .dsn → SlotsOnce fold rows exact ds rep.rcpts) := by
  unfold ingest
  split
  · next hkind =>
    rw [nodup_consumed_iff]
    exact ⟨fun h _ => h, fun h => h hkind⟩
  · next hkind =>
    refine iff_of_true ?_ fun h => absurd (hkind.symm.trans h) (by decide)
    unfold ingestDisposition
    dsimp only
    split
    · exact List.nodup_nil
    · split
      · exact List.nodup_nil
      · exact List.nodup_singleton _

theorem mem_ingest (h : rcpt ∈ ds) : rcpt ∈ (ingest fold rows exact rep ds).ds :=
  ingest_induct
    (fun ds key _ st _ _ h => (Map.mem_insert_iff ds key rcpt st).mpr (.inl h))
    fold rows exact rep h

/-- The drawn ids are new ones. -/
structure FreshReports (draw : ℕ → JmapId) (a : Account) : Prop where
  injective : Function.Injective draw
  notMem : ∀ n, draw n ∉ a.reports

theorem ingestTxn_spec (hdraw : FreshReports draw a)
    (h : ingestTxn fold fallback rep draw a = some (id, a')) :
    ∃ (sub : Submission) (exact : Bool),
      correlateSubmission fold fallback rep a = some (id, sub, exact) ∧ sub.statusReadable ∧
      a'.submissions = a.submissions.insert id { sub with
        deliveryStatus := (ingest fold (a.rowsOf id) exact rep sub.deliveryStatus).ds } ∧
      ∀ (i : JmapId) (row : ReportRow), a'.reports[i]? = some row ↔
        (∃ (n : ℕ) (c : String × Slot),
          (ingest fold (a.rowsOf id) exact rep sub.deliveryStatus).consumed[n]? = some c ∧
            draw n = i ∧ ReportRow.mk id rep.kind c.1 c.2 = row) ∨ a.reports[i]? = some row := by
  unfold ingestTxn at h
  split at h
  · cases h
  · next subId sub exact hcorr =>
    split at h
    · cases h
    · next hreadable =>
      dsimp only at h
      split at h
      · cases h
      · obtain ⟨rfl, rfl⟩ := Prod.mk.inj (Option.some.inj h)
        refine ⟨sub, exact, hcorr, by simpa using hreadable, rfl, fun i row => ?_⟩
        exact Map.getElem?_foldl_insert_zipIdx hdraw.injective
          (fun c : String × Slot => ReportRow.mk subId rep.kind c.1 c.2) hdraw.notMem _ i row

/-- The report asks for no slot of its submission twice. -/
def ReportOnce (fold : Folding) (fallback : Bool) (rep : Inbound) (a : Account) : Prop :=
  ∀ (id : JmapId) (sub : Submission) (exact : Bool),
    correlateSubmission fold fallback rep a = some (id, sub, exact) → sub.statusReadable →
      rep.kind = .dsn → SlotsOnce fold (a.rowsOf id) exact sub.deliveryStatus rep.rcpts

theorem Account.RowsOk.ingested (hrefl : ∀ x, fold.equalFold x x) (h : a.RowsOk)
    (hdraw : FreshReports draw a) (hx : ingestTxn fold fallback rep draw a = some (id, a'))
    (honce : ReportOnce fold fallback rep a) : a'.RowsOk := by
  obtain ⟨sub, exact, hcorr, hreadable, hsubs, hrows⟩ := ingestTxn_spec hdraw hx
  have hnodup := nodup_ingest_iff.mpr (honce id sub exact hcorr hreadable)
  have hsub := correlateSubmission_mem hcorr
  -- a slot that is consumed was not taken by an earlier record
  have hfree : ∀ (i : JmapId) (row : ReportRow) (n : ℕ) (c : String × Slot),
      a.reports[i]? = some row →
      (ingest fold (a.rowsOf id) exact rep sub.deliveryStatus).consumed[n]? = some c →
      row.submissionId = id → row.recipient = c.1 → row.slot ≠ c.2 := by
    intro i row n c hi hc hid hrcpt hslot
    obtain ⟨-, hnot, -⟩ := of_mem_consumed (List.mem_of_getElem? hc)
    refine absurd ?_ (Bool.eq_false_iff.mp hnot)
    refine List.any_eq_true.mpr ⟨row, Account.mem_rowsOf.mpr ⟨hid, i, hi⟩, ?_⟩
    simp [hslot, hrcpt, hrefl]
  refine ⟨fun i j row row' hi hj hid hrcpt hslot => ?_, fun i row hi => ?_, fun i row hi => ?_⟩
  · rcases (hrows i row).mp hi with ⟨n, c, hc, rfl, rfl⟩ | hi <;>
      rcases (hrows j row').mp hj with ⟨m, c', hc', rfl, rfl⟩ | hj
    · obtain rfl : c = c' := Prod.ext hrcpt hslot
      obtain ⟨hn, -⟩ := List.getElem?_eq_some_iff.mp hc
      rw [(List.getElem?_inj hn hnodup).mp (hc.trans hc'.symm)]
    · exact absurd hslot.symm (hfree j row' n c hj hc hid.symm hrcpt.symm)
    · exact absurd hslot (hfree i row m c' hi hc' hid hrcpt)
    · exact h.unique i j row row' hi hj hid hrcpt hslot
  · rw [hsubs]
    rcases (hrows i row).mp hi with ⟨n, c, hc, rfl, rfl⟩ | hi
    · obtain ⟨hmem, -, -⟩ := of_mem_consumed (List.mem_of_getElem? hc)
      exact ⟨_, Std.ExtTreeMap.getElem?_insert_self, mem_ingest hmem⟩
    · obtain ⟨old, hold, hmem⟩ := h.addressed i row hi
      by_cases heq : id = row.submissionId
      · subst heq
        obtain rfl := Option.some.inj (hsub.symm.trans hold)
        exact ⟨_, Std.ExtTreeMap.getElem?_insert_self, mem_ingest hmem⟩
      · exact ⟨old, by rw [Map.getElem?_insert, if_neg heq, hold], hmem⟩
  · rcases (hrows i row).mp hi with ⟨n, c, hc, rfl, rfl⟩ | hi
    · exact (of_mem_consumed (List.mem_of_getElem? hc)).2.2
    · exact h.slot_mem i row hi

theorem Account.SlotsUnique.reportOnce (hdraw : FreshReports draw a)
    (hx : ingestTxn fold fallback rep draw a = some (id, a')) (h : a'.SlotsUnique) :
    ReportOnce fold fallback rep a := by
  obtain ⟨sub, exact, hcorr, hreadable, -, hrows⟩ := ingestTxn_spec hdraw hx
  intro id' sub' exact' hcorr' _ hkind
  obtain ⟨rfl, rfl, rfl⟩ : id = id' ∧ sub = sub' ∧ exact = exact' := by
    simpa using hcorr.symm.trans hcorr'
  refine nodup_ingest_iff.mp (List.nodup_iff_getElem?_ne_getElem?.mpr ?_) hkind
  intro n m hlt hm heq
  obtain ⟨c, hc⟩ : ∃ c, (ingest fold (a.rowsOf id) exact rep sub.deliveryStatus).consumed[m]? =
      some c := ⟨_, List.getElem?_eq_getElem hm⟩
  have hn := (hrows (draw n) _).mpr (.inl ⟨n, c, heq.trans hc, rfl, rfl⟩)
  have hm := (hrows (draw m) _).mpr (.inl ⟨m, c, hc, rfl, rfl⟩)
  have hsame := h.unique _ _ _ _ hn hm rfl rfl rfl
  exact absurd (hdraw.injective hsame) hlt.ne

end Rows

/-! ## Whole histories -/

theorem mem_foldl_applyResult (h : rcpt ∈ ds) (results : List Result) :
    rcpt ∈ results.foldl applyResult ds := by
  induction results generalizing ds with
  | nil => exact h
  | cons r rest ih =>
    refine ih ?_
    unfold applyResult
    split
    · exact h
    · split
      · exact h
      · exact (Map.mem_insert_iff ..).mpr (.inl h)

theorem mem_finalized {sub : Submission} (h : rcpt ∈ sub.deliveryStatus) (cfg : WorkerConfig)
    (now : Int) (jitter : Int → Int) (results : List Result) :
    rcpt ∈ (finalized cfg now jitter results sub).deliveryStatus := by
  have hmem : ∀ giveUp : Bool, rcpt ∈ (if giveUp then
      abandon (results.foldl applyResult sub.deliveryStatus)
      else results.foldl applyResult sub.deliveryStatus) := by
    intro giveUp
    cases giveUp with
    | false => exact mem_foldl_applyResult h results
    | true => exact Std.ExtTreeMap.mem_map.mpr (mem_foldl_applyResult h results)
  unfold finalized
  dsimp only
  split <;> exact hmem _

def QueueTxn.DrawsFresh (a : Account) : QueueTxn → Prop
  | .ingest _ _ draw => FreshReports draw a
  | _ => True

/-- A commit that ingests a report is of one that asks for no slot twice. -/
def QueueTxn.ReportsOnce (fold : Folding) (a : Account) : QueueTxn → Prop
  | .ingest rep fallback _ => ReportOnce fold fallback rep a
  | _ => True

theorem Account.RowsOk.put {a : Account} {id : JmapId} {sub : Submission} (h : a.RowsOk)
    (hkeep : ∀ old, a.submissions[id]? = some old →
      ∀ rcpt, rcpt ∈ old.deliveryStatus → rcpt ∈ sub.deliveryStatus) : (a.put id sub).RowsOk := by
  refine h.mono fun i row hi => ⟨hi, fun old hold => ?_⟩
  by_cases heq : id = row.submissionId
  · subst heq
    exact ⟨sub, a.put_self _ _, hkeep old hold⟩
  · exact ⟨old, by rw [Account.put_of_ne _ _ heq, hold], fun _ hmem => hmem⟩

theorem QueueTxn.commit_rowsOk {fold : Folding} (hrefl : ∀ x, fold.equalFold x x)
    {q q' : QueueAccount} {txn : QueueTxn} (h : q.account.RowsOk)
    (hdraw : txn.DrawsFresh q.account) (honce : txn.ReportsOnce fold q.account)
    (hc : txn.commit fold q = some q') : q'.account.RowsOk := by
  cases txn with
  | create id | send id =>
    change (if _ then none else _) = some q' at hc
    split at hc
    · cases hc
    · next hnew =>
      obtain rfl := Option.some.inj hc
      refine h.put fun old hold => absurd ?_ hnew
      exact Map.mem_of_getElem? hold
  | claim cfg id now stamp =>
    obtain ⟨a, htxn, rfl⟩ := Option.map_eq_some_iff.mp hc
    obtain ⟨sub, due, hsub, -, rfl⟩ := claimTxn_eq (A := ⟨cfg, fold⟩) htxn
    refine h.put fun old hold rcpt hmem => ?_
    rwa [← Option.some.inj (hold.symm.trans hsub)]
  | finalize cfg id stamp now jitter results =>
    obtain ⟨a, htxn, rfl⟩ := Option.map_eq_some_iff.mp hc
    obtain ⟨sub, hsub, -, rfl⟩ := finalizeTxn_eq (A := ⟨cfg, fold⟩) htxn
    refine h.put fun old hold rcpt hmem => ?_
    rw [← Option.some.inj (hold.symm.trans hsub)]
    exact mem_finalized hmem cfg now jitter results
  | undo id newStatus =>
    obtain ⟨a, htxn, rfl⟩ := Option.map_eq_some_iff.mp hc
    obtain ⟨sub, hsub, rfl | rfl⟩ := undoTxn_cases htxn
    · exact h
    · refine h.put fun old hold rcpt hmem => ?_
      rw [← Option.some.inj (hold.symm.trans hsub)]
      exact Std.ExtTreeMap.mem_map.mpr hmem
  | destroy id =>
    obtain ⟨a, htxn, rfl⟩ := Option.map_eq_some_iff.mp hc
    unfold destroyTxn at htxn
    split at htxn
    · cases htxn
    · obtain rfl := Option.some.inj htxn
      refine h.mono fun i row hi => ?_
      -- the records of the submission go with it
      simp only [Std.ExtTreeMap.getElem?_filter', Option.filter_eq_some_iff,
        decide_eq_true_eq] at hi
      obtain ⟨hold, hne⟩ := hi
      refine ⟨hold, fun sub hsub => ⟨sub, ?_, fun _ hmem => hmem⟩⟩
      rw [Map.getElem?_erase, if_neg (Ne.symm hne), hsub]
  | ingest rep fallback draw =>
    obtain ⟨⟨id, a⟩, htxn, rfl⟩ := Option.map_eq_some_iff.mp hc
    exact h.ingested hrefl hdraw htxn honce
  | clearDrainedTag =>
    change (if _ then none else _) = some q' at hc
    split at hc
    · cases hc
    · obtain rfl := Option.some.inj hc
      exact h
  | healTag =>
    obtain rfl := Option.some.inj hc
    exact h

/-- A commit of a run, with the store it found. -/
structure QueueCommit where
  before : QueueStore
  acct : JmapId
  txn : QueueTxn

/-- Commits one after another, by any workers, clients and reports. -/
inductive QueueHistory (fold : Folding) (s : QueueStore) : List QueueCommit → QueueStore → Prop
    where
  | start : QueueHistory fold s [] s
  | commit {log : List QueueCommit} {t : QueueStore} {q : QueueAccount} (acct : JmapId)
      (txn : QueueTxn) (h : QueueHistory fold s log t)
      (hc : txn.commit fold (t acct) = some q) :
      QueueHistory fold s (log ++ [⟨t, acct, txn⟩]) (Function.update t acct q)

section Histories

variable {fold : Folding} {s t : QueueStore} {log : List QueueCommit}

/-- The stores a run goes through, ending in `t`. -/
def statesOf (log : List QueueCommit) (t : QueueStore) : List QueueStore :=
  log.map (·.before) ++ [t]

theorem forall_update {P : QueueAccount → Prop} {acct : JmapId} {q : QueueAccount}
    (hall : ∀ a, P (t a)) (hq : P q) (a : JmapId) : P (Function.update t acct q a) := by
  by_cases heq : a = acct
  · subst heq
    rwa [Function.update_self]
  · rw [Function.update_of_ne heq]
    exact hall a

theorem QueueHistory.rowsOk (hrefl : ∀ x, fold.equalFold x x) (h : QueueHistory fold s log t)
    (hstart : ∀ acct, (s acct).account.RowsOk)
    (hdraws : ∀ c ∈ log, c.txn.DrawsFresh (c.before c.acct).account)
    (honce : ∀ c ∈ log, c.txn.ReportsOnce fold (c.before c.acct).account) :
    ∀ u ∈ statesOf log t, ∀ acct, (u acct).account.RowsOk := by
  induction h with
  | start => simpa [statesOf] using hstart
  | @commit log t q acct txn _ hc ih =>
    simp only [List.mem_append, List.mem_singleton] at hdraws honce
    have hbefore := ih (fun c hmem => hdraws c (.inl hmem)) fun c hmem => honce c (.inl hmem)
    have hok : ∀ acct, (t acct).account.RowsOk := hbefore t (by simp [statesOf])
    intro u hu
    simp only [statesOf, List.map_append, List.map_cons, List.map_nil, List.mem_append,
      List.mem_singleton] at hu
    rcases hu with hu | rfl
    · exact hbefore u (by simpa [statesOf] using hu)
    · exact forall_update (P := fun q => q.account.RowsOk) hok
        (txn.commit_rowsOk hrefl (hok acct) (hdraws _ (.inr rfl)) (honce _ (.inr rfl)) hc)

theorem QueueHistory.reportsOnce (h : QueueHistory fold s log t)
    (hdraws : ∀ c ∈ log, c.txn.DrawsFresh (c.before c.acct).account)
    (hunique : ∀ u ∈ statesOf log t, ∀ acct, (u acct).account.SlotsUnique) :
    ∀ c ∈ log, c.txn.ReportsOnce fold (c.before c.acct).account := by
  induction h with
  | start => simp
  | @commit log t q acct txn _ hc ih =>
    simp only [List.mem_append, List.mem_singleton] at hdraws
    simp only [statesOf, List.map_append, List.map_cons, List.map_nil, List.mem_append,
      List.mem_singleton] at hunique
    intro c hmem
    rcases List.mem_append.mp hmem with hmem | hmem
    · refine ih (fun c hmem => hdraws c (.inl hmem)) (fun u hu => hunique u (.inl ?_)) c hmem
      simpa [statesOf] using hu
    · obtain rfl := List.mem_singleton.mp hmem
      have hlast := hunique _ (.inr rfl) acct
      rw [Function.update_self] at hlast
      have hdraw := hdraws _ (.inr rfl)
      cases txn with
      | ingest rep fallback draw =>
        obtain ⟨⟨id, a⟩, htxn, rfl⟩ := Option.map_eq_some_iff.mp hc
        exact hlast.reportOnce hdraw htxn
      | create | send | claim | finalize | undo | destroy | clearDrainedTag | healTag => trivial

/-- In every state a history of commits passes through there is at most one report record per
    submission, recipient and slot, and at most two DSNs and one MDN for each recipient, exactly
    when no report ingested on the way asks for a slot of its submission twice. -/
theorem slots_unique_iff (hrefl : ∀ x, fold.equalFold x x) (h : QueueHistory fold s log t)
    (hstart : ∀ acct, (s acct).account.RowsOk)
    (hdraws : ∀ c ∈ log, c.txn.DrawsFresh (c.before c.acct).account) :
    (∀ u ∈ statesOf log t, ∀ acct, (u acct).account.SlotsUnique) ↔
      ∀ c ∈ log, c.txn.ReportsOnce fold (c.before c.acct).account :=
  ⟨h.reportsOnce hdraws, fun honce u hu acct =>
    (h.rowsOk hrefl hstart hdraws honce u hu acct).slotsUnique⟩

end Histories

/-! ## Delays reported once and twice -/

theorem SlotsOnce.of_length_le_one {fold : Folding} {rows : List ReportRow} {exact : Bool}
    {gs : List ReportRecipient} (h : gs.length ≤ 1) : SlotsOnce fold rows exact ds gs := by
  intro rcpt _
  have hle : (groupsFor fold ds rcpt gs).length ≤ 1 := (List.length_filter_le _ _).trans h
  refine ⟨fun _ => ?_, fun _ => List.countP_le_length.trans hle⟩
  refine List.countP_le_length.trans ?_
  split
  · exact ((List.takeWhile_sublist _).length_le).trans hle
  · exact hle

def oneSubmission : Account := { submissions := Std.ExtTreeMap.empty.insert "S" toTwo }

def submissionStore : QueueStore :=
  Function.update (fun _ => {}) "u" { account := oneSubmission, tagged := true }

theorem rowsOk_of_reports_empty {a : Account} (h : a.reports = ∅) : a.RowsOk where
  unique i j row row' hi := by simp [h] at hi
  addressed i row hi := by simp [h] at hi
  slot_mem i row hi := by simp [h] at hi

theorem rowsOk_submissionStore (acct : JmapId) : (submissionStore acct).account.RowsOk :=
  forall_update (P := fun q => q.account.RowsOk) (fun _ => rowsOk_of_reports_empty rfl)
    (rowsOk_of_reports_empty rfl) acct

def reportIds (n : ℕ) : JmapId := String.ofList (List.replicate n 'r')

theorem freshReports_oneSubmission : FreshReports reportIds oneSubmission where
  injective n m h := by
    have hlen := congrArg (fun s : String => s.toList.length) h
    simpa [reportIds] using hlen
  notMem n := by simp [oneSubmission]

def delayedDSN (n : ℕ) : Inbound where
  kind := .dsn
  envid := "S"
  rcpts := List.replicate n { addr := "a@x", action := "delayed", smtpDiag := "" }

def ingestDelayed (n : ℕ) : QueueTxn := .ingest (delayedDSN n) false reportIds

theorem slots_unique_iff_delayed : ∃ t, QueueHistory Assumed.plain.fold submissionStore
      [⟨submissionStore, "u", ingestDelayed 1⟩] t ∧
    ∀ acct, (t acct).account.SlotsUnique := by
  obtain ⟨q, hq⟩ := Option.isSome_iff_exists.mp
    (show ((ingestDelayed 1).commit Assumed.plain.fold (submissionStore "u")).isSome by
      decide +kernel)
  have hrun := QueueHistory.commit "u" (ingestDelayed 1) (.start) hq
  refine ⟨_, hrun, (slots_unique_iff (by simp [Assumed.plain]) hrun rowsOk_submissionStore
    ?_).mpr ?_ _ (by simp [statesOf])⟩
  · simpa [QueueTxn.DrawsFresh, ingestDelayed, submissionStore] using freshReports_oneSubmission
  · intro c hc
    obtain rfl := List.mem_singleton.mp hc
    exact fun _ _ _ _ _ _ => .of_length_le_one (by simp [delayedDSN])

/-- A DSN that tells of the same recipient's delay twice leaves two records for its one interim
    slot, also when it names the submission exactly. -/
theorem interim_slot_twice : ∃ q,
    (ingestDelayed 2).commit Assumed.plain.fold (submissionStore "u") = some q ∧
      (q.account.rowsOf "S").map (fun row => (row.recipient, row.slot)) =
        [("a@x", .interim), ("a@x", .interim)] ∧
      ¬ q.account.SlotsUnique := by
  have hrun : ((ingestDelayed 2).commit Assumed.plain.fold (submissionStore "u")).any fun q =>
      (q.account.rowsOf "S").map (fun row => (row.recipient, row.slot)) =
        [("a@x", .interim), ("a@x", .interim)] := by
    decide +kernel
  obtain ⟨q, hq, hrows⟩ := (Option.any_eq_true _ _).mp hrun
  refine ⟨q, hq, of_decide_eq_true hrows, fun hunique => ?_⟩
  -- one record per slot would mean one delay
  simp only [ingestDelayed, QueueTxn.commit, Option.map_eq_some_iff] at hq
  obtain ⟨⟨id, a⟩, htxn, rfl⟩ := hq
  have honce := hunique.reportOnce freshReports_oneSubmission htxn "S" toTwo true
    (by simp [correlateSubmission, delayedDSN, oneSubmission, show JmapId.valid "S" by decide])
    rfl rfl "a@x" (by decide +kernel)
  exact absurd (honce.1 (by decide +kernel)) (by decide +kernel)

end NaustJmap.Submit
