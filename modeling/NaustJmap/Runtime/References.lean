import NaustJmap.Runtime.CopyChecks

/-!
# References Between the Creates of a Call

A create may refer to another create of the same call as `#creationId` (RFC 8620 section 5.3).
`processCreates` resolves it against one map, which also has what earlier calls recorded.  As long
as no create refers to a key of its own call that is already in that map, a reference is to the
record this call created, a create falls with what it refers to, and which creates are accepted does
not depend on how the creation ids are spelled.
-/

namespace NaustJmap.Runtime

open Library ObjectDB

/-! ## The references of an object -/

/-- The creation id that an `Id` property of the object refers to. -/
def refOf (j : Json) (t : TypeDesc) (obj : Object) (name : String) : Option JmapId :=
  if (t.properties[name]?).any (·.kind = .id) then (obj[name]?.bind j.string).bind creationRef
  else none

/-- Every text `encoding/json` writes for a string reads back as that string. -/
def Json.Quotes (j : Json) : Prop := ∀ s, j.string (j.quote s) = some s

/-- The map names records: its values are ids the server hands out. -/
def CreatedIds.Valid (ids : CreatedIds) : Prop :=
  ∀ (k id : JmapId), ids[k]? = some id → JmapId.valid id = true

/-- The object is `obj0` with some of its references resolved, as the map says. -/
def Partly (j : Json) (t : TypeDesc) (ids : CreatedIds) (obj0 obj : Object) : Prop :=
  ∀ name, obj[name]? = obj0[name]? ∨
    ∃ k id, refOf j t obj0 name = some k ∧ ids[k]? = some id ∧ obj[name]? = some (j.quote id)

/-- The object is `obj0` with all of its references resolved, to any records. -/
def Resolution (j : Json) (t : TypeDesc) (obj0 obj : Object) : Prop :=
  ∀ name, (refOf j t obj0 name = none → obj[name]? = obj0[name]?) ∧
    ∀ k, refOf j t obj0 name = some k → ∃ id, JmapId.valid id = true ∧
      obj[name]? = some (j.quote id)

variable {name : String} {k cid : JmapId} {raw : Raw} {obj : Object} {u : Update} {n : ℕ}
  {x : JmapId × Pending} {pending : List (JmapId × Pending)} {sc : Scanner} {resp : SetResponse}
  {ρ : JmapId → JmapId}

section Objects

variable {j : Json} {t : TypeDesc} {ids ids' : CreatedIds} {obj0 : Object}

theorem Partly.refl : Partly j t ids obj obj := fun _ => .inl rfl

theorem Partly.mono (h : Partly j t ids obj0 obj)
    (hkeep : ∀ name k id, refOf j t obj0 name = some k → ids[k]? = some id → ids'[k]? = some id) :
    Partly j t ids' obj0 obj := by
  intro name
  obtain hsame | ⟨k, id, href, hid, hval⟩ := h name
  · exact .inl hsame
  · exact .inr ⟨k, id, href, hkeep name k id href hid, hval⟩

theorem any_kind_iff : (t.properties[name]?).any (·.kind = .id) = true ↔
    ∃ p, t.properties[name]? = some p ∧ p.kind = .id := by
  cases t.properties[name]? <;> simp

theorem refOf_eq_some :
    refOf j t obj name = some k ↔ (t.properties[name]?).any (·.kind = .id) = true ∧
      ∃ raw, obj[name]? = some raw ∧ (j.string raw).bind creationRef = some k := by
  unfold refOf
  split
  · rename_i hkind
    simp only [hkind, true_and, Option.bind_assoc, Option.bind_eq_some_iff]
  · rename_i hkind
    simp [hkind]

theorem refOf_isSome_mem (h : refOf j t obj name = some k) : name ∈ obj := by
  obtain ⟨-, raw, hraw, -⟩ := refOf_eq_some.mp h
  exact Map.mem_of_getElem? hraw

theorem resolveIdValue_of_refOf_none {p : Property} (hp : t.properties[name]? = some p)
    (hkind : p.kind = .id) (hraw : obj[name]? = some raw) (href : refOf j t obj name = none) :
    resolveIdValue j ids raw = some raw := by
  have hnone : (j.string raw).bind creationRef = none := by
    simpa [refOf, hp, hkind, hraw] using href
  simp [resolveIdValue, hnone]

/-- A reference in a partly resolved object is not resolved yet, or holds the map's id. -/
theorem Partly.value (h : Partly j t ids obj0 obj) (hq : j.Quotes) (hids : ids.Valid)
    (href : refOf j t obj0 name = some k) :
    ∃ raw, obj[name]? = some raw ∧ resolveIdValue j ids raw = ids[k]?.map j.quote := by
  obtain ⟨-, raw0, hraw0, hk⟩ := refOf_eq_some.mp href
  obtain hsame | ⟨k', id, href', hid, hval⟩ := h name
  · exact ⟨raw0, hsame.trans hraw0, by simp [resolveIdValue, hk]⟩
  · cases href.symm.trans href'
    refine ⟨j.quote id, hval, ?_⟩
    simp [resolveIdValue, hq id, creationRef_of_valid (hids k id hid), hid]

theorem Partly.same (h : Partly j t ids obj0 obj) (href : refOf j t obj0 name = none) :
    obj[name]? = obj0[name]? := by
  obtain hsame | ⟨k, id, href', -, -⟩ := h name
  · exact hsame
  · rw [href] at href'
    cases href'

theorem refOf_congr (h : obj[name]? = obj0[name]?) : refOf j t obj name = refOf j t obj0 name := by
  unfold refOf
  rw [h]

theorem resolveIdRefs_value (hq : j.Quotes) (hids : ids.Valid) (h : Partly j t ids obj0 obj)
    (name : String) :
    (refOf j t obj0 name = none → (resolveIdRefs j t obj ids).1[name]? = obj0[name]?) ∧
    ∀ k, refOf j t obj0 name = some k →
      (∀ id, ids[k]? = some id → (resolveIdRefs j t obj ids).1[name]? = some (j.quote id)) ∧
      (ids[k]? = none → (resolveIdRefs j t obj ids).1[name]? = obj0[name]?) := by
  rw [resolveIdRefs_getElem?]
  constructor
  · intro href
    have hsame := h.same href
    rw [← hsame]
    cases hraw : obj[name]? with
    | none => rfl
    | some raw =>
      rw [Option.map_some, resolvedValue]
      split
      · rename_i hkind
        obtain ⟨p, hp, hkind⟩ := any_kind_iff.mp hkind
        rw [resolveIdValue_of_refOf_none hp hkind hraw ((refOf_congr hsame).trans href)]
        rfl
      · rfl
  · intro k href
    obtain ⟨raw, hraw, hres⟩ := h.value hq hids href
    have hkind := (refOf_eq_some.mp href).1
    rw [hraw, Option.map_some, resolvedValue, if_pos hkind, hres]
    refine ⟨fun id hid => by rw [hid]; rfl, fun hnone => ?_⟩
    rw [hnone, Option.map_none, Option.getD_none, ← hraw]
    obtain hsame | ⟨k', id, href', hid, -⟩ := h name
    · exact hsame
    · rw [Option.some.inj (href'.symm.trans href), hnone] at hid
      cases hid

/-- A turn leaves the object partly resolved; it waits for a creation id the map lacks. -/
theorem resolveIdRefs_partly (hq : j.Quotes) (hids : ids.Valid) (h : Partly j t ids obj0 obj) :
    Partly j t ids obj0 (resolveIdRefs j t obj ids).1 ∧
    ((resolveIdRefs j t obj ids).2 = [] ↔
      ∀ name k, refOf j t obj0 name = some k → (ids[k]?).isSome) := by
  constructor
  · intro name
    obtain ⟨hnone, hsome⟩ := resolveIdRefs_value hq hids h name
    cases href : refOf j t obj0 name with
    | none => exact .inl (hnone href)
    | some k =>
      cases hid : ids[k]? with
      | none => exact .inl ((hsome k href).2 hid)
      | some id => exact .inr ⟨k, id, rfl, hid, (hsome k href).1 id hid⟩
  · rw [resolveIdRefs_snd_eq_nil]
    constructor
    · intro hall name k href
      obtain ⟨raw, hraw, hres⟩ := h.value hq hids href
      obtain ⟨p, hp, hkind⟩ := any_kind_iff.mp (refOf_eq_some.mp href).1
      have := hall name p raw hp hkind hraw
      rwa [hres, Option.isSome_map] at this
    · intro hall name p raw hp hkind hraw
      cases href : refOf j t obj0 name with
      | none =>
        rw [resolveIdValue_of_refOf_none hp hkind hraw ((refOf_congr (h.same href)).trans href)]
        rfl
      | some k =>
        obtain ⟨raw', hraw', hres⟩ := h.value hq hids href
        rw [hraw] at hraw'
        rw [Option.some.inj hraw', hres, Option.isSome_map]
        exact hall name k href

theorem resolution_of_partly (hq : j.Quotes) (hids : ids.Valid) (h : Partly j t ids obj0 obj)
    (hres : (resolveIdRefs j t obj ids).2 = []) :
    Resolution j t obj0 (resolveIdRefs j t obj ids).1 := by
  intro name
  obtain ⟨hnone, hsome⟩ := resolveIdRefs_value hq hids h name
  refine ⟨hnone, fun k href => ?_⟩
  obtain ⟨id, hid⟩ := Option.isSome_iff_exists.mp
    ((resolveIdRefs_partly hq hids h).2.mp hres name k href)
  exact ⟨id, hids k id hid, (hsome k href).1 id hid⟩

end Objects

/-! ## What a run settles -/

section Settles

variable (env : CommitEnv) (st : StdType) (hooks : SetHooks)

/-- The checks of a create stage nothing, and leave the references of the object alone. -/
structure ChecksRead : Prop where
  update : ∀ {obj u n v u' n'}, env.run (admitCreate env.db.scan st hooks obj) u n = (v, u', n') →
    u'.staged = u.staged ∧ u'.createSeq = u.createSeq
  refs : ∀ {obj u n obj' r},
    env.run (admitCreate env.db.scan st hooks obj) u n = (.ok (.ok obj'), r) →
      ∀ (name : String) p, st.desc.properties[name]? = some p → p.kind = .id →
        obj'[name]? = obj[name]?

/-- The record the update has staged under the id has the references of `checked`. -/
structure StagedAs (u : Update) (checked : Object) (id : JmapId) : Prop where
  drawn : ∃ i < u.createSeq, id = env.draw i
  record : ∃ obj, u.staged[RecKey.mk st.desc.name id]?.bind (·.new) = some obj ∧
    ∀ (name : String) p, name ≠ "id" → st.desc.properties[name]? = some p → p.kind = .id →
      obj[name]? = checked[name]?

/-- The first `n` ids a commit draws are distinct. -/
def DrawsApart (n : ℕ) : Prop := ∀ i < n, ∀ k < i, env.draw k ≠ env.draw i

instance : Decidable (DrawsApart env n) := inferInstanceAs (Decidable (∀ i < n, ∀ k < i, _))

/-- The checks accept the object, at some time. -/
def Passed (checked : Object) : Prop :=
  ∃ u n obj r, env.run (admitCreate env.db.scan st hooks checked) u n = (.ok (.ok obj), r)

/-- Some admission of the checked record was rejected. -/
def Turned (checked : Object) : Prop :=
  ∃ u n serr r, env.run (admitCreate env.db.scan st hooks checked) u n = (.ok (.error serr), r)

/-- At its start nothing is created, and the map has none of the keys referred to. -/
structure CreateStart (K : JmapId → Prop) (start : Rounds) : Prop where
  nodup : (start.pending.map Prod.fst).Nodup
  keys : ∀ x ∈ start.pending, K x.1
  sent : ∀ x ∈ start.pending, "id" ∉ x.2.sent
  created : ∀ k : JmapId, k ∉ start.call.created
  notCreated : ∀ x ∈ start.pending, x.1 ∉ start.call.notCreated
  valid : start.call.createdIds.Valid
  unbound : ∀ x ∈ start.pending, ∀ name k, refOf st.json st.desc x.2.obj name = some k → K k →
    start.call.createdIds[k]? = none

/-- The checks of the run only read, and the ids it can draw are distinct. -/
def Traced (start : Rounds) : Prop :=
  ChecksRead env st hooks ∧ DrawsApart env (start.update.createSeq + start.pending.length)

/-- What a landed create refers to is in the map, and landed before it. -/
def LandedAs (K : JmapId → Prop) (start s : Rounds) (rank : JmapId → ℕ) (cid : JmapId) : Prop :=
  ∃ p0 checked id, (cid, p0) ∈ start.pending ∧ s.call.createdIds[cid]? = some id ∧
    Passed env st hooks checked ∧
    (Traced env st hooks start → StagedAs env st s.update checked id) ∧
    Resolution st.json st.desc p0.obj checked ∧
    ∀ name k, refOf st.json st.desc p0.obj name = some k →
      ∃ id, s.call.createdIds[k]? = some id ∧ checked[name]? = some (st.json.quote id) ∧
        (K k → k ∈ s.call.created ∧ rank k < rank cid)

/-- What holds at every turn of the loop. -/
structure Settles (K : JmapId → Prop) (start s : Rounds) : Prop extends Sorts start s where
  valid : s.call.createdIds.Valid
  drawn : ChecksRead env st hooks →
    s.update.createSeq + s.pending.length ≤ start.update.createSeq + start.pending.length
  ids : ∀ k : JmapId, k ∉ s.call.created →
    s.call.createdIds[k]? = start.call.createdIds[k]?
  partly : ∀ x ∈ s.pending, ∃ p0, (x.1, p0) ∈ start.pending ∧ x.2.sent = p0.sent ∧
    Partly st.json st.desc s.call.createdIds p0.obj x.2.obj
  /-- The response carries the id of the record that was created. -/
  record : ∀ (k : JmapId) (echo : Object), s.call.created[k]? = some echo →
    ∃ id, s.call.createdIds[k]? = some id ∧ echo[("id" : String)]? = some (quoteId id)
  landed : ∃ (rank : JmapId → ℕ) (bound : ℕ), ∀ cid ∈ s.call.created, rank cid < bound ∧
    LandedAs env st hooks K start s rank cid
  rejected : ∀ k ∈ s.call.notCreated, k ∈ start.call.notCreated ∨
    ∃ p0 checked, (k, p0) ∈ start.pending ∧ Resolution st.json st.desc p0.obj checked ∧
      Turned env st hooks checked

variable {env st hooks} {K : JmapId → Prop} {start s : Rounds}

theorem run_create {typeName : String} {id : JmapId} {u' : Update} {n' : ℕ}
    (h : env.run (.create typeName obj .done) u n = (.ok id, u', n')) :
    id = env.draw u.createSeq ∧ u'.createSeq = u.createSeq + 1 ∧
      u'.staged = u.staged.insert ⟨typeName, id⟩
        { new := some (obj.insert "id" (quoteId id)), created := true } := by
  simp only [CommitEnv.run, Callback.runAt, Callback.exec, Update.create] at h
  split at h
  · simp at h
  split at h
  · simp at h
  split at h
  · simp at h
  simp only [Reads.runAt_bind, Reads.runAt_pure, Prod.mk.injEq, Except.ok.injEq] at h
  obtain ⟨rfl, rfl, -⟩ := h
  exact ⟨rfl, rfl, rfl⟩

namespace StagedAs

variable {u' : Update} {checked : Object} {id id' : JmapId} {n' : ℕ}

theorem congr (h : StagedAs env st u checked id)
    (hsame : u'.staged = u.staged ∧ u'.createSeq = u.createSeq) :
    StagedAs env st u' checked id := by
  obtain ⟨hdrawn, hrecord⟩ := h
  exact ⟨hsame.2 ▸ hdrawn, hsame.1 ▸ hrecord⟩

/-- The next create stages another record. -/
theorem create (h : StagedAs env st u checked id)
    (hcreate : env.run (.create st.desc.name obj .done) u n = (.ok id', u', n'))
    (hapart : DrawsApart env (u.createSeq + 1)) : StagedAs env st u' checked id := by
  obtain ⟨rfl, hseq, hstaged⟩ := run_create hcreate
  obtain ⟨⟨i, hi, rfl⟩, hrecord⟩ := h
  refine ⟨⟨i, by omega, rfl⟩, ?_⟩
  have hne := hapart _ (Nat.lt_succ_self _) i hi
  rw [hstaged, Map.getElem?_insert, if_neg (by simpa using hne.symm)]
  exact hrecord

theorem of_create (hcreate : env.run (.create st.desc.name obj .done) u n = (.ok id, u', n'))
    (hrefs : ∀ (name : String) p, st.desc.properties[name]? = some p → p.kind = .id →
      obj[name]? = checked[name]?) :
    StagedAs env st u' checked id := by
  obtain ⟨rfl, hseq, hstaged⟩ := run_create hcreate
  refine ⟨⟨u.createSeq, by omega, rfl⟩, obj.insert "id" (quoteId (env.draw u.createSeq)), ?_,
    fun name p hname hp hkind => ?_⟩
  · rw [hstaged, Map.getElem?_insert, if_pos rfl]
    rfl
  · rw [Map.getElem?_insert, if_neg (Ne.symm hname)]
    exact hrefs name p hp hkind

end StagedAs

theorem Settles.not_bound (h : Settles env st hooks K start s) (hstart : CreateStart st K start)
    (hx : x ∈ s.pending) {p0 : Pending} (hp0 : (cid, p0) ∈ start.pending)
    (href : refOf st.json st.desc p0.obj name = some x.1) : s.call.createdIds[x.1]? = none := by
  obtain ⟨p', hp', -⟩ := h.partly x hx
  rw [h.ids x.1 (h.open_ x hx).1]
  exact hstart.unbound (cid, p0) hp0 name x.1 href (hstart.keys (x.1, p') hp')

theorem CreateStart.settles (hstart : CreateStart st K start) :
    Settles env st hooks K start start where
  toSorts := .refl hstart.nodup hstart.created hstart.notCreated
  valid := hstart.valid
  drawn := fun _ => le_rfl
  ids := fun _ _ => rfl
  partly := fun x hx => ⟨x.2, hx, rfl, .refl⟩
  record := fun k _ hk => absurd (Map.mem_of_getElem? hk) (hstart.created k)
  landed := ⟨fun _ => 0, 0, fun cid hcid => absurd hcid (hstart.created cid)⟩
  rejected := fun _ hk => .inl hk

theorem Settles.wait (h : Settles env st hooks K start s) (hq : st.json.Quotes)
    {l r : List (JmapId × Pending)} {p : Pending} (hs : s.pending = l ++ (cid, p) :: r)
    (hwait : (s.resolve st p).2 ≠ []) :
    Settles env st hooks K start
      { s with pending := l ++ (cid, { p with obj := (s.resolve st p).1 }) :: r } := by
  refine { h with
    toSorts := h.toSorts.move (.wait hs hwait : CreateMove env st hooks s _)
    drawn := fun hread => by simpa [hs] using h.drawn hread
    partly := fun x hx => ?_ }
  have hmem : x ∈ s.pending ∨ x = (cid, { p with obj := (s.resolve st p).1 }) := by
    rw [hs]
    rcases List.mem_append.mp hx with hx | hx
    · exact .inl (List.mem_append_left _ hx)
    · rcases List.mem_cons.mp hx with rfl | hx
      · exact .inr rfl
      · exact .inl (List.mem_append_right _ (List.mem_cons_of_mem _ hx))
  obtain hx | rfl := hmem
  · exact h.partly x hx
  · obtain ⟨p0, hp0, hsent, hpart⟩ := h.partly (cid, p) (hs ▸ by simp)
    exact ⟨p0, hp0, hsent, (resolveIdRefs_partly hq h.valid hpart).1⟩

theorem Settles.reject (h : Settles env st hooks K start s) (hq : st.json.Quotes)
    {l r : List (JmapId × Pending)} {p : Pending} {serr : SetError}
    (hs : s.pending = l ++ (cid, p) :: r) (hres : (s.resolve st p).2 = [])
    (haccept : env.run (admitCreate env.db.scan st hooks (s.resolve st p).1) s.update s.index =
      (.ok (.error serr), u, n)) :
    Settles env st hooks K start ⟨l ++ r, s.call.rejectCreate cid serr, u, n⟩ := by
  obtain ⟨-, hothers, -, -⟩ := h.toSorts.turn hs
  have hsame := fun hread : ChecksRead env st hooks => hread.update haccept
  refine { h with
    toSorts := h.toSorts.move (.reject hs hres haccept : CreateMove env st hooks s _)
    drawn := fun hread => by
      have := h.drawn hread
      simp only [hs, List.length_append, List.length_cons, (hsame hread).2] at this ⊢
      omega
    landed := h.landed.imp fun rank hb => hb.imp fun bound hall cid hcid => by
      obtain ⟨hlt, p0, checked, id, hp0, hid, hpass, hstaged, hrest⟩ := hall cid hcid
      exact ⟨hlt, p0, checked, id, hp0, hid, hpass,
        fun ht => (hstaged ht).congr (hsame ht.1), hrest⟩
    partly := fun x hx => h.partly x (hothers x hx).1
    rejected := fun k hk => ?_ }
  obtain hk | rfl := (Map.mem_insert_iff _ _ _ _).mp hk
  · exact h.rejected k hk
  · obtain ⟨p0, hp0, -, hpart⟩ := h.partly (k, p) (hs ▸ by simp)
    exact .inr ⟨p0, _, hp0, resolution_of_partly hq h.valid hpart hres, _, _, _, _, haccept⟩

theorem Settles.land (h : Settles env st hooks K start s) (hstart : CreateStart st K start)
    (hq : st.json.Quotes) (hdraw : ∀ i, JmapId.valid (env.draw i) = true)
    {l r : List (JmapId × Pending)} {p : Pending} {id : JmapId}
    (hs : s.pending = l ++ (cid, p) :: r) (hland : Lands env st hooks s p obj id u n) :
    Settles env st hooks K start ⟨l ++ r, (s.call.publish cid id).echoCreated cid
      ((obj.insert "id" (quoteId id)).filter fun name _ => name ∉ p.sent) p.fromId, u, n⟩ := by
  have hsorts := h.toSorts.move (.land hs hland : CreateMove env st hooks s _)
  obtain ⟨hopen, hothers, -, -⟩ := h.toSorts.turn hs
  have hp : (cid, p) ∈ s.pending := hs ▸ by simp
  obtain ⟨p0, hp0, hsent, hpart⟩ := h.partly (cid, p) hp
  obtain ⟨u', n', haccept, hcreate⟩ := hland.staged
  generalize hecho : ((obj.insert "id" (quoteId id)).filter fun name _ => name ∉ p.sent) = echo
    at hsorts ⊢
  generalize hc' : (s.call.publish cid id).echoCreated cid echo p.fromId = c' at hsorts ⊢
  have hcreated : c'.created = s.call.created.insert cid echo := hc' ▸ rfl
  have hids : c'.createdIds = s.call.createdIds.insert cid id := hc' ▸ rfl
  have hnot : c'.notCreated = s.call.notCreated := hc' ▸ rfl
  have hmem : ∀ k : JmapId, k ∈ c'.created ↔ k ∈ s.call.created ∨ k = cid := fun k => by
    rw [hcreated, Map.mem_insert_iff]
  -- a key the map had is not the one that is published now
  have hkeep : ∀ (q : Pending) (cid' : JmapId) name k id', (cid', q) ∈ start.pending →
      refOf st.json st.desc q.obj name = some k → s.call.createdIds[k]? = some id' →
        c'.createdIds[k]? = some id' := by
    intro q cid' name k id' hq' href hid'
    rw [hids, Map.getElem?_insert, if_neg ?_]
    · exact hid'
    · rintro rfl
      rw [h.not_bound hstart hp hq' href] at hid'
      cases hid'
  have hself : c'.createdIds[cid]? = some id := by rw [hids, Map.getElem?_insert, if_pos rfl]
  have hsame := fun hread : ChecksRead env st hooks => hread.update haccept
  have hroom : ChecksRead env st hooks → u'.createSeq + 1 + (l ++ r).length ≤
      start.update.createSeq + start.pending.length := fun hread => by
    have := h.drawn hread
    simp only [hs, List.length_append, List.length_cons, (hsame hread).2] at this ⊢
    omega
  obtain ⟨rank, bound, hlanded⟩ := h.landed
  refine ⟨hsorts, fun k id' hid' => ?_, fun hread => ?_, fun k hk => ?_, fun x hx => ?_,
    fun k e he => ?_, ?_, fun k hk => h.rejected k (hnot ▸ hk)⟩
  · rw [hids, Map.getElem?_insert] at hid'
    split at hid'
    · rw [← Option.some.inj hid', (run_create hcreate).1]
      exact hdraw _
    · exact h.valid k id' hid'
  · change u.createSeq + _ ≤ _
    rw [(run_create hcreate).2.1]
    exact hroom hread
  · rw [hmem, not_or] at hk
    show c'.createdIds[k]? = _
    rw [hids, Map.getElem?_insert, if_neg (Ne.symm hk.2)]
    exact h.ids k hk.1
  · obtain ⟨q, hq', hqsent, hqpart⟩ := h.partly x (hothers x hx).1
    exact ⟨q, hq', hqsent, hqpart.mono fun name k id' => hkeep q x.1 name k id' hq'⟩
  · rw [hcreated, Map.getElem?_insert] at he
    show ∃ id', c'.createdIds[k]? = some id' ∧ _
    rw [hids, Map.getElem?_insert]
    split at he
    case isTrue heq =>
      cases he
      refine ⟨id, if_pos heq, ?_⟩
      have hnew : "id" ∉ p.sent := hsent ▸ hstart.sent (cid, p0) hp0
      rw [← hecho]
      simp [hnew]
    case isFalse heq =>
      obtain ⟨id', hid', hrec⟩ := h.record k e he
      exact ⟨id', by rw [if_neg heq]; exact hid', hrec⟩
  · -- the create that lands gets a rank above all others
    refine ⟨Function.update rank cid bound, bound + 1, fun k hk => ?_⟩
    have hrank : ∀ k ∈ s.call.created, Function.update rank cid bound k = rank k := by
      intro k hk
      have hne : k ≠ cid := fun heq => hopen.1 (heq ▸ hk)
      exact Function.update_of_ne hne _ _
    obtain hk | rfl := (hmem k).mp hk
    · obtain ⟨hlt, q, checked, kid, hq', hkid, hpass, hstaged, hresn, hrefs⟩ := hlanded k hk
      have hne : cid ≠ k := fun heq => hopen.1 (heq ▸ hk)
      refine ⟨by rw [hrank k hk]; omega, q, checked, kid, hq', ?_, hpass, fun ht => ?_, hresn,
        fun name k' href => ?_⟩
      · show c'.createdIds[k]? = some kid
        rw [hids, Map.getElem?_insert, if_neg hne]
        exact hkid
      · exact ((hstaged ht).congr (hsame ht.1)).create hcreate fun i hi =>
          ht.2 i (by have := hroom ht.1; omega)
      · obtain ⟨id', hid', hval, hK⟩ := hrefs name k' href
        refine ⟨id', hkeep q k name k' id' hq' href hid', hval, fun hk' => ?_⟩
        obtain ⟨hin, hlt'⟩ := hK hk'
        exact ⟨(hmem k').mpr (.inl hin), by rwa [hrank k' hin, hrank k hk]⟩
    · refine ⟨by rw [Function.update_self]; omega, p0, _, id, hp0, hself,
        ⟨_, _, obj, _, haccept⟩, fun ht => .of_create hcreate (ht.1.refs haccept),
        resolution_of_partly hq h.valid hpart hland.resolved, fun name k' href => ?_⟩
      have hwaits := (resolveIdRefs_partly hq h.valid hpart).2.mp hland.resolved name k' href
      obtain ⟨id', hid'⟩ := Option.isSome_iff_exists.mp hwaits
      refine ⟨id', hkeep p0 k name k' id' hp0 href hid', ?_, fun hk' => ?_⟩
      · exact ((resolveIdRefs_value hq h.valid hpart name).2 k' href).1 id' hid'
      · -- a key of this call is in the map only once it has landed
        have hin : k' ∈ s.call.created := by
          by_contra hin
          rw [h.ids k' hin, hstart.unbound (k, p0) hp0 name k' href hk'] at hid'
          cases hid'
        refine ⟨(hmem k').mpr (.inl hin), ?_⟩
        rw [hrank k' hin, Function.update_self]
        exact (hlanded k' hin).1

/-- **The invariant of the create loop.** -/
theorem CreateStart.run (hstart : CreateStart st K start) (hq : st.json.Quotes)
    (hdraw : ∀ i, JmapId.valid (env.draw i) = true) (hrun : CreateRun env st hooks start s) :
    Settles env st hooks K start s := by
  induction hrun with
  | refl => exact hstart.settles
  | tail _ hmove ih =>
    cases hmove with
    | wait hs hwait => exact ih.wait hq hs hwait
    | reject hs hres haccept => exact ih.reject hq hs hres haccept
    | land hs hland => exact ih.land hstart hq hdraw hs hland

end Settles

/-! ## The creates of a call -/

/-- What the first loop of `processCreates` makes of a create; `none` if it rejects it. -/
def preparedOf (st : StdType) (raw : Raw) : Option Pending :=
  match st.json.object raw with
  | none => none
  | some obj =>
    if forbiddenInCreate st.desc obj ≠ [] then none
    else some { obj := withDefaults st.desc obj, sent := obj.keys }

theorem prepareCreates_cons (env : CommitEnv) (st : StdType) (cid : JmapId) (raw : Raw)
    (rest : List (JmapId × Raw)) (pending : List (JmapId × Pending)) (c : CallState) (u : Update)
    (n : ℕ) :
    (preparedOf st raw = none ∧ ∃ serr,
      (prepareCreates st ((cid, raw) :: rest) pending).exec env c u n =
        (prepareCreates st rest pending).exec env (c.rejectCreate cid serr) u n) ∨
    (prepareCreates st ((cid, raw) :: rest) pending).exec env c u n =
      ((.error .panicked, c), u, n) ∨
    ∃ p, preparedOf st raw = some p ∧
      (prepareCreates st ((cid, raw) :: rest) pending).exec env c u n =
        (prepareCreates st rest (pending ++ [(cid, p)])).exec env c u n := by
  rw [prepareCreates, preparedOf]
  cases st.json.object raw with
  | none => exact .inl ⟨rfl, _, by rw [CallM.exec_bind, CallM.exec_modify]⟩
  | some obj =>
    dsimp only
    by_cases hallowed : forbiddenInCreate st.desc obj = []
    · rw [if_neg (not_not.mpr hallowed), if_neg (not_not.mpr hallowed)]
      split
      · exact .inr (.inl rfl)
      · exact .inr (.inr ⟨_, rfl, rfl⟩)
    · rw [if_pos hallowed, if_pos hallowed]
      exact .inl ⟨rfl, _, by rw [CallM.exec_bind, CallM.exec_modify]⟩

theorem prepareCreates_exec {env : CommitEnv} {st : StdType} {creates : List (JmapId × Raw)}
    {result : List (JmapId × Pending)} {c c' : CallState} {u' : Update} {n' : ℕ}
    (h : (prepareCreates st creates pending).exec env c u n = ((.ok result, c'), u', n')) :
    result = pending ++ creates.filterMap (fun x => (preparedOf st x.2).map (x.1, ·)) ∧
    (u' = u ∧ n' = n) ∧ c'.created = c.created ∧ c'.createdIds = c.createdIds ∧
    ∀ k : JmapId, k ∈ c'.notCreated ↔ k ∈ c.notCreated ∨
      ∃ raw, (k, raw) ∈ creates ∧ preparedOf st raw = none := by
  induction creates generalizing pending c with
  | nil =>
    cases h
    exact ⟨by simp, ⟨rfl, rfl⟩, rfl, rfl, by simp⟩
  | cons x rest ih =>
    obtain ⟨cid, raw⟩ := x
    obtain ⟨hnone, serr, heq⟩ | heq | ⟨p, hp, heq⟩ :=
      prepareCreates_cons env st cid raw rest pending c u n
    · obtain ⟨hresult, hu, hcreated, hids, hnot⟩ := ih (heq ▸ h)
      refine ⟨?_, hu, hcreated, hids, fun k => ?_⟩
      · simpa [hnone] using hresult
      · rw [hnot]
        change k ∈ c.notCreated.insert cid serr ∨ _ ↔ _
        rw [Map.mem_insert_iff]
        constructor
        · rintro ((hk | rfl) | ⟨raw', hmem, hraw'⟩)
          · exact .inl hk
          · exact .inr ⟨raw, List.mem_cons_self, hnone⟩
          · exact .inr ⟨raw', List.mem_cons_of_mem _ hmem, hraw'⟩
        · rintro (hk | ⟨raw', hmem, hraw'⟩)
          · exact .inl (.inl hk)
          · rcases List.mem_cons.mp hmem with heq | hmem
            · exact .inl (.inr (Prod.mk.inj heq).1)
            · exact .inr ⟨raw', hmem, hraw'⟩
    · rw [heq] at h
      cases h
    · obtain ⟨hresult, hu, hcreated, hids, hnot⟩ := ih (heq ▸ h)
      refine ⟨?_, hu, hcreated, hids, fun k => ?_⟩
      · simpa [hp] using hresult
      · rw [hnot]
        refine or_congr_right ⟨fun ⟨raw', hmem, hraw'⟩ =>
          ⟨raw', List.mem_cons_of_mem _ hmem, hraw'⟩, fun ⟨raw', hmem, hraw'⟩ => ?_⟩
        rcases List.mem_cons.mp hmem with heq' | hmem
        · rw [(Prod.mk.inj heq').2, hp] at hraw'
          cases hraw'
        · exact ⟨raw', hmem, hraw'⟩

section Calls

variable {env : CommitEnv} {st : StdType} {creates : Map JmapId Raw} {ids : CreatedIds}

/-- The first loop of `processCreates` lets the create through, so that it has its turns. -/
def LetThrough (st : StdType) (creates : Map JmapId Raw) (cid : JmapId) : Prop :=
  ∃ raw p, creates[cid]? = some raw ∧ preparedOf st raw = some p

/-- Create `cid` of the map refers to create `k` of the map. -/
def Refers (st : StdType) (creates : Map JmapId Raw) (cid k : JmapId) : Prop :=
  k ∈ creates ∧ ∃ raw sent name, creates[cid]? = some raw ∧ st.json.object raw = some sent ∧
    refOf st.json st.desc sent name = some k

/-- No create that is let through refers to a create of the map whose key is bound already. -/
def Unshadowed (st : StdType) (creates : Map JmapId Raw) (ids : CreatedIds) : Prop :=
  ∀ cid k, LetThrough st creates cid → Refers st creates cid k → ids[k]? = none

/-- What the creates of a call have staged when they are done. -/
def stagedByCreates (env : CommitEnv) (st : StdType) (creates : Map JmapId Raw)
    (ids : CreatedIds) : Update :=
  ((processCreates env.db.scan st creates).exec env { createdIds := ids } env.opened 2).2.1

theorem refOf_withDefaults {j : Json} {t : TypeDesc} (hreg : t.validate sc = .ok ())
    (hj : j.Agrees sc) (obj : Object) (name : String) :
    refOf j t (withDefaults t obj) name = refOf j t obj name := by
  cases hobj : obj[name]? with
  | some raw => exact refOf_congr (by rw [withDefaults_getElem?, hobj, Option.some_or])
  | none =>
    have hnone : refOf j t obj name = none := by simp [refOf, hobj]
    rw [hnone]
    by_contra href
    obtain ⟨k, href⟩ := Option.ne_none_iff_exists'.mp href
    obtain ⟨hkind, raw, hraw, hk⟩ := refOf_eq_some.mp href
    obtain ⟨p, hp, hkind⟩ := any_kind_iff.mp hkind
    rw [withDefaults_getElem?, hobj, hp] at hraw
    have hsome := resolveIdValue_of_checked hj hkind (t.validate_default hreg hp hraw) ∅
    simp [resolveIdValue, hk] at hsome

theorem preparedOf_eq_some {p : Pending} (h : preparedOf st raw = some p) :
    ∃ obj, st.json.object raw = some obj ∧ forbiddenInCreate st.desc obj = [] ∧
      p = { obj := withDefaults st.desc obj, sent := obj.keys } := by
  unfold preparedOf at h
  split at h
  · cases h
  · rename_i obj hobj
    split at h
    · cases h
    · rename_i hallowed
      exact ⟨obj, hobj, not_not.mp hallowed, (Option.some.inj h).symm⟩

/-- The creates the first loop of `processCreates` let through are pending. -/
structure Prepares (st : StdType) (creates : Map JmapId Raw) (start : Rounds) : Prop where
  pending : ∀ cid p, (cid, p) ∈ start.pending ↔ ∃ raw, creates[cid]? = some raw ∧
    preparedOf st raw = some p
  unprepared : ∀ k : JmapId, k ∈ start.call.notCreated ↔ ∃ raw, creates[k]? = some raw ∧
    preparedOf st raw = none
  nodup : (start.pending.map Prod.fst).Nodup
  few : start.pending.length ≤ creates.size
  created : ∀ k : JmapId, k ∉ start.call.created

theorem prepareCreates_prepares {c1 : CallState} {u1 : Update} {n1 : ℕ}
    (hprep : (prepareCreates st creates.toList []).exec env { createdIds := ids } u n =
      ((.ok pending, c1), u1, n1)) :
    Prepares st creates ⟨pending, c1, u1, n1⟩ ∧ (u1 = u ∧ n1 = n) ∧ c1.createdIds = ids := by
  obtain ⟨hresult, hu, hcreated, hids1, hnot⟩ := prepareCreates_exec hprep
  refine ⟨⟨fun cid p => ?_, fun k => ?_, ?_, ?_, fun k => ?_⟩, hu, hids1⟩
  · change (cid, p) ∈ pending ↔ _
    rw [hresult, List.nil_append, List.mem_filterMap]
    constructor
    · rintro ⟨⟨cid', raw⟩, hx, hp⟩
      obtain ⟨p', hp', heq⟩ := Option.map_eq_some_iff.mp hp
      cases heq
      exact ⟨raw, (Map.mem_toList _ _ _).mp hx, hp'⟩
    · rintro ⟨raw, hraw, hp⟩
      exact ⟨(cid, raw), (Map.mem_toList _ _ _).mpr hraw, by rw [hp]; rfl⟩
  · change k ∈ c1.notCreated ↔ _
    rw [hnot]
    simp
  · exact (prepareCreates_returns st env creates.toList [] { createdIds := ids } u n
      (by rw [hprep])).nodup (Map.nodup_toList_keys creates)
  · change pending.length ≤ _
    rw [hresult, List.nil_append, ← Std.ExtTreeMap.length_toList]
    exact List.length_filterMap_le ..
  · change k ∉ c1.created
    rw [hcreated]
    exact Std.ExtTreeMap.not_mem_empty

namespace Prepares

variable {start last : Rounds} (h : Prepares st creates start)

include h

theorem mem (hx : x ∈ start.pending) : x.1 ∈ creates := by
  obtain ⟨raw, hraw, -⟩ := (h.pending x.1 x.2).mp hx
  exact Map.mem_of_getElem? hraw

theorem prepared (hx : x ∈ start.pending) (hraw : creates[x.1]? = some raw) :
    preparedOf st raw = some x.2 := by
  obtain ⟨raw', hraw', hp⟩ := (h.pending x.1 x.2).mp hx
  rwa [← Option.some.inj (hraw'.symm.trans hraw)]

theorem not_unprepared (hx : x ∈ start.pending) : x.1 ∉ start.call.notCreated := by
  intro hno
  obtain ⟨raw, hraw, hp⟩ := (h.unprepared x.1).mp hno
  cases hp.symm.trans (h.prepared hx hraw)

theorem decided (hs : Sorts start last) (hcid : cid ∈ creates) :
    cid ∈ last.call.created ↔
      ¬ (cid ∈ last.call.notCreated ∨ cid ∈ last.pending.map Prod.fst) := by
  rw [not_or]
  constructor
  · intro hc
    refine ⟨hs.apart cid hc, fun hp => ?_⟩
    obtain ⟨x, hx, rfl⟩ := List.mem_map.mp hp
    exact (hs.open_ x hx).1 hc
  · rintro ⟨hno, hnp⟩
    obtain ⟨raw, hraw⟩ := Map.mem_iff.mp hcid
    cases hp : preparedOf st raw with
    | none => exact absurd (hs.kept cid ((h.unprepared cid).mpr ⟨raw, hraw, hp⟩)) hno
    | some p =>
      obtain h | h | h := hs.decided (cid, p) ((h.pending cid p).mpr ⟨raw, hraw, hp⟩)
      · exact absurd h hnp
      · exact h
      · exact absurd h hno

end Prepares

theorem createStart {start : Rounds} (hprep : Prepares st creates start)
    (hreg : st.desc.validate env.db.scan = .ok ()) (hj : st.json.Agrees env.db.scan)
    (hids : start.call.createdIds.Valid)
    (hfresh : Unshadowed st creates start.call.createdIds) :
    CreateStart st (· ∈ creates) start := by
  refine ⟨hprep.nodup, fun x hx => hprep.mem hx, fun x hx => ?_, hprep.created,
    fun x hx => hprep.not_unprepared hx, hids, fun x hx name k href hk => ?_⟩
  · obtain ⟨raw, -, hp⟩ := (hprep.pending x.1 x.2).mp hx
    obtain ⟨obj, -, hallowed, heq⟩ := preparedOf_eq_some hp
    rw [heq]
    intro hid
    have := List.filter_eq_nil_iff.mp hallowed "id" hid
    simp at this
  · obtain ⟨raw, hraw, hp⟩ := (hprep.pending x.1 x.2).mp hx
    obtain ⟨obj, hobj, -, heq⟩ := preparedOf_eq_some hp
    rw [heq, refOf_withDefaults hreg hj] at href
    exact hfresh x.1 k ⟨raw, x.2, hraw, hp⟩ ⟨hk, raw, obj, name, hraw, hobj, href⟩

/-- The creates of a `/set` that answered, with the run of its loop. -/
structure SettledCall (env : CommitEnv) (st : StdType) (creates : Map JmapId Raw)
    (ids : CreatedIds) (resp : CallState) where
  start : Rounds
  last : Rounds
  begins : CreateStart st (· ∈ creates) start
  settles : Settles env st st.hooks (· ∈ creates) start last
  waits : AllWait st last.call.createdIds last.pending
  bound : start.call.createdIds = ids
  prepares : Prepares st creates start
  unstaged : start.update.createSeq = 0
  staged : last.update = stagedByCreates env st creates ids
  created : resp.created = last.call.created
  notCreated : ∀ k : JmapId, k ∈ resp.notCreated ↔
    k ∈ last.call.notCreated ∨ k ∈ last.pending.map Prod.fst

theorem SetPhases.creates_kept {a : SetArgs} (ph : SetPhases env st a ids resp) :
    resp.resp.created = ph.afterCreates.call.created ∧
      resp.resp.notCreated = ph.afterCreates.call.notCreated := by
  have hu := @processUpdates_keeps _ (fun c => (c.created, c.notCreated)) env.db.scan st
    (fun _ _ _ => rfl) (fun _ _ _ => rfl) a.update.toList env ph.afterCreates.call
    ph.afterCreates.update ph.afterCreates.index
  have hd := @processDestroys_keeps _ (fun c => (c.created, c.notCreated)) st (fun _ _ _ => rfl)
    (fun _ _ => rfl) a.destroy env ph.afterUpdates.1 ph.afterUpdates.2.1 ph.afterUpdates.2.2
  rw [CallM.left, ph.updates] at hu
  rw [CallM.left, ph.destroys] at hd
  exact Prod.mk.inj (hd.trans hu)

theorem fooSet_settled {a : SetArgs} (hstd : st.hooks.prepareCreate = none)
    (hreg : st.desc.validate env.db.scan = .ok ()) (hj : st.json.Agrees env.db.scan)
    (hq : st.json.Quotes) (hdraw : ∀ i, JmapId.valid (env.draw i) = true) (hids : ids.Valid)
    (hfresh : Unshadowed st a.create ids)
    (h : (fooSet env st a ids).1 = .ok resp) :
    Nonempty (SettledCall env st a.create ids resp.resp) := by
  obtain ⟨ph⟩ := fooSet_phases hstd h
  have hexec := ph.creates
  rw [processCreates, CallM.exec_bind] at hexec
  rcases hprep : (prepareCreates st a.create.toList []).exec env { createdIds := ids }
    env.opened 2 with ⟨⟨e | pending, c1⟩, u1, n1⟩
  · rw [hprep] at hexec
    cases hexec
  rw [hprep] at hexec
  obtain ⟨s, hrun, hwaits, hresp, hupdate, -⟩ :=
    createRounds_run env st st.hooks (Nat.lt_succ_self _) hexec
  obtain ⟨hprepares, ⟨rfl, rfl⟩, rfl⟩ := prepareCreates_prepares hprep
  have hstart := createStart hprepares hreg hj hids hfresh
  obtain ⟨hcreated, hnotCreated⟩ := ph.creates_kept
  exact ⟨{
    start := ⟨pending, c1, env.opened, 2⟩
    last := s
    begins := hstart
    settles := hstart.run hq hdraw hrun
    waits := hwaits
    bound := rfl
    prepares := hprepares
    unstaged := rfl
    staged := by rw [stagedByCreates, ph.creates, hupdate]
    created := by rw [hcreated, hresp, Rounds.rejected_created]
    notCreated := fun k => by rw [hnotCreated, hresp, Rounds.mem_rejected_notCreated] }⟩

/-- The response echoes the create `k` with the id `id`. -/
def RecordOf (resp : CallState) (k id : JmapId) : Prop :=
  ∃ echo, resp.created[k]? = some echo ∧ echo[("id" : String)]? = some (quoteId id)

/-- How the creates of a call relate to each other.  `staged` is what they staged. -/
structure ReferencesKept (env : CommitEnv) (st : StdType) (creates : Map JmapId Raw)
    (staged : Update) (resp : CallState) : Prop where
  /-- Every create is created or rejected, and not both. -/
  decided : ∀ cid ∈ creates, (cid ∈ resp.created ↔ cid ∉ resp.notCreated)
  /-- In the record staged for a create, a reference to another create of the call is the id of the
      record the call created for that one. -/
  resolves : ChecksRead env st st.hooks → DrawsApart env creates.size →
    ∀ cid ∈ resp.created, ∃ raw sent id obj, creates[cid]? = some raw ∧
      st.json.object raw = some sent ∧ RecordOf resp cid id ∧
      staged.staged[RecKey.mk st.desc.name id]?.bind (·.new) = some obj ∧
      ∀ name k, refOf st.json st.desc sent name = some k → k ∈ creates →
        ∃ kid, RecordOf resp k kid ∧ obj[name]? = some (st.json.quote kid)
  /-- A create falls with what it refers to. -/
  propagates : ∀ cid k, cid ∈ creates → Refers st creates cid k → k ∈ resp.notCreated →
    cid ∈ resp.notCreated
  /-- Creates on a cycle of references are rejected. -/
  cycles : ∀ cid, Relation.TransGen (Refers st creates) cid cid → cid ∈ resp.notCreated

namespace SettledCall

variable {resp : CallState} (call : SettledCall env st creates ids resp)

include call

theorem decided (hcid : cid ∈ creates) : cid ∈ resp.created ↔ cid ∉ resp.notCreated := by
  rw [call.created, call.notCreated]
  exact call.prepares.decided call.settles.toSorts hcid

theorem mem_creates (hk : k ∈ call.last.call.created) : k ∈ creates := by
  obtain ⟨rank, bound, hlanded⟩ := call.settles.landed
  obtain ⟨-, p0, -, -, hp0, -⟩ := hlanded k hk
  exact call.begins.keys (k, p0) hp0

theorem landed (hreg : st.desc.validate env.db.scan = .ok ()) (hj : st.json.Agrees env.db.scan) :
    ∃ rank : JmapId → ℕ, ∀ cid ∈ resp.created, ∃ raw sent checked id, creates[cid]? = some raw ∧
      st.json.object raw = some sent ∧ "id" ∉ sent ∧ RecordOf resp cid id ∧
      (ChecksRead env st st.hooks → DrawsApart env creates.size →
        StagedAs env st (stagedByCreates env st creates ids) checked id) ∧
      ∀ name k, refOf st.json st.desc sent name = some k → k ∈ creates →
        k ∈ resp.created ∧ rank k < rank cid ∧
          ∃ kid, RecordOf resp k kid ∧ checked[name]? = some (st.json.quote kid) := by
  have hs := call.settles
  obtain ⟨rank, bound, hlanded⟩ := hs.landed
  have hrecord : ∀ k id, k ∈ resp.created → call.last.call.createdIds[k]? = some id →
      RecordOf resp k id := by
    intro k id hk hid
    obtain ⟨echo, hecho⟩ := Map.mem_iff.mp hk
    obtain ⟨id', hid', hval⟩ := hs.record k echo (call.created ▸ hecho)
    rw [hid] at hid'
    exact ⟨echo, hecho, Option.some.inj hid' ▸ hval⟩
  refine ⟨rank, fun cid hcid => ?_⟩
  obtain ⟨-, p0, checked, id, hp0, hid, -, hstaged, -, hrefs⟩ := hlanded cid (call.created ▸ hcid)
  obtain ⟨raw, hraw, hp⟩ := (call.prepares.pending cid p0).mp hp0
  obtain ⟨sent, hsent, -, heq⟩ := preparedOf_eq_some hp
  have hnoId : "id" ∉ p0.sent := call.begins.sent (cid, p0) hp0
  rw [heq] at hrefs hnoId
  refine ⟨raw, sent, checked, id, hraw, hsent, mt Std.ExtTreeMap.mem_keys.mpr hnoId,
    hrecord cid id hcid hid, fun hread hapart => ?_, fun name k href hk => ?_⟩
  · have hfew := call.prepares.few
    have hzero := call.unstaged
    exact call.staged ▸ hstaged ⟨hread, fun i hi => hapart i (by omega)⟩
  rw [← refOf_withDefaults hreg hj] at href
  obtain ⟨kid, hkid, hval, hK⟩ := hrefs name k href
  obtain ⟨hin, hlt⟩ := hK hk
  have hin' : k ∈ resp.created := call.created ▸ hin
  exact ⟨hin', hlt, kid, hrecord k kid hin' hkid, hval⟩

/-- **References between the creates of a call** are kept. -/
theorem referencesKept (hreg : st.desc.validate env.db.scan = .ok ())
    (hj : st.json.Agrees env.db.scan) :
    ReferencesKept env st creates (stagedByCreates env st creates ids) resp := by
  obtain ⟨rank, hlanded⟩ := call.landed hreg hj
  -- what a created create refers to was created before it
  have hbefore : ∀ cid k, cid ∈ resp.created → Refers st creates cid k →
      k ∈ resp.created ∧ rank k < rank cid := by
    rintro cid k hcid ⟨hk, raw, sent, name, hraw, hsent, href⟩
    obtain ⟨raw', sent', checked, id, hraw', hsent', -, -, -, hrefs⟩ := hlanded cid hcid
    rw [hraw] at hraw'
    rw [← Option.some.inj hraw', hsent] at hsent'
    obtain ⟨hin, hlt, -⟩ := hrefs name k (Option.some.inj hsent' ▸ href) hk
    exact ⟨hin, hlt⟩
  have hchain : ∀ cid k, Relation.TransGen (Refers st creates) cid k → cid ∈ resp.created →
      k ∈ resp.created ∧ rank k < rank cid := by
    intro cid k hpath hcid
    induction hpath with
    | single href => exact hbefore cid _ hcid href
    | tail _ href ih =>
      obtain ⟨hin, hlt⟩ := hbefore _ _ ih.1 href
      exact ⟨hin, hlt.trans ih.2⟩
  have hmem : ∀ cid k, Refers st creates cid k → cid ∈ creates := by
    rintro cid k ⟨-, raw, sent, name, hraw, -⟩
    exact Map.mem_of_getElem? hraw
  refine ⟨fun cid hcid => call.decided hcid, fun hread hapart cid hcid => ?_,
    fun cid k hcid href hk => ?_, fun cid hcycle => ?_⟩
  · obtain ⟨raw, sent, checked, id, hraw, hsent, hnoId, hrec, hstaged, hrefs⟩ := hlanded cid hcid
    obtain ⟨obj, hobj, hsame⟩ := (hstaged hread hapart).record
    refine ⟨raw, sent, id, obj, hraw, hsent, hrec, hobj, fun name k href hk => ?_⟩
    obtain ⟨-, -, kid, hkid, hval⟩ := hrefs name k href hk
    obtain ⟨p, hp, hkind⟩ := any_kind_iff.mp (refOf_eq_some.mp href).1
    have hname : name ≠ "id" := fun heq => hnoId (heq ▸ refOf_isSome_mem href)
    exact ⟨kid, hkid, (hsame name p hname hp hkind).trans hval⟩
  · by_contra hno
    have hin := (hbefore cid k ((call.decided hcid).mpr hno) href).1
    exact (call.decided href.1).mp hin hk
  · by_contra hno
    obtain ⟨k, href, -⟩ := Relation.TransGen.head'_iff.mp hcycle
    have hcid := (call.decided (hmem cid k href)).mpr hno
    exact absurd (hchain cid cid hcycle hcid).2 (lt_irrefl _)

end SettledCall

/-! ## Spelling -/

/-- Some resolution of the object passes the checks, at some time. -/
def Passes (env : CommitEnv) (st : StdType) (obj0 : Object) : Prop :=
  ∃ checked, Resolution st.json st.desc obj0 checked ∧ Passed env st st.hooks checked

/-- The verdict on a create depends on neither the other creates nor their ids. -/
def Steady (env : CommitEnv) (st : StdType) (creates : Map JmapId Raw) : Prop :=
  ∀ (cid : JmapId) (raw : Raw) (p : Pending), creates[cid]? = some raw →
    preparedOf st raw = some p → Passes env st p.obj →
    ∀ checked, Resolution st.json st.desc p.obj checked → ¬ Turned env st st.hooks checked

/-- The creates that pass their checks, with all they refer to. -/
inductive Accepted (env : CommitEnv) (st : StdType) (creates : Map JmapId Raw)
    (ids : CreatedIds) : JmapId → Prop where
  | intro {cid : JmapId} {raw : Raw} {p : Pending} (hraw : creates[cid]? = some raw)
      (hp : preparedOf st raw = some p) (hpass : Passes env st p.obj)
      (hin : ∀ name k, refOf st.json st.desc p.obj name = some k → k ∈ creates →
        Accepted env st creates ids k)
      (hout : ∀ name k, refOf st.json st.desc p.obj name = some k → k ∉ creates →
        (ids[k]?).isSome) : Accepted env st creates ids cid

/-- What is created is accepted; the verdicts are steady, so that what is accepted is created. -/
theorem SettledCall.created_iff {resp : CallState} (call : SettledCall env st creates ids resp)
    (hq : st.json.Quotes) (hsteady : Steady env st creates) (cid : JmapId) :
    cid ∈ resp.created ↔ Accepted env st creates ids cid := by
  have hs := call.settles
  rw [call.created]
  constructor
  · obtain ⟨rank, bound, hlanded⟩ := hs.landed
    intro hcid
    -- the induction is on the rank: what a create refers to landed before it
    induction hrank : rank cid using Nat.strong_induction_on generalizing cid with
    | _ r ih =>
      subst hrank
      obtain ⟨-, p0, checked, id, hp0, -, hpass, -, hres, hrefs⟩ := hlanded cid hcid
      obtain ⟨raw, hraw, hp⟩ := (call.prepares.pending cid p0).mp hp0
      refine .intro hraw hp ⟨checked, hres, hpass⟩ (fun name k href hk => ?_)
        fun name k href hk => ?_
      · obtain ⟨-, -, -, hK⟩ := hrefs name k href
        exact ih (rank k) (hK hk).2 k (hK hk).1 rfl
      · obtain ⟨kid, hkid, -, -⟩ := hrefs name k href
        rw [hs.ids k (mt call.mem_creates hk), call.bound] at hkid
        rw [hkid]
        rfl
  · intro hacc
    induction hacc with
    | @intro cid raw p hraw hp hpass hin hout ih =>
      have hstart := (call.prepares.pending cid p).mpr ⟨raw, hraw, hp⟩
      obtain hpend | hcreated | hno := hs.decided (cid, p) hstart
      · -- it still waits, but the map has all it refers to
        obtain ⟨x, hx, hcid⟩ := List.mem_map.mp hpend
        obtain ⟨p0, hp0, -, hpart⟩ := hs.partly x hx
        obtain rfl : p0 = p := Option.some.inj
          ((call.prepares.prepared hp0 (hcid ▸ hraw)).symm.trans hp)
        refine absurd ((resolveIdRefs_partly hq hs.valid hpart).2.mpr fun name k href => ?_)
          (call.waits x hx)
        by_cases hk : k ∈ creates
        · obtain ⟨echo, hecho⟩ := Map.mem_iff.mp (ih name k href hk)
          obtain ⟨kid, hkid, -⟩ := hs.record k echo hecho
          rw [hkid]
          rfl
        · rw [hs.ids k (mt call.mem_creates hk), call.bound]
          exact hout name k href hk
      · exact hcreated
      · obtain hno | ⟨p0, checked, hp0, hres, hturned⟩ := hs.rejected cid hno
        · exact absurd hno (call.begins.notCreated (cid, p) hstart)
        · cases (call.prepares.prepared hp0 hraw).symm.trans hp
          exact absurd hturned (hsteady cid raw p0 hraw hp hpass checked hres)

/-- The object with the creation ids it refers to spelled anew. -/
structure Respelled (st : StdType) (ρ : JmapId → JmapId) (obj obj' : Object) : Prop where
  same : ∀ name, refOf st.json st.desc obj name = none → obj'[name]? = obj[name]?
  refs : ∀ name k, refOf st.json st.desc obj name = some k →
    refOf st.json st.desc obj' name = some (ρ k)

/-- The creates and the map of earlier calls, with the creation ids spelled anew. -/
structure Respells (st : StdType) (ρ : JmapId → JmapId) (creates creates' : Map JmapId Raw)
    (ids ids' : CreatedIds) : Prop where
  inj : Function.Injective ρ
  keys : ∀ k' : JmapId, k' ∈ creates' ↔ ∃ k ∈ creates, ρ k = k'
  bound : ∀ k : JmapId, ids'[ρ k]? = ids[k]?
  objects : ∀ (k : JmapId) (raw raw' : Raw), creates[k]? = some raw → creates'[ρ k]? = some raw' →
    Option.Rel (Respelled st ρ) (st.json.object raw) (st.json.object raw')

namespace Respelled

variable {obj' : Object} (h : Respelled st ρ obj obj')

include h

theorem mem_iff (name : String) : name ∈ obj' ↔ name ∈ obj := by
  cases href : refOf st.json st.desc obj name with
  | none => rw [Map.mem_iff, Map.mem_iff, h.same name href]
  | some k =>
    exact iff_of_true (refOf_isSome_mem (h.refs name k href)) (refOf_isSome_mem href)

theorem refOf_eq_none :
    refOf st.json st.desc obj' name = none ↔ refOf st.json st.desc obj name = none := by
  cases href : refOf st.json st.desc obj name with
  | none => rw [refOf_congr (h.same name href), href]
  | some k => simp [h.refs name k href]

/-- A reference of the new spelling is one of the old spelling. -/
theorem back {k' : JmapId} (href : refOf st.json st.desc obj' name = some k') :
    ∃ k, refOf st.json st.desc obj name = some k ∧ ρ k = k' := by
  cases hold : refOf st.json st.desc obj name with
  | none => cases (h.refOf_eq_none.mpr hold).symm.trans href
  | some k => exact ⟨k, rfl, Option.some.inj ((h.refs name k hold).symm.trans href)⟩

/-- The resolutions are the same: what a reference resolves to has no trace of its spelling. -/
theorem resolution_iff (checked : Object) :
    Resolution st.json st.desc obj' checked ↔ Resolution st.json st.desc obj checked := by
  refine forall_congr' fun name => ?_
  cases href : refOf st.json st.desc obj name with
  | none => simp [h.refOf_eq_none.mpr href, h.same name href]
  | some k => simp [h.refs name k href]

theorem forbidden_iff :
    forbiddenInCreate st.desc obj' = [] ↔ forbiddenInCreate st.desc obj = [] := by
  unfold forbiddenInCreate
  rw [List.filter_eq_nil_iff, List.filter_eq_nil_iff]
  refine forall_congr' fun name => imp_congr_left ?_
  rw [Std.ExtTreeMap.mem_keys, Std.ExtTreeMap.mem_keys, h.mem_iff]

theorem withDefaults (hreg : st.desc.validate sc = .ok ()) (hj : st.json.Agrees sc) :
    Respelled st ρ (withDefaults st.desc obj) (withDefaults st.desc obj') := by
  refine ⟨fun name href => ?_, fun name k href => ?_⟩
  · rw [refOf_withDefaults hreg hj] at href
    rw [withDefaults_getElem?, withDefaults_getElem?, h.same name href]
  · rw [refOf_withDefaults hreg hj] at href ⊢
    exact h.refs name k href

end Respelled

namespace Respells

variable {creates' : Map JmapId Raw} {ids' : CreatedIds}
  (h : Respells st ρ creates creates' ids ids')

include h

theorem mem_iff (k : JmapId) : ρ k ∈ creates' ↔ k ∈ creates := by
  rw [h.keys]
  refine ⟨fun ⟨k2, hk2, heq⟩ => ?_, fun hk => ⟨k, hk, rfl⟩⟩
  rwa [← h.inj heq]

theorem lookup : (∃ raw, creates[k]? = some raw) ↔ ∃ raw', creates'[ρ k]? = some raw' := by
  rw [← Map.mem_iff, ← Map.mem_iff, h.mem_iff]

variable (hreg : st.desc.validate sc = .ok ()) (hj : st.json.Agrees sc)

include hreg hj

theorem prepared {raw' : Raw} (hraw : creates[k]? = some raw) (hraw' : creates'[ρ k]? = some raw') :
    Option.Rel (fun p p' => Respelled st ρ p.obj p'.obj) (preparedOf st raw)
      (preparedOf st raw') := by
  have hrel := h.objects k raw raw' hraw hraw'
  unfold preparedOf
  generalize st.json.object raw = o, st.json.object raw' = o' at hrel
  cases hrel with
  | none => exact .none
  | @some obj obj' hobj =>
    dsimp only
    by_cases hallowed : forbiddenInCreate st.desc obj = []
    · rw [if_neg (not_not.mpr hallowed), if_neg (not_not.mpr (hobj.forbidden_iff.mpr hallowed))]
      exact .some (hobj.withDefaults hreg hj)
    · rw [if_pos hallowed, if_pos (mt hobj.forbidden_iff.mp hallowed)]
      exact .none

theorem of_prepared {raw' : Raw} {p' : Pending} (hraw' : creates'[ρ k]? = some raw')
    (hp' : preparedOf st raw' = some p') :
    ∃ raw p, creates[k]? = some raw ∧ preparedOf st raw = some p ∧ Respelled st ρ p.obj p'.obj := by
  obtain ⟨raw, hraw⟩ := h.lookup.mpr ⟨raw', hraw'⟩
  have hrel := h.prepared hreg hj hraw hraw'
  rw [hp'] at hrel
  generalize hp : preparedOf st raw = q at hrel
  cases hrel with
  | some hobj => exact ⟨raw, _, hraw, hp, hobj⟩

theorem accepted_iff (k : JmapId) :
    Accepted env st creates' ids' (ρ k) ↔ Accepted env st creates ids k := by
  constructor
  · intro hacc
    generalize hk' : ρ k = k' at hacc
    induction hacc generalizing k with
    | @intro _ raw' p' hraw' hp' hpass hin hout ih =>
      subst hk'
      obtain ⟨raw, p, hraw, hp, hobj⟩ := h.of_prepared hreg hj hraw' hp'
      obtain ⟨checked, hres, hrun⟩ := hpass
      refine .intro hraw hp ⟨checked, (hobj.resolution_iff checked).mp hres, hrun⟩
        (fun name j href hj' => ?_) fun name j href hj' => ?_
      · exact ih name (ρ j) (hobj.refs name j href) ((h.mem_iff j).mpr hj') j rfl
      · rw [← h.bound]
        exact hout name (ρ j) (hobj.refs name j href) (mt (h.mem_iff j).mp hj')
  · intro hacc
    induction hacc with
    | @intro k raw p hraw hp hpass hin hout ih =>
      obtain ⟨raw', hraw'⟩ := h.lookup.mp ⟨raw, hraw⟩
      have hrel := h.prepared hreg hj hraw hraw'
      rw [hp] at hrel
      generalize hp' : preparedOf st raw' = q at hrel
      cases hrel with
      | @some _ p' hobj =>
        obtain ⟨checked, hres, hrun⟩ := hpass
        refine .intro hraw' hp' ⟨checked, (hobj.resolution_iff checked).mpr hres, hrun⟩
          (fun name j' href hin' => ?_) fun name j' href hout' => ?_
        · obtain ⟨j, hj', rfl⟩ := hobj.back href
          exact ih name j hj' ((h.mem_iff j).mp hin')
        · obtain ⟨j, hj', rfl⟩ := hobj.back href
          rw [h.bound]
          exact hout name j hj' (mt (h.mem_iff j).mpr hout')

theorem steady (hsteady : Steady env st creates) : Steady env st creates' := by
  rintro cid' raw' p' hraw' hp' ⟨checked', hres', hrun⟩ checked hres
  obtain ⟨cid, -, rfl⟩ := (h.keys cid').mp (Map.mem_of_getElem? hraw')
  obtain ⟨raw, p, hraw, hp, hobj⟩ := h.of_prepared hreg hj hraw' hp'
  exact hsteady cid raw p hraw hp ⟨checked', (hobj.resolution_iff checked').mp hres', hrun⟩
    checked ((hobj.resolution_iff checked).mp hres)

theorem unshadowed (hfresh : Unshadowed st creates ids) : Unshadowed st creates' ids' := by
  rintro cid' k' ⟨raw', p', hraw', hp'⟩ ⟨hk', raw2, sent', name, hraw2, hsent', href⟩
  obtain rfl := Option.some.inj (hraw'.symm.trans hraw2)
  obtain ⟨k, hk, rfl⟩ := (h.keys k').mp hk'
  obtain ⟨cid, -, rfl⟩ := (h.keys cid').mp (Map.mem_of_getElem? hraw')
  obtain ⟨raw, p, hraw, hp, -⟩ := h.of_prepared hreg hj hraw' hp'
  have hrel := h.objects cid raw raw' hraw hraw'
  rw [hsent'] at hrel
  generalize hsent : st.json.object raw = q at hrel
  cases hrel with
  | @some sent _ hobj =>
    obtain ⟨j, hj, heq⟩ := hobj.back href
    obtain rfl := h.inj heq
    rw [h.bound]
    exact hfresh cid j ⟨raw, p, hraw, hp⟩ ⟨hk, raw, sent, name, hraw, hsent, hj⟩

end Respells

end Calls

/-! ## Nodes -/

def nodeType : TypeDesc where
  name := "Node"
  capability := "urn:node"
  properties := (∅ : Map String Property).insert "parent" { kind := .id }

def nodeDB : DB := (DB.new plainScanner).add nodeType (by decide +kernel)

def nodeStd : StdType where
  desc := nodeType
  json := plainJson [("root", ∅), ("child", (∅ : Object).insert "parent" "\"#k\"")]
  blobExists _ := .read fun _ => .done (.ok true)
  maxObjectsInSet := 10

def nodeEnv : CommitEnv := { noteEnv {} ["A", "B"] with db := nodeDB }

theorem plainJson_quotes (objects : List (Raw × Object)) : (plainJson objects).Quotes := by
  intro s
  change plainString (quoteId s) = some s
  have hlist : (quoteId s).toList = '"' :: (s.toList ++ ['"']) := by simp [quoteId]
  simp [plainString, hlist]

theorem nodeEnv_draw (i : ℕ) : JmapId.valid (nodeEnv.draw i) = true := by
  match i with
  | 0 => decide +kernel
  | 1 => decide +kernel
  | i + 2 =>
    have hz : nodeEnv.draw (i + 2) = "Z" := by simp [nodeEnv, noteEnv]
    rw [hz]
    decide +kernel

def familyArgs (parent : Raw) : SetArgs where
  create := ((∅ : Map JmapId Raw).insert "a" "child").insert "k" parent

theorem nodeStd_checksRead : ChecksRead nodeEnv nodeStd nodeStd.hooks := by
  have hrun : ∀ obj u n, nodeEnv.run (admitCreate nodeEnv.db.scan nodeStd nodeStd.hooks obj) u n =
      (.ok (if checkValues nodeEnv.db.scan nodeStd.desc obj ≠ [] then
        .error (invalidProperties (checkValues nodeEnv.db.scan nodeStd.desc obj)) else .ok obj),
        u, n) := by
    intro obj u n
    unfold admitCreate
    split <;> rfl
  refine ⟨fun {obj u n v u' n'} h => ?_, fun {obj u n obj' r} h name p _ _ => ?_⟩
  · rw [hrun] at h
    cases h
    exact ⟨rfl, rfl⟩
  · rw [hrun] at h
    split at h <;> cases h
    rfl

end NaustJmap.Runtime
