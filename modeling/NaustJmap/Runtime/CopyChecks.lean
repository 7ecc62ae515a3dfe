import NaustJmap.Runtime.Rounds

/-!
# The Checks of a Copy

`Foo/copy` says that it pushes the merged record through the create pipeline of `/set`, but
`processCopies` has that pipeline a second time.  This file compares the two: a copy that lands
is held against the `Foo/set` create a client would send for the same record.
-/

namespace NaustJmap.Runtime

open Library ObjectDB

/-! ## What the checks rest on -/

/-- On strings `encoding/json` agrees with the scanner; it reads `null` as the empty string. -/
structure Json.Agrees (j : Json) (sc : Scanner) : Prop where
  string : ∀ {raw : Raw} {s : String}, sc.string raw = some s → j.string raw = some s
  null : ∀ {raw : Raw} {s : String}, isNull raw = true → j.string raw = some s → s = ""

/-- `Update.BlobExists` is one lookup of the upload record. -/
def StdType.LooksUp (st : StdType) (look : Store → JmapId → Except Err Bool) : Prop :=
  ∀ id, st.blobExists id = .read fun s => .done (look s id)

/-- The blob of a property's value, if it is a `BlobRef`. -/
def blobOf (j : Json) (obj : Object) (entry : String × Property) : Option JmapId :=
  if entry.2.blobRef then obj[entry.1]?.bind j.string else none

variable {n : ℕ} {obj overlay : Object} {name : String} {env : CommitEnv} {st : StdType}
  {look : Store → JmapId → Except Err Bool} {u : Update} {source : CopySource}
  {creates : List (JmapId × Raw)} {cid : JmapId} {createdIds : CreatedIds}

section Blobs

variable {env : CommitEnv} {st : StdType} {look : Store → JmapId → Except Err Bool}
  {obj : Object} {u : Update}

variable (hlook : st.LooksUp look)

include hlook

theorem checkBlobRefs_cons (entry : String × Property) (rest : List (String × Property))
    (bad : List String) :
    checkBlobRefs st.json st.blobExists obj (entry :: rest) bad =
      match blobOf st.json obj entry with
      | none => checkBlobRefs st.json st.blobExists obj rest bad
      | some id => .read fun s =>
        match look s id with
        | .error e => .done (.error e)
        | .ok ok =>
          checkBlobRefs st.json st.blobExists obj rest (if ok then bad else bad ++ [entry.1]) := by
  change (match blobOf st.json obj entry with
    | none => _
    | some id => _) = _
  cases blobOf st.json obj entry with
  | none => rfl
  | some id =>
    dsimp only
    rw [hlook id]
    change Callback.read _ = _
    congr 1

theorem checkBlobRefs_found {l : List (String × Property)} {bad : List String} {r : Update × ℕ}
    (h : env.run (checkBlobRefs st.json st.blobExists obj l bad) u n = (.ok [], r)) :
    bad = [] ∧ ∀ entry ∈ l, ∀ id, blobOf st.json obj entry = some id →
      ∃ k, look (env.schedule k) id = .ok true := by
  induction l generalizing bad n with
  | nil =>
    cases h
    exact ⟨rfl, fun entry hentry => nomatch hentry⟩
  | cons entry rest ih =>
    rw [checkBlobRefs_cons hlook] at h
    cases hid : blobOf st.json obj entry with
    | none =>
      rw [hid] at h
      obtain ⟨hbad, hrest⟩ := ih h
      refine ⟨hbad, List.forall_mem_cons.mpr ⟨fun id hid' => ?_, hrest⟩⟩
      rw [hid] at hid'
      cases hid'
    | some id =>
      rw [hid] at h
      change env.run (match look (env.schedule n) id with
        | .error e => _
        | .ok ok => _) u (n + 1) = _ at h
      cases hl : look (env.schedule n) id with
      | error e =>
        rw [hl] at h
        cases h
      | ok found =>
        rw [hl] at h
        obtain ⟨hbad, hrest⟩ := ih h
        -- a blob that is not there would have been listed
        cases found with
        | false => simp at hbad
        | true =>
          refine ⟨hbad, List.forall_mem_cons.mpr ⟨fun id' hid' => ⟨n, ?_⟩, hrest⟩⟩
          rw [hid] at hid'
          cases hid'
          exact hl

theorem checkBlobRefs_runOn (s : Store) (l : List (String × Property)) (bad : List String) :
    ((checkBlobRefs st.json st.blobExists obj l bad).runOn env.db env.draw s u).2 = u ∧
    (((checkBlobRefs st.json st.blobExists obj l bad).runOn env.db env.draw s u).1 = .ok [] ↔
      bad = [] ∧ ∀ entry ∈ l, ∀ id, blobOf st.json obj entry = some id →
        look s id = .ok true) := by
  induction l generalizing bad with
  | nil => exact ⟨rfl, by simp [checkBlobRefs]⟩
  | cons entry rest ih =>
    rw [checkBlobRefs_cons hlook, List.forall_mem_cons]
    cases hid : blobOf st.json obj entry with
    | none =>
      refine ⟨(ih bad).1, (ih bad).2.trans ?_⟩
      simp
    | some id =>
      rw [Callback.runOn_read]
      cases hl : look s id with
      | error e =>
        refine ⟨rfl, fun h => (nomatch h), fun h => ?_⟩
        have := h.2.1 id rfl
        rw [hl] at this
        cases this
      | ok found =>
        refine ⟨(ih _).1, (ih _).2.trans ?_⟩
        cases found <;> simp [hl]

end Blobs

/-! ## Values that passed -/

section Values

variable {sc : Scanner} {j : Json} {t : TypeDesc}

theorem creationRef_of_valid {s : String} (hv : JmapId.valid s = true) : creationRef s = none := by
  unfold creationRef
  split
  · rename_i rest hs
    simp [JmapId.valid, hs] at hv
  · rfl

/-- A value that passed the check of an `Id` property is no reference. -/
theorem resolveIdValue_of_checked (hj : j.Agrees sc) {p : Property} (hkind : p.kind = .id)
    {raw : Raw} (hok : (p.checkValue sc raw).isOk) (ids : CreatedIds) :
    resolveIdValue j ids raw = some raw := by
  have hnone : (j.string raw).bind creationRef = none := by
    unfold Property.checkValue at hok
    split at hok
    case isTrue hnull =>
      cases hs : j.string raw with
      | none => rfl
      | some s =>
        obtain rfl := hj.null hnull hs
        rfl
    case isFalse =>
      rw [hkind] at hok
      cases hs : sc.string raw with
      | none => simp [hs, Except.isOk, Except.toBool] at hok
      | some s =>
        rw [hj.string hs]
        cases hv : JmapId.valid s with
        | true => exact creationRef_of_valid hv
        | false => simp [hs, hv, Except.isOk, Except.toBool] at hok
  simp [resolveIdValue, hnone]

/-- Every property of the object is declared and passes the check of its kind. -/
def Checked (sc : Scanner) (t : TypeDesc) (obj : Object) : Prop :=
  ∀ (name : String) (raw : Raw), obj[name]? = some raw →
    ∃ p, t.properties[name]? = some p ∧ (p.checkValue sc raw).isOk

theorem checkValues_eq_nil (hid : "id" ∉ obj) : checkValues sc t obj = [] ↔ Checked sc t obj := by
  unfold checkValues Checked
  rw [List.map_eq_nil_iff, List.filter_eq_nil_iff]
  constructor
  · intro h name raw hraw
    have hne : name ≠ "id" := fun heq =>
      hid (Std.ExtTreeMap.mem_iff_isSome_getElem?.mpr (by rw [← heq, hraw]; rfl))
    have := h (name, raw) ((Map.mem_toList _ _ _).mpr hraw)
    cases hp : t.properties[name]? with
    | none => simp [hne, hp] at this
    | some p => exact ⟨p, rfl, by simpa [hne, hp] using this⟩
  · rintro h ⟨name, raw⟩ hmem
    obtain ⟨p, hp, hok⟩ := h name raw ((Map.mem_toList _ _ _).mp hmem)
    simp [hp, hok]

theorem resolveIdRefs_of_checked (hj : j.Agrees sc) (hok : Checked sc t obj) (ids : CreatedIds) :
    resolveIdRefs j t obj ids = (obj, []) := by
  refine Prod.ext (Std.ExtTreeMap.ext_getElem? fun name => ?_) ?_
  · rw [resolveIdRefs_getElem?]
    cases hraw : obj[name]? with
    | none => rfl
    | some raw =>
      obtain ⟨p, hp, hcheck⟩ := hok name raw hraw
      by_cases hkind : p.kind = .id
      · simp [resolvedValue, hp, hkind, resolveIdValue_of_checked hj hkind hcheck]
      · simp [resolvedValue, hp, hkind]
  · refine (resolveIdRefs_snd_eq_nil j t obj ids).mpr fun name p raw hp hkind hraw => ?_
    obtain ⟨p', hp', hcheck⟩ := hok name raw hraw
    rw [hp] at hp'
    cases hp'
    rw [resolveIdValue_of_checked hj hkind hcheck]
    rfl

theorem withDefaults_getElem? (obj : Object) (name : String) :
    (withDefaults t obj)[name]? = obj[name]?.or (t.properties[name]?.bind (·.default)) := by
  refine (Map.get_foldl_toList (fun (o : Object) a => o[a]?)
    (g := fun (p : Property) v => v.or p.default) (fun o e a => ?_) t.properties obj name).trans ?_
  · cases hd : e.2.default with
    | none => simp
    | some d =>
      dsimp only
      split
      case isTrue hmem =>
        obtain ⟨v, hv⟩ := Map.mem_iff.mp hmem
        split
        · rename_i heq
          rw [← heq, hv]
          rfl
        · rfl
      case isFalse hmem =>
        rw [Map.getElem?_insert]
        split
        · rename_i heq
          rw [← heq, Std.ExtTreeMap.getElem?_eq_none hmem]
          rfl
        · rfl
  · cases t.properties[name]? <;> simp

theorem copyCandidate_getElem? (original overlay : Object) (name : String) :
    (copyCandidate t original overlay)[name]? = overlay[name]?.or
      (original.filter fun name _ => name ≠ "id" && !(t.properties[name]?).any (·.serverSet))[name]?
        := by
  refine (Map.get_foldl_toList (fun (o : Object) a => o[a]?)
    (g := fun (v : Raw) _ => some v) (fun o e a => Map.getElem?_insert o e.1 a e.2) overlay _
    name).trans ?_
  cases overlay[name]? <;> rfl

end Values

/-! ## A copy and the create of the same record -/

def clientSets (t : TypeDesc) (name : String) : Bool :=
  (t.properties[name]?).any fun p => !p.serverSet && !p.internal

/-- The create a client would send for the record a copy leaves. -/
def asCreate (t : TypeDesc) (overlay obj : Object) : Object :=
  obj.filter fun name _ => clientSets t name || decide (name ∈ overlay)

/-- `Foo/set` accepts the create on the account `s`, with `u` staged before it. -/
def SetAdmits (env : CommitEnv) (st : StdType) (s : Store) (u : Update) (ids : CreatedIds)
    (sent : Object) : Prop :=
  forbiddenInCreate st.desc sent = [] ∧
  (resolveIdRefs st.json st.desc (withDefaults st.desc sent) ids).2 = [] ∧
  ∃ obj u', (admitCreate env.db.scan st st.hooks
    (resolveIdRefs st.json st.desc (withDefaults st.desc sent) ids).1).runOn env.db env.draw s u =
      (.ok (.ok obj), u')

/-- The condition under which nothing is lost by the checks that `processCopies` leaves out. -/
structure CopyMeetsSet (env : CommitEnv) (st : StdType) (look : Store → JmapId → Except Err Bool)
    (s : Store) (u : Update) (overlay obj : Object) : Prop where
  /-- The overlay names no Internal property. -/
  internal : ∀ name ∈ overlay, (st.desc.properties[name]?).any (·.internal) = false
  /-- A blob that the server would fill in by default exists. -/
  blobs : ∀ (name : String) (p : Property) (d : Raw) (id : JmapId),
    st.desc.properties[name]? = some p → p.serverSet = true ∨ p.internal = true →
      p.blobRef = true → p.default = some d → st.json.string d = some id → look s id = .ok true
  /-- The `Validate` hook accepts the record as a create. -/
  validate : ∀ validate, st.hooks.validate = some validate →
    ∃ obj' u', (validate none (withDefaults st.desc (asCreate st.desc overlay obj))).runOn
      env.db env.draw s u = (.ok (.ok obj'), u')

section Compare

variable {s : Store}

theorem admitCreate_runOn (hlook : st.LooksUp look) (hooks : SetHooks) :
    (∃ obj' u', (admitCreate env.db.scan st hooks obj).runOn env.db env.draw s u =
      (.ok (.ok obj'), u')) ↔
    checkValues env.db.scan st.desc obj = [] ∧
    (∀ entry ∈ st.desc.properties.toList, ∀ id, blobOf st.json obj entry = some id →
      look s id = .ok true) ∧
    ∀ validate, hooks.validate = some validate →
      ∃ obj' u', (validate none obj).runOn env.db env.draw s u = (.ok (.ok obj'), u') := by
  obtain ⟨hsame, hpass⟩ := @checkBlobRefs_runOn env st look obj u hlook s
    st.desc.properties.toList []
  rw [eq_self, true_and] at hpass
  unfold admitCreate
  by_cases hvals : checkValues env.db.scan st.desc obj = []
  swap
  · rw [if_pos hvals]
    exact ⟨fun ⟨_, _, h⟩ => (nomatch h), fun h => absurd h.1 hvals⟩
  rw [if_neg (not_not.mpr hvals), Callback.runOn_bind, hsame, ← hpass, and_iff_right hvals]
  generalize (Callback.runOn env.db env.draw s (checkBlobRefs st.json st.blobExists obj
    st.desc.properties.toList []) u).1 = r
  rcases r with e | bad
  · exact ⟨fun ⟨_, _, h⟩ => (nomatch h), fun h => (nomatch h.1)⟩
  by_cases hbad : bad = []
  swap
  · dsimp only
    rw [if_pos hbad]
    exact ⟨fun ⟨_, _, h⟩ => (nomatch h), fun h => absurd (Except.ok.inj h.1) hbad⟩
  subst hbad
  cases hv : hooks.validate with
  | none => simp
  | some validate => simp

theorem mem_asCreate {t : TypeDesc} :
    name ∈ asCreate t overlay obj ↔ name ∈ obj ∧ (clientSets t name ∨ name ∈ overlay) := by
  simp only [Std.ExtTreeMap.mem_iff_isSome_getElem?, asCreate, Std.ExtTreeMap.getElem?_filter']
  cases obj[name]? <;> simp

theorem asCreate_getElem? {t : TypeDesc} (h : name ∈ asCreate t overlay obj) :
    (asCreate t overlay obj)[name]? = obj[name]? := by
  have hkeep := (mem_asCreate.mp h).2
  simp only [asCreate, Std.ExtTreeMap.getElem?_filter']
  cases obj[name]? <;> simp
  simpa using hkeep

/-- The name checks of `/set` are the one check a copy does not make. -/
theorem forbiddenInCreate_asCreate (hover : forbiddenInCopy st.desc overlay = [])
    (hsub : ∀ name ∈ overlay, name ∈ obj) (hid : "id" ∉ obj) :
    forbiddenInCreate st.desc (asCreate st.desc overlay obj) = [] ↔
      ∀ name ∈ overlay, (st.desc.properties[name]?).any (·.internal) = false := by
  unfold forbiddenInCreate
  rw [List.filter_eq_nil_iff]
  constructor
  · intro h name hname
    have hmem : name ∈ (asCreate st.desc overlay obj).keys :=
      Std.ExtTreeMap.mem_keys.mpr (mem_asCreate.mpr ⟨hsub name hname, .inr hname⟩)
    have := h name hmem
    cases hp : st.desc.properties[name]? <;> simp_all
  · intro h name hname
    obtain ⟨hobj, hsets⟩ := mem_asCreate.mp (Std.ExtTreeMap.mem_keys.mp hname)
    have hne : name ≠ "id" := fun heq => hid (heq ▸ hobj)
    obtain hsets | hname := hsets
    · simpa [hne, clientSets] using hsets
    · have hset : (st.desc.properties[name]?).any (fun p => !p.serverSet) = true := by
        have := List.filter_eq_nil_iff.mp hover name (Std.ExtTreeMap.mem_keys.mpr hname)
        simpa using this
      have := h name hname
      cases hp : st.desc.properties[name]? <;> simp_all

/-- The create's properties: the record's own, or defaults that are not the client's to set. -/
theorem withDefaults_asCreate {raw : Raw}
    (hdef : ∀ (name : String) (p : Property), st.desc.properties[name]? = some p →
      p.default.isSome → name ∈ obj)
    (h : (withDefaults st.desc (asCreate st.desc overlay obj))[name]? = some raw) :
    obj[name]? = some raw ∨ ∃ p, st.desc.properties[name]? = some p ∧ p.default = some raw ∧
      (p.serverSet = true ∨ p.internal = true) := by
  rw [withDefaults_getElem?] at h
  by_cases hmem : name ∈ asCreate st.desc overlay obj
  · rw [asCreate_getElem? hmem] at h
    obtain ⟨v, hv⟩ := Option.isSome_iff_exists.mp
      (Std.ExtTreeMap.mem_iff_isSome_getElem?.mp (mem_asCreate.mp hmem).1)
    left
    rwa [hv, Option.some_or, ← hv] at h
  · rw [Std.ExtTreeMap.getElem?_eq_none hmem] at h
    obtain ⟨p, hp, hd⟩ := Option.bind_eq_some_iff.mp h
    refine .inr ⟨p, hp, hd, ?_⟩
    -- a default of a client-settable property is in the record already
    by_contra hsets
    refine hmem (mem_asCreate.mpr ⟨hdef name p hp (by rw [hd]; rfl), .inl ?_⟩)
    simpa [clientSets, hp] using hsets

theorem withDefaults_asCreate_default (hover : forbiddenInCopy st.desc overlay = [])
    (hint : ∀ name ∈ overlay, (st.desc.properties[name]?).any (·.internal) = false) {p : Property}
    (hp : st.desc.properties[name]? = some p) (hsets : p.serverSet = true ∨ p.internal = true) :
    (withDefaults st.desc (asCreate st.desc overlay obj))[name]? = p.default := by
  have hmem : name ∉ asCreate st.desc overlay obj := by
    intro hmem
    obtain hclient | hname := (mem_asCreate.mp hmem).2
    · simp only [clientSets, hp, Option.any_some, Bool.and_eq_true, Bool.not_eq_true'] at hclient
      rcases hsets with h | h <;> simp [h] at hclient
    · have hserver := List.filter_eq_nil_iff.mp hover name (Std.ExtTreeMap.mem_keys.mpr hname)
      have hinternal := hint name hname
      simp only [hp, Option.any_some] at hserver hinternal
      rcases hsets with h | h
      · simp [h] at hserver
      · simp [h] at hinternal
  rw [withDefaults_getElem?, Std.ExtTreeMap.getElem?_eq_none hmem, hp]
  rfl

theorem setAdmits_iff (hreg : st.desc.validate env.db.scan = .ok ())
    (hjson : st.json.Agrees env.db.scan) (hlook : st.LooksUp look) (ids : CreatedIds)
    (hover : forbiddenInCopy st.desc overlay = []) (hsub : ∀ name ∈ overlay, name ∈ obj)
    (hid : "id" ∉ obj) (hdef : ∀ (name : String) (p : Property),
      st.desc.properties[name]? = some p → p.default.isSome → name ∈ obj)
    (hvals : Checked env.db.scan st.desc obj)
    (hblobs : ∀ entry ∈ st.desc.properties.toList, ∀ id, blobOf st.json obj entry = some id →
      look s id = .ok true) :
    SetAdmits env st s u ids (asCreate st.desc overlay obj) ↔
      CopyMeetsSet env st look s u overlay obj := by
  -- the record `/set` would check: the properties of the copy, and defaults
  have hchecked : Checked env.db.scan st.desc
      (withDefaults st.desc (asCreate st.desc overlay obj)) := by
    intro name raw hraw
    obtain hobj | ⟨p, hp, hd, -⟩ := withDefaults_asCreate hdef hraw
    · exact hvals name raw hobj
    · exact ⟨p, hp, st.desc.validate_default hreg hp hd⟩
  have hidS : "id" ∉ withDefaults st.desc (asCreate st.desc overlay obj) := by
    intro hmem
    obtain ⟨raw, hraw⟩ := Map.mem_iff.mp hmem
    obtain ⟨p, hp, -⟩ := hchecked "id" raw hraw
    rw [TypeDesc.validate_id hreg] at hp
    cases hp
  unfold SetAdmits
  rw [forbiddenInCreate_asCreate hover hsub hid, resolveIdRefs_of_checked hjson hchecked,
    eq_self, true_and, admitCreate_runOn hlook st.hooks,
    and_iff_right ((checkValues_eq_nil hidS).mpr hchecked)]
  constructor
  · rintro ⟨hint, hfound, hvalidate⟩
    refine ⟨hint, fun name p d id hp hsets href hd hstr => ?_, hvalidate⟩
    refine hfound (name, p) ((Map.mem_toList _ _ _).mpr hp) id ?_
    simp only [blobOf, href, if_true, withDefaults_asCreate_default hover hint hp hsets, hd]
    exact hstr
  · rintro ⟨hint, hdefaults, hvalidate⟩
    refine ⟨hint, fun ⟨name, p⟩ hentry id hblob => ?_, hvalidate⟩
    have hp := (Map.mem_toList _ _ _).mp hentry
    by_cases href : p.blobRef = true
    swap
    · simp [blobOf, href] at hblob
    simp only [blobOf, href, if_true] at hblob
    obtain ⟨raw, hraw, hstr⟩ := Option.bind_eq_some_iff.mp hblob
    obtain hobj | ⟨p', hp', hd, hsets⟩ := withDefaults_asCreate hdef hraw
    · refine hblobs (name, p) hentry id ?_
      simp only [blobOf, href, if_true, hobj]
      exact hstr
    · rw [hp] at hp'
      cases hp'
      exact hdefaults name p raw id hp hsets href hd hstr

end Compare

/-! ## The copies of a call -/

theorem admitCreate_noHooks (hlook : st.LooksUp look) {obj' : Object} {r : Update × ℕ}
    (h : env.run (admitCreate env.db.scan st {} obj) u n = (.ok (.ok obj'), r)) :
    obj' = obj ∧ checkValues env.db.scan st.desc obj = [] ∧
      ∀ entry ∈ st.desc.properties.toList, ∀ id, blobOf st.json obj entry = some id →
        ∃ k, look (env.schedule k) id = .ok true := by
  unfold admitCreate at h
  by_cases hvals : checkValues env.db.scan st.desc obj = []
  swap
  · rw [if_pos hvals] at h
    cases h
  rw [if_neg (not_not.mpr hvals), CommitEnv.run, Callback.runAt_bind] at h
  rcases hrun : env.run (checkBlobRefs st.json st.blobExists obj st.desc.properties.toList []) u n
    with ⟨e | bad, r'⟩
  · rw [CommitEnv.run] at hrun
    rw [hrun] at h
    cases h
  have hfound := fun hbad : bad = [] => checkBlobRefs_found hlook (hbad ▸ hrun)
  rw [CommitEnv.run] at hrun
  rw [hrun] at h
  dsimp only at h
  split at h
  · cases h
  · rename_i hbad
    cases h
    exact ⟨rfl, hvals, (hfound (not_not.mp hbad)).2⟩

/-- The pending copy of one create of the call. -/
structure CopyOf (st : StdType) (source : CopySource) (creates : List (JmapId × Raw))
    (cid : JmapId) (overlay : Object) (p : Pending) : Prop where
  asked : ∃ raw sent, (cid, raw) ∈ creates ∧ st.json.object raw = some sent ∧
    overlay = sent.erase "id"
  allowed : forbiddenInCopy st.desc overlay = []
  merged : ∃ fromId original, source.original cid fromId = .ok original ∧
    p.fromId = some fromId ∧ p.obj = withDefaults st.desc (copyCandidate st.desc original overlay)

theorem CopyOf.mono {creates' : List (JmapId × Raw)} {p : Pending}
    (h : CopyOf st source creates cid overlay p) (hsub : creates ⊆ creates') :
    CopyOf st source creates' cid overlay p := by
  obtain ⟨raw, sent, hmem, hrest⟩ := h.asked
  exact ⟨⟨raw, sent, hsub hmem, hrest⟩, h.allowed, h.merged⟩

/-- A round of the first loop of `processCopies` rejects, fails the call, or makes pending. -/
theorem prepareCopies_cons (env : CommitEnv) (st : StdType) (source : CopySource) (cid : JmapId)
    (raw : Raw) (rest : List (JmapId × Raw)) (pending : List (JmapId × Pending)) (c : CallState)
    (u : Update) (n : ℕ) :
    (∃ serr, (prepareCopies st source ((cid, raw) :: rest) pending).exec env c u n =
      (prepareCopies st source rest pending).exec env (c.rejectCreate cid serr) u n) ∨
    (∃ e, (prepareCopies st source ((cid, raw) :: rest) pending).exec env c u n =
      ((.error e, c), u, n)) ∨
    ∃ overlay p, CopyOf st source [(cid, raw)] cid overlay p ∧
      (prepareCopies st source ((cid, raw) :: rest) pending).exec env c u n =
        (prepareCopies st source rest (pending ++ [(cid, p)])).exec env c u n := by
  rw [prepareCopies]
  split
  · exact .inl ⟨_, by rw [CallM.exec_bind, CallM.exec_modify]⟩
  rename_i sent hsent
  rw [CallM.exec_bind, CallM.exec_createdIds]
  dsimp only
  split
  · exact .inl ⟨_, by rw [CallM.exec_bind, CallM.exec_modify]⟩
  rename_i fromId _
  split
  · exact .inl ⟨_, by rw [CallM.exec_bind, CallM.exec_modify]⟩
  rename_i hallowed
  split
  · exact .inl ⟨_, by rw [CallM.exec_bind, CallM.exec_modify]⟩
  · exact .inr (.inl ⟨_, rfl⟩)
  · rename_i original horiginal
    refine .inr (.inr ⟨sent.erase "id", _, ⟨?_, not_not.mp hallowed, ?_⟩, rfl⟩)
    · exact ⟨raw, sent, List.mem_singleton_self _, hsent, rfl⟩
    · exact ⟨fromId, original, horiginal, rfl, rfl⟩

theorem prepareCopies_copyOf {pending result : List (JmapId × Pending)} {c c' : CallState}
    {u' : Update} {n' : ℕ}
    (h : (prepareCopies st source creates pending).exec env c u n = ((.ok result, c'), u', n')) :
    c'.created = c.created ∧ ∀ x ∈ result, x ∈ pending ∨
      ∃ overlay, CopyOf st source creates x.1 overlay x.2 := by
  induction creates generalizing pending c with
  | nil =>
    cases h
    exact ⟨rfl, fun x hx => .inl hx⟩
  | cons head rest ih =>
    obtain ⟨cid, raw⟩ := head
    have hmono :=
      fun (x : JmapId × Pending) (h : ∃ overlay, CopyOf st source rest x.1 overlay x.2) =>
      h.imp fun overlay ho => ho.mono (List.subset_cons_self (cid, raw) rest)
    obtain ⟨serr, heq⟩ | ⟨e, heq⟩ | ⟨overlay, p, hcopy, heq⟩ :=
      prepareCopies_cons env st source cid raw rest pending c u n
    · obtain ⟨hc, hall⟩ := ih (heq ▸ h)
      exact ⟨hc, fun x hx => (hall x hx).imp_right (hmono x)⟩
    · rw [heq] at h
      cases h
    · obtain ⟨hc, hall⟩ := ih (heq ▸ h)
      refine ⟨hc, fun x hx => ?_⟩
      obtain hx | hx := hall x hx
      · obtain hx | hx := List.mem_append.mp hx
        · exact .inl hx
        · obtain rfl := List.mem_singleton.mp hx
          exact .inr ⟨overlay, hcopy.mono (by simp)⟩
      · exact .inr (hmono x hx)

/-- The turn of a call of `/copy` in which one of its copies lands as `obj`. -/
structure CopyTurn (env : CommitEnv) (st : StdType) (source : CopySource) (a : CopyArgs)
    (createdIds : CreatedIds) (cid : JmapId) (overlay obj : Object) (turn : Rounds) : Prop where
  reached : ∃ start : Rounds, CreateRun env st {} start turn ∧
    -- the callback's first read is the type state
    (prepareCopies st source a.create.toList []).exec env { createdIds := createdIds }
      { sequence := (env.schedule 0).seq + 1 } 2 =
        ((.ok start.pending, start.call), start.update, start.index) ∧
    ∃ p0 p id u n, (cid, p0) ∈ start.pending ∧ CopyOf st source a.create.toList cid overlay p0 ∧
      (cid, p) ∈ turn.pending ∧ p.Descends p0 ∧ Lands env st {} turn p obj id u n

theorem CopyTurn.passed {a : CopyArgs} {turn : Rounds}
    (h : CopyTurn env st source a createdIds cid overlay obj turn)
    (hreg : st.desc.validate env.db.scan = .ok ()) (hlook : st.LooksUp look) :
    forbiddenInCopy st.desc overlay = [] ∧ (∀ name ∈ overlay, name ∈ obj) ∧ "id" ∉ obj ∧
    (∀ (name : String) (p : Property), st.desc.properties[name]? = some p → p.default.isSome →
      name ∈ obj) ∧
    Checked env.db.scan st.desc obj ∧
    ∀ entry ∈ st.desc.properties.toList, ∀ id, blobOf st.json obj entry = some id →
      ∃ k, look (env.schedule k) id = .ok true := by
  obtain ⟨start, -, -, p0, p, id, u, n, -, hcopy, -, hdesc, hland⟩ := h.reached
  obtain ⟨u', n', haccept, -⟩ := hland.staged
  obtain ⟨rfl, hvals, hblobs⟩ := admitCreate_noHooks hlook haccept
  obtain ⟨fromId, original, -, -, hobj⟩ := hcopy.merged
  -- the names in the record are those of the merged object with its defaults
  have hmem : ∀ name, name ∈ (turn.resolve st p).1 ↔
      (overlay[name]?.or (original.filter fun name _ =>
        name ≠ "id" && !(st.desc.properties[name]?).any (·.serverSet))[name]?).isSome ∨
        (st.desc.properties[name]?.bind (·.default)).isSome := by
    intro name
    rw [Rounds.resolve, mem_resolveIdRefs, hdesc.mem, hobj,
      Std.ExtTreeMap.mem_iff_isSome_getElem?, withDefaults_getElem?, copyCandidate_getElem?,
      Option.isSome_or, Bool.or_eq_true]
  have hid : "id" ∉ (turn.resolve st p).1 := by
    obtain ⟨raw, sent, -, -, rfl⟩ := hcopy.asked
    rw [hmem, TypeDesc.validate_id hreg]
    simp
  refine ⟨hcopy.allowed, fun name hname => (hmem name).mpr (.inl ?_), hid,
    fun name p' hp hd => (hmem name).mpr (.inr ?_), (checkValues_eq_nil hid).mp hvals, hblobs⟩
  · rw [Option.isSome_or, Std.ExtTreeMap.mem_iff_isSome_getElem?.mp hname]
    rfl
  · rw [hp]
    exact hd

theorem fooCopy_turn {a : CopyArgs} {resp : SetResponse}
    (h : (fooCopy env st source a createdIds).1 = .ok resp) (hc : cid ∈ resp.resp.created) :
    ∃ overlay obj turn, CopyTurn env st source a createdIds cid overlay obj turn := by
  unfold fooCopy at h
  split at h
  · cases h
  obtain ⟨u, n, -, hexec, -⟩ := answerOf_update_eq_ok h
  -- the two state checks let the call pass
  rw [copyCallback] at hexec
  split at hexec
  · cases hexec
  rw [CallM.exec_bind, checkState_exec] at hexec
  split at hexec
  rotate_left
  · cases hexec
  rename_i hchecked
  rw [Prod.mk.injEq, Prod.mk.injEq] at hchecked
  obtain ⟨⟨-, rfl⟩, rfl, rfl⟩ := hchecked
  rw [processCopies, CallM.exec_bind] at hexec
  rcases hprep : (prepareCopies st source a.create.toList []).exec env
    { createdIds := createdIds } { sequence := (env.schedule 0).seq + 1 } 2 with
    ⟨⟨e | pending, c1⟩, u1, n1⟩
  · rw [hprep] at hexec
    cases hexec
  rw [hprep] at hexec
  obtain ⟨s, hrun, -, hresp, -⟩ := createRounds_run env st {} (Nat.lt_succ_self _) hexec
  obtain ⟨hcreated, hcopies⟩ := prepareCopies_copyOf hprep
  rw [hresp, Rounds.rejected_created] at hc
  obtain ⟨turn, p, obj, id, u', n', hturn, hp, hland⟩ := hrun.landed hc (by
    rw [hcreated]
    exact Std.ExtTreeMap.not_mem_empty)
  obtain ⟨p0, hp0, hdesc⟩ := hturn.pending hp
  obtain hnil | ⟨overlay, hcopy⟩ := hcopies _ hp0
  · cases hnil
  exact ⟨overlay, obj, turn, ⟨_, hturn, hprep, p0, p, id, u', n', hp0, hcopy, hp, hdesc, hland⟩⟩

/-- **A copy is checked like a create** exactly under the condition.  Every record that a `/copy`
    reports as created landed in some turn of the call; and in any such turn a `Foo/set` create
    of the same record would have been accepted if and only if the condition holds, on every
    account in which the blobs the copy found still exist. -/
theorem copy_checked_iff {env : CommitEnv} {st : StdType} {source : CopySource} {a : CopyArgs}
    {createdIds : CreatedIds} {resp : SetResponse} {look : Store → JmapId → Except Err Bool}
    (hreg : st.desc.validate env.db.scan = .ok ()) (hjson : st.json.Agrees env.db.scan)
    (hlook : st.LooksUp look) (h : (fooCopy env st source a createdIds).1 = .ok resp) :
    (∀ cid ∈ resp.resp.created, ∃ overlay obj turn,
      CopyTurn env st source a createdIds cid overlay obj turn) ∧
    ∀ cid overlay obj turn, CopyTurn env st source a createdIds cid overlay obj turn →
      ∀ s : Store, (∀ k id, look (env.schedule k) id = .ok true → look s id = .ok true) →
        (SetAdmits env st s turn.update turn.call.createdIds (asCreate st.desc overlay obj) ↔
          CopyMeetsSet env st look s turn.update overlay obj) := by
  refine ⟨fun cid hc => fooCopy_turn h hc, fun cid overlay obj turn hturn s hs => ?_⟩
  obtain ⟨hover, hsub, hid, hdef, hvals, hblobs⟩ := hturn.passed hreg hlook
  refine setAdmits_iff hreg hjson hlook _ hover hsub hid hdef hvals fun entry hentry id hblob => ?_
  obtain ⟨k, hk⟩ := hblobs entry hentry id hblob
  exact hs k id hk

/-! ## Notes -/

/-- Notes whose blobs all exist: two copies of the note `O`, and the creates that match them. -/
def copyStd (hooks : SetHooks) : StdType where
  desc := noteType
  hooks := hooks
  json := plainJson
    [("copy", ((∅ : Object).insert "id" "\"O\"").insert "mark" "\"m\""),
     ("plain", (∅ : Object).insert "id" "\"O\""),
     ("create", ((∅ : Object).insert "title" "\"t\"").insert "mark" "\"m\""),
     ("plainCreate", (∅ : Object).insert "title" "\"t\"")]
  blobExists _ := .read fun _ => .done (.ok true)
  maxObjectsInSet := 10

def copyFrom : CopySource where
  state := 0
  original _ _ := .ok (((∅ : Object).insert "id" "\"O\"").insert "title" "\"t\"")

def rejectAll : SetHooks where
  validate := some fun _ _ => pure (.ok (.error { type := .forbidden }))

def outcomeKeys (r : Except MethodErr SetResponse × CreatedIds) : List JmapId × List JmapId :=
  match r.1 with
  | .ok resp => (resp.resp.created.keys, resp.resp.notCreated.keys)
  | .error _ => ([], [])

theorem plainJson_agrees (objects : List (Raw × Object)) :
    (plainJson objects).Agrees plainScanner where
  string := id
  null := by
    intro raw s hnull hs
    change plainString raw = some s at hs
    unfold plainString at hs
    split at hs
    · rename_i rest hraw
      -- trimming a text that starts with a quote leaves the quote in front, or nothing
      unfold isNull at hnull
      rw [hraw, beq_iff_eq] at hnull
      have hpre := (List.dropWhile_suffix isSpace
        (l := (('"' :: rest).dropWhile isSpace).reverse)).reverse
      rw [hnull] at hpre
      simp [isSpace] at hpre
    · cases hs

theorem copy_checked_iff_plain :
    ∃ resp, (fooCopy (noteEnv {} ["A"]) (copyStd {}) copyFrom
        { create := (∅ : Map JmapId Raw).insert "c" "plain" } ∅).1 = .ok resp ∧
      ("c" : JmapId) ∈ resp.resp.created ∧
      ∃ overlay obj turn, CopyTurn (noteEnv {} ["A"]) (copyStd {}) copyFrom
        { create := (∅ : Map JmapId Raw).insert "c" "plain" } ∅ "c" overlay obj turn ∧
        (SetAdmits (noteEnv {} ["A"]) (copyStd {}) {} turn.update turn.call.createdIds
            (asCreate noteType overlay obj) ↔
          CopyMeetsSet (noteEnv {} ["A"]) (copyStd {}) (fun _ _ => .ok true) {} turn.update
            overlay obj) := by
  have hkeys : outcomeKeys (fooCopy (noteEnv {} ["A"]) (copyStd {}) copyFrom
      { create := (∅ : Map JmapId Raw).insert "c" "plain" } ∅) = (["c"], []) := by decide +kernel
  unfold outcomeKeys at hkeys
  split at hkeys
  · rename_i resp hresp
    have hc : ("c" : JmapId) ∈ resp.resp.created := by
      rw [← Std.ExtTreeMap.mem_keys, (Prod.mk.inj hkeys).1]
      exact List.mem_singleton_self _
    have hlook : (copyStd {}).LooksUp fun _ _ => .ok true := fun _ => rfl
    obtain ⟨hturns, hiff⟩ :=
      copy_checked_iff (by decide +kernel) (plainJson_agrees _) hlook hresp
    obtain ⟨overlay, obj, turn, hturn⟩ := hturns "c" hc
    exact ⟨resp, hresp, hc, overlay, obj, turn, hturn,
      hiff "c" overlay obj turn hturn {} fun _ _ h => h⟩
  · cases hkeys

/-- A copy takes a mark from the client, which no create may set; and it lands under a hook
    that rejects the same create. -/
theorem copy_skips_checks :
    outcomeKeys (fooCopy (noteEnv {} ["A"]) (copyStd {}) copyFrom
      { create := (∅ : Map JmapId Raw).insert "c" "copy" } ∅) = (["c"], []) ∧
    outcomeKeys (fooSet (noteEnv {} ["A"]) (copyStd {})
      { create := (∅ : Map JmapId Raw).insert "c" "create" } ∅) = ([], ["c"]) ∧
    outcomeKeys (fooCopy (noteEnv {} ["A"]) (copyStd rejectAll) copyFrom
      { create := (∅ : Map JmapId Raw).insert "c" "plain" } ∅) = (["c"], []) ∧
    outcomeKeys (fooSet (noteEnv {} ["A"]) (copyStd rejectAll)
      { create := (∅ : Map JmapId Raw).insert "c" "plainCreate" } ∅) = ([], ["c"]) := by
  refine ⟨?_, ?_, ?_, ?_⟩ <;> decide +kernel

end NaustJmap.Runtime
