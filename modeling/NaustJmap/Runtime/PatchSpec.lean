import NaustJmap.ObjectDB.History
import NaustJmap.Runtime.Patch

/-!
# What a Patch Does

`applyPatch` works through the pointers of a PatchObject in the order of their paths.  RFC 8620
section 5.3 describes the outcome without an order: each pointer's location takes the pointer's
value, and nothing else changes.  The two agree as long as no pointer is a prefix of another
(`Patched`); `applyPatch` refuses a *proper* prefix, and two spellings of one location get past it.
-/

namespace NaustJmap.Runtime

open Library ObjectDB

/-- The values decode, so that `jsonEqual` can compare them; the text `1e400` does not. -/
def Decodes (j : Json) (m : Object) : Prop :=
  ∀ (k : String) (v : Raw), m[k]? = some v → j.equal v v = true

/-- What `applyPatch` relies on in `encoding/json`, for maps of raw values that decode. -/
structure FaithfulJson (j : Json) (t : TypeDesc) : Prop where
  equal_trans : ∀ {a b c : Raw}, j.equal a b = true → j.equal b c = true → j.equal a c = true
  /-- The members of an object that decodes do. -/
  object_members : ∀ {raw : Raw} {m : Object}, j.equal raw raw = true → j.object raw = some m →
    Decodes j m
  quote : ∀ s, j.equal (j.quote s) (j.quote s) = true
  default : ∀ {name : String} {raw : Raw}, (t.properties[name]?).bind (·.default) = some raw →
    j.equal raw raw = true
  encode_total : ∀ {m : Object}, Decodes j m → ∃ raw, j.encode m = .ok raw
  /-- What is encoded is no `null`, and decodes to the same values. -/
  object_encode : ∀ {m : Object} {raw : Raw}, Decodes j m → j.encode m = .ok raw →
    j.equal raw raw = true ∧ isNull raw = false ∧
      ∃ m', j.object raw = some m' ∧ ∀ k : String, jsonEqual j m'[k]? m[k]? = true

theorem FaithfulJson.jsonEqual_trans {j : Json} {t : TypeDesc} (hj : FaithfulJson j t)
    {a b c : Option Raw}
    (hab : jsonEqual j a b = true) (hbc : jsonEqual j b c = true) : jsonEqual j a c = true := by
  cases a <;> cases b <;> cases c <;> simp_all [jsonEqual]
  exact hj.equal_trans hab hbc

/-! ## Locations -/

/-- The members of an object property; one that is absent or null has none. -/
def membersOf (j : Json) (obj : Object) (name : String) : Option Object :=
  (obj[name]?.filter (!isNull ·)).elim (some ∅) j.object

/-- The value at `name/key`. -/
def memberOf (j : Json) (obj : Object) (name key : String) : Option Raw :=
  (membersOf j obj name).bind fun members => members[key]?

/-- The value a pointer gives a whole property: null stands for the default, or for none. -/
def PatchEntry.assigns (j : Json) (t : TypeDesc) (ids : CreatedIds) (e : PatchEntry)
    (name : String) : Option Raw :=
  if name = "id" then (if isNull e.value then none else some e.value)
  else if isNull e.value then (t.properties[name]?).bind (·.default)
  else if (t.properties[name]?).any (·.kind = .id) then resolveIdValue j ids e.value
  else some e.value

def PatchEntry.memberValue (e : PatchEntry) : Option Raw :=
  if isNull e.value then none else some e.value

/-- Neither pointer is a prefix of the other. -/
def PatchEntry.Apart (e e' : PatchEntry) : Prop :=
  ¬ e.segments <+: e'.segments ∧ ¬ e'.segments <+: e.segments

/-- Every pointer's location has its value, and every other location is as it was. -/
structure Patched (j : Json) (t : TypeDesc) (ids : CreatedIds) (entries : List PatchEntry)
    (current new : Object) : Prop where
  property : ∀ e ∈ entries, ∀ name, e.segments = [name] → new[name]? = e.assigns j t ids name
  member : ∀ e ∈ entries, ∀ name key, e.segments = [name, key] →
    jsonEqual j (memberOf j new name key) e.memberValue = true
  otherProperty : ∀ name, (∀ e ∈ entries, e.segments.head? ≠ some name) →
    new[name]? = current[name]?
  otherMember : ∀ name key, (∀ e ∈ entries, e.segments ≠ [name] ∧ e.segments ≠ [name, key]) →
    jsonEqual j (memberOf j new name key) (memberOf j current name key) = true

/-! ## One entry -/

section Entry

variable {sc : Scanner} {j : Json} {t : TypeDesc} {ids : CreatedIds} {e e' : PatchEntry}
  {name key : String} {obj obj' obj1 : Object}

/-- The property gets a value or is removed. -/
def assign (obj : Object) (name : String) : Option Raw → Object
  | some raw => obj.insert name raw
  | none => obj.erase name

theorem getElem?_assign (v : Option Raw) (a : String) :
    (assign obj name v)[a]? = if name = a then v else obj[a]? := by
  cases v with
  | none => rw [assign, Map.getElem?_erase]
  | some raw => rw [assign, Map.getElem?_insert]

theorem patchProperty_eq (h : patchProperty sc j t ids e name obj = some obj') :
    obj' = assign obj name (e.assigns j t ids name) := by
  unfold patchProperty at h
  unfold PatchEntry.assigns
  by_cases hid : name = "id"
  · subst hid
    cases h
    split <;> rfl
  · rw [if_neg hid] at h ⊢
    cases hp : t.properties[name]? with
    | none => simp [hp] at h
    | some p =>
      simp only [hp] at h
      split at h
      · cases h
      · cases hnull : isNull e.value with
        | true =>
          simp only [hnull, if_true] at h ⊢
          cases h
          simp only [Option.bind_some]
          cases p.default <;> rfl
        | false =>
          simp only [hnull, Bool.false_eq_true, if_false, Option.any_some] at h ⊢
          by_cases hkind : p.kind = .id
          · simp only [hkind, if_true, decide_true] at h ⊢
            cases hv : resolveIdValue j ids e.value with
            | none => simp [hv] at h
            | some value =>
              simp only [hv] at h
              split at h
              · exact (Option.some.inj h).symm
              · cases h
          · simp only [hkind, if_false, decide_false, Bool.false_eq_true] at h ⊢
            split at h
            · exact (Option.some.inj h).symm
            · cases h

theorem patchProperty_isSome (obj obj' : Object) :
    (patchProperty sc j t ids e name obj).isSome =
      (patchProperty sc j t ids e name obj').isSome := by
  unfold patchProperty
  split
  · rfl
  · split
    · rfl
    · split
      · rfl
      · split
        · rfl
        · split
          · rfl
          · split <;> rfl

theorem patchProperty_other {name' : String} (hne : name' ≠ name)
    (h : patchProperty sc j t ids e name' obj = some obj') : obj'[name]? = obj[name]? := by
  rw [patchProperty_eq h, getElem?_assign, if_neg hne]

theorem patchMember_ok (h : patchMember j t e name obj = .ok obj') :
    ∃ (x key : String) (p : Property) (members : Object) (raw : Raw), e.segments = [x, key] ∧
      t.properties[name]? = some p ∧ ¬ (p.internal = true ∨ p.kind ≠ .object) ∧
      membersOf j obj name = some members ∧
      j.encode (assign members key e.memberValue) = .ok raw ∧ obj' = obj.insert name raw := by
  unfold patchMember at h
  split at h
  · next x key p hsegs hp =>
    split at h
    · cases h
    · next hkind =>
      split at h
      · cases h
      · next members hmembers =>
        dsimp only at h
        split at h
        · cases h
        · next raw hraw =>
          cases h
          refine ⟨x, key, p, members, raw, hsegs, hp, hkind, hmembers, ?_, rfl⟩
          rw [← hraw, PatchEntry.memberValue]
          split <;> rfl
  · cases h

theorem patchMember_other {name' : String} (hne : name' ≠ name)
    (h : patchMember j t e name' obj = .ok obj') : obj'[name]? = obj[name]? := by
  obtain ⟨-, -, -, -, raw, -, -, -, -, -, rfl⟩ := patchMember_ok h
  rw [Map.getElem?_insert, if_neg hne]

/-- One round of the loop of `applyPatch` that goes through. -/
def patchEntry (sc : Scanner) (j : Json) (t : TypeDesc) (ids : CreatedIds) (obj : Object)
    (e : PatchEntry) : Option Object :=
  match e.segments with
  | [name] => patchProperty sc j t ids e name obj
  | segments => (patchMember j t e (segments.headD "") obj).toOption

theorem patchEntry_cases (h : patchEntry sc j t ids obj e = some obj') :
    (∃ name, e.segments = [name] ∧ obj' = assign obj name (e.assigns j t ids name)) ∨
      ∃ name key p members raw, e.segments = [name, key] ∧ t.properties[name]? = some p ∧
        ¬ (p.internal = true ∨ p.kind ≠ .object) ∧ membersOf j obj name = some members ∧
        j.encode (assign members key e.memberValue) = .ok raw ∧ obj' = obj.insert name raw := by
  unfold patchEntry at h
  split at h
  · next name hsegs => exact .inl ⟨name, hsegs, patchProperty_eq h⟩
  · cases hm : patchMember j t e (e.segments.headD "") obj with
    | error serr =>
      rw [hm] at h
      cases h
    | ok out =>
      rw [hm] at h
      cases h
      obtain ⟨x, key, p, members, raw, hsegs, hp, hkind, hmembers, hraw, rfl⟩ := patchMember_ok hm
      rw [hsegs] at hp hmembers
      refine .inr ⟨x, key, p, members, raw, hsegs, hp, hkind, hmembers, hraw, ?_⟩
      rw [hsegs]
      rfl

theorem patchEntry_other (h : patchEntry sc j t ids obj e = some obj')
    (hhead : e.segments.head? ≠ some name) : obj'[name]? = obj[name]? := by
  rcases patchEntry_cases h with ⟨x, hsegs, rfl⟩ | ⟨x, key, -, -, raw, hsegs, -, -, -, -, rfl⟩
  · rw [getElem?_assign, if_neg fun heq => hhead (by simp [hsegs, heq])]
  · rw [Map.getElem?_insert, if_neg fun heq => hhead (by simp [hsegs, heq])]

theorem membersOf_congr (h : obj'[name]? = obj[name]?) :
    membersOf j obj' name = membersOf j obj name := by
  rw [membersOf, membersOf, h]

theorem decodes_assign (hobj : Decodes j obj) {v : Option Raw}
    (hv : ∀ raw, v = some raw → j.equal raw raw = true) : Decodes j (assign obj name v) := by
  intro k raw hraw
  rw [getElem?_assign] at hraw
  split at hraw
  · exact hv raw hraw
  · exact hobj k raw hraw

variable (hj : FaithfulJson j t)

include hj

theorem membersOf_insert {m : Object} {raw : Raw} (hm : Decodes j m) (hraw : j.encode m = .ok raw) :
    ∃ m', membersOf j (obj.insert name raw) name = some m' ∧
      ∀ k : String, jsonEqual j m'[k]? m[k]? = true := by
  obtain ⟨-, hnull, m', hm', hvalues⟩ := hj.object_encode hm hraw
  refine ⟨m', ?_, hvalues⟩
  rw [membersOf, Std.ExtTreeMap.getElem?_insert_self, Option.filter_some, if_pos (by simp [hnull])]
  exact hm'

variable (hobj : Decodes j obj)

include hobj

theorem decodes_membersOf {members : Object} (h : membersOf j obj name = some members) :
    Decodes j members := by
  unfold membersOf at h
  cases hraw : obj[name]?.filter (!isNull ·) with
  | none =>
    rw [hraw] at h
    cases h
    intro k v hv
    simp at hv
  | some raw =>
    rw [hraw] at h
    exact hj.object_members (hobj name raw (Option.filter_eq_some_iff.mp hraw).1) h

theorem jsonEqual_memberOf_self :
    jsonEqual j (memberOf j obj name key) (memberOf j obj name key) = true := by
  unfold memberOf
  cases hm : membersOf j obj name with
  | none => rfl
  | some members =>
    cases hv : members[key]? with
    | none => simp [hv, jsonEqual]
    | some v => simp [hv, jsonEqual, decodes_membersOf hj hobj hm key v hv]

variable (hvalue : j.equal e.value e.value = true)

include hvalue

theorem decodes_member {members : Object} (h : membersOf j obj name = some members) :
    Decodes j (assign members key e.memberValue) := by
  refine decodes_assign (decodes_membersOf hj hobj h) fun raw hraw => ?_
  unfold PatchEntry.memberValue at hraw
  split at hraw <;> cases hraw
  exact hvalue

variable (h : patchEntry sc j t ids obj e = some obj')

include h

theorem patchEntry_decodes : Decodes j obj' := by
  rcases patchEntry_cases h with ⟨x, -, rfl⟩ | ⟨x, key, -, members, raw, -, -, -, hm, hraw, rfl⟩
  · refine decodes_assign hobj fun raw hraw => ?_
    unfold PatchEntry.assigns resolveIdValue at hraw
    split_ifs at hraw <;> try cases hraw
    · exact hvalue
    · exact hj.default hraw
    · split at hraw
      · cases hraw
        exact hvalue
      · obtain ⟨id, -, rfl⟩ := Option.map_eq_some_iff.mp hraw
        exact hj.quote id
    · exact hvalue
  · refine decodes_assign (v := some raw) hobj fun raw' hraw' => ?_
    cases hraw'
    exact (hj.object_encode (decodes_member hj hobj hvalue hm) hraw).1

theorem patchEntry_member (hsegs : e.segments = [name, key]) :
    jsonEqual j (memberOf j obj' name key) e.memberValue = true := by
  rcases patchEntry_cases h with ⟨x, hsegs', -⟩ |
    ⟨x, key', -, members, raw, hsegs', -, -, hm, hraw, rfl⟩
  · simp [hsegs] at hsegs'
  · obtain ⟨rfl, rfl⟩ : name = x ∧ key = key' := by simpa [hsegs] using hsegs'
    obtain ⟨m', hm', hvalues⟩ :=
      @membersOf_insert j t name obj hj _ _ (decodes_member hj hobj hvalue hm) hraw
    have hkey := hvalues key
    rw [getElem?_assign, if_pos rfl] at hkey
    rw [memberOf, hm']
    exact hkey

theorem patchEntry_otherMember (hwhole : e.segments ≠ [name]) (hmember : e.segments ≠ [name, key]) :
    jsonEqual j (memberOf j obj' name key) (memberOf j obj name key) = true := by
  by_cases hhead : e.segments.head? = some name
  · rcases patchEntry_cases h with
      ⟨x, hsegs, -⟩ | ⟨x, key', -, members, raw, hsegs, -, -, hmembers, hraw, rfl⟩
    · exact absurd (by simpa [hsegs] using hhead) fun heq => hwhole (hsegs.trans (by rw [heq]))
    · obtain rfl : x = name := by simpa [hsegs] using hhead
      obtain ⟨m', hm', hvalues⟩ :=
        @membersOf_insert j t x obj hj _ _ (decodes_member hj hobj hvalue hmembers) hraw
      have hkey := hvalues key
      rw [getElem?_assign, if_neg fun heq => hmember (hsegs.trans (by rw [heq]))] at hkey
      rw [memberOf, hm', memberOf, hmembers]
      exact hkey
  · rw [memberOf, membersOf_congr (patchEntry_other h hhead)]
    exact jsonEqual_memberOf_self hj hobj

end Entry

variable {entries l : List PatchEntry} {name : String} {obj obj' : Object}

/-! ## A list of entries that are apart -/

section List

variable {sc : Scanner} {j : Json} {t : TypeDesc} {ids : CreatedIds} {e e' : PatchEntry}
  {key : String} {l' : List PatchEntry}

theorem patchLoop_invalid {invalid invalid' : List String}
    (h : patchLoop sc j t ids entries obj invalid = .ok (obj', invalid')) :
    invalid <+: invalid' := by
  induction entries generalizing obj invalid with
  | nil =>
    cases h
    exact List.prefix_rfl
  | cons e rest ih =>
    rw [patchLoop] at h
    split at h
    · split at h
      · exact (List.prefix_append _ _).trans (ih h)
      · exact ih h
    · split at h
      · cases h
      · exact ih h

theorem patchLoop_eq_ok_iff :
    patchLoop sc j t ids l obj [] = .ok (obj', []) ↔
      l.foldlM (patchEntry sc j t ids) obj = some obj' := by
  induction l generalizing obj with
  | nil => simp [patchLoop]
  | cons e rest ih =>
    rw [List.foldlM_cons]
    by_cases hone : ∃ name, e.segments = [name]
    · obtain ⟨name, hsegs⟩ := hone
      have hentry : patchEntry sc j t ids obj e = patchProperty sc j t ids e name obj := by
        simp only [patchEntry, hsegs]
      simp only [patchLoop, hsegs]
      rw [hentry]
      cases hp : patchProperty sc j t ids e name obj with
      | none =>
        refine iff_of_false (fun h => ?_) (by simp)
        exact absurd (patchLoop_invalid h) (by simp)
      | some obj1 => exact ih
    · have hentry : patchEntry sc j t ids obj e =
          (patchMember j t e (e.segments.headD "") obj).toOption := by
        unfold patchEntry
        split
        · next name hsegs => exact absurd ⟨name, hsegs⟩ hone
        · rfl
      rw [patchLoop, hentry]
      split
      · next name hsegs => exact absurd ⟨name, hsegs⟩ hone
      · cases hm : patchMember j t e (e.segments.headD "") obj with
        | error serr =>
          refine iff_of_false (fun h => by cases h) fun h => ?_
          cases h
        | ok obj1 => exact ih

theorem apart_comm : e.Apart e' ↔ e'.Apart e := and_comm

variable (hj : FaithfulJson j t) (hobj : Decodes j obj)

include hj hobj

theorem patchMember_isSome_iff (hvalue : j.equal e.value e.value = true) :
    (patchMember j t e name obj).toOption.isSome ↔
      (∃ x key p, e.segments = [x, key] ∧ t.properties[name]? = some p ∧
        ¬ (p.internal = true ∨ p.kind ≠ .object)) ∧ (membersOf j obj name).isSome := by
  constructor
  · intro h
    cases hm : patchMember j t e name obj with
    | error serr =>
      rw [hm] at h
      cases h
    | ok obj' =>
      obtain ⟨x, key, p, members, -, hsegs, hp, hkind, hmembers, -⟩ := patchMember_ok hm
      exact ⟨⟨x, key, p, hsegs, hp, hkind⟩, by simp [hmembers]⟩
  · rintro ⟨⟨x, key, p, hsegs, hp, hkind⟩, hsome⟩
    obtain ⟨members, hmembers⟩ := Option.isSome_iff_exists.mp hsome
    -- the edited members are values, so they encode
    obtain ⟨raw, hraw⟩ :=
      hj.encode_total (@decodes_member j t e name key obj hj hobj hvalue _ hmembers)
    have hedit : (if isNull e.value then members.erase key else members.insert key e.value) =
        assign members key e.memberValue := by
      unfold PatchEntry.memberValue
      split <;> rfl
    unfold membersOf at hmembers
    unfold patchMember
    simp only [hsegs, hp, if_neg hkind, hmembers, hedit, hraw]
    rfl

theorem patchEntry_isSome_congr (hvalue : j.equal e.value e.value = true)
    (hvalue' : j.equal e'.value e'.value = true)
    (h : patchEntry sc j t ids obj e' = some obj') (hapart : e.Apart e') :
    (patchEntry sc j t ids obj' e).isSome ↔ (patchEntry sc j t ids obj e).isSome := by
  unfold patchEntry
  split
  · next name hsegs => rw [patchProperty_isSome obj' obj]
  · rw [patchMember_isSome_iff hj (patchEntry_decodes hj hobj hvalue' h) hvalue,
      patchMember_isSome_iff hj hobj hvalue]
    refine and_congr_right fun ⟨name, key, p, hsegs, hp, hkind⟩ => ?_
    rw [hsegs]
    show (membersOf j obj' name).isSome ↔ (membersOf j obj name).isSome
    by_cases hhead : e'.segments.head? = some name
    · rcases patchEntry_cases h with
        ⟨x, hsegs', -⟩ | ⟨x, key', -, members, raw, hsegs', -, -, hmembers, hraw, rfl⟩
      · obtain rfl : x = name := by simpa [hsegs'] using hhead
        exact absurd (by rw [hsegs, hsegs']; exact ⟨[key], rfl⟩) hapart.2
      · obtain rfl : x = name := by simpa [hsegs'] using hhead
        obtain ⟨m', hm', -⟩ :=
          @membersOf_insert j t x obj hj _ _ (decodes_member hj hobj hvalue' hmembers) hraw
        simp [hm', hmembers]
    · rw [membersOf_congr (patchEntry_other h hhead)]

variable (hvalues : ∀ e ∈ l, j.equal e.value e.value = true)
  (hapart : l.Pairwise PatchEntry.Apart)

include hvalues hapart

/-- **Entries that are apart have their say**, all of them and nothing else. -/
theorem patched_of_foldlM (h : l.foldlM (patchEntry sc j t ids) obj = some obj') :
    Patched j t ids l obj obj' := by
  induction l generalizing obj with
  | nil =>
    obtain rfl : obj = obj' := by simpa using h
    exact ⟨by simp, by simp, fun _ _ => rfl, fun _ _ _ => jsonEqual_memberOf_self hj hobj⟩
  | cons e rest ih =>
    obtain ⟨obj1, hfirst, hrest⟩ := Option.bind_eq_some_iff.mp h
    obtain ⟨hhead, htail⟩ := List.pairwise_cons.mp hapart
    obtain ⟨hvalue, hvalues⟩ := List.forall_mem_cons.mp hvalues
    have hpatched := ih (patchEntry_decodes hj hobj hvalue hfirst) hvalues htail hrest
    refine ⟨fun e' he' name hsegs => ?_, fun e' he' name key hsegs => ?_, fun name hother => ?_,
      fun name key hother => ?_⟩
    · rcases List.mem_cons.mp he' with rfl | he'
      · -- no later entry begins with this property
        rw [hpatched.otherProperty name fun e'' he'' hname => ?_]
        · rcases patchEntry_cases hfirst with ⟨x, hsegs', rfl⟩ | ⟨x, key, -, -, -, hsegs', -⟩
          · obtain rfl : name = x := by simpa [hsegs] using hsegs'
            rw [getElem?_assign, if_pos rfl]
          · simp [hsegs] at hsegs'
        · refine (hhead e'' he'').1 ?_
          rw [hsegs]
          obtain ⟨tail, htail⟩ := List.head?_eq_some_iff.mp hname
          rw [htail]
          exact ⟨tail, rfl⟩
      · exact hpatched.property e' he' name hsegs
    · rcases List.mem_cons.mp he' with rfl | he'
      · refine hj.jsonEqual_trans (hpatched.otherMember name key fun e'' he'' => ⟨?_, ?_⟩)
          (patchEntry_member hj hobj hvalue hfirst hsegs)
        · intro hwhole
          refine (hhead e'' he'').2 ?_
          rw [hwhole, hsegs]
          exact ⟨[key], rfl⟩
        · intro hsame
          refine (hhead e'' he'').1 ?_
          rw [hsame, hsegs]
      · exact hpatched.member e' he' name key hsegs
    · rw [hpatched.otherProperty name fun e' he' => hother e' (List.mem_cons_of_mem _ he')]
      exact patchEntry_other hfirst (hother e List.mem_cons_self)
    · obtain ⟨hwhole, hmember⟩ := hother e List.mem_cons_self
      exact hj.jsonEqual_trans
        (hpatched.otherMember name key fun e' he' => hother e' (List.mem_cons_of_mem _ he'))
        (patchEntry_otherMember hj hobj hvalue hfirst hwhole hmember)

/-- A list of entries goes through when each of them does, in whatever order. -/
theorem foldlM_patchEntry_isSome_iff :
    (l.foldlM (patchEntry sc j t ids) obj).isSome ↔
      ∀ e ∈ l, (patchEntry sc j t ids obj e).isSome := by
  induction l generalizing obj with
  | nil => simp
  | cons e rest ih =>
    obtain ⟨hhead, htail⟩ := List.pairwise_cons.mp hapart
    obtain ⟨hvalue, hrest⟩ := List.forall_mem_cons.mp hvalues
    rw [List.foldlM_cons, List.forall_mem_cons]
    cases hfirst : patchEntry sc j t ids obj e with
    | none => simp
    | some obj1 =>
      show (rest.foldlM (patchEntry sc j t ids) obj1).isSome ↔ _
      rw [ih (patchEntry_decodes hj hobj hvalue hfirst) hrest htail]
      simp only [Option.isSome_some, true_and]
      refine forall₂_congr fun e' he' => ?_
      exact patchEntry_isSome_congr hj hobj (hrest e' he') hvalue hfirst
        (apart_comm.mp (hhead e' he'))

/-- **The order of the pointers does not matter.** -/
theorem foldlM_perm (hperm : l'.Perm l) (h : l.foldlM (patchEntry sc j t ids) obj = some obj') :
    ∃ obj1, l'.foldlM (patchEntry sc j t ids) obj = some obj1 ∧ Patched j t ids l obj obj1 := by
  have hapart' : l'.Pairwise PatchEntry.Apart :=
    hperm.symm.pairwise hapart fun {e e'} h => apart_comm.mp h
  have hthrough : (l.foldlM (patchEntry sc j t ids) obj).isSome := by
    rw [h]
    rfl
  have hvalues' : ∀ e ∈ l', j.equal e.value e.value = true := fun e he =>
    hvalues e (hperm.mem_iff.mp he)
  have hall := (foldlM_patchEntry_isSome_iff hj hobj hvalues hapart).mp hthrough
  have hsome := (foldlM_patchEntry_isSome_iff hj hobj hvalues' hapart').mpr
    fun e he => hall e (hperm.mem_iff.mp he)
  obtain ⟨obj1, hobj1⟩ := Option.isSome_iff_exists.mp hsome
  have hpatched := patched_of_foldlM hj hobj hvalues' hapart' hobj1
  refine ⟨obj1, hobj1, fun e he => ?_, fun e he => ?_, fun name hother => ?_,
    fun name key hother => ?_⟩
  · exact hpatched.property e (hperm.mem_iff.mpr he)
  · exact hpatched.member e (hperm.mem_iff.mpr he)
  · exact hpatched.otherProperty name fun e he => hother e (hperm.mem_iff.mp he)
  · exact hpatched.otherMember name key fun e he => hother e (hperm.mem_iff.mp he)

end List

/-! ## The patch -/

section Patch

variable {sc : Scanner} {j : Json} {t : TypeDesc} {ids : CreatedIds} {e other : PatchEntry}
  {current patch new : Object}

theorem not_overlap (h : patchOverlap entries = none) (he : e ∈ entries)
    (hother : other ∈ entries) {n : ℕ} (hpos : 0 < n) (hn : n < e.segments.length) :
    other.segments ≠ e.segments.take n := by
  intro heq
  have hnone := List.findSome?_eq_none_iff.mp h e he
  rw [Option.map_eq_none_iff, overlapOf, List.findSome?_eq_none_iff] at hnone
  have hat := hnone n (List.mem_range.mpr hn)
  rw [if_neg (Nat.ne_of_gt hpos), Option.map_eq_none_iff, List.find?_eq_none] at hat
  exact hat other (List.mem_reverse.mpr hother) (by simpa using heq)

theorem mem_patchEntries :
    e ∈ patchEntries patch ↔ patch[e.path]? = some e.value ∧ e.segments = pathSegments e.path := by
  rw [patchEntries, List.mem_map]
  constructor
  · rintro ⟨⟨path, value⟩, hmem, rfl⟩
    exact ⟨(Map.mem_toList _ _ _).mp hmem, rfl⟩
  · rintro ⟨hvalue, hsegs⟩
    obtain ⟨path, segments, value⟩ := e
    dsimp only at hsegs
    subst hsegs
    exact ⟨(path, value), (Map.mem_toList _ _ _).mpr hvalue, rfl⟩

theorem pathSegments_ne_nil (path : String) : pathSegments path ≠ [] := by
  rw [pathSegments, ne_eq, List.map_eq_nil_iff]
  exact List.splitOn_ne_nil _ _

theorem applyPatch_ok (h : applyPatch sc j t current patch ids = .ok new) :
    patchOverlap (patchEntries patch) = none ∧
      (patchEntries patch).foldlM (patchEntry sc j t ids) current = some new ∧
      ∀ name ∈ fixedProps t, jsonEqual j new[name]? current[name]? = true := by
  unfold applyPatch at h
  cases hoverlap : patchOverlap (patchEntries patch) with
  | some serr => simp [hoverlap] at h
  | none =>
    simp only [hoverlap] at h
    cases hloop : patchLoop sc j t ids (patchEntries patch) current [] with
    | error serr => simp [hloop] at h
    | ok out =>
      obtain ⟨obj, invalid⟩ := out
      simp only [hloop] at h
      split at h
      · next hnone =>
        cases h
        obtain ⟨rfl, hfixed⟩ := List.append_eq_nil_iff.mp hnone
        refine ⟨rfl, patchLoop_eq_ok_iff.mp hloop, fun name hname => ?_⟩
        simpa using List.filter_eq_nil_iff.mp hfixed name hname
      · cases h

theorem segments_eq_of_prefix (hoverlap : patchOverlap (patchEntries patch) = none)
    (he : e ∈ patchEntries patch) (hother : other ∈ patchEntries patch)
    (hlead : other.segments <+: e.segments) : other.segments = e.segments := by
  rcases Nat.lt_or_ge other.segments.length e.segments.length with hlt | hge
  · refine absurd (List.prefix_iff_eq_take.mp hlead) (not_overlap hoverlap he hother ?_ hlt)
    rw [(mem_patchEntries.mp hother).2]
    exact List.length_pos_iff.mpr (pathSegments_ne_nil _)
  · exact hlead.eq_of_length (Nat.le_antisymm hlead.length_le hge)

/-- Two paths of the patch do not spell one location. -/
def NoSharedSpelling (patch : Object) : Prop :=
  ∀ path ∈ patch, ∀ path' ∈ patch, pathSegments path = pathSegments path' → path = path'

theorem not_prefix_of_noSharedSpelling (hoverlap : patchOverlap (patchEntries patch) = none)
    (hspell : NoSharedSpelling patch) (he : e ∈ patchEntries patch)
    (hother : other ∈ patchEntries patch) (hne : e.path ≠ other.path) :
    ¬ e.segments <+: other.segments := by
  have hmem : ∀ {e : PatchEntry}, e ∈ patchEntries patch → e.path ∈ patch := fun he =>
    Map.mem_of_getElem? (mem_patchEntries.mp he).1
  intro hlead
  refine hne (hspell _ (hmem he) _ (hmem hother) ?_)
  rw [← (mem_patchEntries.mp he).2, ← (mem_patchEntries.mp hother).2]
  exact segments_eq_of_prefix hoverlap hother he hlead

theorem patchEntries_apart (hoverlap : patchOverlap (patchEntries patch) = none)
    (hspell : NoSharedSpelling patch) : (patchEntries patch).Pairwise PatchEntry.Apart := by
  have hpaths : (patchEntries patch).Pairwise fun e e' => e.path ≠ e'.path := by
    rw [patchEntries, List.pairwise_map]
    exact List.pairwise_map.mp (Map.nodup_toList_keys patch)
  refine hpaths.imp_of_mem fun {e e'} he he' hne => ?_
  exact ⟨not_prefix_of_noSharedSpelling hoverlap hspell he he' hne,
    not_prefix_of_noSharedSpelling hoverlap hspell he' he hne.symm⟩

/-- What a patch is meant to do to a record. -/
structure AppliesPatch (sc : Scanner) (j : Json) (t : TypeDesc) (ids : CreatedIds)
    (current patch new : Object) : Prop where
  /-- The result is the record the pointers describe. -/
  patched : Patched j t ids (patchEntries patch) current new
  /-- Applying them in another order describes it, too. -/
  anyOrder : ∀ l : List PatchEntry, l.Perm (patchEntries patch) →
    ∃ obj, patchLoop sc j t ids l current [] = .ok (obj, []) ∧
      Patched j t ids (patchEntries patch) current obj
  /-- No two pointers denote one location, or one inside another. -/
  apart : ∀ e ∈ patchEntries patch, ∀ e' ∈ patchEntries patch, e.path ≠ e'.path →
    ¬ e.segments <+: e'.segments
  internal : ∀ (name : String) (p : Property), t.properties[name]? = some p →
    p.internal = true → new[name]? = current[name]?
  fixed : ∀ (name : String) (p : Property), t.properties[name]? = some p →
    p.serverSet = true ∨ p.immutable = true → jsonEqual j new[name]? current[name]? = true

theorem patchEntry_internal (hid : name ≠ "id")
    (hint : (t.properties[name]?).any (·.internal) = true)
    (h : patchEntry sc j t ids obj e = some obj') : e.segments.head? ≠ some name := by
  intro hhead
  obtain ⟨p, hp, hinternal⟩ := (Option.any_eq_true _ _).mp hint
  rcases patchEntry_cases h with ⟨x, hsegs, -⟩ | ⟨x, _, p', _, _, hsegs, hp', hkind, -⟩
  · obtain rfl : x = name := by simpa [hsegs] using hhead
    unfold patchEntry at h
    simp [hsegs, patchProperty, hid, hp, hinternal] at h
  · obtain rfl : x = name := by simpa [hsegs] using hhead
    cases hp.symm.trans hp'
    exact hkind (.inl hinternal)

theorem foldlM_internal (hid : name ≠ "id") (hint : (t.properties[name]?).any (·.internal) = true)
    (h : l.foldlM (patchEntry sc j t ids) obj = some obj') : obj'[name]? = obj[name]? := by
  induction l generalizing obj with
  | nil =>
    obtain rfl : obj = obj' := by simpa using h
    rfl
  | cons e rest ih =>
    obtain ⟨obj1, hfirst, hrest⟩ := Option.bind_eq_some_iff.mp h
    exact (ih hrest).trans (patchEntry_other hfirst (patchEntry_internal hid hint hfirst))

theorem applyPatch_internal (hid : name ≠ "id")
    (hint : (t.properties[name]?).any (·.internal) = true)
    (h : applyPatch sc j t current patch ids = .ok new) : new[name]? = current[name]? :=
  foldlM_internal hid hint (applyPatch_ok h).2.1

theorem mem_fixedProps {p : Property} (hp : t.properties[name]? = some p)
    (hfixed : p.serverSet = true ∨ p.immutable = true) : name ∈ fixedProps t := by
  refine List.mem_cons_of_mem _ (List.mem_map.mpr ⟨(name, p), List.mem_filter.mpr ⟨?_, ?_⟩, rfl⟩)
  · exact (Map.mem_toList _ _ _).mpr hp
  · simpa using hfixed

end Patch

/-! ### Two spellings of one flag -/

/-- A text format for maps of raw values: every character of a key or value is marked. -/
def pairText : List (String × Raw) → List Char
  | [] => ['\x7d']
  | (k, v) :: rest =>
    k.toList.flatMap (['.', ·]) ++ (':' :: v.toList.flatMap (['.', ·]) ++ (',' :: pairText rest))

/-- Reads it back; the key and the value read so far are carried along. -/
def pairScan : List Char → List Char → Option (List Char) → Option (List (String × Raw))
  | ['\x7d'], [], none => some []
  | '.' :: c :: rest, k, none => pairScan rest (k ++ [c]) none
  | '.' :: c :: rest, k, some v => pairScan rest k (some (v ++ [c]))
  | ':' :: rest, k, none => pairScan rest k (some [])
  | ',' :: rest, k, some v =>
    (pairScan rest [] none).map ((String.ofList k, String.ofList v) :: ·)
  | _, _, _ => none

theorem pairScan_key (l k rest : List Char) :
    pairScan (l.flatMap (['.', ·]) ++ rest) k none = pairScan rest (k ++ l) none := by
  induction l generalizing k with
  | nil => rw [List.append_nil]; rfl
  | cons c l ih =>
    show pairScan (l.flatMap (['.', ·]) ++ rest) (k ++ [c]) none = _
    rw [ih, List.append_assoc, List.singleton_append]

theorem pairScan_value (l k v rest : List Char) :
    pairScan (l.flatMap (['.', ·]) ++ rest) k (some v) = pairScan rest k (some (v ++ l)) := by
  induction l generalizing v with
  | nil => rw [List.append_nil]; rfl
  | cons c l ih =>
    show pairScan (l.flatMap (['.', ·]) ++ rest) k (some (v ++ [c])) = _
    rw [ih, List.append_assoc, List.singleton_append]

theorem pairScan_pairText (l : List (String × Raw)) : pairScan (pairText l) [] none = some l := by
  induction l with
  | nil => rfl
  | cons e rest ih =>
    obtain ⟨k, v⟩ := e
    rw [pairText, pairScan_key]
    show pairScan (v.toList.flatMap (['.', ·]) ++ (',' :: pairText rest)) k.toList (some []) = _
    rw [pairScan_value, List.nil_append]
    show (pairScan (pairText rest) [] none).map _ = _
    rw [ih, Option.map_some, String.ofList_toList, String.ofList_toList]

def pairEncode (m : Object) : Raw := String.ofList ('\x7b' :: pairText m.toList)

def pairDecode (raw : Raw) : Option Object :=
  match raw.toList with
  | '\x7b' :: rest => (pairScan rest [] none).map fun l =>
    l.foldl (fun m e => m.insert e.1 e.2) (∅ : Object)
  | _ => none

theorem pairDecode_encode (m : Object) : pairDecode (pairEncode m) = some m := by
  simp only [pairDecode, pairEncode, String.toList_ofList]
  rw [pairScan_pairText, Option.map_some]
  congr 1
  refine Std.ExtTreeMap.ext_getElem? fun k => ?_
  have hfold := Map.get_foldl_toList (fun (m : Object) a => m[a]?) (g := fun v _ => some v)
    (fun m e a => Map.getElem?_insert m e.1 a e.2) m ∅ k
  refine hfold.trans ?_
  cases m[k]? <;> simp

/-- A text that starts with a brace is not `null`. -/
theorem isNull_of_brace {raw : Raw} {rest : List Char} (hraw : raw.toList = '\x7b' :: rest) :
    isNull raw = false := by
  rw [isNull, hraw, beq_eq_false_iff_ne, List.dropWhile_cons_of_neg (by decide)]
  -- what is left of the text starts with the brace
  have hstarts : ((('\x7b' :: rest).reverse.dropWhile isSpace).reverse) <+: ('\x7b' :: rest) := by
    rw [← List.reverse_suffix, List.reverse_reverse]
    exact List.dropWhile_suffix _
  intro heq
  rw [heq] at hstarts
  exact absurd (List.cons_prefix_cons.mp hstarts).1 (by decide)

theorem isNull_of_pairDecode {raw : Raw} {m : Object} (h : pairDecode raw = some m) :
    isNull raw = false := by
  unfold pairDecode at h
  split at h
  · exact isNull_of_brace ‹_›
  · cases h

def pairJson : Json where
  string := plainString
  object := pairDecode
  quote := quoteId
  encode m := .ok (pairEncode m)
  equal a b := a = b

def flagsType : TypeDesc where
  name := "Flags"
  capability := "urn:example:flags"
  properties := (∅ : Map String Property).insert "flags" { kind := .object }

theorem pairJson_decodes (m : Object) : Decodes pairJson m := fun _ _ _ => by simp [pairJson]

theorem faithful_pairJson (t : TypeDesc) : FaithfulJson pairJson t where
  equal_trans := by
    intro a b c hab hbc
    simp only [pairJson, decide_eq_true_eq] at hab hbc ⊢
    exact hab.trans hbc
  object_members := fun _ _ => pairJson_decodes _
  quote := by simp [pairJson]
  default := by simp [pairJson]
  encode_total := fun _ => ⟨_, rfl⟩
  object_encode := by
    intro m raw _ hraw
    cases hraw
    refine ⟨by simp [pairJson], isNull_of_pairDecode (pairDecode_encode m), m, pairDecode_encode m,
      fun k => ?_⟩
    cases m[k]? <;> simp [jsonEqual, pairJson]

def twiceSpelled : Object :=
  ((∅ : Object).insert "flags/a~" "true").insert "flags/a~0" "false"

def onceSpelled : Object := (∅ : Object).insert "flags/a~0" "true"

theorem applyPatch_isOk (patch : Object)
    (h : (applyPatch plainScanner pairJson flagsType ∅ patch ∅).isOk = true) :
    ∃ new, applyPatch plainScanner pairJson flagsType ∅ patch ∅ = .ok new := by
  cases hnew : applyPatch plainScanner pairJson flagsType ∅ patch ∅ with
  | error e =>
    rw [hnew] at h
    cases h
  | ok new => exact ⟨new, rfl⟩

end NaustJmap.Runtime
