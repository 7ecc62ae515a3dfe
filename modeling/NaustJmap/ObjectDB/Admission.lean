import NaustJmap.Jsonscan.Decode
import NaustJmap.ObjectDB.Lookup

/-!
# What Admission Lets Through

`checkKinds` admits a record by the kinds of its values; the commit reads them again to index and
encode them.  For scalars the two agree.  For composites `Property.storable` is the difference: the
set index wants an array of strings, and the encoder counts a value's nesting from inside the
record.  The scanner is `core/internal/jsonscan` itself here, `jsonscan std`.
-/

namespace NaustJmap.ObjectDB

open Library

/-- `core/internal/jsonscan` as the object database calls it. -/
def jsonscan (std : Jsonscan.Stdlib) : Scanner where
  string raw := Jsonscan.string (bytesOf raw)
  stringFolded raw := Jsonscan.stringFolded std (bytesOf raw)
  validString raw := Jsonscan.validString (bytesOf raw)
  bool raw := Jsonscan.bool (bytesOf raw)
  int raw := Jsonscan.int (bytesOf raw)
  validObject raw := Jsonscan.validObject (bytesOf raw)
  validArray raw := Jsonscan.validArray (bytesOf raw)
  eachKey raw := (Jsonscan.eachKey (bytesOf raw)).toOption
  eachString raw := (Jsonscan.eachString (bytesOf raw)).toOption
  validValue raw := Jsonscan.validValue (bytesOf raw)
  parseTime := std.parseTime

/-! ## The scanner's readers agree -/

/-- What admission and commit rely on the readers of a scanner to agree on. -/
structure Scanner.Coherent (sc : Scanner) : Prop where
  folded : ∀ {raw : Raw}, sc.validString raw → (sc.stringFolded raw).isSome
  value_of_validString : ∀ {raw : Raw}, sc.validString raw → sc.validValue raw
  value_of_string : ∀ {raw : Raw}, (sc.string raw).isSome → sc.validValue raw
  value_of_bool : ∀ {raw : Raw}, (sc.bool raw).isSome → sc.validValue raw
  value_of_int : ∀ {raw : Raw}, (sc.int raw).isSome → sc.validValue raw
  keys : ∀ {raw : Raw}, sc.validObject raw → (sc.eachKey raw).isSome
  null : ∀ {raw : Raw}, isNull raw → sc.validValue raw →
    (sc.eachKey raw).isSome ∧ (sc.eachString raw).isSome
  quoted : ∀ {id : JmapId}, JmapId.valid id → sc.validValue (quoteId id)
  empty : sc.validValue "" = false

theorem isSome_toOption {ε α : Type} {x : Except ε α} (h : x.isOk) : x.toOption.isSome := by
  cases x with
  | error e => cases h
  | ok a => rfl

def startsValue (b : UInt8) : Bool :=
  b == Jsonscan.lbrace || b == Jsonscan.lbracket || b == Jsonscan.quote || b == 0x74 ||
    b == 0x66 || b == 0x6e || b == Jsonscan.minus || Jsonscan.isDigit b

theorem validValue_head {raw t : Bytes} {b : UInt8} (hs : Jsonscan.skipSpace raw = b :: t)
    (h : Jsonscan.validValue raw) : startsValue b := by
  unfold Jsonscan.validValue at h
  rw [hs] at h
  simp only [Jsonscan.skipValue] at h
  by_contra hb
  simp only [startsValue, Bool.or_eq_true, beq_iff_eq, not_or] at hb
  obtain ⟨⟨⟨⟨⟨⟨⟨h1, h2⟩, h3⟩, h4⟩, h5⟩, h6⟩, h7⟩, h8⟩ := hb
  simp [h1, h2, h3, h4, h5, h6, h7, h8, Jsonscan.errAt] at h

/-- The bytes of a character are one byte of JSON whitespace, or start no JSON value. -/
def harmless (c : Char) : Bool :=
  match String.utf8EncodeChar c with
  | [] => false
  | b :: r => Jsonscan.isSpace b && r.isEmpty || !Jsonscan.isSpace b && !startsValue b

/-- What `bytes.TrimSpace` cuts off is JSON whitespace or starts no JSON value. -/
theorem harmless_of_isSpace {c : Char} (h : isSpace c) : harmless c := by
  have hall : ∀ n ∈ [0x09, 0x0a, 0x0b, 0x0c, 0x0d, 0x20, 0x85, 0xa0, 0x1680, 0x2028, 0x2029,
      0x202f, 0x205f, 0x3000] ++ List.range' 0x2000 11, harmless (Char.ofNat n) := by decide
  have hmem := hall c.toNat (by
    simp only [isSpace, Bool.or_eq_true, decide_eq_true_eq, Bool.and_eq_true] at h
    rw [List.mem_append, List.mem_range'_1]
    exact h.imp id fun h => ⟨h.1, by omega⟩)
  rwa [Char.ofNat_toNat] at hmem

theorem skipSpace_cons {b : UInt8} (r : Bytes) :
    Jsonscan.skipSpace (b :: r) = if Jsonscan.isSpace b then Jsonscan.skipSpace r else b :: r := by
  unfold Jsonscan.skipSpace
  rw [List.dropWhile_cons]

/-- A null in Unicode white space is one JSON value if that is JSON white space. -/
theorem skipSpace_null {a : List Char} (ha : ∀ c ∈ a, isSpace c) {rest : Bytes}
    (h : Jsonscan.validValue (a.flatMap String.utf8EncodeChar ++ 0x6e :: rest)) :
    ∃ t, Jsonscan.skipSpace (a.flatMap String.utf8EncodeChar ++ 0x6e :: rest) = 0x6e :: t := by
  induction a with
  | nil => exact ⟨rest, rfl⟩
  | cons c a ih =>
    have hc := harmless_of_isSpace (ha c List.mem_cons_self)
    unfold harmless at hc
    rw [List.flatMap_cons, List.append_assoc] at h ⊢
    cases henc : String.utf8EncodeChar c with
    | nil =>
      rw [henc] at hc
      cases hc
    | cons b r =>
      rw [henc] at hc h
      simp only [Bool.or_eq_true, Bool.and_eq_true, List.isEmpty_iff, Bool.not_eq_true'] at hc
      rw [List.cons_append] at h ⊢
      rcases hc with ⟨hb, rfl⟩ | ⟨hb, hstart⟩
      · have hskip := skipSpace_cons (b := b)
          ([] ++ (a.flatMap String.utf8EncodeChar ++ 0x6e :: rest))
        rw [if_pos hb, List.nil_append] at hskip
        unfold Jsonscan.validValue at h
        rw [List.nil_append, hskip] at h
        rw [List.nil_append, hskip]
        exact ih (fun c' hc' => ha c' (List.mem_cons_of_mem _ hc')) h
      · have hskip := skipSpace_cons (b := b)
          (r ++ (a.flatMap String.utf8EncodeChar ++ 0x6e :: rest))
        rw [hb] at hskip
        rw [validValue_head hskip h] at hstart
        cases hstart

variable {raw : Raw} {t : TypeDesc} {id : JmapId} {name : String} {p : Property} {sc : Scanner}
  {obj : Object} {k : RecKey} {st : StagedRecord} {r : Except Err Unit} {u : Update}

theorem isNull_inv (h : isNull raw) :
    ∃ a rest, raw.toList = a ++ 'n' :: rest ∧ ∀ c ∈ a, isSpace c := by
  have h := eq_of_beq h
  generalize hd : raw.toList.dropWhile isSpace = d at h
  have hsplit := List.takeWhile_append_dropWhile (p := isSpace) (l := raw.toList)
  have hrev := List.takeWhile_append_dropWhile (p := isSpace) (l := d.reverse)
  rw [← List.reverse_reverse (d.reverse.dropWhile isSpace), h] at hrev
  have hd' : d = "null".toList ++ (d.reverse.takeWhile isSpace).reverse := by
    have := congrArg List.reverse hrev
    rw [List.reverse_append, List.reverse_reverse, List.reverse_reverse] at this
    exact this.symm
  rw [hd, hd'] at hsplit
  exact ⟨_, _, hsplit.symm, fun c hc => List.mem_takeWhile_imp hc⟩

theorem skipSpace_of_isNull (h : isNull raw) (hv : Jsonscan.validValue (bytesOf raw)) :
    ∃ t, Jsonscan.skipSpace (bytesOf raw) = 0x6e :: t := by
  obtain ⟨a, rest, hraw, ha⟩ := isNull_inv h
  have hbytes : bytesOf raw =
      a.flatMap String.utf8EncodeChar ++ 0x6e :: rest.flatMap String.utf8EncodeChar := by
    rw [bytesOf_eq_flatMap, hraw, List.flatMap_append]
    rfl
  rw [hbytes] at hv ⊢
  exact skipSpace_null ha hv

def plainByte (b : UInt8) : Bool := b != Jsonscan.quote && b != Jsonscan.backslash && 0x20 ≤ b

theorem skipBody_plain {l : Bytes} (hl : ∀ b ∈ l, plainByte b) (r : Bytes) :
    Jsonscan.skipBody (l ++ Jsonscan.quote :: r) = .ok r := by
  induction l with
  | nil =>
    unfold Jsonscan.skipBody
    rfl
  | cons b l ih =>
    have hb := hl b List.mem_cons_self
    simp only [plainByte, Bool.and_eq_true, bne_iff_ne, decide_eq_true_eq] at hb
    rw [List.cons_append]
    unfold Jsonscan.skipBody
    rw [if_neg hb.1.1, if_neg hb.1.2, if_neg (UInt8.not_lt.mpr hb.2)]
    exact ih fun b' hb' => hl b' (List.mem_cons_of_mem _ hb')

theorem plainByte_of_valid (h : JmapId.valid id) : ∀ b ∈ bytesOf id, plainByte b := by
  have hall : ∀ n < 128, ((Char.ofNat n).isAlphanum || Char.ofNat n == '-' ||
      Char.ofNat n == '_') = true → (String.utf8EncodeChar (Char.ofNat n)).all plainByte := by
    decide
  intro b hb
  rw [bytesOf_eq_flatMap] at hb
  obtain ⟨c, hc, hb⟩ := List.mem_flatMap.mp hb
  obtain ⟨hchar, -, hle⟩ := JmapId.valid_ascii h hc
  have hc := hall c.toNat (by omega)
  rw [Char.ofNat_toNat] at hc
  exact List.all_eq_true.mp (hc hchar) b hb

theorem validValue_quoteId (h : JmapId.valid id) : Jsonscan.validValue (bytesOf (quoteId id)) := by
  apply Jsonscan.validValue_of_validString
  unfold Jsonscan.validString
  have hskip : Jsonscan.skipString (Jsonscan.skipSpace (bytesOf (quoteId id))) = .ok [] := by
    exact skipBody_plain (plainByte_of_valid h) []
  rw [hskip]
  rfl

theorem jsonscan_coherent (std : Jsonscan.Stdlib) : (jsonscan std).Coherent where
  folded h := Jsonscan.stringFolded_of_validString std h
  value_of_validString h := Jsonscan.validValue_of_validString h
  value_of_string h := Jsonscan.validValue_of_validString (Jsonscan.validString_of_string h)
  value_of_bool h := Jsonscan.validValue_of_bool h
  value_of_int h := Jsonscan.validValue_of_int h
  keys h := isSome_toOption (Jsonscan.eachKey_of_validObject h)
  null hnull hv := by
    obtain ⟨t, ht⟩ := skipSpace_of_isNull hnull hv
    have hkeys : (jsonscan std).eachKey _ = some [] :=
      congrArg Except.toOption (Jsonscan.eachKey_null hv ht)
    have hstrings : (jsonscan std).eachString _ = some [] :=
      congrArg Except.toOption (Jsonscan.eachString_null hv ht)
    rw [hkeys, hstrings]
    exact ⟨rfl, rfl⟩
  quoted h := validValue_quoteId h
  empty := rfl

/-! ## What validation guarantees of the indexes -/

section Validated

theorem TypeDesc.validate_property (h : t.validate sc = .ok ())
    (hp : t.properties[name]? = some p) : t.validateProperty sc name p = .ok () := by
  simp only [TypeDesc.validate, check_eq_ok] at h
  exact forM_eq_ok h.2.2 ((Map.mem_toList _ _ _).mpr hp)

theorem TypeDesc.validate_indexed (h : t.validate sc = .ok ())
    (hp : t.properties[name]? = some p) (hi : p.indexed) : p.kind.composite = false := by
  have hprop := t.validate_property h hp
  simp only [TypeDesc.validateProperty, check_eq_ok] at hprop
  simpa [hi] using hprop.2.2.1

theorem TypeDesc.validate_setIndexed (h : t.validate sc = .ok ())
    (hp : t.properties[name]? = some p) (hi : p.setIndexed) : p.kind.composite := by
  have hprop := t.validate_property h hp
  simp only [TypeDesc.validateProperty, check_eq_ok] at hprop
  simpa [hi] using hprop.2.2.2.1

theorem TypeDesc.validate_orderBy (h : t.validate sc = .ok ())
    (hp : t.properties[name]? = some p) {ob : String} (hob : ob ∈ p.orderBy) :
    ∃ op, t.properties[ob]? = some op ∧ op.kind.composite = false := by
  have hprop := t.validate_property h hp
  simp only [TypeDesc.validateProperty, check_eq_ok] at hprop
  obtain ⟨-, -, -, -, -, -, hrest⟩ := hprop
  obtain ⟨_, hloop, -⟩ := Jsonscan.bind_eq_ok hrest
  have hround := forM_eq_ok hloop hob
  simp only [check_eq_ok] at hround
  obtain ⟨-, hround⟩ := hround
  cases hop : t.properties[ob]? with
  | none =>
    rw [hop] at hround
    cases hround
  | some op =>
    rw [hop] at hround
    simp only [check_eq_ok] at hround
    exact ⟨op, rfl, by simpa using hround.1⟩

end Validated

/-! ## Values that the commit can store -/

def Kind.Reads (sc : Scanner) (kind : Kind) (raw : Raw) : Prop :=
  match kind with
  | .string => sc.validString raw
  | .bool => (sc.bool raw).isSome
  | .int | .unsignedInt => (sc.int raw).isSome
  | .date => ∃ s nanos, sc.string raw = some s ∧ sc.parseTime s = some nanos
  | .id => (sc.string raw).isSome
  | .object => sc.validObject raw
  | .array => sc.validArray raw

/-- What the commit asks of a value beyond its kind check, of a composite or a null. -/
def Property.storable (sc : Scanner) (p : Property) (raw : Raw) : Bool :=
  if p.kind.composite || isNull raw || raw == "" then
    sc.validValue raw && (!(p.setIndexed && p.kind == .array) || (sc.eachString raw).isSome)
  else true

def TypeDesc.Storable (sc : Scanner) (t : TypeDesc) (obj : Object) : Prop :=
  ∀ {name : String} {p : Property} {raw : Raw}, t.properties[name]? = some p →
    obj[name]? = some raw → p.storable sc raw

/-- A record that passed `checkKinds`, or was completed by an empty value. -/
structure TypeDesc.Admitted (sc : Scanner) (t : TypeDesc) (obj : Object) : Prop where
  id : ∀ {raw : Raw}, obj[("id" : String)]? = some raw → sc.validValue raw
  value : ∀ {name : String} {raw : Raw}, name ≠ "id" → obj[name]? = some raw →
    ∃ p, t.properties[name]? = some p ∧ (p.checkValue sc raw = .ok () ∨ raw = "")

section Values

variable (hsc : sc.Coherent)

include hsc

theorem Property.ne_empty_of_storable (hs : p.storable sc raw) : raw ≠ "" := by
  rintro rfl
  unfold Property.storable at hs
  rw [if_pos (by simp), hsc.empty] at hs
  cases hs

omit hsc in
theorem Property.read_of_checkValue (hnull : isNull raw = false)
    (h : p.checkValue sc raw = .ok ()) : p.kind.Reads sc raw := by
  simp only [Property.checkValue, hnull, Bool.false_eq_true, if_false] at h
  unfold Kind.Reads
  cases hk : p.kind with
  | string | bool | object | array =>
    simp only [hk] at h ⊢
    split at h
    · assumption
    · cases h
  | int | unsignedInt =>
    simp only [hk] at h ⊢
    split at h
    · cases h
    · rename_i n hn
      rw [hn]
      rfl
  | id =>
    simp only [hk] at h ⊢
    split at h
    · rename_i s hs
      rw [hs]
      rfl
    · cases h
  | date =>
    simp only [hk] at h ⊢
    split at h
    · rename_i s hs
      split at h
      · rename_i hd
        unfold validDate at hd
        split at hd
        · cases hd
        · exact ⟨s, _, hs, by assumption⟩
      · cases h
    · cases h

theorem indexValue_of_checkValue (hp : p.kind.composite = false)
    (h : p.checkValue sc raw = .ok ()) : ∃ v, indexValue sc p raw = .ok v := by
  unfold indexValue
  cases hnull : isNull raw with
  | true =>
    simp only [Property.checkValue, hnull, if_true] at h
    split at h
    · rename_i hn
      rw [if_pos hn]
      exact ⟨_, rfl⟩
    · cases h
  | false =>
    -- the check read the value as its kind, and the index reads it the same way
    have hread := Property.read_of_checkValue hnull h
    obtain ⟨v, hv⟩ : ∃ v, bareIndexValue sc p.kind raw = .ok v := by
      unfold bareIndexValue
      cases hk : p.kind with
      | object | array =>
        rw [hk] at hp
        cases hp
      | string =>
        rw [hk] at hread
        obtain ⟨k, hk⟩ := Option.isSome_iff_exists.mp (hsc.folded hread)
        exact ⟨k, by simp only [hk]⟩
      | bool =>
        rw [hk] at hread
        obtain ⟨b, hb⟩ := Option.isSome_iff_exists.mp hread
        cases b
        · exact ⟨[0], by simp only [hb]⟩
        · exact ⟨[1], by simp only [hb]⟩
      | int | unsignedInt =>
        rw [hk] at hread
        obtain ⟨n, hn⟩ := Option.isSome_iff_exists.mp hread
        exact ⟨encodeInt64 n, by simp only [hn]⟩
      | id =>
        rw [hk] at hread
        obtain ⟨s, hs⟩ := Option.isSome_iff_exists.mp hread
        exact ⟨bytesOf s, by simp only [hs]⟩
      | date =>
        rw [hk] at hread
        obtain ⟨s, nanos, hs, hn⟩ := hread
        simp only [hs, hn]
        cases utcDateMicros raw with
        | none => exact ⟨_, rfl⟩
        | some micros => exact ⟨_, rfl⟩
    rw [hv]
    split
    · exact ⟨_, rfl⟩
    · exact ⟨_, rfl⟩

theorem validValue_of_storable (h : p.checkValue sc raw = .ok ()) (hs : p.storable sc raw) :
    sc.validValue raw := by
  by_cases hcond : (p.kind.composite || isNull raw || raw == "") = true
  · unfold Property.storable at hs
    rw [if_pos hcond, Bool.and_eq_true] at hs
    exact hs.1
  · simp only [Bool.or_eq_true, not_or, Bool.not_eq_true] at hcond
    obtain ⟨⟨hp, hnull⟩, -⟩ := hcond
    have hread := Property.read_of_checkValue hnull h
    cases hk : p.kind with
    | object | array =>
      rw [hk] at hp
      cases hp
    | string =>
      rw [hk] at hread
      exact hsc.value_of_validString hread
    | bool =>
      rw [hk] at hread
      exact hsc.value_of_bool hread
    | int | unsignedInt =>
      rw [hk] at hread
      exact hsc.value_of_int hread
    | id =>
      rw [hk] at hread
      exact hsc.value_of_string hread
    | date =>
      rw [hk] at hread
      obtain ⟨s, -, hs, -⟩ := hread
      exact hsc.value_of_string (by rw [hs]; rfl)

theorem setMembers_of_storable (hi : p.setIndexed) (hp : p.kind.composite)
    (h : p.checkValue sc raw = .ok ()) (hs : p.storable sc raw) :
    ∃ ms, setMembers sc p (some raw) = .ok ms := by
  have hv := validValue_of_storable hsc h hs
  unfold setMembers
  cases hk : p.kind with
  | object =>
    have hkeys : (sc.eachKey raw).isSome := by
      cases hnull : isNull raw with
      | true => exact (hsc.null hnull hv).1
      | false =>
        have hread := Property.read_of_checkValue hnull h
        rw [hk] at hread
        exact hsc.keys hread
    obtain ⟨names, hn⟩ := Option.isSome_iff_exists.mp hkeys
    exact ⟨dedupNames names, by simp only [hn]⟩
  | array =>
    unfold Property.storable at hs
    rw [if_pos (by simp [hp]), hi, hk] at hs
    simp only [BEq.rfl, Bool.and_self, Bool.not_true, Bool.false_or, Bool.and_eq_true] at hs
    obtain ⟨elems, he⟩ := Option.isSome_iff_exists.mp hs.2
    exact ⟨elems, by simp only [he]⟩
  | _ =>
    rw [hk] at hp
    cases hp

end Values

/-! ## Records that the commit can store -/

/-- A record that passed admission and whose values can all be stored. -/
structure TypeDesc.Sound (sc : Scanner) (t : TypeDesc) (obj : Object) : Prop where
  admitted : t.Admitted sc obj
  storable : t.Storable sc obj

theorem collectOps_ok_iff {α : Type} {f : α → Except Err (List BatchOp)} {l : List α} :
    (∃ ops, collectOps f l = .ok ops) ↔ ∀ a ∈ l, ∃ ops, f a = .ok ops := by
  induction l with
  | nil => simp [collectOps]
  | cons a l ih =>
    rw [List.forall_mem_cons, ← ih]
    constructor
    · rintro ⟨ops, h⟩
      obtain ⟨o, ho, h⟩ := Jsonscan.bind_eq_ok h
      obtain ⟨more, hm, -⟩ := Jsonscan.bind_eq_ok h
      exact ⟨⟨o, ho⟩, more, hm⟩
    · rintro ⟨⟨o, ho⟩, more, hm⟩
      exact ⟨o ++ more, by simp only [collectOps, ho, hm]; rfl⟩

section Records

theorem encodeObject_ok_iff : (∃ o, encodeObject sc obj = .ok o) ↔
    ∀ {name : String} {raw : Raw}, obj[name]? = some raw → sc.validValue raw := by
  unfold encodeObject
  cases hf : obj.toList.find? fun entry => !sc.validValue entry.2 with
  | none =>
    rw [List.find?_eq_none] at hf
    refine ⟨fun _ name raw h => ?_, fun _ => ⟨obj, rfl⟩⟩
    simpa using hf (name, raw) ((Map.mem_toList _ _ _).mpr h)
  | some entry =>
    refine ⟨fun ⟨_, h⟩ => (nomatch h), fun h => ?_⟩
    have hbad := List.find?_some hf
    have hmem := List.mem_of_find?_eq_some hf
    rw [h ((Map.mem_toList _ entry.1 entry.2).mp hmem)] at hbad
    cases hbad

variable (hsc : sc.Coherent) (ht : t.validate sc = .ok ())

include ht in
theorem TypeDesc.ne_id_of_declared (hp : t.properties[name]? = some p) : name ≠ "id" := by
  rintro rfl
  rw [t.validate_id ht] at hp
  cases hp

include ht hsc in
theorem TypeDesc.Sound.checked (hobj : t.Sound sc obj) (hp : t.properties[name]? = some p)
    (hraw : obj[name]? = some raw) : p.checkValue sc raw = .ok () := by
  obtain ⟨q, hq, hcheck⟩ := hobj.admitted.value (t.ne_id_of_declared ht hp) hraw
  cases hp.symm.trans hq
  exact hcheck.resolve_right (Property.ne_empty_of_storable hsc (hobj.storable hp hraw))

include ht hsc in
theorem TypeDesc.Sound.validValue (hobj : t.Sound sc obj) (hraw : obj[name]? = some raw) :
    sc.validValue raw := by
  by_cases hid : name = "id"
  · subst hid
    exact hobj.admitted.id hraw
  · obtain ⟨p, hp, -⟩ := hobj.admitted.value hid hraw
    exact validValue_of_storable hsc (hobj.checked hsc ht hp hraw) (hobj.storable hp hraw)

variable {old new : Option Object} (hold : ∀ o, old = some o → t.Sound sc o)
  (hnew : ∀ o, new = some o → t.Sound sc o)

include ht hsc in
theorem recordValue_ok (hobj : ∀ o, old = some o → t.Sound sc o)
    (hp : t.properties[name]? = some p) (hi : p.kind.composite = false) :
    ∃ v, recordValue sc p name old = .ok v := by
  unfold recordValue
  cases hraw : old.bind (·[name]?) with
  | none => exact ⟨none, rfl⟩
  | some raw =>
    obtain ⟨o, rfl, hraw⟩ := Option.bind_eq_some_iff.mp hraw
    obtain ⟨v, hv⟩ := indexValue_of_checkValue hsc hi ((hobj o rfl).checked hsc ht hp hraw)
    exact ⟨some v, by simp only [hv]; rfl⟩

include ht hsc in
theorem orderSegs_ok (hobj : ∀ o, old = some o → t.Sound sc o) (hp : t.properties[name]? = some p) :
    ∃ segs, orderSegs sc t p old = .ok segs := by
  have hseg : ∀ ob ∈ p.orderBy, ∃ seg, orderSeg sc t old ob = .ok seg := by
    intro ob hob
    obtain ⟨op, hop, hscalar⟩ := t.validate_orderBy ht hp hob
    unfold orderSeg
    cases hraw : old.bind (·[ob]?) with
    | none => exact ⟨[], rfl⟩
    | some raw =>
      obtain ⟨o, rfl, hraw⟩ := Option.bind_eq_some_iff.mp hraw
      obtain ⟨v, hv⟩ :=
        indexValue_of_checkValue hsc hscalar ((hobj o rfl).checked hsc ht hop hraw)
      exact ⟨v, by simp only [hop, hv]⟩
  unfold orderSegs
  generalize p.orderBy = obs at hseg ⊢
  induction obs with
  | nil => exact ⟨[], rfl⟩
  | cons ob rest ih =>
    obtain ⟨seg, hob⟩ := hseg ob List.mem_cons_self
    obtain ⟨segs, hrest⟩ := ih fun ob' h => hseg ob' (List.mem_cons_of_mem _ h)
    exact ⟨seg :: segs, by rw [List.mapM_cons, hob, hrest]; rfl⟩

include ht hsc in
theorem setMembers_ok (hobj : ∀ o, old = some o → t.Sound sc o)
    (hp : t.properties[name]? = some p) (hi : p.setIndexed) :
    ∃ ms, setMembers sc p (old.bind (·[name]?)) = .ok ms := by
  cases hraw : old.bind (·[name]?) with
  | none => exact ⟨[], rfl⟩
  | some raw =>
    obtain ⟨o, rfl, hraw⟩ := Option.bind_eq_some_iff.mp hraw
    exact setMembers_of_storable hsc hi (t.validate_setIndexed ht hp hi)
      ((hobj o rfl).checked hsc ht hp hraw) ((hobj o rfl).storable hp hraw)

include ht hsc hold hnew in
theorem maintenanceOps_ok {db : DB} (hdb : db.scan = sc) (acct id : JmapId) :
    ∃ ops, maintenanceOps db acct t id old new = .ok ops := by
  have hindex : ∃ ops, indexOps sc acct t id old new = .ok ops := by
    refine collectOps_ok_iff.mpr fun entry hentry => ?_
    have hp := (Map.mem_toList _ entry.1 entry.2).mp hentry
    unfold propertyIndexOps
    simp only
    split
    · rename_i hi
      have hscalar := t.validate_indexed ht hp hi
      obtain ⟨v, hv⟩ := recordValue_ok hsc ht hold hp hscalar
      obtain ⟨w, hw⟩ := recordValue_ok hsc ht hnew hp hscalar
      obtain ⟨segs, hsegs⟩ := orderSegs_ok hsc ht hold hp
      obtain ⟨segs', hsegs'⟩ := orderSegs_ok hsc ht hnew hp
      rw [hv, hw, hsegs, hsegs']
      cases v <;> cases w
      · exact ⟨_, rfl⟩
      · exact ⟨_, rfl⟩
      · exact ⟨_, rfl⟩
      · simp only [Jsonscan.ok_bind]
        split
        · exact ⟨_, rfl⟩
        · exact ⟨_, rfl⟩
    · exact ⟨[], rfl⟩
  have hsets : ∃ ops, setIndexOps sc acct t id old new = .ok ops := by
    refine collectOps_ok_iff.mpr fun entry hentry => ?_
    have hp := (Map.mem_toList _ entry.1 entry.2).mp hentry
    unfold propertySetIndexOps
    simp only
    split
    · rename_i hi
      obtain ⟨ms, hms⟩ := setMembers_ok hsc ht hold hp hi
      obtain ⟨ms', hms'⟩ := setMembers_ok hsc ht hnew hp hi
      rw [hms, hms']
      split
      · exact ⟨_, rfl⟩
      · exact ⟨_, rfl⟩
    · exact ⟨[], rfl⟩
  obtain ⟨ops, hops⟩ := hindex
  obtain ⟨ops', hops'⟩ := hsets
  unfold maintenanceOps
  rw [hdb, hops, hops']
  exact ⟨_, rfl⟩

end Records

/-! ## Staged records -/

theorem checkKinds_inv {prior : Option Object} (h : checkKinds sc t obj prior = .ok ())
    (hid : name ≠ "id") (hraw : obj[name]? = some raw) :
    ∃ p, t.properties[name]? = some p ∧
      ((∃ o, prior = some o ∧ o[name]?.getD "" = raw) ∨ p.checkValue sc raw = .ok ()) := by
  have hround := forM_eq_ok h ((Map.mem_toList _ _ _).mpr hraw)
  simp only [if_neg hid] at hround
  cases hp : t.properties[name]? with
  | none =>
    rw [hp] at hround
    cases hround
  | some p =>
    refine ⟨p, rfl, ?_⟩
    simp only [hp] at hround
    by_cases hsame : prior.any fun o => o[name]?.getD "" = raw
    · obtain ⟨o, ho, heq⟩ := (Option.any_eq_true _ _).mp hsame
      exact .inl ⟨o, ho, of_decide_eq_true heq⟩
    · rw [if_neg hsame] at hround
      cases hcheck : p.checkValue sc raw with
      | ok u => exact .inr rfl
      | error e =>
        rw [hcheck] at hround
        cases hround

def StoreSound (db : DB) (s : Store) : Prop :=
  ∀ (k : RecKey) (obj : Object), s.objs[k]? = some obj →
    ∃ t, db.types[k.typeName]? = some t ∧ t.Sound db.scan obj

def StagedAdmitted (db : DB) (staged : Map RecKey StagedRecord) : Prop :=
  ∀ (k : RecKey) (st : StagedRecord) (obj : Object), staged[k]? = some st → st.new = some obj →
    ∃ t, db.types[k.typeName]? = some t ∧ t.Admitted db.scan obj

section Staged

variable {db : DB} {draw : ℕ → JmapId} {s : Store}

theorem StagedAdmitted.insert {staged : Map RecKey StagedRecord} (h : StagedAdmitted db staged)
    (hst : ∀ obj, st.new = some obj →
      ∃ t, db.types[k.typeName]? = some t ∧ t.Admitted db.scan obj) :
    StagedAdmitted db (staged.insert k st) := by
  intro k' st' obj hk hnew
  rw [Map.getElem?_insert] at hk
  split at hk
  · rename_i heq
    cases hk
    exact heq ▸ hst obj hnew
  · exact h _ _ _ hk hnew

theorem StagedAdmitted.view (h : StagedAdmitted db u.staged) (hs : StoreSound db s) {cur : Object}
    (ht : db.types[k.typeName]? = some t) (hview : u.view s k = some cur) :
    t.Admitted db.scan cur := by
  unfold Update.view at hview
  have hcur : ∃ t', db.types[k.typeName]? = some t' ∧ t'.Admitted db.scan cur := by
    cases hst : u.staged[k]? with
    | some st =>
      rw [hst] at hview
      exact h _ _ _ hst hview
    | none =>
      rw [hst] at hview
      obtain ⟨t', ht', hsound⟩ := hs _ _ hview
      exact ⟨t', ht', hsound.admitted⟩
  obtain ⟨t', ht', hadm⟩ := hcur
  cases ht.symm.trans ht'
  exact hadm

theorem TypeDesc.Admitted.replace (hsc : db.scan.Coherent) {cur : Object}
    (hcur : t.Admitted db.scan cur) (hid : objectId db.scan obj = some id)
    (hkinds : checkKinds db.scan t obj (some cur) = .ok ()) : t.Admitted db.scan obj where
  id hraw := by
    rw [objectId, hraw] at hid
    exact hsc.value_of_string (Option.isSome_iff_exists.mpr ⟨id, hid⟩)
  value := by
    intro name raw hname hraw
    obtain ⟨p, hp, ⟨o, ho, hsame⟩ | hcheck⟩ := checkKinds_inv hkinds hname hraw
    · cases ho
      refine ⟨p, hp, ?_⟩
      cases hold : cur[name]? with
      | none =>
        rw [hold] at hsame
        exact .inr hsame.symm
      | some old =>
        obtain ⟨q, hq, hcheck⟩ := hcur.value hname hold
        cases hp.symm.trans hq
        rw [hold] at hsame
        obtain rfl : old = raw := hsame
        exact hcheck
    · exact ⟨p, hp, .inl hcheck⟩

theorem StagedAdmitted.step (hsc : db.scan.Coherent) (h : StagedAdmitted db u.staged)
    (hs : StoreSound db s) {ops : List WriteOp} {staged' : Map RecKey StagedRecord} {n' : ℕ}
    (hvalid : ∀ i < n', JmapId.valid (draw i))
    (hstep : StagingStep db draw s u ops staged' n') : StagedAdmitted db staged' := by
  cases hstep with
  | same => exact h
  | create ht hid hkinds =>
    refine h.insert fun obj hnew => ⟨_, ht, ?_⟩
    cases hnew
    constructor
    · intro raw hraw
      rw [Map.getElem?_insert] at hraw
      cases hraw
      exact hsc.quoted (hvalid _ (Nat.lt_succ_self _))
    · intro name raw hname hraw
      rw [Map.getElem?_insert, if_neg (Ne.symm hname)] at hraw
      obtain ⟨p, hp, ⟨o, ho, -⟩ | hcheck⟩ := checkKinds_inv hkinds hname hraw
      · cases ho
      · exact ⟨p, hp, .inl hcheck⟩
  | put ht hid hview hkinds =>
    refine h.insert fun obj hnew => ⟨_, ht, ?_⟩
    cases hnew
    exact (h.view hs ht hview).replace hsc hid hkinds
  | putInternal ht hid hview hkinds hidden =>
    refine h.insert fun obj hnew => ⟨_, ht, ?_⟩
    cases hnew
    exact (h.view hs ht hview).replace hsc hid hkinds
  | destroy ht hview =>
    refine h.insert fun obj hnew => ?_
    cases hnew

theorem eachString_of_setIndexOps {acct : JmapId} {old : Option Object} {ops : List BatchOp}
    (h : setIndexOps sc acct t id old (some obj) = .ok ops)
    (hold : ∀ o, old = some o → t.Storable sc o) (hp : t.properties[name]? = some p)
    (hi : p.setIndexed) (hk : p.kind = .array) (hraw : obj[name]? = some raw) :
    (sc.eachString raw).isSome := by
  obtain ⟨pops, hpops⟩ :=
    collectOps_ok_iff.mp ⟨ops, h⟩ (name, p) ((Map.mem_toList _ _ _).mpr hp)
  unfold propertySetIndexOps at hpops
  simp only [hi, if_true, Option.bind_some, hraw] at hpops
  split at hpops
  · rename_i hsame
    obtain ⟨o, ho, hoRaw⟩ := Option.bind_eq_some_iff.mp hsame
    have hstored := hold o ho hp hoRaw
    simp only [Property.storable, Kind.composite, hi, hk, Bool.true_or, if_true, BEq.rfl,
      Bool.and_self, Bool.not_true, Bool.false_or, Bool.and_eq_true] at hstored
    exact hstored.2
  · obtain ⟨_, -, hpops⟩ := Jsonscan.bind_eq_ok hpops
    obtain ⟨ms, hms, -⟩ := Jsonscan.bind_eq_ok hpops
    unfold setMembers at hms
    simp only [hk] at hms
    cases he : sc.eachString raw with
    | none =>
      rw [he] at hms
      cases hms
    | some elems => rfl

theorem stagedOps_ok_iff (hsc : db.scan.Coherent) (acct : JmapId)
    (ht : db.types[k.typeName]? = some t) (hold : ∀ o, st.preImage = some o → t.Sound db.scan o)
    (hnew : ∀ o, st.new = some o → t.Admitted db.scan o) :
    (∃ ops, stagedOps db acct (k, st) = .ok ops) ↔
      ∀ o, st.new = some o → t.Storable db.scan o := by
  have hvalid := (db.registered ht).2
  unfold stagedOps
  simp only [ht]
  cases hn : st.new with
  | none =>
    refine ⟨fun _ o ho => (nomatch ho), fun _ => ?_⟩
    have hnone : ∀ o, (none : Option Object) = some o → t.Sound db.scan o := fun o ho => nomatch ho
    obtain ⟨ops, hops⟩ := maintenanceOps_ok hsc hvalid hold hnone rfl acct k.id
    simp only [hops]
    split
    · exact ⟨_, rfl⟩
    · exact ⟨_, rfl⟩
  | some obj =>
    simp only
    constructor
    · rintro ⟨ops, h⟩ o ho name p raw hp hraw
      cases ho
      obtain ⟨enc, henc, h⟩ := Jsonscan.bind_eq_ok h
      obtain ⟨mops, hmops, -⟩ := Jsonscan.bind_eq_ok h
      obtain ⟨iops, -, hmops⟩ := Jsonscan.bind_eq_ok hmops
      obtain ⟨sops, hsops, -⟩ := Jsonscan.bind_eq_ok hmops
      unfold Property.storable
      split
      · rw [Bool.and_eq_true]
        refine ⟨encodeObject_ok_iff.mp ⟨enc, henc⟩ hraw, ?_⟩
        cases hi : p.setIndexed with
        | false => simp
        | true =>
          by_cases hk : p.kind = .array
          · simp [eachString_of_setIndexOps hsops (fun o ho => (hold o ho).storable) hp hi hk hraw]
          · simp [hk]
      · rfl
    · intro hstor
      have hsound : t.Sound db.scan obj := ⟨hnew obj hn, hstor obj rfl⟩
      obtain ⟨enc, henc⟩ := encodeObject_ok_iff.mpr fun hraw =>
        hsound.validValue hsc hvalid hraw
      have hsome : ∀ o, some obj = some o → t.Sound db.scan o := by
        rintro o ⟨⟩
        exact hsound
      obtain ⟨ops, hops⟩ := maintenanceOps_ok hsc hvalid hold hsome rfl acct k.id
      rw [henc, hops]
      exact ⟨_, rfl⟩

end Staged

/-! ## Commits -/

section Commits

variable {db : DB} {acct : JmapId} {s : Store} {c : Commit}

theorem exec_admitted (hsc : db.scan.Coherent) (hs : StoreSound db s)
    (hvalid : ∀ i < c.drawn db s, JmapId.valid (c.draw i))
    (h : (c.fn.exec db c.draw { sequence := s.seq + 1 }).run s = (r, u)) :
    StagedAdmitted db u.staged := by
  have hdrawn : u.createSeq = c.drawn db s := by rw [Commit.drawn, h]
  have hadm := Commit.exec_induct
    (P := fun staged n _ => n ≤ c.drawn db s → StagedAdmitted db staged)
    (fun u ops ops' staged' n' hP hstep hle =>
      (hP (hstep.createSeq_le.trans hle)).step hsc hs
        (fun i hi => hvalid i (hi.trans_le hle)) hstep)
    (fun _ k st obj h => by simp at h) h
  exact hadm.1 hdrawn.le

theorem buildBatch_ok_iff (hsc : db.scan.Coherent) (hs : StoreSound db s)
    (hfresh : FreshDraw c.draw s (c.drawn db s))
    (hvalid : ∀ i < c.drawn db s, JmapId.valid (c.draw i))
    (h : (c.fn.exec db c.draw { sequence := s.seq + 1 }).run s = (r, u)) (now : Int) :
    (∃ batch, u.buildBatch db acct now = .ok batch) ↔
      ∀ {k : RecKey} {st : StagedRecord} {obj : Object} {t : TypeDesc}, u.staged[k]? = some st →
        st.new = some obj → db.types[k.typeName]? = some t → t.Storable db.scan obj := by
  obtain ⟨hok, -, -⟩ := exec_stagedOk hfresh h
  have hadm := exec_admitted hsc hs hvalid h
  have hrecord : ∀ {k : RecKey} {st : StagedRecord}, u.staged[k]? = some st →
      ∃ t, db.types[k.typeName]? = some t ∧ ((∃ ops, stagedOps db acct (k, st) = .ok ops) ↔
        ∀ o, st.new = some o → t.Storable db.scan o) := by
    intro k st hst
    obtain ⟨t, ht⟩ := Option.isSome_iff_exists.mp (hok k st hst).registered
    refine ⟨t, ht, stagedOps_ok_iff hsc acct ht (fun o ho => ?_) (fun o ho => ?_)⟩
    · rw [(hok k st hst).preImage_eq] at ho
      obtain ⟨t', ht', hsound⟩ := hs _ _ ho
      cases ht.symm.trans ht'
      exact hsound
    · obtain ⟨t', ht', hadm⟩ := hadm _ _ _ hst ho
      cases ht.symm.trans ht'
      exact hadm
  have hbuild : (∃ batch, u.buildBatch db acct now = .ok batch) ↔
      ∃ ops, collectOps (stagedOps db acct) u.staged.toList = .ok ops := by
    unfold Update.buildBatch
    cases collectOps (stagedOps db acct) u.staged.toList with
    | error e => exact ⟨fun ⟨_, h⟩ => (nomatch h), fun ⟨_, h⟩ => (nomatch h)⟩
    | ok ops => exact ⟨fun _ => ⟨ops, rfl⟩, fun _ => ⟨_, rfl⟩⟩
  rw [hbuild, collectOps_ok_iff]
  constructor
  · intro h k st obj t hst hnew ht
    obtain ⟨t', ht', hiff⟩ := hrecord hst
    cases ht.symm.trans ht'
    exact hiff.mp (h (k, st) ((Map.mem_toList _ _ _).mpr hst)) obj hnew
  · intro h entry hentry
    have hst := (Map.mem_toList _ entry.1 entry.2).mp hentry
    obtain ⟨t, ht, hiff⟩ := hrecord hst
    exact hiff.mpr fun o ho => h hst ho ht

theorem StoreSound.commit (hsc : db.scan.Coherent) (hs : StoreSound db s)
    (hfresh : FreshDraw c.draw s (c.drawn db s))
    (hvalid : ∀ i < c.drawn db s, JmapId.valid (c.draw i)) {batch : List BatchOp}
    (h : (db.update acct c).run s = .ok (some batch)) : StoreSound db (applyBatch batch s) := by
  obtain ⟨u, ops, hexec, hops, rfl⟩ := update_eq_some h
  obtain ⟨hok, -, -⟩ := exec_stagedOk hfresh hexec
  have hobjs := objs_of_stagedOk hok (applyBatch_buildBatch hops s).2.2.1
  intro k obj hobj
  rw [hobjs k] at hobj
  cases hst : u.staged[k]? with
  | none =>
    rw [hst] at hobj
    exact hs _ _ hobj
  | some st =>
    rw [hst] at hobj
    obtain ⟨t, ht, hadm⟩ := exec_admitted hsc hs hvalid hexec _ _ _ hst hobj
    exact ⟨t, ht, hadm,
      (buildBatch_ok_iff hsc hs hfresh hvalid hexec c.now).mp ⟨ops, hops⟩ hst hobj ht⟩

theorem Reachable.storeSound (hsc : db.scan.Coherent) {w : World} (h : Reachable db acct w) :
    StoreSound db w.store := by
  obtain ⟨acts, hrun⟩ := h
  have hboth : w.Ok ∧ StoreSound db w.store := by
    refine Run.induct (P := fun w => w.Ok ∧ StoreSound db w.store) (fun hw hstep => ?_) hrun
      ⟨World.Ok.init, fun _ _ hobj => by simp [World.init] at hobj⟩
    refine ⟨hw.1.step hstep, ?_⟩
    cases hstep with
    | commit hfresh hvalid h => exact hw.2.commit hsc (hw.1.freshDraw hfresh) hvalid h
    | trim h =>
      intro k obj hobj
      rw [(trim_effect h).rest] at hobj
      exact hw.2 _ _ hobj
  exact hboth.2

end Commits

/-- **Admitted values commit, but for the composites and nulls the encoder or the membership
    index refuses.**  In every reachable account, whatever a callback had `Create` and `Put`
    accept, the batch is built if and only if every staged version can be stored. -/
theorem buildBatch_succeeds_iff {db : DB} {std : Jsonscan.Stdlib} (hscan : db.scan = jsonscan std)
    {acct : JmapId} {w : World} (hw : Reachable db acct w) {c : Commit}
    (hfresh : ∀ i < c.drawn db w.store, c.draw i ∉ w.issued)
    (hvalid : ∀ i < c.drawn db w.store, JmapId.valid (c.draw i)) {u : Update}
    (hexec : (c.fn.exec db c.draw { sequence := w.store.seq + 1 }).run w.store = (.ok (), u))
    (now : Int) :
    (∃ batch, u.buildBatch db acct now = .ok batch) ↔
      ∀ {k : RecKey} {st : StagedRecord} {obj : Object} {t : TypeDesc}, u.staged[k]? = some st →
        st.new = some obj → db.types[k.typeName]? = some t → t.Storable db.scan obj := by
  have hsc : db.scan.Coherent := by
    rw [hscan]
    exact jsonscan_coherent std
  exact buildBatch_ok_iff hsc (hw.storeSound hsc) (hw.ok.freshDraw hfresh) hvalid hexec now

/-! ## An account with tagged records -/

def plainStdlib : Jsonscan.Stdlib where
  toLower := bytesOf
  parseTime _ := none

def tagType : TypeDesc where
  name := "Tagged"
  capability := "urn:tagged"
  properties := (∅ : Map String Property).insert "refs" { kind := .array, setIndexed := true }

def tagDB : DB := (DB.new (jsonscan plainStdlib)).add tagType (by decide +kernel)

def createTagged (refs refs' : Raw) : Commit where
  fn := .create "Tagged" ((∅ : Object).insert "refs" refs) fun
    | .error e => .done (.error e)
    | .ok _ => .create "Tagged" ((∅ : Object).insert "refs" refs') fun
      | .error e => .done (.error e)
      | .ok _ => .done (.ok ())
  draw i := ["A", "B"].getD i "Z"
  now := 0

def stagedBy (c : Commit) : Except Err Unit × Update :=
  (c.fn.exec tagDB c.draw { sequence := 1 }).run {}

/-- Arrays of strings commit. -/
theorem tagged_strings_commit :
    (stagedBy (createTagged "[\"a\",null]" "[]")).1 = .ok () ∧
      ((stagedBy (createTagged "[\"a\",null]" "[]")).2.buildBatch tagDB "a" 0).isOk ∧
      ∀ {k : RecKey} {st : StagedRecord} {obj : Object} {t : TypeDesc},
        (stagedBy (createTagged "[\"a\",null]" "[]")).2.staged[k]? = some st →
          st.new = some obj → tagDB.types[k.typeName]? = some t → t.Storable tagDB.scan obj := by
  have hok : (stagedBy (createTagged "[\"a\",null]" "[]")).1 = .ok () := by decide +kernel
  have hbuild : ((stagedBy (createTagged "[\"a\",null]" "[]")).2.buildBatch tagDB "a" 0).isOk := by
    decide +kernel
  refine ⟨hok, hbuild, ?_⟩
  have hexec : ((createTagged "[\"a\",null]" "[]").fn.exec tagDB
      (createTagged "[\"a\",null]" "[]").draw
      { sequence := World.init.store.seq + 1 }).run World.init.store =
        (.ok (), (stagedBy (createTagged "[\"a\",null]" "[]")).2) := by
    rfl
  obtain ⟨batch, hbatch⟩ : ∃ batch,
      (stagedBy (createTagged "[\"a\",null]" "[]")).2.buildBatch tagDB "a" 0 = .ok batch := by
    cases h : (stagedBy (createTagged "[\"a\",null]" "[]")).2.buildBatch tagDB "a" 0 with
    | ok batch => exact ⟨batch, rfl⟩
    | error e =>
      rw [h] at hbuild
      cases hbuild
  intro k st obj t
  refine (@buildBatch_succeeds_iff tagDB plainStdlib rfl "a" World.init ⟨[], .nil⟩ _ ?_ ?_ _ hexec
    0).mp ⟨batch, hbatch⟩
  · intro i _ h
    cases h
  · decide +kernel

/-- A number in a set-indexed array is admitted and fails the commit, together with the record
    of another client. -/
theorem number_fails_commit :
    (stagedBy (createTagged "[\"a\"]" "[1]")).1 = .ok () ∧
      ((stagedBy (createTagged "[\"a\"]" "[1]")).2.buildBatch tagDB "a" 0).isOk = false ∧
      ((tagDB.update "a" (createTagged "[\"a\"]" "[1]")).run {}).isOk = false := by
  decide +kernel

end NaustJmap.ObjectDB
