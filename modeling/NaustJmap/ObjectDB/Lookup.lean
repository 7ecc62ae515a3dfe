import NaustJmap.ObjectDB.Indexes

/-!
# Index Lookups

`DB.IdsWhereEqual`, `DB.IdsWhereAtMost`, `DB.IdsWhereAtLeast` and `DB.IdsWhereMember`: one
range scan of the index each, with the id cut out of every key.  On a store whose indexes
are exact they answer with exactly the ids a scan of all records finds
(`LookupsExact`, `IndexesExact.lookups`).
-/

namespace NaustJmap.ObjectDB

open Library

/-! ## The lookups -/

/-- The callback of a lookup's scan: ids are collected until `more` refuses another. -/
def scanIds (more : ℕ → Bool) (ids : List JmapId) : List Bytes → List JmapId
  | [] => ids
  | k :: rest =>
    let ids := ids ++ [idFromObjKey k]
    if more ids.length then scanIds more ids rest else ids

def Store.idsInRange (s : Store) (bounds : Bytes × Option Bytes) (more : ℕ → Bool) :
    List JmapId :=
  scanIds more [] (s.idx.keys.filter (inRange bounds))

variable (db : DB) (acct : JmapId) (typeName prop : String)

/-- The property of a lookup, if it has the index that the lookup reads. -/
def DB.propertyWith (has : Property → Bool) (e : Err) : Except Err Property :=
  match db.types[typeName]? with
  | none => .error .unknownType
  | some t =>
    match t.properties[prop]? with
    | none => .error e
    | some p => if has p then .ok p else .error e

def DB.indexedProperty : Except Err Property :=
  db.propertyWith typeName prop (·.indexed) (.notIndexed typeName prop)

/-- `DB.IdsWhereEqual`; a negative limit stops it after the first id. -/
def DB.idsWhereEqual (value : Raw) (limit : Int) : ReadM Err Store (List JmapId) := do
  let p ← ReadM.ofExcept (db.indexedProperty typeName prop)
  let v ← ReadM.ofExcept (indexValue db.scan p value)
  let bounds := prefixRange (idxPrefix acct typeName prop ++ [v])
  ReadM.get fun s => s.idsInRange bounds fun n => limit = 0 ∨ (n : Int) < limit

def DB.idsWhereAtMost (max : Option Raw) (limit : Int) : ReadM Err Store (List JmapId) := do
  let p ← ReadM.ofExcept (db.indexedProperty typeName prop)
  let upper ← ReadM.ofExcept (max.mapM (indexValue db.scan p))
  let bounds := prefixRange (idxPrefix acct typeName prop)
  -- everything at most `v` sorts before the successor of the subrange of `v`
  let bounds := match upper with
    | none => bounds
    | some v => (bounds.1, (prefixRange (idxPrefix acct typeName prop ++ [v])).2)
  ReadM.get fun s => s.idsInRange bounds fun n => limit ≤ 0 ∨ (n : Int) < limit

def DB.idsWhereAtLeast (min : Option Raw) (limit : Int) : ReadM Err Store (List JmapId) := do
  let p ← ReadM.ofExcept (db.indexedProperty typeName prop)
  let lower ← ReadM.ofExcept (min.mapM (indexValue db.scan p))
  let bounds := prefixRange (idxPrefix acct typeName prop)
  let bounds := match lower with
    | none => bounds
    | some v => ((prefixRange (idxPrefix acct typeName prop ++ [v])).1, bounds.2)
  ReadM.get fun s => s.idsInRange bounds fun n => limit ≤ 0 ∨ (n : Int) < limit

def DB.setIndexedProperty : Except Err Property :=
  db.propertyWith typeName prop (·.setIndexed) (.notSetIndexed typeName prop)

def DB.idsWhereMember (member : String) :
    ReadM Err Store (List JmapId) := do
  let _ ← ReadM.ofExcept (db.setIndexedProperty typeName prop)
  let bounds := prefixRange (idxPrefix acct typeName prop ++ [bytesOf member])
  ReadM.get fun s => s.idsInRange bounds fun _ => true

/-! ## The scan of all records -/

/-- The ids of the records of a type that pass a test, by looking at all of them. -/
def Store.idsWhere (s : Store) (typeName : String) (test : Object → Bool) : List JmapId :=
  (s.allIds typeName).filter fun id => (s.objs[RecKey.mk typeName id]?).any test

/-- The encoded value of an indexed property; `none` when it is absent. -/
def indexedValue (sc : Scanner) (p : Property) (prop : String) (obj : Object) : Option Bytes :=
  (recordValue sc p prop (some obj)).toOption.join

def membersOf (sc : Scanner) (p : Property) (prop : String) (obj : Object) : List String :=
  (setMembers sc p obj[prop]?).toOption.getD []

theorem mem_idsWhere {s : Store} {T : String} {test : Object → Bool} {id : JmapId} :
    id ∈ s.idsWhere T test ↔ ∃ obj, s.objs[RecKey.mk T id]? = some obj ∧ test obj := by
  simp only [Store.idsWhere, Store.allIds, List.mem_filter, List.mem_map, Map.mem_keys_iff,
    decide_eq_true_eq, Option.any_eq_true]
  constructor
  · exact fun h => h.2
  · rintro ⟨obj, hobj, htest⟩
    exact ⟨⟨⟨T, id⟩, ⟨⟨obj, hobj⟩, rfl⟩, rfl⟩, obj, hobj, htest⟩

theorem nodup_idsWhere (s : Store) (T : String) (test : Object → Bool) :
    (s.idsWhere T test).Nodup := by
  refine List.Nodup.filter _ ?_
  refine List.Nodup.map_on ?_ ((Map.nodup_keys _).filter _)
  intro k hk k' hk' hid
  cases k; cases k'
  simp_all

/-! ## Collecting ids -/

theorem scanIds_all {more : ℕ → Bool} (hmore : ∀ n, more n) (ids : List JmapId)
    (keys : List Bytes) : scanIds more ids keys = ids ++ keys.map idFromObjKey := by
  induction keys generalizing ids with
  | nil => simp [scanIds]
  | cons k rest ih => simp [scanIds, hmore, ih]

theorem scanIds_limit {more : ℕ → Bool} {limit : ℕ} (hmore : ∀ n, more n ↔ n < limit)
    {ids : List JmapId} (hids : ids.length < limit) (keys : List Bytes) :
    scanIds more ids keys = ids ++ (keys.map idFromObjKey).take (limit - ids.length) := by
  induction keys generalizing ids with
  | nil => simp [scanIds]
  | cons k rest ih =>
    have hsucc : limit - ids.length = (limit - (ids.length + 1)) + 1 := by omega
    simp only [scanIds, List.map_cons, hsucc, List.take_succ_cons]
    split
    · rename_i h
      rw [ih ((hmore _).mp h)]
      simp
    · rename_i h
      rw [hmore] at h
      have hzero : limit - (ids.length + 1) = 0 := by simp at h; omega
      simp [hzero]

/-! ## The id of a key -/

theorem bytesOf_eq_flatMap (s : String) : bytesOf s = s.toList.flatMap String.utf8EncodeChar := by
  have h : s.toByteArray = s.toList.utf8Encode := by
    conv_lhs => rw [← String.ofList_toList (s := s)]
    exact String.toByteArray_ofList
  rw [bytesOf, h]
  simp [List.utf8Encode]

theorem isAscii_of_alphabet {c : Char} (hc : (c.isAlphanum || c == '-' || c == '_') = true) :
    0 < c.toNat ∧ c.toNat ≤ 127 := by
  simp only [Bool.or_eq_true, beq_iff_eq, Char.isAlphanum, Char.isAlpha, Char.isUpper,
    Char.isLower, Char.isDigit, Bool.and_eq_true, decide_eq_true_eq, ge_iff_le,
    UInt32.le_iff_toNat_le] at hc
  rcases hc with (hc | rfl) | rfl
  · have hletters : 'A'.val.toNat = 65 ∧ 'Z'.val.toNat = 90 ∧ 'a'.val.toNat = 97 ∧
        'z'.val.toNat = 122 ∧ '0'.val.toNat = 48 ∧ '9'.val.toNat = 57 := by decide
    show 0 < c.val.toNat ∧ c.val.toNat ≤ 127
    omega
  · decide
  · decide

theorem JmapId.valid_ascii {id : JmapId} (h : JmapId.valid id) {c : Char} (hc : c ∈ id.toList) :
    (c.isAlphanum || c == '-' || c == '_') = true ∧ 0 < c.toNat ∧ c.toNat ≤ 127 := by
  simp only [JmapId.valid, Bool.and_eq_true, List.all_eq_true] at h
  exact ⟨h.2 c hc, isAscii_of_alphabet (h.2 c hc)⟩

theorem bytesOf_ne_zero {s : String} (h : ∀ c ∈ s.toList, 0 < c.toNat ∧ c.toNat ≤ 127) :
    ∀ b ∈ bytesOf s, b ≠ 0 := by
  intro b hb
  rw [bytesOf_eq_flatMap] at hb
  obtain ⟨c, hc, hb⟩ := List.mem_flatMap.mp hb
  have hrange : 0 < c.val.toNat ∧ c.val.toNat ≤ 127 := h c hc
  simp only [String.utf8EncodeChar, hrange.2, if_true, List.mem_singleton] at hb
  rw [hb]
  intro hzero
  have := congrArg UInt8.toNat hzero
  have : c.val.toNat % 2 ^ 8 = 0 := this
  omega

theorem JmapId.valid_ne_zero {id : JmapId} (h : JmapId.valid id) : ∀ b ∈ bytesOf id, b ≠ 0 :=
  bytesOf_ne_zero fun _ hc => (JmapId.valid_ascii h hc).2

theorem lastSegment_eq {bs : Bytes} (hbs : ∀ b ∈ bs, b ≠ 0) (acc rest : Bytes) :
    lastSegment acc (bs.reverse ++ 0x01 :: 0x00 :: rest) = bs ++ acc := by
  induction bs using List.reverseRecOn generalizing acc with
  | nil => simp [lastSegment]
  | append_singleton bs b ih =>
    have ih := ih (fun b' hb' => hbs b' (by simp [hb'])) (b :: acc)
    rw [List.reverse_append, List.reverse_singleton, List.singleton_append]
    cases hrev : bs.reverse with
    | nil =>
      have hnil : bs = [] := by simpa using hrev
      subst hnil
      simp [lastSegment]
    | cons b' bs' =>
      rw [hrev] at ih
      have hb' : b' ≠ 0 := hbs b' (by
        have : b' ∈ bs.reverse := by rw [hrev]; exact List.mem_cons_self
        simp [List.mem_reverse.mp this])
      simp only [List.cons_append, lastSegment, hb', false_and, if_false] at ih ⊢
      rw [ih]
      simp

theorem take_terminator (front : Bytes) :
    (front ++ [0x00, 0x01]).take ((front ++ [0x00, 0x01]).length - 2) = front := by simp

theorem idFromObjKey_key {segs : List Bytes} {id : JmapId} (hzero : ∀ b ∈ bytesOf id, b ≠ 0)
    (hsegs : segs ≠ []) : idFromObjKey (key (segs ++ [bytesOf id])) = id := by
  have hescape : (bytesOf id).flatMap escape = bytesOf id := by
    rw [List.flatMap_congr (g := fun b => [b]) fun b hb => by simp [escape, hzero b hb]]
    simp
  -- the key without its last terminator: the segments before the id, then the id's bytes
  obtain ⟨front, hfront⟩ : ∃ front, key (segs ++ [bytesOf id]) =
      front ++ [0x00, 0x01] ++ bytesOf id ++ [0x00, 0x01] := by
    refine ⟨key segs.dropLast ++ (segs.getLast hsegs).flatMap escape, ?_⟩
    conv_lhs => rw [← List.dropLast_append_getLast hsegs]
    simp [key, segment, hescape]
  have hrev : (front ++ [0x00, 0x01] ++ bytesOf id).reverse =
      (bytesOf id).reverse ++ 0x01 :: 0x00 :: front.reverse := by simp
  rw [idFromObjKey, hfront, take_terminator, hrev, lastSegment_eq hzero, List.append_nil,
    stringOf_bytesOf]

theorem idFromObjKey_idxKey {acct : JmapId} {T prop : String} {v : Bytes} {ord : List Bytes}
    {id : JmapId} (hid : JmapId.valid id) : idFromObjKey (idxKey acct T prop v ord id) = id := by
  have hsplit : idxKey acct T prop v ord id =
      key ((idxPrefix acct T prop ++ v :: ord) ++ [bytesOf id]) := by
    simp [idxKey]
  rw [hsplit, idFromObjKey_key (JmapId.valid_ne_zero hid) (by simp)]

/-! ## Ranges -/

theorem lt_or_isPrefix_of_lt_append {p k r : Bytes} (h : k < p ++ r) : k < p ∨ p <+: k := by
  induction p generalizing k with
  | nil => exact .inr List.nil_prefix
  | cons b p ih =>
    cases k with
    | nil => exact .inl (by simp)
    | cons c k =>
      rw [List.cons_append, List.cons_lt_cons_iff] at h
      rw [List.cons_lt_cons_iff, List.cons_prefix_cons]
      rcases h with h | ⟨rfl, h⟩
      · exact .inl (.inl h)
      · exact (ih h).imp (fun h => .inr ⟨rfl, h⟩) fun h => ⟨rfl, h⟩

/-- A range that holds exactly the index keys of a property whose value passes `q`. -/
structure ValueRange (acct : JmapId) (T prop : String) (bounds : Bytes × Option Bytes)
    (q : Bytes → Bool) : Prop where
  mem : ∀ v ord id, inRange bounds (idxKey acct T prop v ord id) = q v
  only : ∀ {K : Bytes}, inRange bounds K → key (idxPrefix acct T prop) <+: K

section Ranges

variable (acct : JmapId) (T prop : String)

theorem valueRange_all : ValueRange acct T prop (prefixRange (idxPrefix acct T prop))
    fun _ => true where
  mem v ord id := by
    rw [mem_prefixRange_iff, idxKey, key_append]
    exact List.prefix_append _ _
  only h := (mem_prefixRange_iff _ _).mp h

theorem valueRange_equal (v : Bytes) :
    ValueRange acct T prop (prefixRange (idxPrefix acct T prop ++ [v])) (· = v) where
  mem w ord id := by
    rw [Bool.eq_iff_iff, mem_prefixRange_iff, idxKey, key_isPrefix_iff]
    simp [List.cons_prefix_cons, eq_comm]
  only h := by
    rw [mem_prefixRange_iff, key_append] at h
    exact (List.prefix_append _ _).trans h

theorem valueRange_atMost (v : Bytes) :
    ValueRange acct T prop
      ((prefixRange (idxPrefix acct T prop)).1, (prefixRange (idxPrefix acct T prop ++ [v])).2)
      (· ≤ v) where
  mem w ord id := by
    have hlead : key (idxPrefix acct T prop) ≤ idxKey acct T prop w ord id := by
      rw [idxKey, key_append]
      exact not_lt_of_isPrefix (List.prefix_append _ _)
    rw [Bool.eq_iff_iff]
    simp only [inRange, prefixRange, hlead, decide_true, Bool.true_and, decide_eq_true_eq]
    exact key_lt_prefixSuccessor_iff _ _ _ _
  only {K} h := by
    simp only [inRange, prefixRange, Bool.and_eq_true, all_lt_prefixSuccessor_iff,
      key_append] at h
    have hnot : ¬ K < key (idxPrefix acct T prop) := List.not_lt.mpr (of_decide_eq_true h.1)
    rcases h.2 with h | h
    · exact (lt_or_isPrefix_of_lt_append h).resolve_left hnot
    · exact (List.prefix_append _ _).trans h

theorem valueRange_atLeast (v : Bytes) :
    ValueRange acct T prop
      ((prefixRange (idxPrefix acct T prop ++ [v])).1, (prefixRange (idxPrefix acct T prop)).2)
      (v ≤ ·) where
  mem w ord id := by
    have hbelow : (prefixSuccessor (key (idxPrefix acct T prop))).all
        (idxKey acct T prop w ord id < ·) := by
      rw [all_lt_prefixSuccessor_iff, idxKey, key_append]
      exact .inr (List.prefix_append _ _)
    rw [Bool.eq_iff_iff]
    simp only [inRange, prefixRange, hbelow, Bool.and_true, decide_eq_true_eq]
    exact decide_eq_true_iff.trans (key_le_iff _ _ _ _)
  only {K} h := by
    simp only [inRange, prefixRange, Bool.and_eq_true, all_lt_prefixSuccessor_iff,
      key_append] at h
    have hle : key (idxPrefix acct T prop) ≤ K := List.le_trans
      (List.not_lt.mp (not_lt_of_isPrefix (List.prefix_append _ _))) (of_decide_eq_true h.1)
    exact h.2.resolve_left (List.not_lt.mpr hle)

end Ranges

/-! ## The answers -/

section Answers

variable {db : DB} {acct : JmapId} {s : Store} {T prop : String} {t : TypeDesc} {p : Property}

section Rows

variable (hs : IndexesExact db acct s) (ht : db.types[T]? = some t)
  (hp : t.properties[prop]? = some p)

include hs ht hp

theorem mem_idx_iff (K : Bytes) :
    K ∈ s.idx ∧ key (idxPrefix acct T prop) <+: K ↔
      ∃ (id : JmapId) (obj : Object), s.objs[RecKey.mk T id]? = some obj ∧
        K ∈ entryKeys db.scan acct t id (some obj) (prop, p) := by
  obtain ⟨hname, -⟩ := db.registered ht
  have hregion : ∀ {t' : TypeDesc} {id : JmapId} {obj : Option Object}
      {entry : String × Property}, K ∈ entryKeys db.scan acct t' id obj entry →
      K ∈ entryRegion acct ⟨t'.name, id⟩ entry.1 := fun h =>
    (List.mem_append.mp h).elim propertyKeys_subset memberKeys_subset
  rw [hs.idx]
  constructor
  · rintro ⟨⟨k, hK⟩, hlead⟩
    cases hobj : s.objs[k]? with
    | none => simp [hobj, recordKeys_none] at hK
    | some obj =>
      rw [recordKeys, hobj] at hK
      split at hK
      · simp at hK
      · rename_i t' ht'
        obtain ⟨⟨name, p'⟩, hp', hK⟩ := List.mem_flatMap.mp hK
        rw [Map.mem_toList] at hp'
        obtain ⟨v, ord, hKeq⟩ := hregion hK
        rw [hKeq, idxKey, key_isPrefix_iff] at hlead
        simp only [idxPrefix, List.cons_append, List.cons_prefix_cons, true_and,
          List.nil_append] at hlead
        have hT : T = t'.name := bytesOf_injective hlead.1
        have hprop : prop = name := bytesOf_injective hlead.2.1
        have hk : k = ⟨T, k.id⟩ := by rw [hT, (db.registered ht').1]
        rw [hk] at ht' hobj
        cases ht.symm.trans ht'
        subst hprop
        cases hp.symm.trans hp'
        exact ⟨k.id, obj, hobj, hK⟩
  · rintro ⟨id, obj, hobj, hK⟩
    refine ⟨⟨⟨T, id⟩, ?_⟩, ?_⟩
    · rw [recordKeys, hobj]
      simp only [ht]
      exact List.mem_flatMap.mpr ⟨(prop, p), (Map.mem_toList _ _ _).mpr hp, hK⟩
    · obtain ⟨v, ord, rfl⟩ := hregion hK
      simp only [idxKey, hname, key_append]
      exact List.prefix_append _ _

theorem idsInRange_perm {bounds : Bytes × Option Bytes} {q : Bytes → Bool}
    (hrange : ValueRange acct T prop bounds q) {vals ord : Object → List Bytes}
    (hkeys : ∀ (id : JmapId) (obj : Object), s.objs[RecKey.mk T id]? = some obj → ∀ K, K ∈
    entryKeys db.scan acct t id (some obj) (prop, p) ↔ ∃ v ∈ vals obj, K = idxKey acct T prop v
    (ord obj) id) (huniq : ∀ obj, ∀ v ∈ vals obj, ∀ w ∈ vals obj, q v → q w → v = w) :
    ((s.idx.keys.filter (inRange bounds)).map idFromObjKey).Perm
      (s.idsWhere T fun obj => (vals obj).any q) := by
  have hmem : ∀ K, K ∈ s.idx.keys.filter (inRange bounds) ↔
      ∃ (id : JmapId) (obj : Object) (v : Bytes), s.objs[RecKey.mk T id]? = some obj ∧
        v ∈ vals obj ∧ q v ∧ K = idxKey acct T prop v (ord obj) id := by
    intro K
    rw [List.mem_filter, Std.ExtTreeMap.mem_keys]
    constructor
    · rintro ⟨hK, hin⟩
      obtain ⟨id, obj, hobj, hK⟩ := (mem_idx_iff hs ht hp K).mp ⟨hK, hrange.only hin⟩
      obtain ⟨v, hv, rfl⟩ := (hkeys id obj hobj K).mp hK
      exact ⟨id, obj, v, hobj, hv, by rwa [hrange.mem] at hin, rfl⟩
    · rintro ⟨id, obj, v, hobj, hv, hq, rfl⟩
      exact ⟨((mem_idx_iff hs ht hp _).mpr ⟨id, obj, hobj, (hkeys id obj hobj _).mpr
        ⟨v, hv, rfl⟩⟩).1, by rwa [hrange.mem]⟩
  refine (List.perm_ext_iff_of_nodup ?_ (nodup_idsWhere _ _ _)).mpr fun id => ?_
  · refine List.Nodup.map_on ?_ ((Map.nodup_keys _).filter _)
    intro K hK K' hK' heq
    obtain ⟨id, obj, v, hobj, hv, hq, rfl⟩ := (hmem K).mp hK
    obtain ⟨id', obj', v', hobj', hv', hq', rfl⟩ := (hmem K').mp hK'
    rw [idFromObjKey_idxKey (hs.valid hobj), idFromObjKey_idxKey (hs.valid hobj')] at heq
    subst heq
    cases hobj.symm.trans hobj'
    rw [huniq obj v hv v' hv' hq hq']
  · rw [List.mem_map, mem_idsWhere]
    constructor
    · rintro ⟨K, hK, hid⟩
      obtain ⟨id', obj, v, hobj, hv, hq, rfl⟩ := (hmem K).mp hK
      rw [idFromObjKey_idxKey (hs.valid hobj)] at hid
      subst hid
      exact ⟨obj, hobj, List.any_eq_true.mpr ⟨v, hv, hq⟩⟩
    · rintro ⟨obj, hobj, htest⟩
      obtain ⟨v, hv, hq⟩ := List.any_eq_true.mp htest
      exact ⟨_, (hmem _).mpr ⟨id, obj, v, hobj, hv, hq, rfl⟩,
        idFromObjKey_idxKey (hs.valid hobj)⟩

theorem entryKeys_indexed (hidx : p.indexed) (id : JmapId) (obj : Object)
    (hobj : s.objs[RecKey.mk T id]? = some obj) (K : Bytes) :
    K ∈ entryKeys db.scan acct t id (some obj) (prop, p) ↔
      ∃ v ∈ (indexedValue db.scan p prop obj).toList,
        K = idxKey acct T prop v ((orderSegs db.scan t p (some obj)).toOption.getD []) id := by
  obtain ⟨hname, hvalid⟩ := db.registered ht
  have hset : p.setIndexed = false := by
    have := TypeDesc.validate_exclusive hvalid hp
    simpa [hidx] using this
  obtain ⟨t', ht', henc⟩ := hs.encodes hobj
  cases ht.symm.trans ht'
  obtain ⟨v, hv, hord⟩ := henc.value hp hidx
  cases v with
  | none => simp [entryKeys, propertyKeys, memberKeys, indexedValue, hset, hidx, hv,
      Except.toOption]
  | some v =>
    obtain ⟨ord, hord⟩ := hord rfl
    simp [entryKeys, propertyKeys, memberKeys, indexedValue, hset, hidx, hv, hord, hname,
      Except.toOption]

omit hs in
theorem entryKeys_setIndexed (hset : p.setIndexed) (id : JmapId) (obj : Object) (K : Bytes) :
    K ∈ entryKeys db.scan acct t id (some obj) (prop, p) ↔
      ∃ v ∈ (membersOf db.scan p prop obj).map bytesOf, K = idxKey acct T prop v [] id := by
  obtain ⟨hname, hvalid⟩ := db.registered ht
  have hidx : p.indexed = false := by
    have := TypeDesc.validate_exclusive hvalid hp
    simpa [hset] using this
  cases hms : setMembers db.scan p obj[prop]? with
  | error e => simp [entryKeys, propertyKeys, memberKeys, membersOf, hset, hidx, hms,
      Except.toOption]
  | ok ms => simp [entryKeys, propertyKeys, memberKeys, membersOf, hset, hidx, hms, hname,
      Except.toOption, eq_comm]

end Rows

/-- A lookup answers with these ids, in some order; with a limit, with the first so many. -/
def Finds (lookup : Int → ReadM Err Store (List JmapId)) (s : Store) (ids : List JmapId) : Prop :=
  ∃ found, found.Perm ids ∧ (lookup 0).run s = .ok found ∧
    ∀ n : ℕ, 0 < n → (lookup n).run s = .ok (found.take n)

/-- Every lookup answers with exactly the ids a scan of all records finds. -/
structure LookupsExact (db : DB) (acct : JmapId) (s : Store) : Prop where
  equal : ∀ {T prop : String} {p : Property} {value : Raw} {v : Bytes},
    db.indexedProperty T prop = .ok p → indexValue db.scan p value = .ok v →
      Finds (db.idsWhereEqual acct T prop value) s
        (s.idsWhere T fun obj => (indexedValue db.scan p prop obj).any (· = v))
  atMost : ∀ {T prop : String} {p : Property} {max : Option Raw} {upper : Option Bytes},
    db.indexedProperty T prop = .ok p → max.mapM (indexValue db.scan p) = .ok upper →
      Finds (db.idsWhereAtMost acct T prop max) s
        (s.idsWhere T fun obj =>
          (indexedValue db.scan p prop obj).any fun w => upper.all (w ≤ ·))
  atLeast : ∀ {T prop : String} {p : Property} {min : Option Raw} {lower : Option Bytes},
    db.indexedProperty T prop = .ok p → min.mapM (indexValue db.scan p) = .ok lower →
      Finds (db.idsWhereAtLeast acct T prop min) s
        (s.idsWhere T fun obj =>
          (indexedValue db.scan p prop obj).any fun w => lower.all (· ≤ w))
  member : ∀ {T prop : String} {p : Property} (member : String),
    db.setIndexedProperty T prop = .ok p →
      ∃ found, (db.idsWhereMember acct T prop member).run s = .ok found ∧
        found.Perm (s.idsWhere T fun obj => member ∈ membersOf db.scan p prop obj)

theorem propertyWith_eq_ok {has : Property → Bool} {e : Err}
    (h : db.propertyWith T prop has e = .ok p) :
    ∃ t, db.types[T]? = some t ∧ t.properties[prop]? = some p ∧ has p := by
  unfold DB.propertyWith at h
  split at h
  · simp at h
  rename_i t ht
  split at h
  · simp at h
  rename_i p' hp
  split at h
  · rename_i hhas
    cases h
    exact ⟨t, ht, hp, hhas⟩
  · simp at h

theorem finds_of_range (hs : IndexesExact db acct s) (h : db.indexedProperty T prop = .ok p)
    {bounds : Bytes × Option Bytes} {q : Bytes → Bool}
    (hrange : ValueRange acct T prop bounds q) {lookup : Int → ReadM Err Store (List JmapId)}
    (more : Int → ℕ → Bool) (hall : ∀ n, more 0 n)
    (hlimit : ∀ limit n : ℕ, 0 < limit → (more limit n ↔ n < limit))
    (hlookup : ∀ limit, (lookup limit).run s = .ok (s.idsInRange bounds (more limit))) :
    Finds lookup s (s.idsWhere T fun obj => (indexedValue db.scan p prop obj).any q) := by
  obtain ⟨t, ht, hp, hidx⟩ := propertyWith_eq_ok h
  have hperm := idsInRange_perm hs ht hp hrange (entryKeys_indexed hs ht hp hidx)
    (fun obj v hv w hw _ _ => by
      rw [Option.mem_toList] at hv hw
      exact Option.some.inj (hv.symm.trans hw))
  refine ⟨(s.idx.keys.filter (inRange bounds)).map idFromObjKey, ?_, ?_, fun n hn => ?_⟩
  · refine hperm.trans (List.Perm.of_eq ?_)
    congr 1
    funext obj
    cases indexedValue db.scan p prop obj <;> simp
  · rw [hlookup, Store.idsInRange, scanIds_all hall, List.nil_append]
  · rw [hlookup, Store.idsInRange, scanIds_limit (fun m => hlimit n m hn) (by simpa using hn)]
    simp

theorem more_iff (limit n : ℕ) (hlimit : 0 < limit) :
    decide ((limit : Int) ≤ 0 ∨ (n : Int) < limit) = true ↔ n < limit := by
  simp only [decide_eq_true_eq]
  omega

theorem IndexesExact.lookups (hs : IndexesExact db acct s) : LookupsExact db acct s where
  equal {T prop p value v} h hv := by
    refine finds_of_range hs h (valueRange_equal acct T prop v)
      (fun limit n => limit = 0 ∨ (n : Int) < limit) (by simp) ?_ fun limit => ?_
    · intro limit n hlimit
      simp only [decide_eq_true_eq]
      omega
    · simp [DB.idsWhereEqual, ReadM.run_bind, h, hv]
  atMost {T prop p max upper} h hupper := by
    cases upper with
    | none =>
      refine finds_of_range hs h (valueRange_all acct T prop)
        (fun limit n => limit ≤ 0 ∨ (n : Int) < limit) (by simp) more_iff fun limit => ?_
      simp [DB.idsWhereAtMost, ReadM.run_bind, h, hupper]
    | some v =>
      refine finds_of_range hs h (valueRange_atMost acct T prop v)
        (fun limit n => limit ≤ 0 ∨ (n : Int) < limit) (by simp) more_iff fun limit => ?_
      simp [DB.idsWhereAtMost, ReadM.run_bind, h, hupper]
  atLeast {T prop p min lower} h hlower := by
    cases lower with
    | none =>
      refine finds_of_range hs h (valueRange_all acct T prop)
        (fun limit n => limit ≤ 0 ∨ (n : Int) < limit) (by simp) more_iff fun limit => ?_
      simp [DB.idsWhereAtLeast, ReadM.run_bind, h, hlower]
    | some v =>
      refine finds_of_range hs h (valueRange_atLeast acct T prop v)
        (fun limit n => limit ≤ 0 ∨ (n : Int) < limit) (by simp) more_iff fun limit => ?_
      simp [DB.idsWhereAtLeast, ReadM.run_bind, h, hlower]
  member {T prop p} member h := by
    obtain ⟨t, ht, hp, hset⟩ := propertyWith_eq_ok h
    have hperm := idsInRange_perm hs ht hp (valueRange_equal acct T prop (bytesOf member))
      (fun id obj _ => entryKeys_setIndexed ht hp hset id obj)
      (fun obj v _ w _ hv hw => (of_decide_eq_true hv).trans (of_decide_eq_true hw).symm)
    refine ⟨_, by simp [DB.idsWhereMember, ReadM.run_bind, h]; rfl, ?_⟩
    rw [Store.idsInRange, scanIds_all fun _ => rfl]
    refine hperm.trans (List.Perm.of_eq ?_)
    congr 1
    funext obj
    rw [Bool.eq_iff_iff]
    simp [bytesOf_injective.eq_iff]

end Answers

/-! ## Every reachable account -/

/-- **Indexes and lookups are exact.**  After any number of commits that leave the OrderBy
    properties of existing records alone, and of trims, the three indexes hold exactly the
    entries derived from the committed records, and every lookup answers with exactly the ids
    a scan of all records finds. -/
theorem indexes_exact {db : DB} {acct : JmapId} {w : World}
    (hrun : Relation.ReflTransGen (OrderedMoves db acct) World.init w) :
    IndexesExact db acct w.store ∧ LookupsExact db acct w.store :=
  ⟨.run hrun, (IndexesExact.run hrun).lookups⟩

/-! ## An account with letters -/

def keepsOrderOn (db : DB) (s s' : Store) : Bool :=
  s.objs.toList.all fun entry =>
    match db.types[entry.1.typeName]?, s'.objs[entry.1]? with
    | some t, some new => t.properties.toList.all fun prop =>
        prop.2.orderBy.all fun ob => entry.2[ob]? = new[ob]?
    | _, _ => true

theorem keepsOrder_of_keepsOrderOn {db : DB} {s s' : Store} (h : keepsOrderOn db s s' = true) :
    KeepsOrder db s s' := by
  intro k t old new ht hold hnew name p hp ob hob
  have := List.all_eq_true.mp h (k, old) ((Map.mem_toList _ _ _).mpr hold)
  simp only [ht, hnew, List.all_eq_true] at this
  simpa using this (name, p) ((Map.mem_toList _ _ _).mpr hp) ob hob

def ordersOn (db : DB) (acct : JmapId) : World → List Commit → Bool
  | _, [] => true
  | w, c :: cs =>
    keepsOrderOn db w.store (w.commit db acct c).store && ordersOn db acct (w.commit db acct c) cs

theorem orderedMoves_of_runsOn {db : DB} {acct : JmapId} {cs : List Commit} {w : World}
    {issued : List JmapId} (hissued : ∀ id ∈ w.issued, id ∈ issued)
    (h : runsOn db acct w.store issued cs = true) (hkeep : ordersOn db acct w cs = true) :
    Relation.ReflTransGen (OrderedMoves db acct) w (w.commits db acct cs) := by
  induction cs generalizing w issued with
  | nil => exact .refl
  | cons c cs ih =>
    obtain ⟨hstep, issued', hissued', hrest⟩ := runsOn_cons hissued h
    obtain ⟨hhead, htail⟩ := Bool.and_eq_true_iff.mp hkeep
    exact .head ⟨⟨_, hstep⟩, keepsOrder_of_keepsOrderOn hhead⟩ (ih hissued' hrest htail)

def plainStrings (raw : Raw) : Option (List String) :=
  match raw.toList with
  | '[' :: rest => (rest.dropLast.splitOn ',').mapM fun cs => plainString (String.ofList cs)
  | _ => none

def letterScanner : Scanner :=
  { plainScanner with
    validArray := fun raw => (plainStrings raw).isSome
    eachString := plainStrings
    validValue := fun raw => (plainString raw).isSome || (plainStrings raw).isSome }

def letterType : TypeDesc where
  name := "Letter"
  capability := "urn:letter"
  properties := ((((∅ : Map String Property).insert "thread"
    { kind := .id, indexed := true, orderBy := ["at"] }).insert "at"
    { kind := .string, immutable := true }).insert "boxes"
    { kind := .array, setIndexed := true }).insert "blob" { kind := .id, blobRef := true }

def letterDB : DB := (DB.new letterScanner).add letterType (by decide +kernel)

def letter (thread at_ boxes : Raw) : Object :=
  (((∅ : Object).insert "thread" thread).insert "at" at_).insert "boxes" boxes

def letterCommits : List Commit :=
  [{ fn := .create "Letter" ((letter "\"T1\"" "\"9\"" "[\"in\"]").insert "blob" "\"x\"") fun _ =>
      .create "Letter" (letter "\"T1\"" "\"5\"" "[\"in\",\"out\"]") fun _ => .done (.ok ())
     draw := fun i => ["A", "B"].getD i "Z"
     now := 0 },
   { fn := .write (.put "Letter" "A"
      ((letter "\"T1\"" "\"9\"" "[\"out\"]").insert "id" "\"A\"")) .done
     draw := fun _ => "Z"
     now := 0 }]

/-- The earlier letter of the thread comes first, and the moved one is found where it is. -/
theorem indexes_exact_letters :
    (IndexesExact letterDB "a" (World.of letterDB "a" letterCommits).store ∧
      LookupsExact letterDB "a" (World.of letterDB "a" letterCommits).store) ∧
    (letterDB.idsWhereEqual "a" "Letter" "thread" "\"T1\"" 0).run
      (World.of letterDB "a" letterCommits).store = .ok ["B", "A"] ∧
    (letterDB.idsWhereMember "a" "Letter" "boxes" "in").run
      (World.of letterDB "a" letterCommits).store = .ok ["B"] ∧
    (World.of letterDB "a" letterCommits).store.refs.isEmpty :=
  ⟨indexes_exact (@orderedMoves_of_runsOn letterDB "a" letterCommits World.init []
    (by simp [World.init]) (by decide +kernel) (by decide +kernel)),
    by decide +kernel, by decide +kernel, by decide +kernel⟩

end NaustJmap.ObjectDB
