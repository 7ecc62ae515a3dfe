import NaustJmap.Library.Maintain
import NaustJmap.ObjectDB.History

/-!
# The Indexes Are Exact

The property, membership and blob reference indexes are maintained by the difference between each
staged record and its pre-image.  `IndexesExact` says that they hold exactly the entries derived
from the committed records; every commit that honours the contract on `OrderBy` properties keeps it.
Each round of the maintenance loops is an instance of `Library.Maintains`.
-/

namespace NaustJmap.ObjectDB

open Library

/-! ## Derived entries -/

section Keys

variable (sc : Scanner) (db : DB) (acct : JmapId) (t : TypeDesc) (id : JmapId) (k : RecKey)
  (obj : Option Object) (entry : String × Property)

def propertyKeys : List Bytes :=
  if entry.2.indexed then
    match recordValue sc entry.2 entry.1 obj, orderSegs sc t entry.2 obj with
    | .ok (some v), .ok ord => [idxKey acct t.name entry.1 v ord id]
    | _, _ => []
  else []

def memberKeys : List Bytes :=
  if entry.2.setIndexed then
    match setMembers sc entry.2 (obj.bind (·[entry.1]?)) with
    | .ok members => members.map fun m => idxKey acct t.name entry.1 (bytesOf m) [] id
    | .error _ => []
  else []

def entryKeys : List Bytes :=
  propertyKeys sc acct t id obj entry ++ memberKeys sc acct t id obj entry

/-- The index entries of one record; none for a record that does not exist. -/
def recordKeys : List Bytes :=
  match db.types[k.typeName]? with
  | none => []
  | some t => t.properties.toList.flatMap (entryKeys db.scan acct t k.id obj)

def recordRefKeys : List Bytes :=
  match db.types[k.typeName]? with
  | none => []
  | some t => (blobRefsOf db.scan t obj).map fun blobID => refKey acct blobID t.name k.id

end Keys

/-- Every indexed value of a record has an encoding. -/
structure Encodes (sc : Scanner) (t : TypeDesc) (obj : Object) : Prop where
  value : ∀ {name : String} {p : Property}, t.properties[name]? = some p → p.indexed →
    ∃ v, recordValue sc p name (some obj) = .ok v ∧
      (v.isSome → ∃ ord, orderSegs sc t p (some obj) = .ok ord)
  members : ∀ {name : String} {p : Property}, t.properties[name]? = some p → p.setIndexed →
    ∃ ms, setMembers sc p obj[name]? = .ok ms

/-- The indexes hold exactly the entries derived from the committed records. -/
structure IndexesExact (db : DB) (acct : JmapId) (s : Store) : Prop where
  idx : ∀ K : Bytes, K ∈ s.idx ↔ ∃ k : RecKey, K ∈ recordKeys db acct k s.objs[k]?
  refs : ∀ K : Bytes, K ∈ s.refs ↔ ∃ k : RecKey, K ∈ recordRefKeys db acct k s.objs[k]?
  encodes : ∀ {k : RecKey} {obj : Object}, s.objs[k]? = some obj →
    ∃ t, db.types[k.typeName]? = some t ∧ Encodes db.scan t obj
  valid : ∀ {k : RecKey} {obj : Object}, s.objs[k]? = some obj → JmapId.valid k.id

/-- Two versions of a record with the same OrderBy properties. -/
def TypeDesc.KeepsOrderBy (t : TypeDesc) (old new : Object) : Prop :=
  ∀ {name : String} {p : Property}, t.properties[name]? = some p →
    ∀ ob ∈ p.orderBy, old[ob]? = new[ob]?

/-- The contract on OrderBy properties: no record of the store has them changed. -/
def KeepsOrder (db : DB) (s s' : Store) : Prop :=
  ∀ {k : RecKey} {t : TypeDesc} {old new : Object}, db.types[k.typeName]? = some t →
    s.objs[k]? = some old → s'.objs[k]? = some new → t.KeepsOrderBy old new

variable {α : Type} {acct id : JmapId} {name : String} {sc : Scanner} {t : TypeDesc}
  {obj old new : Option Object} {entry : String × Property} {K : Bytes} {ops : List BatchOp}
  {region : RecKey → Set Bytes} {k : RecKey} {st : StagedRecord} {view : Store → Set Bytes}
  {db : DB}

/-! ## Keys of different owners differ -/

theorem idxKey_inj {acct T T' : String} {name' : String} {v v' : Bytes} {ord ord' : List Bytes}
    {id' : JmapId} (h : idxKey acct T name v ord id = idxKey acct T' name' v' ord' id') :
    T = T' ∧ name = name' ∧ v = v' ∧ ord = ord' ∧ id = id' := by
  have h := key_injective h
  simp only [idxPrefix, List.cons_append, List.nil_append, List.cons.injEq, true_and] at h
  obtain ⟨hT, hname, hv, hrest⟩ := h
  obtain ⟨hord, hid⟩ := List.append_inj' hrest rfl
  exact ⟨bytesOf_injective hT, bytesOf_injective hname, hv, hord,
    bytesOf_injective (List.cons.inj hid).1⟩

theorem refKey_inj {b b' : JmapId} {T T' : String} {id' : JmapId}
    (h : refKey acct b T id = refKey acct b' T' id') : b = b' ∧ T = T' ∧ id = id' := by
  have h := key_injective h
  simp only [List.cons.injEq, true_and, and_true] at h
  exact ⟨bytesOf_injective h.1, bytesOf_injective h.2.1, bytesOf_injective h.2.2⟩

/-- The index keys that can belong to one property of one record. -/
def entryRegion (acct : JmapId) (k : RecKey) (name : String) : Set Bytes :=
  {K | ∃ v ord, K = idxKey acct k.typeName name v ord k.id}

def recordRegion (acct : JmapId) (k : RecKey) : Set Bytes := ⋃ name, entryRegion acct k name

def refRegion (acct : JmapId) (k : RecKey) : Set Bytes :=
  {K | ∃ blobID, K = refKey acct blobID k.typeName k.id}

theorem disjoint_entryRegion (acct : JmapId) (k : RecKey) {name' : String} (h : name ≠ name') :
    Disjoint (entryRegion acct k name) (entryRegion acct k name') := by
  rw [Set.disjoint_left]
  rintro K ⟨v, ord, rfl⟩ ⟨v', ord', heq⟩
  exact h (idxKey_inj heq).2.1

theorem disjoint_recordRegion (acct : JmapId) :
    Pairwise fun k k' => Disjoint (recordRegion acct k) (recordRegion acct k') := by
  intro k k' hne
  simp only [recordRegion, Set.disjoint_left, Set.mem_iUnion]
  rintro K ⟨name, v, ord, rfl⟩ ⟨name', v', ord', heq⟩
  obtain ⟨hT, -, -, -, hid⟩ := idxKey_inj heq
  exact hne (by cases k; cases k'; simp_all)

theorem disjoint_refRegion (acct : JmapId) :
    Pairwise fun k k' => Disjoint (refRegion acct k) (refRegion acct k') := by
  intro k k' hne
  rw [Set.disjoint_left]
  rintro K ⟨b, rfl⟩ ⟨b', heq⟩
  obtain ⟨-, hT, hid⟩ := refKey_inj heq
  exact hne (by cases k; cases k'; simp_all)

theorem propertyKeys_subset (h : K ∈ propertyKeys sc acct t id obj entry) :
    K ∈ entryRegion acct ⟨t.name, id⟩ entry.1 := by
  unfold propertyKeys at h
  split at h
  · split at h
    · obtain rfl := List.mem_singleton.mp h
      exact ⟨_, _, rfl⟩
    · simp at h
  · simp at h

theorem memberKeys_subset (h : K ∈ memberKeys sc acct t id obj entry) :
    K ∈ entryRegion acct ⟨t.name, id⟩ entry.1 := by
  unfold memberKeys at h
  split at h
  · split at h
    · obtain ⟨m, -, rfl⟩ := List.mem_map.mp h
      exact ⟨_, _, rfl⟩
    · simp at h
  · simp at h

/-! ## Maintenance by difference -/

def idxView (s : Store) : Set Bytes := {K | K ∈ s.idx}

def refView (s : Store) : Set Bytes := {K | K ∈ s.refs}

def keySet (l : List Bytes) : Set Bytes := {K | K ∈ l}

@[simp] theorem mem_keySet {l : List Bytes} : K ∈ keySet l ↔ K ∈ l := Iff.rfl

@[simp] theorem keySet_nil : keySet [] = ∅ := by
  ext
  simp

theorem idxView_setIdx (s : Store) (K : Bytes) :
    idxView ((BatchOp.setIdx K).apply s) = idxView s ∪ {K} := by
  ext K'
  exact Map.mem_insert_iff _ _ _ _

theorem idxView_deleteIdx (s : Store) (K : Bytes) :
    idxView ((BatchOp.deleteIdx K).apply s) = idxView s \ {K} := by
  ext K'
  exact Map.mem_erase_iff _ _ _

theorem refView_setRef (s : Store) (K : Bytes) :
    refView ((BatchOp.setRef K).apply s) = refView s ∪ {K} := by
  ext K'
  exact Map.mem_insert_iff _ _ _ _

theorem refView_deleteRef (s : Store) (K : Bytes) :
    refView ((BatchOp.deleteRef K).apply s) = refView s \ {K} := by
  ext K'
  exact Map.mem_erase_iff _ _ _

theorem refView_frame {op : BatchOp} (h : op.isIdx) (s : Store) :
    refView (op.apply s) = refView s := by
  cases op <;> first | rfl | simp [BatchOp.isIdx] at h

section Diff

variable {β : Type} {view : Store → Set Bytes} {key : β → Bytes}
  {del add : β → List BatchOp}

theorem view_deletes (hdel : ∀ b s, view (applyBatch (del b) s) = view s \ {key b}) (l : List β)
    (s : Store) : view (applyBatch (l.flatMap del) s) = view s \ keySet (l.map key) := by
  induction l generalizing s with
  | nil => simp
  | cons b l ih =>
    rw [List.flatMap_cons, applyBatch_append, ih, hdel]
    ext K
    simp [and_assoc]

theorem view_adds (hadd : ∀ b s, view (applyBatch (add b) s) = view s ∪ {key b}) (l : List β)
    (s : Store) : view (applyBatch (l.flatMap add) s) = view s ∪ keySet (l.map key) := by
  induction l generalizing s with
  | nil => simp
  | cons b l ih =>
    rw [List.flatMap_cons, applyBatch_append, ih, hadd]
    ext K
    simp only [Set.mem_union, Set.mem_singleton_iff, mem_keySet, List.map_cons, List.mem_cons,
      or_assoc]

theorem maintains_nil (A : Set Bytes) : Maintains view (applyBatch []) A A :=
  .of_frame (fun _ => rfl) A

theorem maintains_diff [DecidableEq β] (view : Store → Set Bytes) {key : β → Bytes}
    {del add : β → List BatchOp} (hkey : Function.Injective key)
    (hdel : ∀ b s, view (applyBatch (del b) s) = view s \ {key b})
    (hadd : ∀ b s, view (applyBatch (add b) s) = view s ∪ {key b}) (old new : List β) :
    Maintains view
      (applyBatch ((old.filter (· ∉ new)).flatMap del ++ (new.filter (· ∉ old)).flatMap add))
      (keySet (old.map key)) (keySet (new.map key)) := by
  refine .of_diff fun s => ?_
  rw [applyBatch_append, view_adds hadd, view_deletes hdel]
  have hdiff : ∀ l l' : List β, keySet ((l.filter (· ∉ l')).map key) =
      keySet (l.map key) \ keySet (l'.map key) := by
    intro l l'
    ext K
    simp only [mem_keySet, List.mem_map, List.mem_filter, decide_eq_true_eq, Set.mem_sdiff]
    constructor
    · rintro ⟨b, ⟨hb, hnot⟩, rfl⟩
      exact ⟨⟨b, hb, rfl⟩, by rintro ⟨b', hb', heq⟩; exact hnot (hkey heq ▸ hb')⟩
    · rintro ⟨⟨b, hb, rfl⟩, hnot⟩
      exact ⟨b, ⟨hb, fun hb' => hnot ⟨b, hb', rfl⟩⟩, rfl⟩
  rw [hdiff, hdiff]

end Diff

section Rounds

theorem recordValue_eq_some {p : Property} {v : Bytes}
    (h : recordValue sc p name obj = .ok (some v)) : obj.isSome := by
  cases obj with
  | none => simp [recordValue] at h
  | some obj => rfl

theorem orderSegs_congr {p : Property} {o n : Object} (h : ∀ ob ∈ p.orderBy, o[ob]? = n[ob]?) :
    orderSegs sc t p (some o) = orderSegs sc t p (some n) := by
  unfold orderSegs
  generalize p.orderBy = l at h
  induction l with
  | nil => rfl
  | cons ob rest ih =>
    have hseg : orderSeg sc t (some o) ob = orderSeg sc t (some n) ob := by
      simp [orderSeg, h ob List.mem_cons_self]
    rw [List.mapM_cons, List.mapM_cons, hseg,
      ih fun ob' hob' => h ob' (List.mem_cons_of_mem _ hob')]

/-- One round of `indexOps` exchanges the entry of the old version for that of the new. -/
theorem propertyIndexOps_maintains (h : propertyIndexOps sc acct t id old new entry = .ok ops)
    (hkeep : ∀ o n, old = some o → new = some n → ∀ ob ∈ entry.2.orderBy, o[ob]? = n[ob]?) :
    Maintains idxView (applyBatch ops) (keySet (propertyKeys sc acct t id old entry))
      (keySet (propertyKeys sc acct t id new entry)) := by
  obtain ⟨name, p⟩ := entry
  simp only [propertyIndexOps] at h
  by_cases hidx : p.indexed
  swap
  · rw [if_neg hidx] at h
    cases h
    simpa [propertyKeys, hidx] using maintains_nil ∅
  rw [if_pos hidx] at h
  simp only [except_bind_eq_ok] at h
  obtain ⟨oldVal, hold, newVal, hnew, h⟩ := h
  unfold propertyKeys
  simp only [hidx, if_true, hold, hnew]
  rcases oldVal with _ | v <;> rcases newVal with _ | w <;> simp only [except_bind_eq_ok] at h
  · cases h
    simpa using maintains_nil ∅
  · obtain ⟨ord, hord, h⟩ := h
    cases h
    refine .of_diff fun s => ?_
    simp [hord, idxView_setIdx, keySet]
  · obtain ⟨ord, hord, h⟩ := h
    cases h
    refine .of_diff fun s => ?_
    simp [hord, idxView_deleteIdx, keySet]
  · obtain ⟨o, rfl⟩ := Option.isSome_iff_exists.mp (recordValue_eq_some hold)
    obtain ⟨n, rfl⟩ := Option.isSome_iff_exists.mp (recordValue_eq_some hnew)
    rw [orderSegs_congr (hkeep o n rfl rfl)]
    split at h
    · rename_i heq
      obtain rfl := heq
      cases h
      exact maintains_nil _
    · rename_i hne
      obtain ⟨ord, hord, h⟩ := except_bind_eq_ok.mp h
      cases h
      have hkey : idxKey acct t.name name v ord id ≠ idxKey acct t.name name w ord id :=
        fun heq => hne (idxKey_inj heq).2.2.1
      refine .of_diff fun s => ?_
      ext K
      simp only [hord, applyBatch_cons, applyBatch_nil, idxView_setIdx, idxView_deleteIdx]
      simp only [Set.mem_union, Set.mem_sdiff, Set.mem_singleton_iff, mem_keySet,
        List.mem_singleton]
      grind

theorem propertySetIndexOps_maintains
    (h : propertySetIndexOps sc acct t id old new entry = .ok ops) :
    Maintains idxView (applyBatch ops) (keySet (memberKeys sc acct t id old entry))
      (keySet (memberKeys sc acct t id new entry)) := by
  obtain ⟨name, p⟩ := entry
  simp only [propertySetIndexOps] at h
  by_cases hset : p.setIndexed
  swap
  · rw [if_neg hset] at h
    cases h
    simpa [memberKeys, hset] using maintains_nil ∅
  rw [if_pos hset] at h
  unfold memberKeys
  simp only [hset, if_true]
  split at h
  · rename_i hraw
    cases h
    rw [hraw]
    exact maintains_nil _
  · simp only [except_bind_eq_ok] at h
    obtain ⟨oldM, hold, newM, hnew, h⟩ := h
    cases h
    simp only [hold, hnew, List.map_eq_flatMap]
    have := @maintains_diff _ _ idxView
      (fun m => idxKey acct t.name name (bytesOf m) [] id)
      (fun m => [.deleteIdx (idxKey acct t.name name (bytesOf m) [] id)])
      (fun m => [.setIdx (idxKey acct t.name name (bytesOf m) [] id)])
      (fun a b hab => bytesOf_injective (idxKey_inj hab).2.2.1)
      (fun m s => idxView_deleteIdx s _) (fun m s => idxView_setIdx s _) oldM newM
    simpa only [← List.map_eq_flatMap] using this

theorem refOps_maintains :
    Maintains refView (applyBatch (refOps sc acct t id old new))
      (keySet ((blobRefsOf sc t old).map fun b => refKey acct b t.name id))
      (keySet ((blobRefsOf sc t new).map fun b => refKey acct b t.name id)) :=
  @maintains_diff _ _ refView (fun b => refKey acct b t.name id)
    (fun b => [.deleteRef (refKey acct b t.name id), .setPending (pendingKey acct b)])
    (fun b => [.setRef (refKey acct b t.name id), .deletePending (pendingKey acct b)])
    (fun _ _ hab => (refKey_inj hab).1) (fun _ s => refView_deleteRef s _)
    (fun _ s => refView_setRef s _) _ _

end Rounds

/-! ## A record's maintenance -/

theorem collectOps_eq_flatMap {f : α → Except Err (List BatchOp)} {l : List α}
    (h : collectOps f l = .ok ops) :
    ∃ o : α → List BatchOp, (∀ a ∈ l, f a = .ok (o a)) ∧ ops = l.flatMap o := by
  refine ⟨fun a => (f a).toOption.getD [], ?_⟩
  induction l generalizing ops with
  | nil => exact ⟨by simp, (Except.ok.inj h).symm⟩
  | cons a l ih =>
    obtain ⟨o1, o2, h1, h2, rfl⟩ := collectOps_cons_eq_ok.mp h
    obtain ⟨hround, rfl⟩ := ih h2
    refine ⟨?_, by simp [h1, Except.toOption]⟩
    intro b hb
    rcases List.mem_cons.mp hb with rfl | hb
    · simp [h1, Except.toOption]
    · exact hround b hb

theorem applyBatch_flatMap (o : α → List BatchOp) (l : List α) (s : Store) :
    applyBatch (l.flatMap o) s = l.foldl (fun s a => applyBatch (o a) s) s := by
  induction l generalizing s with
  | nil => rfl
  | cons a l ih => rw [List.flatMap_cons, applyBatch_append, ih, List.foldl_cons]

section Loops

variable {f : α → Except Err (List BatchOp)} {o1 o2 : List BatchOp} {A1 B1 A2 B2 : Set Bytes}

theorem maintains_append (h1 : Maintains view (applyBatch o1) A1 B1)
    (h2 : Maintains view (applyBatch o2) A2 B2) (hA : Disjoint A1 A2) (hB : Disjoint B1 A2) :
    Maintains view (applyBatch (o1 ++ o2)) (A1 ∪ A2) (B1 ∪ B2) := by
  have : applyBatch (o1 ++ o2) = fun s => applyBatch o2 (applyBatch o1 s) :=
    funext fun s => applyBatch_append o1 o2 s
  rw [this]
  exact h1.comp h2 hA hB

theorem maintains_surround (h : Maintains view (applyBatch o1) A1 B1)
    (before after : List BatchOp)
    (hbefore : ∀ op ∈ before, ∀ s, view (op.apply s) = view s)
    (hafter : ∀ op ∈ after, ∀ s, view (op.apply s) = view s) :
    Maintains view (applyBatch (before ++ o1 ++ after)) A1 B1 := by
  intro s hs
  have hs' := applyBatch_frame view hbefore s
  rw [applyBatch_append, applyBatch_append, applyBatch_frame view hafter, h _ (hs'.symm ▸ hs), hs']

theorem maintains_collectOps (view : Store → Set Bytes) {A B region : α → Set Bytes} {l : List α}
    (h : collectOps f l = .ok ops)
    (hround : ∀ a ∈ l, ∀ o, f a = .ok o → Maintains view (applyBatch o) (A a) (B a))
    (hA : ∀ a ∈ l, A a ⊆ region a) (hB : ∀ a ∈ l, B a ⊆ region a)
    (hdisj : l.Pairwise fun a b => Disjoint (region a) (region b)) :
    Maintains view (applyBatch ops) (⋃ a ∈ l, A a) (⋃ a ∈ l, B a) := by
  obtain ⟨o, ho, rfl⟩ := collectOps_eq_flatMap h
  have : applyBatch (l.flatMap o) = fun s => l.foldl (fun s a => applyBatch (o a) s) s :=
    funext (applyBatch_flatMap o l)
  rw [this]
  exact .foldl (fun a ha => hround a ha _ (ho a ha)) hA hB hdisj

end Loops

theorem pairwise_properties (acct : JmapId) (k : RecKey) (props : Map String Property) :
    props.toList.Pairwise fun a b =>
      Disjoint (entryRegion acct k a.1) (entryRegion acct k b.1) := by
  have := Map.nodup_toList_keys props
  rw [List.nodup_iff_pairwise_ne, List.pairwise_map] at this
  exact this.imp fun h => disjoint_entryRegion acct k h

section Record

/-- Entries of the two indexes never collide: no property is in both. -/
theorem disjoint_property_member (sc : Scanner) (ht : t.validate sc = .ok ())
    (obj obj' : Option Object) :
    Disjoint (⋃ e ∈ t.properties.toList, keySet (propertyKeys sc acct t id obj e))
      (⋃ e ∈ t.properties.toList, keySet (memberKeys sc acct t id obj' e)) := by
  simp only [Set.disjoint_left, Set.mem_iUnion, mem_keySet, exists_prop, not_exists, not_and]
  rintro K ⟨⟨name, p⟩, hp, hK⟩ ⟨name', p'⟩ hp' hK'
  rw [Map.mem_toList] at hp hp'
  have hname : name = name' := by
    by_contra hne
    exact Set.disjoint_left.mp (disjoint_entryRegion acct ⟨t.name, id⟩ hne)
      (propertyKeys_subset hK) (memberKeys_subset hK')
  subst hname
  cases hp.symm.trans hp'
  refine TypeDesc.validate_exclusive ht hp ⟨?_, ?_⟩
  · by_contra h
    simp [propertyKeys, h] at hK
  · by_contra h
    simp [memberKeys, h] at hK'

theorem keySet_entryKeys (sc : Scanner) (obj : Option Object) (l : List (String × Property)) :
    keySet (l.flatMap (entryKeys sc acct t id obj)) =
      (⋃ e ∈ l, keySet (propertyKeys sc acct t id obj e)) ∪
        ⋃ e ∈ l, keySet (memberKeys sc acct t id obj e) := by
  ext K
  simp only [mem_keySet, List.mem_flatMap, entryKeys, List.mem_append, Set.mem_union,
    Set.mem_iUnion, exists_prop]
  grind

theorem maintenanceOps_idx (h : maintenanceOps db acct t id old new = .ok ops)
    (ht : t.validate db.scan = .ok ())
    (hkeep : ∀ o n, old = some o → new = some n → t.KeepsOrderBy o n) :
    Maintains idxView (applyBatch ops)
      (keySet (t.properties.toList.flatMap (entryKeys db.scan acct t id old)))
      (keySet (t.properties.toList.flatMap (entryKeys db.scan acct t id new))) := by
  simp only [maintenanceOps, except_bind_eq_ok] at h
  obtain ⟨index, hindex, sets, hsets, h⟩ := h
  cases h
  rw [keySet_entryKeys, keySet_entryKeys]
  have hprops := pairwise_properties acct ⟨t.name, id⟩ t.properties
  have hI := maintains_collectOps idxView hindex
    (fun e he o ho => propertyIndexOps_maintains ho fun a b ha hb ob hob =>
      hkeep a b ha hb ((Map.mem_toList _ _ _).mp he) ob hob)
    (fun e _ K hK => propertyKeys_subset hK) (fun e _ K hK => propertyKeys_subset hK) hprops
  have hS := maintains_collectOps idxView hsets
    (fun e _ o ho => propertySetIndexOps_maintains ho)
    (fun e _ K hK => memberKeys_subset hK) (fun e _ K hK => memberKeys_subset hK) hprops
  refine maintains_append ?_ hS (disjoint_property_member _ ht _ _)
    (disjoint_property_member _ ht _ _)
  refine maintains_surround hI [] _ (by simp) fun op hop s => ?_
  simp only [refOps, List.mem_append, List.mem_flatMap, List.mem_cons] at hop
  rcases hop with ⟨b, -, rfl | rfl | hop⟩ | ⟨b, -, rfl | rfl | hop⟩ <;>
    first | rfl | simp at hop

theorem maintenanceOps_refs (h : maintenanceOps db acct t id old new = .ok ops) :
    Maintains refView (applyBatch ops)
      (keySet ((blobRefsOf db.scan t old).map fun b => refKey acct b t.name id))
      (keySet ((blobRefsOf db.scan t new).map fun b => refKey acct b t.name id)) := by
  simp only [maintenanceOps, except_bind_eq_ok] at h
  obtain ⟨index, hindex, sets, hsets, h⟩ := h
  cases h
  refine maintains_surround refOps_maintains _ _ (fun op hop s => ?_) (fun op hop s => ?_)
  · obtain ⟨entry, -, o, ho, hmem⟩ := mem_collectOps hindex hop
    exact refView_frame (propertyIndexOps_isIdx ho op hmem) s
  · obtain ⟨entry, -, o, ho, hmem⟩ := mem_collectOps hsets hop
    exact refView_frame (propertySetIndexOps_isIdx ho op hmem) s

end Record

/-! ## A commit keeps the indexes exact -/

theorem entryKeys_none : entryKeys sc acct t id none entry = [] := by
  have hprop : propertyKeys sc acct t id none entry = [] := by
    simp [propertyKeys, recordValue]
  have hmem : memberKeys sc acct t id none entry = [] := by
    simp [memberKeys, setMembers]
  rw [entryKeys, hprop, hmem, List.nil_append]

theorem recordKeys_none : recordKeys db acct k none = [] := by
  unfold recordKeys
  split
  · rfl
  · simp [List.flatMap_eq_nil_iff, entryKeys_none]

theorem recordRefKeys_none : recordRefKeys db acct k none = [] := by
  unfold recordRefKeys
  split
  · rfl
  · simp [blobRefsOf, dedupNames]

theorem recordKeys_subset (db : DB) (acct : JmapId) (k : RecKey) (obj : Option Object) :
    keySet (recordKeys db acct k obj) ⊆ recordRegion acct k := by
  intro K hK
  rw [recordKeys] at hK
  split at hK
  · simp at hK
  · rename_i t ht
    obtain ⟨entry, -, hK⟩ := List.mem_flatMap.mp hK
    have hk : (⟨t.name, k.id⟩ : RecKey) = k := by rw [(db.registered ht).1]
    refine Set.mem_iUnion.mpr ⟨entry.1, hk ▸ ?_⟩
    rcases List.mem_append.mp hK with hK | hK
    · exact propertyKeys_subset hK
    · exact memberKeys_subset hK

theorem recordRefKeys_subset (db : DB) (acct : JmapId) (k : RecKey) (obj : Option Object) :
    keySet (recordRefKeys db acct k obj) ⊆ refRegion acct k := by
  intro K hK
  rw [recordRefKeys] at hK
  split at hK
  · simp at hK
  · rename_i t ht
    obtain ⟨b, -, rfl⟩ := List.mem_map.mp hK
    exact ⟨b, by rw [(db.registered ht).1]⟩

section Commit

variable {db : DB} {acct : JmapId} {draw : ℕ → JmapId} {s s' : Store} {drawn : ℕ}

theorem StagedRecord.Ok.preImage_eq (h : st.Ok db draw s drawn k) : st.preImage = s.objs[k]? := by
  unfold StagedRecord.preImage
  cases hc : st.created
  · simpa using (h.existing hc).1
  · simpa using (h.created hc).1.symm

theorem objOp_views (k : RecKey) (obj : Option Object) (s : Store) :
    idxView ((objOp k obj).apply s) = idxView s ∧ refView ((objOp k obj).apply s) = refView s := by
  cases obj <;> exact ⟨rfl, rfl⟩

theorem stagedOps_maintains_refs (h : stagedOps db acct (k, st) = .ok ops)
    (hst : st.Ok db draw s drawn k) :
    Maintains refView (applyBatch ops) (keySet (recordRefKeys db acct k s.objs[k]?))
      (keySet (recordRefKeys db acct k st.new)) := by
  rcases stagedOps_eq_ok h with ⟨hc, hn, rfl⟩ | ⟨t, m, ht, -, hm, rfl⟩
  · rw [(hst.created hc).1, hn]
    exact maintains_nil _
  · rw [hst.preImage_eq] at hm
    simp only [recordRefKeys, ht]
    simpa using maintains_surround (maintenanceOps_refs hm) [objOp k st.new] []
      (by simpa using fun r => (objOp_views k st.new r).2) (by simp)

theorem stagedOps_maintains (h : stagedOps db acct (k, st) = .ok ops)
    (hst : st.Ok db draw s drawn k)
    (hkeep : ∀ {t : TypeDesc} {old new : Object}, db.types[k.typeName]? = some t →
      s.objs[k]? = some old → st.new = some new → t.KeepsOrderBy old new) :
    Maintains idxView (applyBatch ops) (keySet (recordKeys db acct k s.objs[k]?))
        (keySet (recordKeys db acct k st.new)) ∧
      Maintains refView (applyBatch ops) (keySet (recordRefKeys db acct k s.objs[k]?))
        (keySet (recordRefKeys db acct k st.new)) := by
  refine ⟨?_, stagedOps_maintains_refs h hst⟩
  rcases stagedOps_eq_ok h with ⟨hc, hn, rfl⟩ | ⟨t, m, ht, -, hm, rfl⟩
  · rw [(hst.created hc).1, hn]
    exact maintains_nil _
  · rw [hst.preImage_eq] at hm
    simp only [recordKeys, ht]
    have hidx := maintenanceOps_idx hm (db.registered ht).2 fun o n ho hn => hkeep ht ho hn
    simpa using maintains_surround hidx [objOp k st.new] []
      (by simpa using fun r => (objOp_views k st.new r).1) (by simp)

theorem buildBatch_maintains {u : Update} {now : Int} {batch : List BatchOp}
    {old new : RecKey → Set Bytes} (h : u.buildBatch db acct now = .ok batch)
    (hview : ∀ r r' : Store, r.idx = r'.idx → r.refs = r'.refs → view r = view r')
    (hrecord : ∀ k st, u.staged[k]? = some st → ∀ ops, stagedOps db acct (k, st) = .ok ops →
      Maintains view (applyBatch ops) (old k) (new k)) (hold : ∀ k, old k ⊆ region k)
    (hnew : ∀ k, new k ⊆ region k) (hdisj : Pairwise fun k k' => Disjoint (region k) (region k')) :
    Maintains view (applyBatch (batch ++ [.setSeq u.sequence]))
      (⋃ k ∈ {k | (u.staged[k]?).isSome}, old k) (⋃ k ∈ {k | (u.staged[k]?).isSome}, new k) := by
  simp only [Update.buildBatch, except_bind_eq_ok] at h
  obtain ⟨records, hrec, h⟩ := h
  cases h
  have hpair : u.staged.toList.Pairwise fun a b => Disjoint (region a.1) (region b.1) := by
    have := Map.nodup_toList_keys u.staged
    rw [List.nodup_iff_pairwise_ne, List.pairwise_map] at this
    exact this.imp fun h => hdisj h
  have hloop := maintains_collectOps view
    hrec (fun a ha o ho => hrecord a.1 a.2 ((Map.mem_toList _ _ _).mp ha) o ho)
    (fun a _ => hold a.1) (fun a _ => hnew a.1) hpair
  have hunion : ∀ F : RecKey → Set Bytes, (⋃ a ∈ u.staged.toList, F a.1) =
      ⋃ k ∈ {k | (u.staged[k]?).isSome}, F k := by
    intro F
    ext K
    simp only [Set.mem_iUnion, exists_prop, Set.mem_ofPred_eq, Option.isSome_iff_exists]
    constructor
    · rintro ⟨⟨k, st⟩, hmem, hK⟩
      exact ⟨k, ⟨st, (Map.mem_toList _ _ _).mp hmem⟩, hK⟩
    · rintro ⟨k, ⟨st, hst⟩, hK⟩
      exact ⟨(k, st), (Map.mem_toList _ _ _).mpr hst, hK⟩
  rw [hunion, hunion] at hloop
  rw [show ∀ (a b c d e : List BatchOp), a ++ b ++ c ++ d ++ e = a ++ b ++ (c ++ d ++ e) by simp]
  refine maintains_surround hloop _ _ (fun op hop s => ?_) (fun op hop s => ?_)
  · rcases List.mem_cons.mp hop with rfl | hop
    · exact hview _ _ rfl rfl
    · obtain ⟨⟨tag, set⟩, -, rfl⟩ := List.mem_map.mp hop
      cases set <;> exact hview _ _ rfl rfl
  · simp only [List.mem_append, List.mem_map, List.mem_singleton] at hop
    rcases hop with (⟨T, -, rfl⟩ | hop) | rfl
    · exact hview _ _ rfl rfl
    · split at hop
      · simp at hop
      · obtain rfl := List.mem_singleton.mp hop
        exact hview _ _ rfl rfl
    · exact hview _ _ rfl rfl

theorem encodes_of_maintenanceOps {new : Object}
    (h : maintenanceOps db acct t id old (some new) = .ok ops)
    (hold : ∀ o, old = some o → Encodes db.scan t o ∧ t.KeepsOrderBy o new) :
    Encodes db.scan t new := by
  simp only [maintenanceOps, except_bind_eq_ok] at h
  obtain ⟨index, hindex, sets, hsets, -⟩ := h
  obtain ⟨iops, hindex, -⟩ := collectOps_eq_flatMap hindex
  obtain ⟨sops, hsets, -⟩ := collectOps_eq_flatMap hsets
  constructor
  · intro name p hp hidx
    have h := hindex (name, p) ((Map.mem_toList _ _ _).mpr hp)
    simp only [propertyIndexOps, hidx, if_true, except_bind_eq_ok] at h
    obtain ⟨oldVal, holdVal, newVal, hnewVal, h⟩ := h
    refine ⟨newVal, hnewVal, fun hsome => ?_⟩
    obtain ⟨w, rfl⟩ := Option.isSome_iff_exists.mp hsome
    cases oldVal with
    | none =>
      obtain ⟨ord, hord, -⟩ := except_bind_eq_ok.mp h
      exact ⟨ord, hord⟩
    | some v =>
      dsimp only at h
      split at h
      · -- the value stayed, and with it the entry's order segments
        obtain ⟨o, rfl⟩ := Option.isSome_iff_exists.mp (recordValue_eq_some holdVal)
        obtain ⟨henc, hkeep⟩ := hold o rfl
        obtain ⟨v', hv', hord⟩ := henc.value hp hidx
        rw [holdVal] at hv'
        cases hv'
        rw [← orderSegs_congr (hkeep hp)]
        exact hord rfl
      · obtain ⟨ord, hord, -⟩ := except_bind_eq_ok.mp h
        exact ⟨ord, hord⟩
  · intro name p hp hset
    have h := hsets (name, p) ((Map.mem_toList _ _ _).mpr hp)
    simp only [propertySetIndexOps, hset, if_true] at h
    split at h
    · rename_i hraw
      cases old with
      | none => exact ⟨[], by rw [← show none = new[name]? from hraw]; rfl⟩
      | some o =>
        obtain ⟨ms, hms⟩ := (hold o rfl).1.members hp hset
        exact ⟨ms, by rw [← hms, show o[name]? = new[name]? from hraw]⟩
    · simp only [except_bind_eq_ok] at h
      obtain ⟨-, -, newM, hnewM, -⟩ := h
      exact ⟨newM, hnewM⟩

theorem index_after_commit {u : Update} {now : Int} {keys : RecKey → Option Object → List Bytes}
    (hops : u.buildBatch db acct now = .ok ops)
    (hview : ∀ r r' : Store, r.idx = r'.idx → r.refs = r'.refs → view r = view r')
    (hkeys : ∀ k obj, keySet (keys k obj) ⊆ region k)
    (hdisj : Pairwise fun k k' => Disjoint (region k) (region k'))
    (hs' : applyBatch (ops ++ [.setSeq u.sequence]) s = s')
    (hsame : ∀ {k : RecKey}, u.staged[k]? = none → s'.objs[k]? = s.objs[k]?)
    (hrecord : ∀ k st, u.staged[k]? = some st → ∀ o, stagedOps db acct (k, st) = .ok o →
      Maintains view (applyBatch o) (keySet (keys k s.objs[k]?)) (keySet (keys k s'.objs[k]?)))
    (hexact : ∀ K, K ∈ view s ↔ ∃ k : RecKey, K ∈ keys k s.objs[k]?) (K : Bytes) :
    K ∈ view s' ↔ ∃ k : RecKey, K ∈ keys k s'.objs[k]? := by
  have hM := buildBatch_maintains hops hview hrecord (fun k => hkeys k _) (fun k => hkeys k _) hdisj
  have hexact' : view s = ⋃ k : RecKey, keySet (keys k s.objs[k]?) := by
    ext K
    simpa using hexact K
  have hnew := hM.exact hexact' (fun k hk => by rw [hsame (by simpa using hk)])
    (fun k => hkeys k _) hdisj
  rw [hs'] at hnew
  simp [hnew]

/-- The blob reference index holds exactly the references of the committed records. -/
def RefsExact (db : DB) (acct : JmapId) (s : Store) : Prop :=
  ∀ K : Bytes, K ∈ s.refs ↔ ∃ k : RecKey, K ∈ recordRefKeys db acct k s.objs[k]?

/-- A commit keeps the blob references exact, whatever it does to OrderBy properties. -/
theorem RefsExact.commit {c : Commit} {batch : List BatchOp} (hs : RefsExact db acct s)
    (hfresh : FreshDraw c.draw s (c.drawn db s))
    (h : (db.update acct c).run s = .ok (some batch)) : RefsExact db acct (applyBatch batch s) := by
  obtain ⟨u, ops, hexec, hops, rfl⟩ := update_eq_some h
  obtain ⟨hok, -, -⟩ := exec_stagedOk hfresh hexec
  have hobjs := objs_of_stagedOk hok (applyBatch_buildBatch hops s).2.2.1
  generalize hs' : applyBatch (ops ++ [.setSeq u.sequence]) s = s' at *
  have hexact : ∀ K, K ∈ refView s ↔ ∃ k : RecKey, K ∈ recordRefKeys db acct k s.objs[k]? := hs
  intro K
  refine index_after_commit hops (fun r r' _ h2 => by rw [refView, refView, h2])
    (recordRefKeys_subset db acct) (disjoint_refRegion acct) hs'
    (fun {k} hst => by rw [hobjs k, hst]) (fun k st hst o ho => ?_) hexact K
  rw [hobjs k, hst]
  exact stagedOps_maintains_refs ho (hok k st hst)

theorem IndexesExact.commit {c : Commit} {batch : List BatchOp} (hs : IndexesExact db acct s)
    (hfresh : FreshDraw c.draw s (c.drawn db s))
    (hvalid : ∀ i < c.drawn db s, JmapId.valid (c.draw i))
    (h : (db.update acct c).run s = .ok (some batch))
    (hkeep : KeepsOrder db s (applyBatch batch s)) : IndexesExact db acct (applyBatch batch s) := by
  obtain ⟨u, ops, hexec, hops, rfl⟩ := update_eq_some h
  obtain ⟨hok, -, -⟩ := exec_stagedOk hfresh hexec
  have hobjs := objs_of_stagedOk hok (applyBatch_buildBatch hops s).2.2.1
  generalize hs' : applyBatch (ops ++ [.setSeq u.sequence]) s = s' at *
  have hnew : ∀ {k : RecKey} {st : StagedRecord}, u.staged[k]? = some st →
      s'.objs[k]? = st.new := fun hst => by rw [hobjs, hst]
  have hsame : ∀ {k : RecKey}, u.staged[k]? = none → s'.objs[k]? = s.objs[k]? :=
    fun hst => by rw [hobjs, hst]
  -- the operations of a staged record move its own keys from the old record to the new one
  have hrecord : ∀ k st, u.staged[k]? = some st → ∀ o, stagedOps db acct (k, st) = .ok o →
      Maintains idxView (applyBatch o) (keySet (recordKeys db acct k s.objs[k]?))
          (keySet (recordKeys db acct k s'.objs[k]?)) ∧
        Maintains refView (applyBatch o) (keySet (recordRefKeys db acct k s.objs[k]?))
          (keySet (recordRefKeys db acct k s'.objs[k]?)) := by
    intro k st hst o ho
    rw [hnew hst]
    exact stagedOps_maintains ho (hok k st hst) fun ht hold hn =>
      hkeep ht hold ((hnew hst).trans hn)
  constructor
  · exact index_after_commit hops (fun r r' h1 _ => by rw [idxView, idxView, h1])
      (recordKeys_subset db acct) (disjoint_recordRegion acct) hs' hsame
      (fun k st hst o ho => (hrecord k st hst o ho).1) hs.idx
  · exact index_after_commit hops (fun r r' _ h2 => by rw [refView, refView, h2])
      (recordRefKeys_subset db acct) (disjoint_refRegion acct) hs' hsame
      (fun k st hst o ho => (hrecord k st hst o ho).2) hs.refs
  · intro k obj hobj
    cases hst : u.staged[k]? with
    | none => exact hs.encodes ((hsame hst).symm.trans hobj)
    | some st =>
      have hn : st.new = some obj := (hnew hst).symm.trans hobj
      -- the batch could be built, so the new record has its keys
      simp only [Update.buildBatch, except_bind_eq_ok] at hops
      obtain ⟨records, hrec, -⟩ := hops
      obtain ⟨o, ho, -⟩ := collectOps_eq_flatMap hrec
      rcases stagedOps_eq_ok (ho (k, st) ((Map.mem_toList _ _ _).mpr hst)) with
        ⟨-, hnone, -⟩ | ⟨t, m, ht, -, hm, -⟩
      · rw [hn] at hnone
        cases hnone
      · rw [(hok k st hst).preImage_eq, hn] at hm
        refine ⟨t, ht, encodes_of_maintenanceOps hm fun o ho => ⟨?_, hkeep ht ho hobj⟩⟩
        obtain ⟨t', ht', henc⟩ := hs.encodes ho
        cases ht.symm.trans ht'
        exact henc
  · intro k obj hobj
    cases hst : u.staged[k]? with
    | none => exact hs.valid ((hsame hst).symm.trans hobj)
    | some st =>
      cases hc : st.created with
      | false =>
        obtain ⟨o, ho⟩ := Option.isSome_iff_exists.mp ((hok k st hst).existing hc).2
        exact hs.valid ho
      | true =>
        obtain ⟨-, -, -, j, hj, hid⟩ := (hok k st hst).created hc
        rw [hid]
        exact hvalid j (by rwa [Commit.drawn, hexec])

end Commit

/-! ## Runs -/

/-- A step of an account whose commits honour the contract on OrderBy properties. -/
def OrderedMoves (db : DB) (acct : JmapId) (w w' : World) : Prop :=
  Moves db acct w w' ∧ KeepsOrder db w.store w'.store

theorem IndexesExact.init (db : DB) (acct : JmapId) : IndexesExact db acct World.init.store where
  idx K := by simp [World.init, recordKeys_none]
  refs K := by simp [World.init, recordRefKeys_none]
  encodes h := by simp [World.init] at h
  valid h := by simp [World.init] at h

theorem IndexesExact.congr {r s : Store} (hs : IndexesExact db acct s) (hrest : r.SameButLog s) :
    IndexesExact db acct r := by
  rw [hrest]
  exact ⟨hs.idx, hs.refs, hs.encodes, hs.valid⟩

theorem IndexesExact.step {w w' : World} (hw : w.Ok) (hs : IndexesExact db acct w.store)
    (h : OrderedMoves db acct w w') : IndexesExact db acct w'.store := by
  obtain ⟨⟨a, hstep⟩, hkeep⟩ := h
  cases hstep with
  | commit hfresh hvalid h => exact hs.commit (hw.freshDraw hfresh) hvalid h hkeep
  | trim h => exact hs.congr (trim_effect h).rest

theorem IndexesExact.run {w : World}
    (hrun : Relation.ReflTransGen (OrderedMoves db acct) World.init w) :
    IndexesExact db acct w.store := by
  have hboth : w.Ok ∧ IndexesExact db acct w.store := by
    induction hrun with
    | refl => exact ⟨World.Ok.init, IndexesExact.init db acct⟩
    | tail _ hstep ih =>
      obtain ⟨⟨a, hmove⟩, -⟩ := id hstep
      exact ⟨ih.1.step hmove, ih.2.step ih.1 hstep⟩
  exact hboth.2

end NaustJmap.ObjectDB
