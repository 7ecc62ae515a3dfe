import NaustJmap.ObjectDB.Get
import NaustJmap.ObjectDB.Lookup

/-!
# What an Update Sees

The reads of `Update` overlay the committed state with what is staged.  They answer what the reads
of `DB` answer once the staged records are committed (`overlay_exact`), for commits that leave the
OrderBy properties of existing records alone (`stale_row_not_overlaid`).
-/

namespace NaustJmap.ObjectDB

open Library

/-! ## Lookups -/

/-- The loop over the staged records: each is tested anew, whatever the index says. -/
def overlayIds (typeName : String) (test : Object → Except Err Bool) :
    List (RecKey × StagedRecord) → Map JmapId Unit → Except Err (Map JmapId Unit)
  | [], set => .ok set
  | (k, st) :: rest, set =>
    if k.typeName ≠ typeName then overlayIds typeName test rest set
    else
      match st.new with
      | none => overlayIds typeName test rest (set.erase k.id)
      | some obj =>
        match test obj with
        | .error e => .error e
        | .ok hit =>
          overlayIds typeName test rest
            (if hit then (set.erase k.id).insert k.id () else set.erase k.id)

def idSet (ids : List JmapId) : Map JmapId Unit :=
  ids.foldl (fun set id => set.insert id ()) ∅

/-- The test of `Update.IdsWhereEqual` for one staged record. -/
def holdsValue (sc : Scanner) (p : Property) (prop : String) (want : Bytes) (obj : Object) :
    Except Err Bool :=
  match obj[prop]? with
  | none => .ok false
  | some raw => (indexValue sc p raw).map fun got => got = want

/-- The test of `Update.IdsWhereMember` and `Update.LowestMemberId` for one staged record. -/
def holdsMember (sc : Scanner) (p : Property) (prop member : String) (obj : Object) :
    Except Err Bool :=
  (setMembers sc p obj[prop]?).map fun members => member ∈ members

/-- The loop over the staged records: their ids, and the lowest that has the member. -/
def lowestStaged (typeName : String) (test : Object → Except Err Bool) :
    List (RecKey × StagedRecord) → List JmapId → Option JmapId →
      Except Err (List JmapId × Option JmapId)
  | [], staged, best => .ok (staged, best)
  | (k, st) :: rest, staged, best =>
    if k.typeName ≠ typeName then lowestStaged typeName test rest staged best
    else
      match st.new with
      | none => lowestStaged typeName test rest (k.id :: staged) best
      | some obj =>
        match test obj with
        | .error e => .error e
        | .ok hit =>
          lowestStaged typeName test rest (k.id :: staged)
            (if hit && best.all (bytesOf k.id < bytesOf ·) then some k.id else best)

/-- The last switch of `Update.LowestMemberId`. -/
def lower : Option JmapId → Option JmapId → Option JmapId
  | some c, some b => if bytesOf c < bytesOf b then some c else some b
  | some c, none => some c
  | none, b => b

namespace Update

variable (db : DB) (acct : JmapId)

def idsWhereEqual (typeName prop : String) (value : Raw) (u : Update) :
    ReadM Err Store (List JmapId) := do
  let p ← ReadM.ofExcept (db.indexedProperty typeName prop)
  let want ← ReadM.ofExcept (indexValue db.scan p value)
  let committed ← db.idsWhereEqual acct typeName prop value 0
  let set ← ReadM.ofExcept
    (overlayIds typeName (holdsValue db.scan p prop want) u.staged.toList (idSet committed))
  return set.keys

def idsWhereMember (typeName prop member : String) (u : Update) :
    ReadM Err Store (List JmapId) := do
  let p ← ReadM.ofExcept (db.setIndexedProperty typeName prop)
  let committed ← db.idsWhereMember acct typeName prop member
  let set ← ReadM.ofExcept
    (overlayIds typeName (holdsMember db.scan p prop member) u.staged.toList (idSet committed))
  return set.keys

/-- `Update.LowestMemberId`: the first row no staged record overrides is the lowest committed. -/
def lowestMemberId (typeName prop member : String) (u : Update) :
    ReadM Err Store (Option JmapId) := do
  let p ← ReadM.ofExcept (db.setIndexedProperty typeName prop)
  let (staged, stagedBest) ← ReadM.ofExcept
    (lowestStaged typeName (holdsMember db.scan p prop member) u.staged.toList [] none)
  let bounds := prefixRange (idxPrefix acct typeName prop ++ [bytesOf member])
  let committedBest ← ReadM.get fun s : Store =>
    ((s.idx.keys.filter (inRange bounds)).map idFromObjKey).find? (· ∉ staged)
  return lower committedBest stagedBest

/-! ## Records -/

/-- The first loop of `Update.GetMany`: what is staged or cached, and the ids that are left. -/
def known (u : Update) (typeName : String) :
    List JmapId → Map JmapId Object → List JmapId → Map JmapId Object × List JmapId
  | [], out, remaining => (out, remaining)
  | id :: ids, out, remaining =>
    match u.staged[RecKey.mk typeName id]? with
    | some st =>
      match st.new with
      | some obj => known u typeName ids (out.insert id obj) remaining
      | none => known u typeName ids out remaining
    | none =>
      match u.read[RecKey.mk typeName id]? with
      | some obj => known u typeName ids (out.insert id obj) remaining
      | none => known u typeName ids out (remaining ++ [id])

/-- The second loop of `Update.GetMany`: what was read is answered and cached. -/
def cacheRead (typeName : String) : List (JmapId × Option Object) → Map JmapId Object → Update →
    Map JmapId Object × Update
  | [], out, u => (out, u)
  | (_, none) :: rest, out, u => cacheRead typeName rest out u
  | (id, some obj) :: rest, out, u =>
    cacheRead typeName rest (out.insert id obj)
      { u with read := u.read.insert ⟨typeName, id⟩ obj }

def getMany (batch : ℕ+) (typeName : String) (ids : List JmapId) (u : Update) :
    Reads Store (Except Err (Map JmapId Object) × Update) :=
  let split := u.known typeName ids ∅ []
  if split.2 = [] then pure (.ok split.1, u)
  else
    ExceptT.run (db.getMany batch typeName split.2) >>= fun
      | .error e => pure (.error e, u)
      | .ok objs =>
        let r := cacheRead typeName (split.2.zip objs) split.1 u
        pure (.ok r.1, r.2)

end Update

/-! ## The loops -/

/-- The staged record of an id passes the test, or there is none and `P` holds. -/
def Overlaid (T : String) (list : List (RecKey × StagedRecord)) (q : Object → Bool)
    (P : JmapId → Prop) (id : JmapId) : Prop :=
  (∃ st, (⟨T, id⟩, st) ∈ list ∧ st.new.any q) ∨ P id ∧ ∀ st, (⟨T, id⟩, st) ∉ list

variable {P Q : JmapId → Prop} {best : Option JmapId} {test : Object → Except Err Bool}
  {q : Object → Bool}

section Loops

variable {T : String} {list : List (RecKey × StagedRecord)}

/-- The test answers `q` for every staged record of the type. -/
def Answers (T : String) (test : Object → Except Err Bool) (q : Object → Bool)
    (list : List (RecKey × StagedRecord)) : Prop :=
  ∀ (k : RecKey) (st : StagedRecord) (obj : Object), (k, st) ∈ list → k.typeName = T →
    st.new = some obj → test obj = .ok (q obj)

theorem Answers.tail {entry : RecKey × StagedRecord} (h : Answers T test q (entry :: list)) :
    Answers T test q list := fun k st obj hmem => h k st obj (List.mem_cons_of_mem _ hmem)

theorem overlaid_cons {k : RecKey} {st : StagedRecord}
    (hnodup : (((k, st) :: list).map Prod.fst).Nodup) (id : JmapId) :
    Overlaid T ((k, st) :: list) q P id ↔
      Overlaid T list q (fun id => if k = ⟨T, id⟩ then st.new.any q = true else P id) id := by
  obtain ⟨hk, -⟩ := List.nodup_cons.mp hnodup
  unfold Overlaid
  by_cases hid : k = ⟨T, id⟩
  · -- no other staged record has this key
    have hnot : ∀ st', ((⟨T, id⟩ : RecKey), st') ∉ list := fun st' hmem =>
      hk (List.mem_map.mpr ⟨_, hmem, hid.symm⟩)
    constructor
    · rintro (⟨st', hmem, hq⟩ | ⟨-, hall⟩)
      · rcases List.mem_cons.mp hmem with heq | hmem
        · obtain ⟨-, rfl⟩ := Prod.mk.inj heq
          exact .inr ⟨(if_pos hid).mpr hq, hnot⟩
        · exact absurd hmem (hnot st')
      · exact absurd (by simp [hid]) (hall st)
    · rintro (⟨st', hmem, -⟩ | ⟨hq, -⟩)
      · exact absurd hmem (hnot st')
      · exact .inl ⟨st, by simp [hid], (if_pos hid).mp hq⟩
  · have hmem : ∀ st', ((⟨T, id⟩ : RecKey), st') ∈ (k, st) :: list ↔ (⟨T, id⟩, st') ∈ list := by
      intro st'
      rw [List.mem_cons]
      exact or_iff_right fun heq => hid (Prod.mk.inj heq).1.symm
    simp only [hmem, if_neg hid]

theorem overlayIds_spec (htest : Answers T test q list) (hnodup : (list.map Prod.fst).Nodup)
    (set : Map JmapId Unit) :
    ∃ set', overlayIds T test list set = .ok set' ∧
      ∀ id, id ∈ set' ↔ Overlaid T list q (· ∈ set) id := by
  induction list generalizing set with
  | nil => exact ⟨set, rfl, fun id => by simp [Overlaid]⟩
  | cons entry list ih =>
    obtain ⟨k, st⟩ := entry
    have hrest := (List.nodup_cons.mp hnodup).2
    -- the set the rest of the loop starts from
    have next : ∀ set1 : Map JmapId Unit,
        (∀ id, id ∈ set1 ↔ if k = ⟨T, id⟩ then st.new.any q = true else id ∈ set) →
        ∃ set', overlayIds T test list set1 = .ok set' ∧
          ∀ id, id ∈ set' ↔ Overlaid T ((k, st) :: list) q (· ∈ set) id := by
      intro set1 hset1
      obtain ⟨set', hrun, hmem⟩ := ih htest.tail hrest set1
      refine ⟨set', hrun, fun id => ?_⟩
      rw [hmem, overlaid_cons hnodup]
      simp only [hset1]
    rw [overlayIds]
    by_cases hT : k.typeName = T
    · rw [if_neg (not_not.mpr hT)]
      have hkey : ∀ id, k = ⟨T, id⟩ ↔ id = k.id := fun id =>
        ⟨fun h => by rw [h], fun h => by rw [h, ← hT]⟩
      cases hnew : st.new with
      | none =>
        refine next _ fun id => ?_
        rw [Map.mem_erase_iff]
        by_cases hid : k = ⟨T, id⟩
        · simp [hid, hnew]
        · simp [hid, (hkey id).not.mp hid]
      | some obj =>
        simp only [htest k st obj List.mem_cons_self hT hnew]
        refine next _ fun id => ?_
        have hset : id ∈ (if q obj then (set.erase k.id).insert k.id () else set.erase k.id) ↔
            if id = k.id then q obj = true else id ∈ set := by
          cases q obj <;>
            simp only [Bool.false_eq_true, if_true, if_false, Map.mem_erase_iff,
              Map.mem_insert_iff] <;> split <;> simp_all
        simp only [hset, hkey, hnew, Option.any_some]
    · rw [if_pos hT]
      refine next _ fun id => ?_
      have hid : k ≠ ⟨T, id⟩ := fun h => hT (by rw [h])
      simp [hid]

/-- The lowest of the ids with a property, `none` if there is none. -/
def IsLowest (P : JmapId → Prop) : Option JmapId → Prop
  | none => ∀ id, ¬ P id
  | some id => P id ∧ ∀ id', P id' → bytesOf id ≤ bytesOf id'

theorem IsLowest.congr (h : IsLowest P best) (hPQ : ∀ id, P id ↔ Q id) : IsLowest Q best := by
  obtain rfl : P = Q := funext fun id => propext (hPQ id)
  exact h

theorem IsLowest.add (h : IsLowest P best) (id : JmapId) :
    IsLowest (fun id' => P id' ∨ id' = id)
      (if best.all (bytesOf id < bytesOf ·) then some id else best) := by
  cases best with
  | none =>
    refine ⟨.inr rfl, ?_⟩
    rintro id' (h' | rfl)
    · exact absurd h' (h id')
    · exact List.le_refl _
  | some b =>
    split
    · next hlt =>
      refine ⟨.inr rfl, ?_⟩
      rintro id' (h' | rfl)
      · exact List.le_trans (List.le_of_lt (of_decide_eq_true hlt)) (h.2 id' h')
      · exact List.le_refl _
    · next hle =>
      refine ⟨.inl h.1, ?_⟩
      rintro id' (h' | rfl)
      · exact h.2 id' h'
      · exact List.not_lt.mp fun hlt => hle (decide_eq_true hlt)

theorem IsLowest.or {a b : Option JmapId} (ha : IsLowest P a) (hb : IsLowest Q b) :
    IsLowest (fun id => P id ∨ Q id) (lower a b) := by
  cases a with
  | none =>
    refine hb.congr fun id => ?_
    exact ⟨.inr, fun h => h.resolve_left (ha id)⟩
  | some c =>
    cases b with
    | none =>
      refine ha.congr fun id => ?_
      exact ⟨.inl, fun h => h.resolve_right (hb id)⟩
    | some b =>
      change IsLowest _ (if bytesOf c < bytesOf b then some c else some b)
      split
      · next hlt =>
        refine ⟨.inl ha.1, ?_⟩
        rintro id (h | h)
        · exact ha.2 id h
        · exact List.le_trans (List.le_of_lt hlt) (hb.2 id h)
      · next hle =>
        refine ⟨.inr hb.1, ?_⟩
        rintro id (h | h)
        · exact List.le_trans (List.not_lt.mp hle) (ha.2 id h)
        · exact hb.2 id h

theorem lowestStaged_spec (htest : Answers T test q list) (staged : List JmapId)
    (hbest : IsLowest P best) :
    ∃ staged' best', lowestStaged T test list staged best = .ok (staged', best') ∧
      (∀ id, id ∈ staged' ↔ id ∈ staged ∨ ∃ st, (⟨T, id⟩, st) ∈ list) ∧
      IsLowest (fun id => P id ∨ ∃ st, (⟨T, id⟩, st) ∈ list ∧ st.new.any q) best' := by
  induction list generalizing staged P best with
  | nil => exact ⟨staged, best, rfl, by simp, hbest.congr (by simp)⟩
  | cons entry list ih =>
    obtain ⟨k, st⟩ := entry
    rw [lowestStaged]
    by_cases hT : k.typeName = T
    · rw [if_neg (not_not.mpr hT)]
      have hkey : ∀ {id : JmapId} {st' : StagedRecord},
          ((⟨T, id⟩ : RecKey), st') = (k, st) ↔ id = k.id ∧ st' = st := by
        intro id st'
        obtain ⟨T', id'⟩ := k
        obtain rfl : T' = T := hT
        simp
      -- the rest of the loop, after the record's id was noted
      have next : ∀ {best1 : Option JmapId},
          IsLowest (fun id => P id ∨ id = k.id ∧ st.new.any q) best1 →
          ∃ staged' best', lowestStaged T test list (k.id :: staged) best1 = .ok (staged', best') ∧
            (∀ id, id ∈ staged' ↔ id ∈ staged ∨ ∃ st', (⟨T, id⟩, st') ∈ (k, st) :: list) ∧
            IsLowest (fun id => P id ∨ ∃ st', (⟨T, id⟩, st') ∈ (k, st) :: list ∧ st'.new.any q)
              best' := by
        intro best1 hbest1
        obtain ⟨staged', best', hrun, hstaged, hlow⟩ := ih htest.tail (k.id :: staged) hbest1
        refine ⟨staged', best', hrun, fun id => ?_, hlow.congr fun id => ?_⟩
        · simp only [hstaged, List.mem_cons, hkey, exists_or, exists_and_left, exists_eq, and_true]
          tauto
        · simp only [List.mem_cons, hkey, or_and_right, exists_or, and_assoc, exists_and_left,
            exists_eq_left, or_assoc]
      cases hnew : st.new with
      | none => exact next (hbest.congr fun id => by simp [hnew])
      | some obj =>
        simp only [htest k st obj List.mem_cons_self hT hnew]
        cases hq : q obj with
        | false => exact next (hbest.congr fun id => by simp [hnew, hq])
        | true => exact next ((hbest.add k.id).congr fun id => by simp [hnew, hq])
    · rw [if_pos hT]
      obtain ⟨staged', best', hrun, hstaged, hlow⟩ := ih htest.tail staged hbest
      have hkey : ∀ {id : JmapId} {st' : StagedRecord},
          ((⟨T, id⟩ : RecKey), st') ∈ (k, st) :: list ↔ (⟨T, id⟩, st') ∈ list := by
        intro id st'
        rw [List.mem_cons]
        exact or_iff_right fun h => hT (by rw [← (Prod.mk.inj h).1])
      exact ⟨staged', best', hrun, by simpa only [hkey] using hstaged,
        by simpa only [hkey] using hlow⟩

end Loops

/-! ## Before and after the commit -/

/-- Two answers that are both errors, the same, or both results, related by `R`. -/
def Matches {α β : Type} (R : α → β → Prop) : Except Err α → Except Err β → Prop
  | .ok a, .ok b => R a b
  | .error e, .error e' => e = e'
  | _, _ => False

/-- The overlay of `u` on `s` answers what `DB` answers on `s'`. -/
structure OverlayExact (db : DB) (acct : JmapId) (u : Update) (s s' : Store) : Prop where
  get : ∀ (T : String) (id : JmapId), ((u.get db T id).run s).1 = (db.get T id).run s'
  getMany : ∀ (batch : ℕ+) (T : String) (ids : List JmapId),
    (db.types[T]?).isSome ∨ ids ≠ [] →
      Matches (fun out objs => objs = ids.map (out[·]?) ∧ ∀ id ∈ out, id ∈ ids)
        ((u.getMany db batch T ids).run s).1 ((db.getMany batch T ids).run s')
  equal : ∀ (T prop : String) (value : Raw),
    Matches List.Perm ((u.idsWhereEqual db acct T prop value).run s)
      ((db.idsWhereEqual acct T prop value 0).run s')
  member : ∀ T prop member : String,
    Matches List.Perm ((u.idsWhereMember db acct T prop member).run s)
      ((db.idsWhereMember acct T prop member).run s')
  lowest : ∀ T prop member : String,
    Matches (fun best ids => IsLowest (· ∈ ids) best)
      ((u.lowestMemberId db acct T prop member).run s)
      ((db.idsWhereMember acct T prop member).run s')

/-- `s'` is `s` with the records as `u` sees them, both with exact indexes. -/
structure Update.Lands (db : DB) (acct : JmapId) (u : Update) (s s' : Store) : Prop where
  registered : ∀ (k : RecKey) (st : StagedRecord), u.staged[k]? = some st →
    (db.types[k.typeName]?).isSome
  cache : u.CacheOk s
  objs : ∀ k : RecKey, s'.objs[k]? = u.view s k
  before : IndexesExact db acct s
  after : IndexesExact db acct s'

section Lands

variable {db : DB} {acct : JmapId} {u : Update} {s s' : Store} {T prop : String}
  {t : TypeDesc} {p : Property}

theorem Update.Lands.get (h : u.Lands db acct s s') (id : JmapId) :
    ((u.get db T id).run s).1 = (db.get T id).run s' := by
  rw [run_get, h.objs, Update.view, Update.get]
  cases hst : u.staged[RecKey.mk T id]? with
  | some st =>
    rw [if_pos (h.registered _ _ hst)]
    cases hnew : st.new <;> simp [hnew]
  | none =>
    rw [Update.getCommitted]
    cases hread : u.read[RecKey.mk T id]? with
    | some obj =>
      have hobj := h.cache _ _ hread
      obtain ⟨t, ht, -⟩ := h.before.encodes hobj
      simp [hobj, ht]
    | none =>
      cases ht : db.types[T]? with
      | none => rfl
      | some t => cases hobj : s.objs[RecKey.mk T id]? <;> simp [hobj]

/-! ## Several records -/

variable (u s T) in
/-- After the ids `done`: the rest is neither staged nor cached, the answers are what is seen. -/
structure KnownInv (done : List JmapId) (out : Map JmapId Object) (remaining : List JmapId) :
    Prop where
  left : ∀ id, id ∈ remaining ↔ id ∈ done ∧ u.staged[RecKey.mk T id]? = none ∧
    u.read[RecKey.mk T id]? = none
  answered : ∀ id, out[id]? =
    if id ∈ done ∧ id ∉ remaining then u.view s ⟨T, id⟩ else none

theorem known_spec (hc : u.CacheOk s) {ids done : List JmapId} {out : Map JmapId Object}
    {remaining : List JmapId} (h : KnownInv u s T done out remaining) :
    KnownInv u s T (done ++ ids) (u.known T ids out remaining).1
      (u.known T ids out remaining).2 := by
  induction ids generalizing done out remaining with
  | nil => simpa [Update.known] using h
  | cons id ids ih =>
    rw [List.append_cons]
    -- an id that is answered at once
    have answer : ∀ out', ¬ (u.staged[RecKey.mk T id]? = none ∧
          u.read[RecKey.mk T id]? = none) →
        (∀ id', out'[id']? = if id' = id then u.view s ⟨T, id⟩ else out[id']?) →
        KnownInv u s T (done ++ [id]) out' remaining := by
      intro out' hid hout'
      have hleft : id ∉ remaining := fun hmem => hid ((h.left id).mp hmem).2
      refine ⟨fun id' => ?_, fun id' => ?_⟩
      · by_cases heq : id' = id
        · subst heq
          exact iff_of_false hleft fun hmem => hid hmem.2
        · simp [heq, h.left]
      · rw [hout', h.answered]
        by_cases heq : id' = id
        · simp [heq, hleft]
        · simp [heq]
    rw [Update.known]
    cases hst : u.staged[RecKey.mk T id]? with
    | some st =>
      have hview : u.view s ⟨T, id⟩ = st.new := by rw [Update.view, hst]
      cases hnew : st.new with
      | some obj =>
        simp only [hnew]
        refine ih (answer _ (by simp [hst]) fun id' => ?_)
        rw [Map.getElem?_insert, hview, hnew]
        simp [eq_comm]
      | none =>
        simp only [hnew]
        refine ih (answer _ (by simp [hst]) fun id' => ?_)
        split
        · next heq =>
          rw [h.answered, heq, hview, hnew]
          simp
        · rfl
    | none =>
      have hview : u.view s ⟨T, id⟩ = s.objs[RecKey.mk T id]? := by rw [Update.view, hst]
      cases hread : u.read[RecKey.mk T id]? with
      | some obj =>
        refine ih (answer _ (by simp [hread]) fun id' => ?_)
        rw [Map.getElem?_insert, hview, hc _ _ hread]
        simp [eq_comm]
      | none =>
        refine ih ⟨fun id' => ?_, fun id' => ?_⟩
        · by_cases heq : id' = id
          · simp [heq, hst, hread]
          · simp [heq, h.left]
        · rw [h.answered]
          by_cases heq : id' = id
          · simp [heq, h.left, hst, hread]
          · simp [heq]

theorem cacheRead_spec (ids : List JmapId) (out : Map JmapId Object) (u : Update) (id : JmapId) :
    (Update.cacheRead T (ids.zip (s.fetch T ids)) out u).1[id]? =
      if id ∈ ids ∧ (s.objs[RecKey.mk T id]?).isSome then s.objs[RecKey.mk T id]?
      else out[id]? := by
  induction ids generalizing out u with
  | nil => simp [Update.cacheRead]
  | cons id' ids ih =>
    rw [Store.fetch, List.map_cons]
    cases hobj : s.objs[RecKey.mk T id']? with
    | none =>
      refine (ih out u).trans ?_
      by_cases heq : id = id'
      · simp [heq, hobj]
      · simp [heq]
    | some obj =>
      refine (ih _ _).trans ?_
      rw [Map.getElem?_insert]
      by_cases heq : id' = id
      · simp [← heq, hobj]
      · simp [heq, Ne.symm heq]

theorem Update.Lands.getMany (h : u.Lands db acct s s') (batch : ℕ+) (ids : List JmapId)
    (hT : (db.types[T]?).isSome ∨ ids ≠ []) :
    Matches (fun out objs => objs = ids.map (out[·]?) ∧ ∀ id ∈ out, id ∈ ids)
      ((u.getMany db batch T ids).run s).1 ((db.getMany batch T ids).run s') := by
  obtain ⟨hleft, hanswered⟩ := @known_spec u s T h.cache ids [] ∅ [] ⟨by simp, by simp⟩
  rw [List.nil_append] at hleft hanswered
  -- the records are those the update sees
  have matches_of : ∀ out : Map JmapId Object,
      (∀ id, out[id]? = if id ∈ ids then u.view s ⟨T, id⟩ else none) →
      s'.fetch T ids = ids.map (out[·]?) ∧ ∀ id ∈ out, id ∈ ids := by
    intro out hout
    refine ⟨List.map_congr_left fun id hid => by rw [h.objs, hout, if_pos hid], fun id hid => ?_⟩
    by_contra hnot
    have := hout id
    rw [if_neg hnot] at this
    exact absurd hid (by simpa using this)
  rw [run_getMany, Update.getMany]
  split
  · next hnone =>
    rw [if_pos ?_]
    · refine matches_of _ fun id => ?_
      rw [hanswered, hnone]
      simp
    · refine hT.elim id fun hne => ?_
      -- some id is staged or cached, so its type is registered
      obtain ⟨id, rest, rfl⟩ := List.exists_cons_of_ne_nil hne
      have hknown := (hleft id).not.mp (by simp [hnone])
      cases hst : u.staged[RecKey.mk T id]? with
      | some st => exact h.registered _ _ hst
      | none =>
        cases hread : u.read[RecKey.mk T id]? with
        | none => exact absurd ⟨List.mem_cons_self, hst, hread⟩ hknown
        | some obj =>
          obtain ⟨t, ht, -⟩ := h.before.encodes (h.cache _ _ hread)
          exact Option.isSome_iff_exists.mpr ⟨t, ht⟩
  · have hread : Reads.run s (ExceptT.run (db.getMany batch T (u.known T ids ∅ []).2)) =
        if (db.types[T]?).isSome then .ok (s.fetch T (u.known T ids ∅ []).2)
        else .error .unknownType := run_getMany batch _
    rw [Reads.run_bind, hread]
    by_cases hreg : (db.types[T]?).isSome
    · rw [if_pos hreg, if_pos hreg]
      refine matches_of _ fun id => ?_
      rw [cacheRead_spec, hanswered]
      by_cases hid : id ∈ (u.known T ids ∅ []).2
      · obtain ⟨hmem, hst, -⟩ := (hleft id).mp hid
        simp only [hid, true_and, not_true, and_false, if_false, hmem, if_true, Update.view, hst]
        cases s.objs[RecKey.mk T id]? <;> rfl
      · simp [hid]
    · rw [if_neg hreg, if_neg hreg]
      rfl

/-! ## Lookups -/

theorem Update.Lands.overlaid (h : u.Lands db acct s s') (q : Object → Bool) (id : JmapId) :
    Overlaid T u.staged.toList q (fun id => (s.objs[RecKey.mk T id]?).any q) id ↔
      (s'.objs[RecKey.mk T id]?).any q := by
  simp only [Overlaid, Map.mem_toList]
  rw [h.objs, Update.view]
  cases hst : u.staged[RecKey.mk T id]? with
  | none => simp
  | some st => simp

theorem Update.Lands.answers (h : u.Lands db acct s s') (ht : db.types[T]? = some t)
    (htest : ∀ obj, Encodes db.scan t obj → test obj = .ok (q obj)) :
    Answers T test q u.staged.toList := by
  rintro ⟨T', id⟩ st obj hmem rfl hnew
  have hst := (Map.mem_toList _ _ _).mp hmem
  have hobj : s'.objs[RecKey.mk T' id]? = some obj := by
    rw [h.objs, Update.view, hst]
    exact hnew
  obtain ⟨t', ht', henc⟩ := h.after.encodes hobj
  cases ht.symm.trans ht'
  exact htest obj henc

theorem holdsValue_eq (hp : t.properties[prop]? = some p) (hidx : p.indexed) (want : Bytes)
    (obj : Object) (henc : Encodes db.scan t obj) :
    holdsValue db.scan p prop want obj =
      .ok ((indexedValue db.scan p prop obj).any (· = want)) := by
  obtain ⟨v, hv, -⟩ := henc.value hp hidx
  rw [holdsValue, indexedValue, hv]
  unfold recordValue at hv
  cases hraw : obj[prop]? with
  | none =>
    simp only [Option.bind_some, hraw] at hv
    cases hv
    rfl
  | some raw =>
    simp only [Option.bind_some, hraw] at hv
    cases hval : indexValue db.scan p raw with
    | error e =>
      rw [hval] at hv
      cases hv
    | ok got =>
      rw [hval] at hv
      cases hv
      simp [hval, Except.map, Except.toOption]

theorem holdsMember_eq (hp : t.properties[prop]? = some p) (hset : p.setIndexed)
    (member : String) (obj : Object) (henc : Encodes db.scan t obj) :
    holdsMember db.scan p prop member obj =
      .ok (member ∈ membersOf db.scan p prop obj) := by
  obtain ⟨ms, hms⟩ := henc.members hp hset
  rw [holdsMember, membersOf, hms]
  rfl

theorem mem_idSet (ids : List JmapId) (id : JmapId) : id ∈ idSet ids ↔ id ∈ ids := by
  have hfold : ∀ set : Map JmapId Unit,
      id ∈ ids.foldl (fun set id => set.insert id ()) set ↔ id ∈ set ∨ id ∈ ids := by
    induction ids with
    | nil => simp
    | cons id' ids ih =>
      intro set
      rw [List.foldl_cons, ih, Map.mem_insert_iff, List.mem_cons, or_assoc]
  rw [idSet, hfold]
  simp

theorem Update.Lands.overlayIds (h : u.Lands db acct s s') (ht : db.types[T]? = some t)
    (htest : ∀ obj, Encodes db.scan t obj → test obj = .ok (q obj)) {committed : List JmapId}
    (hcommitted : committed.Perm (s.idsWhere T q)) :
    ∃ set, ObjectDB.overlayIds T test u.staged.toList (idSet committed) = .ok set ∧
      set.keys.Perm (s'.idsWhere T q) := by
  obtain ⟨set, hset, hmem⟩ := overlayIds_spec (h.answers ht htest) (Map.nodup_toList_keys _)
    (idSet committed)
  refine ⟨set, hset, (List.perm_ext_iff_of_nodup (Map.nodup_keys _)
    (nodup_idsWhere _ _ _)).mpr fun id => ?_⟩
  have hold : ∀ id, id ∈ idSet committed ↔ (s.objs[RecKey.mk T id]?).any q := by
    intro id
    rw [mem_idSet, hcommitted.mem_iff, mem_idsWhere, Option.any_eq_true]
  rw [Std.ExtTreeMap.mem_keys, hmem, mem_idsWhere, ← Option.any_eq_true, ← h.overlaid]
  simp only [hold]

theorem Update.Lands.equal (h : u.Lands db acct s s') (value : Raw) :
    Matches List.Perm ((u.idsWhereEqual db acct T prop value).run s)
      ((db.idsWhereEqual acct T prop value 0).run s') := by
  cases hprop : db.indexedProperty T prop with
  | error e => simp [Update.idsWhereEqual, DB.idsWhereEqual, ReadM.run_bind, hprop, Matches]
  | ok p =>
    cases hv : indexValue db.scan p value with
    | error e => simp [Update.idsWhereEqual, DB.idsWhereEqual, ReadM.run_bind, hprop, hv, Matches]
    | ok v =>
      obtain ⟨t, ht, hp, hidx⟩ := propertyWith_eq_ok hprop
      obtain ⟨committed, hperm, hcommitted, -⟩ := h.before.lookups.equal hprop hv
      obtain ⟨found, hperm', hfound, -⟩ := h.after.lookups.equal hprop hv
      obtain ⟨set, hset, hkeys⟩ := h.overlayIds ht (holdsValue_eq hp hidx v) hperm
      rw [hfound]
      simp only [Update.idsWhereEqual, ReadM.run_bind, ReadM.run_ofExcept, hprop, hv, hcommitted,
        hset, ReadM.run_pure]
      exact hkeys.trans hperm'.symm

theorem Update.Lands.member (h : u.Lands db acct s s') (member : String) :
    Matches List.Perm ((u.idsWhereMember db acct T prop member).run s)
      ((db.idsWhereMember acct T prop member).run s') := by
  cases hprop : db.setIndexedProperty T prop with
  | error e => simp [Update.idsWhereMember, DB.idsWhereMember, ReadM.run_bind, hprop, Matches]
  | ok p =>
    obtain ⟨t, ht, hp, hset⟩ := propertyWith_eq_ok hprop
    obtain ⟨committed, hcommitted, hperm⟩ := h.before.lookups.member member hprop
    obtain ⟨found, hfound, hperm'⟩ := h.after.lookups.member member hprop
    obtain ⟨set, hset, hkeys⟩ := h.overlayIds ht (holdsMember_eq hp hset member) hperm
    rw [hfound]
    simp only [Update.idsWhereMember, ReadM.run_bind, ReadM.run_ofExcept, hprop, hcommitted,
      hset, ReadM.run_pure]
    exact hkeys.trans hperm'.symm

/-! ## The lowest id -/

theorem bytes_lt_of_compare {a b : Bytes} (h : compare a b = .lt) : a < b := by
  induction a generalizing b with
  | nil =>
    cases b with
    | nil => simp at h
    | cons c b => simp
  | cons x a ih =>
    cases b with
    | nil => simp at h
    | cons y b =>
      rw [List.compare_eq_compareLex, List.compareLex_cons_cons, Ordering.then_eq_lt] at h
      rw [List.cons_lt_cons_iff]
      rcases h with h | ⟨h, h'⟩
      · exact .inl (Std.compare_eq_lt.mp h)
      · exact .inr ⟨Std.LawfulEqCmp.compare_eq_iff_eq.mp h, ih h'⟩

theorem memberRows_sorted (hs : IndexesExact db acct s) (ht : db.types[T]? = some t)
    (hp : t.properties[prop]? = some p) (hset : p.setIndexed) (member : String) :
    ((s.idx.keys.filter (inRange (prefixRange (idxPrefix acct T prop ++ [bytesOf member])))).map
      idFromObjKey).Pairwise fun a b => bytesOf a ≤ bytesOf b := by
  have hrange := valueRange_equal acct T prop (bytesOf member)
  have hrow : ∀ K ∈ s.idx.keys.filter
      (inRange (prefixRange (idxPrefix acct T prop ++ [bytesOf member]))),
      ∃ id, JmapId.valid id ∧ K = idxKey acct T prop (bytesOf member) [] id := by
    intro K hK
    obtain ⟨hK, hin⟩ := List.mem_filter.mp hK
    obtain ⟨id, obj, hobj, hK⟩ := (mem_idx_iff hs ht hp K).mp
      ⟨Std.ExtTreeMap.mem_keys.mp hK, hrange.only hin⟩
    obtain ⟨v, -, rfl⟩ := (entryKeys_setIndexed ht hp hset id obj K).mp hK
    rw [hrange.mem, decide_eq_true_eq] at hin
    exact ⟨id, hs.valid hobj, by rw [hin]⟩
  rw [List.pairwise_map]
  refine (Std.ExtTreeMap.ordered_keys.filter _).imp_of_mem fun {K K'} hK hK' hlt => ?_
  obtain ⟨id, hid, rfl⟩ := hrow K hK
  obtain ⟨id', hid', rfl⟩ := hrow K' hK'
  rw [idFromObjKey_idxKey hid, idFromObjKey_idxKey hid']
  have hkeys : ∀ id, idxKey acct T prop (bytesOf member) [] id =
      key ((idxPrefix acct T prop ++ [bytesOf member]) ++ [bytesOf id]) := by simp [idxKey]
  have hlt := bytes_lt_of_compare hlt
  rw [hkeys] at hlt
  exact List.le_of_lt ((key_append_lt_iff _ _ _ []).mp hlt)

theorem isLowest_find {ids staged : List JmapId}
    (hsorted : ids.Pairwise fun a b => bytesOf a ≤ bytesOf b) :
    IsLowest (fun id => id ∈ ids ∧ id ∉ staged) (ids.find? (· ∉ staged)) := by
  induction ids with
  | nil => exact fun id h => by simp at h
  | cons id ids ih =>
    obtain ⟨hhead, htail⟩ := List.pairwise_cons.mp hsorted
    rw [List.find?_cons]
    by_cases hid : id ∈ staged
    · simp only [hid, not_true, decide_false]
      refine (ih htail).congr fun id' => ?_
      rw [List.mem_cons]
      exact ⟨fun h => ⟨.inr h.1, h.2⟩,
        fun h => ⟨h.1.resolve_left fun heq => h.2 (heq ▸ hid), h.2⟩⟩
    · simp only [hid, not_false_eq_true, decide_true]
      refine ⟨⟨List.mem_cons_self, hid⟩, fun id' h => ?_⟩
      rcases List.mem_cons.mp h.1 with rfl | h'
      · exact List.le_refl _
      · exact hhead id' h'

theorem Update.Lands.lowest (h : u.Lands db acct s s') (member : String) :
    Matches (fun best ids => IsLowest (· ∈ ids) best)
      ((u.lowestMemberId db acct T prop member).run s)
      ((db.idsWhereMember acct T prop member).run s') := by
  cases hprop : db.setIndexedProperty T prop with
  | error e => simp [Update.lowestMemberId, DB.idsWhereMember, ReadM.run_bind, hprop, Matches]
  | ok p =>
    obtain ⟨t, ht, hp, hset⟩ := propertyWith_eq_ok hprop
    obtain ⟨committed, hcommitted, hperm⟩ := h.before.lookups.member member hprop
    obtain ⟨found, hfound, hperm'⟩ := h.after.lookups.member member hprop
    -- the rows of the scan are the committed matches
    have hrows : (s.idx.keys.filter (inRange (prefixRange
        (idxPrefix acct T prop ++ [bytesOf member])))).map idFromObjKey = committed := by
      simp only [DB.idsWhereMember, ReadM.run_bind, ReadM.run_ofExcept, hprop,
        ReadM.run_get] at hcommitted
      rw [← Except.ok.inj hcommitted, Store.idsInRange, scanIds_all fun _ => rfl, List.nil_append]
    obtain ⟨staged, best, hstaged, hids, hlow⟩ :=
      @lowestStaged_spec (fun _ => False) none _ _ T _
        (h.answers ht (holdsMember_eq hp hset member)) [] fun _ => id
    have hscan := @isLowest_find committed staged
      (hrows ▸ memberRows_sorted h.before ht hp hset member)
    rw [hfound]
    simp only [Update.lowestMemberId, ReadM.run_bind, ReadM.run_ofExcept, hprop, hstaged,
      ReadM.run_get, ReadM.run_pure, hrows]
    refine IsLowest.congr (hscan.or hlow) fun id => ?_
    rw [hperm'.mem_iff, mem_idsWhere, ← Option.any_eq_true, ← h.overlaid, Overlaid, or_comm,
      hperm.mem_iff, mem_idsWhere, ← Option.any_eq_true, hids]
    simp

theorem Update.Lands.exact (h : u.Lands db acct s s') : OverlayExact db acct u s s' where
  get _ := h.get
  getMany batch _ := h.getMany batch
  equal _ _ := h.equal
  member _ _ := h.member
  lowest _ _ := h.lowest

/-! ## Every update -/

/-- The store after a commit, which writes nothing when nothing is staged. -/
def Store.committed (s : Store) (batch : Option (List BatchOp)) : Store :=
  batch.elim s (applyBatch · s)

theorem lands_of_update {c : Commit} {batch : Option (List BatchOp)}
    (hs : IndexesExact db acct s) (hfresh : FreshDraw c.draw s (c.drawn db s))
    (hvalid : ∀ i < c.drawn db s, JmapId.valid (c.draw i))
    (hexec : (c.fn.exec db c.draw { sequence := s.seq + 1 }).run s = (.ok (), u))
    (hcommit : (db.update acct c).run s = .ok batch) (hkeep : KeepsOrder db s (s.committed batch)) :
    u.Lands db acct s (s.committed batch) := by
  obtain ⟨hok, -, -⟩ := exec_stagedOk hfresh hexec
  have hcache : u.CacheOk s :=
    (@Callback.exec_induct _ db c.draw s (fun _ _ _ => True) (fun _ _ _ _ _ _ _ => trivial) c.fn _
      (fun k obj hobj => by simp at hobj) [] trivial _ hexec).2.1
  cases batch with
  | none =>
    have hnone : u.staged.isEmpty := by
      simp only [DB.update, Reads.run_bind, Reads.run_get, hexec] at hcommit
      split at hcommit
      · next hn =>
        simp only [Update.nothingStaged, Bool.and_eq_true] at hn
        exact hn.1.1
      · split at hcommit <;> cases hcommit
    have hst : ∀ k : RecKey, u.staged[k]? = none := (Map.isEmpty_iff_forall _).mp hnone
    exact ⟨fun k st h => by simp [hst] at h, hcache, fun k => by simp [Update.view, hst,
      Store.committed], hs, hs⟩
  | some batch =>
    obtain ⟨u', ops, hexec', hops, rfl⟩ := update_eq_some hcommit
    obtain rfl : u = u' := (Prod.mk.inj (hexec.symm.trans hexec')).2
    refine ⟨fun k st hst => (hok k st hst).registered, hcache, fun k => ?_, hs,
      hs.commit hfresh hvalid hcommit hkeep⟩
    rw [Update.view]
    refine (objs_of_stagedOk hok (applyBatch_buildBatch hops s).2.2.1 k).trans ?_
    cases u.staged[k]? <;> rfl

end Lands

theorem ok_of_orderedMoves {db : DB} {acct : JmapId} {w : World}
    (hrun : Relation.ReflTransGen (OrderedMoves db acct) World.init w) : w.Ok := by
  induction hrun with
  | refl => exact World.Ok.init
  | tail _ hstep ih =>
    obtain ⟨⟨a, hmove⟩, -⟩ := hstep
    exact ih.step hmove

/-- **An update sees what its commit will leave.**  At the end of any sequence of operations
    `c.fn` in one `DB.Update`, on any account whose commits left the OrderBy properties of
    existing records alone: if what is staged then can be committed, and does so too, every
    read of the update answers what the read of `DB` answers right after that commit. -/
theorem overlay_exact {db : DB} {acct : JmapId} {w : World}
    (hrun : Relation.ReflTransGen (OrderedMoves db acct) World.init w) {c : Commit}
    (hfresh : ∀ i < c.drawn db w.store, c.draw i ∉ w.issued)
    (hvalid : ∀ i < c.drawn db w.store, JmapId.valid (c.draw i)) {u : Update}
    (hexec : (c.fn.exec db c.draw { sequence := w.store.seq + 1 }).run w.store = (.ok (), u))
    {batch : Option (List BatchOp)} (hcommit : (db.update acct c).run w.store = .ok batch)
    (hkeep : KeepsOrder db w.store (w.store.committed batch)) :
    OverlayExact db acct u w.store (w.store.committed batch) :=
  (lands_of_update (.run hrun) ((ok_of_orderedMoves hrun).freshDraw hfresh) hvalid hexec hcommit
    hkeep).exact

def replaceLetter : Commit where
  fn := .create "Letter" (letter "\"T1\"" "\"7\"" "[\"in\"]") fun _ =>
    .write (.destroy "Letter" "B") .done
  draw := fun _ => "C"
  now := 0

theorem letterCommits_ordered : Relation.ReflTransGen (OrderedMoves letterDB "a") World.init
    (World.of letterDB "a" letterCommits) :=
  @orderedMoves_of_runsOn letterDB "a" letterCommits World.init [] (by simp [World.init])
    (by decide +kernel) (by decide +kernel)

theorem replaceLetter_step : ∃ w, Step letterDB "a" (World.of letterDB "a" letterCommits)
    (.commit replaceLetter) w := by
  have hruns : runsOn letterDB "a" World.init.store [] (letterCommits ++ [replaceLetter]) := by
    decide +kernel
  obtain ⟨-, issued1, hissued1, hruns1⟩ := runsOn_cons (by simp [World.init]) hruns
  obtain ⟨-, issued2, hissued2, hruns2⟩ := runsOn_cons hissued1 hruns1
  obtain ⟨hstep, -⟩ := runsOn_cons hissued2 hruns2
  exact ⟨_, hstep⟩

theorem overlay_exact_letters : ∃ (u : Update) (batch : Option (List BatchOp)),
    (letterDB.update "a" replaceLetter).run (World.of letterDB "a" letterCommits).store =
      .ok batch ∧
    OverlayExact letterDB "a" u (World.of letterDB "a" letterCommits).store
      ((World.of letterDB "a" letterCommits).store.committed batch) := by
  have hkeep : ((letterDB.update "a" replaceLetter).run
      (World.of letterDB "a" letterCommits).store).toOption.any (fun batch => keepsOrderOn letterDB
        (World.of letterDB "a" letterCommits).store
        ((World.of letterDB "a" letterCommits).store.committed batch)) := by
    decide +kernel
  cases hcommit : (letterDB.update "a" replaceLetter).run
      (World.of letterDB "a" letterCommits).store with
  | error e =>
    rw [hcommit] at hkeep
    cases hkeep
  | ok batch =>
    rw [hcommit] at hkeep
    have hexec : ((replaceLetter.fn.exec letterDB replaceLetter.draw
        { sequence := (World.of letterDB "a" letterCommits).store.seq + 1 }).run
          (World.of letterDB "a" letterCommits).store).1 = .ok () := by
      decide +kernel
    obtain ⟨w, hstep⟩ := replaceLetter_step
    cases hstep with
    | commit hfresh hvalid _ =>
      exact ⟨_, batch, rfl, overlay_exact letterCommits_ordered hfresh hvalid (Prod.ext hexec rfl)
        hcommit (keepsOrder_of_keepsOrderOn hkeep)⟩

/-! ## A changed OrderBy property -/

def redateLetter : Commit where
  fn := .write (.put "Letter" "A"
    ((letter "\"T2\"" "\"5\"" "[\"out\"]").insert "id" "\"A\"")) .done
  draw := fun _ => "Z"
  now := 0

/-- The update sees that the letter left its thread; after the commit `DB` still finds the row
    that the commit did not delete.  And without ids to look for, the overlay answers for a
    type that is not registered. -/
theorem stale_row_not_overlaid :
    Relation.ReflTransGen (OrderedMoves letterDB "a") World.init
      (World.of letterDB "a" letterCommits) ∧
    ((letterDB.update "a" redateLetter).run
      (World.of letterDB "a" letterCommits).store).toOption.any (fun batch =>
        ((redateLetter.fn.exec letterDB redateLetter.draw
              { sequence := (World.of letterDB "a" letterCommits).store.seq + 1 }).run
            (World.of letterDB "a" letterCommits).store).1 = .ok () &&
          (Update.idsWhereEqual letterDB "a" "Letter" "thread" "\"T1\""
            ((redateLetter.fn.exec letterDB redateLetter.draw
              { sequence := (World.of letterDB "a" letterCommits).store.seq + 1 }).run
              (World.of letterDB "a" letterCommits).store).2).run
            (World.of letterDB "a" letterCommits).store = .ok ["B"] &&
          (letterDB.idsWhereEqual "a" "Letter" "thread" "\"T1\"" 0).run
            ((World.of letterDB "a" letterCommits).store.committed batch) = .ok ["B", "A"]) ∧
    ((Update.getMany letterDB 1 "Parcel" [] { sequence := 1 }).run
      (World.of letterDB "a" letterCommits).store).1 = .ok ∅ ∧
    (letterDB.getMany 1 "Parcel" []).run (World.of letterDB "a" letterCommits).store =
      .error .unknownType := by
  refine ⟨letterCommits_ordered, by decide +kernel, rfl, ?_⟩
  rw [run_getMany]
  simp [letterDB, letterType]

end NaustJmap.ObjectDB
