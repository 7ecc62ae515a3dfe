import NaustJmap.ObjectDB.ChangesSpec
import NaustJmap.Runtime.Get

/-!
# What the State of `Foo/get` Covers

The state a call returns is read after the records.  A commit in between is covered by the state and
missing from the records (`stale_under_newer_state`).  The answer covers its state exactly when no
record was changed between its own read and that of the state (`get_fresh_iff`).
-/

namespace NaustJmap.Runtime

open Library ObjectDB

/-! ## Properties of a response -/

theorem getElem?_copyProps (src : Object) (names : List String) (out : Object) (name : String) :
    (copyProps src names out)[name]? =
      if name ∈ names ∧ (src[name]?).isSome then src[name]? else out[name]? := by
  induction names generalizing out with
  | nil => simp [copyProps]
  | cons n names ih =>
    rw [copyProps]
    by_cases hn : n = name
    · subst hn
      cases hv : src[n]? <;> simp [ih, hv]
    · cases hv : src[n]? with
      | none => simp [ih, Ne.symm hn]
      | some v => simp [ih, Ne.symm hn, Map.getElem?_insert, hn]

theorem getElem?_project (props : Map String Unit) (obj : Object) (name : String) :
    (project props obj)[name]? = if name ∈ props then obj[name]? else none := by
  rw [project, getElem?_copyProps]
  by_cases hname : name ∈ props
  · cases hv : obj[name]? <;> simp [hname]
  · simp [hname]

def storedNames (props : Map String Unit) (computed : List String) : Set String :=
  {name | name ∈ props ∧ name ∉ computed}

def Shows (names : Set String) (obj entry : Object) : Prop :=
  ∀ name ∈ names, entry[name]? = obj[name]?

variable {props : Map String Unit} {computed : List String} {t : TypeDesc} {ext : GetExt}
  {names : Set String} {properties : Option (List String)} {T : String} {id : JmapId}
  {σ : ℕ → Store} {ids : Option (List JmapId)} {n m : ℕ} {r r' : Option Object} {resp : GetResponse}

theorem shows_project (obj : Object) :
    Shows (storedNames props computed) obj (project props obj) := by
  intro name hname
  rw [getElem?_project, if_pos hname.1]

theorem shows_entryWith (obj resolved : Object) :
    Shows (storedNames props computed) obj (entryWith props computed obj resolved) := by
  intro name hname
  rw [entryWith, getElem?_copyProps, if_neg (fun h => hname.2 h.1)]
  exact shows_project obj name hname

theorem requestProps_visible {names computed' : List String} {props' : Map String Unit}
    (h : requestProps t ext names props computed = .ok (props', computed'))
    (hprops : ∀ name ∈ storedNames props computed, name = "id" ∨ t.hides name = false) :
    ∀ name ∈ storedNames props' computed', name = "id" ∨ t.hides name = false := by
  induction names generalizing props computed with
  | nil =>
    obtain ⟨rfl, rfl⟩ := Prod.mk.inj (Except.ok.inj h)
    exact hprops
  | cons name names ih =>
    rw [requestProps] at h
    split at h
    · next hname =>
      refine ih h fun name' hname' => ?_
      rcases (Map.mem_insert_iff ..).mp hname'.1 with hmem | rfl
      · exact hprops name' ⟨hmem, hname'.2⟩
      · rcases Bool.or_eq_true_iff.mp hname with hvis | hid
        · right
          cases hp : t.properties[name']? <;> simp_all [TypeDesc.hides]
        · exact .inl (of_decide_eq_true hid)
    · split at h
      · refine ih h fun name' hname' => ?_
        rcases (Map.mem_insert_iff ..).mp hname'.1 with hmem | rfl
        · refine hprops name' ⟨hmem, fun hc => hname'.2 ?_⟩
          split
          · exact hc
          · exact List.mem_append_left _ hc
        · by_cases hmem : name' ∈ props
          · have hnot := hname'.2
            rw [if_pos hmem] at hnot
            exact hprops name' ⟨hmem, hnot⟩
          · refine absurd ?_ hname'.2
            rw [if_neg hmem]
            simp
      · cases h

theorem visibleProps_visible {name : String} (h : name ∈ visibleProps t) :
    name = "id" ∨ t.hides name = false := by
  have hfold : ∀ (l : List (String × Property)) (props : Map String Unit),
      (∀ e ∈ l, t.properties[e.1]? = some e.2) →
      (∀ name ∈ props, name = "id" ∨ t.hides name = false) →
      ∀ name ∈ l.foldl (fun props entry =>
        if entry.2.internal then props else props.insert entry.1 ()) props,
        name = "id" ∨ t.hides name = false := by
    intro l
    induction l with
    | nil => exact fun _ _ h => h
    | cons e l ih =>
      intro props hl hprops
      refine ih _ (fun e' he' => hl e' (List.mem_cons_of_mem _ he')) fun name hname => ?_
      have he := hl e List.mem_cons_self
      dsimp only at hname
      split at hname
      · exact hprops name hname
      · next hint =>
        rcases (Map.mem_insert_iff ..).mp hname with hname | rfl
        · exact hprops name hname
        · right
          simp [TypeDesc.hides, he, hint]
  refine hfold _ _ (fun e he => (Map.mem_toList _ _ _).mp he) (fun name hname => ?_) name h
  rcases (Map.mem_insert_iff ..).mp hname with hname | rfl
  · simp at hname
  · exact .inl rfl

theorem getProps_visible (h : getProps t ext properties = .ok (props, computed)) :
    ∀ name ∈ storedNames props computed, name = "id" ∨ t.hides name = false := by
  unfold getProps at h
  split at h
  · cases h
  · split at h
    · refine requestProps_visible h fun name hname => ?_
      rcases (Map.mem_insert_iff ..).mp hname.1 with hname | rfl
      · simp at hname
      · exact .inl rfl
    · obtain ⟨rfl, rfl⟩ := Prod.mk.inj (Except.ok.inj h)
      exact fun name hname => visibleProps_visible hname.1

/-! ## Ids -/

theorem dropRepeated_spec (ids : List JmapId) {out : List JmapId} (hout : out.Nodup) :
    (dropRepeated ids out).Nodup ∧ ∀ id, id ∈ dropRepeated ids out ↔ id ∈ out ∨ id ∈ ids := by
  induction ids generalizing out with
  | nil => exact ⟨hout, by simp [dropRepeated]⟩
  | cons id ids ih =>
    rw [dropRepeated]
    by_cases hid : id ∈ out
    · rw [if_pos hid]
      obtain ⟨hnodup, hmem⟩ := ih hout
      refine ⟨hnodup, fun id' => ?_⟩
      rw [hmem, List.mem_cons]
      constructor
      · exact fun h => h.imp_right .inr
      · rintro (h | rfl | h)
        · exact .inl h
        · exact .inl hid
        · exact .inr h
    · rw [if_neg hid]
      have hnew : (out ++ [id]).Nodup := by
        rw [List.nodup_append]
        exact ⟨hout, List.nodup_singleton id, fun a ha b hb => by
          rw [List.mem_singleton.mp hb]
          rintro rfl
          exact hid ha⟩
      obtain ⟨hnodup, hmem⟩ := ih hnew
      refine ⟨hnodup, fun id' => ?_⟩
      rw [hmem, List.mem_append, List.mem_singleton, List.mem_cons, or_assoc]

theorem nodup_allIds (s : Store) (T : String) : (s.allIds T).Nodup := by
  refine List.Nodup.map_on ?_ ((Map.nodup_keys _).filter _)
  rintro ⟨T1, id1⟩ h1 ⟨T2, id2⟩ h2 rfl
  have h1 := of_decide_eq_true (List.mem_filter.mp h1).2
  have h2 := of_decide_eq_true (List.mem_filter.mp h2).2
  rw [show T1 = T from h1, show T2 = T from h2]

def Asked : Option (List JmapId) → JmapId → Prop
  | some ids, id => id ∈ ids
  | none, _ => True

def loadedIds (σ : ℕ → Store) (T : String) : Option (List JmapId) → List JmapId
  | some ids => dropRepeated ids []
  | none => (σ 0).allIds T

def loadStart : Option (List JmapId) → ℕ
  | some _ => 0
  | none => 1

theorem runAt_getIds {maxGet : ℕ} {wanted : List JmapId}
    (h : ReadM.runAt σ (getIds T maxGet ids) 0 = (.ok wanted, n)) :
    wanted = loadedIds σ T ids ∧ n = loadStart ids := by
  cases ids with
  | some ids =>
    rw [getIds, ReadM.runAt_ensure_bind_eq_ok] at h
    obtain ⟨hids, rfl⟩ := Prod.mk.inj h.2
    exact ⟨(Except.ok.inj hids).symm, rfl⟩
  | none =>
    rw [getIds, ReadM.runAt_get_bind, ReadM.runAt_ensure_bind_eq_ok] at h
    obtain ⟨hlen, h⟩ := h
    obtain ⟨hids, rfl⟩ := Prod.mk.inj h
    refine ⟨?_, rfl⟩
    rw [← Except.ok.inj hids]
    -- the limit did not cut anything off
    refine List.take_of_length_le ?_
    rw [List.length_take] at hlen
    omega

theorem nodup_loadedIds (σ : ℕ → Store) (T : String) (ids : Option (List JmapId)) :
    (loadedIds σ T ids).Nodup := by
  cases ids with
  | some ids => exact (dropRepeated_spec ids List.nodup_nil).1
  | none => exact nodup_allIds _ _

/-! ## Records -/

/-- What a call knows of a record: its version when its batch is read. -/
def loaded (σ : ℕ → Store) (batch : ℕ+) (T : String) (ids : Option (List JmapId)) (id : JmapId) :
    Option Object :=
  if id ∈ loadedIds σ T ids then
    (σ (loadStart ids + (loadedIds σ T ids).idxOf id / batch)).objs[RecKey.mk T id]?
  else none

theorem mem_zip_fetch {batch : ℕ+} :
    (id, r) ∈ (loadedIds σ T ids).zip (Reads.runAt σ
      (fetchLoop batch T (loadedIds σ T ids).length (loadedIds σ T ids)) (loadStart ids)).1 ↔
      id ∈ loadedIds σ T ids ∧ r = loaded σ batch T ids id := by
  have hnodup := nodup_loadedIds σ T ids
  have hfetch := fun i => @runAt_fetchLoop T σ batch _ _ (le_refl (loadedIds σ T ids).length)
    (loadStart ids) i
  have hloaded : ∀ i, (loadedIds σ T ids)[i]? = some id → loaded σ batch T ids id =
      (σ (loadStart ids + i / batch)).objs[RecKey.mk T id]? := by
    intro i hi
    have hmem := List.mem_of_getElem? hi
    have hidx : (loadedIds σ T ids).idxOf id = i := by
      obtain ⟨hlt, hget⟩ := List.getElem?_eq_some_iff.mp hi
      rw [← hget]
      exact hnodup.idxOf_getElem i hlt
    rw [loaded, if_pos hmem, hidx]
  rw [List.mem_iff_getElem?]
  constructor
  · rintro ⟨i, hi⟩
    rw [List.getElem?_zip_eq_some, hfetch] at hi
    obtain ⟨hi, hr⟩ := hi
    rw [hi] at hr
    exact ⟨List.mem_of_getElem? hi, (Option.some.inj hr).symm.trans (hloaded i hi).symm⟩
  · rintro ⟨hmem, rfl⟩
    obtain ⟨i, hi⟩ := List.mem_iff_getElem?.mp hmem
    refine ⟨i, ?_⟩
    rw [List.getElem?_zip_eq_some, hfetch, hi, hloaded i hi]
    exact ⟨rfl, rfl⟩

def GetResponse.Says (resp : GetResponse) (names : Set String) (id : JmapId) :
    Option Object → Prop
  | none => ∀ entry, (id, entry) ∉ resp.list
  | some obj => (∃ entry, (id, entry) ∈ resp.list) ∧
      ∀ entry, (id, entry) ∈ resp.list → Shows names obj entry

/-- Two versions of a record that look the same in a response. -/
def Agrees (names : Set String) : Option Object → Option Object → Prop
  | none, none => True
  | some a, some b => Shows names a b
  | _, _ => False

theorem GetResponse.Says.congr (h : resp.Says names id r) (hagree : Agrees names r r') :
    resp.Says names id r' := by
  cases r with
  | none =>
    cases r' with
    | none => exact h
    | some b => exact hagree.elim
  | some a =>
    cases r' with
    | none => exact hagree.elim
    | some b =>
      exact ⟨h.1, fun entry hentry name hname =>
        (h.2 entry hentry name hname).trans (hagree name hname).symm⟩

theorem GetResponse.Says.agrees (h : resp.Says names id r) (h' : resp.Says names id r') :
    Agrees names r r' := by
  cases r with
  | none =>
    cases r' with
    | none => trivial
    | some b =>
      obtain ⟨entry, hentry⟩ := h'.1
      exact h entry hentry
  | some a =>
    obtain ⟨entry, hentry⟩ := h.1
    cases r' with
    | none => exact h' entry hentry
    | some b =>
      exact fun name hname =>
        (h'.2 entry hentry name hname).symm.trans (h.2 entry hentry name hname)

theorem runAt_getEntry {obj entry : Object}
    (h : ReadM.runAt σ (getEntry ext props computed obj) n = (.ok entry, m)) :
    Shows (storedNames props computed) obj entry := by
  unfold getEntry at h
  split at h
  · obtain ⟨h, -⟩ := Prod.mk.inj h
    rw [← Except.ok.inj h]
    exact shows_project obj
  · split at h
    · obtain ⟨h, -⟩ := Prod.mk.inj h
      rw [← Except.ok.inj h]
      exact shows_project obj
    · obtain ⟨resolved, k, -, h⟩ := ReadM.runAt_bind_eq_ok.mp h
      obtain ⟨h, -⟩ := Prod.mk.inj h
      rw [← Except.ok.inj h]
      exact shows_entryWith obj resolved

/-- What the loop over the loaded records adds to the response. -/
structure LoopSpec (names : Set String) (explicitIds : Bool)
    (answers : List (JmapId × Option Object)) (resp resp' : GetResponse) : Prop where
  list : ∀ id entry, (id, entry) ∈ resp'.list → (id, entry) ∈ resp.list ∨
    ∃ obj, (id, some obj) ∈ answers ∧ Shows names obj entry
  keeps : ∀ e ∈ resp.list, e ∈ resp'.list
  listed : ∀ id obj, (id, some obj) ∈ answers → ∃ entry, (id, entry) ∈ resp'.list
  notFound : ∀ id, id ∈ resp'.notFound ↔
    id ∈ resp.notFound ∨ explicitIds = true ∧ (id, none) ∈ answers

theorem runAt_getLoop {explicitIds : Bool} {answers : List (JmapId × Option Object)}
    {resp' : GetResponse}
    (h : ReadM.runAt σ (getLoop ext props computed explicitIds answers resp) n = (.ok resp', m)) :
    LoopSpec (storedNames props computed) explicitIds answers resp resp' := by
  induction answers generalizing resp n with
  | nil =>
    cases h
    exact ⟨fun _ _ => .inl, fun _ => id, by simp, by simp⟩
  | cons answer answers ih =>
    obtain ⟨id, _ | obj⟩ := answer
    · have hrest := ih h
      refine ⟨fun id' entry hmem => ?_, fun e he => hrest.keeps e ?_, fun id' obj hmem => ?_,
        fun id' => ?_⟩
      · refine (hrest.list id' entry hmem).imp (fun h => ?_) fun ⟨obj, hobj, hshow⟩ =>
          ⟨obj, List.mem_cons_of_mem _ hobj, hshow⟩
        split at h <;> exact h
      · split <;> exact he
      · exact hrest.listed id' obj ((List.mem_cons.mp hmem).resolve_left (by simp))
      · rw [hrest.notFound]
        cases explicitIds <;> simp [or_assoc]
    · obtain ⟨entry, k, hentry, h⟩ := ReadM.runAt_bind_eq_ok.mp h
      have hshow := runAt_getEntry hentry
      have hrest := ih h
      refine ⟨fun id' entry' hmem => ?_, fun e he => hrest.keeps e (List.mem_append_left _ he),
        fun id' obj' hmem => ?_, fun id' => ?_⟩
      · rcases hrest.list id' entry' hmem with hmem | ⟨obj', hobj', hshow'⟩
        · rcases List.mem_append.mp hmem with hmem | hmem
          · exact .inl hmem
          · obtain ⟨rfl, rfl⟩ := Prod.mk.inj (List.mem_singleton.mp hmem)
            exact .inr ⟨obj, List.mem_cons_self, hshow⟩
        · exact .inr ⟨obj', List.mem_cons_of_mem _ hobj', hshow'⟩
      · rcases List.mem_cons.mp hmem with hmem | hmem
        · obtain ⟨rfl, -⟩ := Prod.mk.inj hmem
          exact ⟨entry, hrest.keeps _ (List.mem_append_right _ List.mem_cons_self)⟩
        · exact hrest.listed id' obj' hmem
      · rw [hrest.notFound]
        simp

/-! ## The whole call -/

/-- The last read is that of the state, and the response says what was loaded. -/
structure CallSpec (σ : ℕ → Store) (batch : ℕ+) (t : TypeDesc) (ids : Option (List JmapId))
    (names : Set String) (resp : GetResponse) (n : ℕ) : Prop where
  state : resp.state = (σ n).typeState t.name
  answer : ∀ id, resp.Says names id (loaded σ batch t.name ids id)
  notFound : ∀ id, id ∈ resp.notFound ↔
    ids.isSome = true ∧ id ∈ loadedIds σ t.name ids ∧ loaded σ batch t.name ids id = none

theorem runAt_fooGet {db : DB} {batch : ℕ+} {maxGet : ℕ}
    (hprops : getProps t ext properties = .ok (props, computed))
    (h : ReadM.runAt σ (fooGet db batch t ext maxGet ids properties) 0 = (.ok resp, m)) :
    ∃ n, m = n + 1 ∧ CallSpec σ batch t ids (storedNames props computed) resp n := by
  rw [fooGet, ReadM.runAt_ofExcept_bind, hprops] at h
  obtain ⟨wanted, k, hwanted, h⟩ := ReadM.runAt_bind_eq_ok.mp h
  obtain ⟨rfl, rfl⟩ := runAt_getIds hwanted
  obtain ⟨objs, k', hobjs, h⟩ := ReadM.runAt_bind_eq_ok.mp h
  have hfetch : objs = (Reads.runAt σ (fetchLoop batch t.name (loadedIds σ t.name ids).length
      (loadedIds σ t.name ids)) (loadStart ids)).1 := by
    rw [ReadM.runAt_mapError, DB.getMany] at hobjs
    split at hobjs
    · cases (Prod.mk.inj hobjs).1
    · rw [ReadM.runAt_lift] at hobjs
      exact (Except.ok.inj (Prod.mk.inj hobjs).1).symm
  subst hfetch
  obtain ⟨resp1, n, hloop, h⟩ := ReadM.runAt_bind_eq_ok.mp h
  have hspec := runAt_getLoop hloop
  obtain ⟨hresp, rfl⟩ := Prod.mk.inj h
  cases hresp
  refine ⟨n, rfl, rfl, fun id => ?_, fun id => ?_⟩
  · -- an entry comes from the one loaded version of its record
    have hentry : ∀ entry, (id, entry) ∈ resp1.list → ∃ obj,
        loaded σ batch t.name ids id = some obj ∧ Shows (storedNames props computed) obj entry := by
      intro entry hmem
      rcases hspec.list id entry hmem with hmem | ⟨obj, hobj, hshow⟩
      · cases hmem
      · exact ⟨obj, (mem_zip_fetch.mp hobj).2.symm, hshow⟩
    cases hloaded : loaded σ batch t.name ids id with
    | none =>
      intro entry hmem
      obtain ⟨obj, hobj, -⟩ := hentry entry hmem
      rw [hloaded] at hobj
      cases hobj
    | some obj =>
      have hid : id ∈ loadedIds σ t.name ids := by
        by_contra hnot
        rw [loaded, if_neg hnot] at hloaded
        cases hloaded
      refine ⟨hspec.listed id obj (mem_zip_fetch.mpr ⟨hid, hloaded.symm⟩), fun entry hmem => ?_⟩
      obtain ⟨obj', hobj', hshow⟩ := hentry entry hmem
      cases hloaded.symm.trans hobj'
      exact hshow
  · change id ∈ resp1.notFound ↔ _
    rw [hspec.notFound, mem_zip_fetch, @eq_comm _ none]
    exact or_iff_right (by simp)

section

variable {db : DB} {acct : JmapId} {σ : ℕ → World} {batch : ℕ+} {t : TypeDesc} {ext : GetExt}
  {maxGet : ℕ} {ids : Option (List JmapId)} {properties : Option (List String)}
  {props : Map String Unit} {computed : List String} {resp : GetResponse} {n : ℕ}

theorem agrees_of_sameVisible (hnames : ∀ name ∈ names, t.hides name = false) {s s' : Store}
    (hhas : s'.has t.name id = s.has t.name id)
    (hsame : ∀ old new, s.objs[RecKey.mk t.name id]? = some old →
      s'.objs[RecKey.mk t.name id]? = some new → SameVisible t old new) :
    Agrees names (s.objs[RecKey.mk t.name id]?) (s'.objs[RecKey.mk t.name id]?) := by
  unfold Store.has at hhas
  cases hold : s.objs[RecKey.mk t.name id]? with
  | none =>
    cases hnew : s'.objs[RecKey.mk t.name id]? with
    | none => trivial
    | some new => simp [hold, hnew] at hhas
  | some old =>
    cases hnew : s'.objs[RecKey.mk t.name id]? with
    | none => simp [hold, hnew] at hhas
    | some new => exact fun name hname => (hsame old new hold hnew name (hnames name hname)).symm

/-- Records look the same if the later type state is not past the earlier sequence. -/
theorem agrees_of_typeState {w w' : World} {acts : List Action}
    (hnames : ∀ name ∈ names, t.hides name = false) (ht : db.types[t.name]? = some t) (hw : w.Ok)
    (hrun : Run db acct w acts w') (hstate : w'.store.typeState t.name ≤ w.store.seq)
    (id : JmapId) :
    Agrees names (w.store.objs[RecKey.mk t.name id]?)
      (w'.store.objs[RecKey.mk t.name id]?) := by
  have hwin : WindowSpec db w w' t.name id (w.store.seq + 1) _ :=
    hrun.window hw (Nat.lt_succ_of_le (hw.typeState_le_seq _)) le_rfl
  have hnil : history t.name id (w'.untrimmed.logFrom (w.store.seq + 1)) = [] := by
    refine history_eq_nil fun e he => ?_
    by_contra hsome
    obtain ⟨te, hte⟩ := Option.ne_none_iff_exists'.mp hsome
    obtain ⟨hlog, hle⟩ := Store.mem_logFrom.mp he
    have := (hrun.ok hw).log_le_typeState hlog hte
    omega
  exact agrees_of_sameVisible hnames (hnil ▸ hwin.lifeline).eq_of_nil
    fun old new hold hnew => hwin.quiet hnil ht hold hnew

/-- **A state names the records of its type**: where it is the same at two moments of a run, so is
    every record in all that a client can see. -/
theorem same_state_same_records {w w' : World} {acts : List Action} (hreach : Reachable db acct w)
    (hrun : Run db acct w acts w') (ht : db.types[t.name]? = some t)
    (hstate : w'.store.typeState t.name = w.store.typeState t.name) (id : JmapId) :
    Agrees {name | t.hides name = false} (w.store.objs[RecKey.mk t.name id]?)
      (w'.store.objs[RecKey.mk t.name id]?) := by
  have hle := hreach.ok.typeState_le_seq t.name
  exact agrees_of_typeState (fun _ h => h) ht hreach.ok hrun (hstate.trans_le hle) id

variable (σ t ids) in
/-- Of every record the answer says what it is at some instant with all commits up to the state. -/
def Reflects (names : Set String) (resp : GetResponse) (n : ℕ) : Prop :=
  ∀ id, Asked ids id → ∃ j ≤ n, resp.state ≤ (σ j).store.seq ∧
    resp.Says names id ((σ j).store.objs[RecKey.mk t.name id]?) ∧
    (ids.isSome → (id ∈ resp.notFound ↔ (σ j).store.objs[RecKey.mk t.name id]? = none))

variable (db acct σ t ids) in
/-- A client that caches the answer and asks for changes holds every record it is not told of. -/
def CachesSafely (names : Set String) (resp : GetResponse) (n : ℕ) : Prop :=
  ∀ w, Relation.ReflTransGen (Moves db acct) (σ n) w → ∀ cs,
    (db.changes t.name (some resp.state) 0).run w.store = .ok cs → ∀ id, Asked ids id →
      id ∉ cs.ids → resp.Says names id (w.store.objs[RecKey.mk t.name id]?)

variable (σ batch t ids) in
/-- No commit between the read of a record and that of the state changes what is answered. -/
def Undisturbed (names : Set String) (n : ℕ) : Prop :=
  ∀ id, Asked ids id →
    Agrees names (loaded (fun i => (σ i).store) batch t.name ids id)
      ((σ n).store.objs[RecKey.mk t.name id]?)

theorem storedNames_visible (ht : db.types[t.name]? = some t)
    (hprops : getProps t ext properties = .ok (props, computed)) :
    ∀ name ∈ storedNames props computed, t.hides name = false := by
  intro name hname
  rcases getProps_visible hprops name hname with rfl | hvis
  · have hid := TypeDesc.validate_id (db.registered ht).2
    simp [TypeDesc.hides, hid]
  · exact hvis

section Fresh

variable (hnames : ∀ name ∈ names, t.hides name = false) (ht : db.types[t.name]? = some t)
  (hreach : Reachable db acct (σ 0)) (hσ : Interleaving (Moves db acct) σ)
  (hspec : CallSpec (fun i => (σ i).store) batch t ids names resp n)

include hnames ht hreach hσ hspec

theorem reflects_iff : Reflects σ t ids names resp n ↔ Undisturbed σ batch t ids names n := by
  have hok : ∀ i, (σ i).Ok := fun i => by
    obtain ⟨acts, hrun⟩ := Run.of_moves (hσ.reaches (Nat.zero_le i))
    exact hrun.ok hreach.ok
  constructor
  · intro h id hid
    obtain ⟨j, hj, hstate, hspoken, -⟩ := h id hid
    -- the type has not changed since instant `j`
    obtain ⟨acts, hrun⟩ := Run.of_moves (hσ.reaches hj)
    have hagree := agrees_of_typeState hnames ht (hok j) hrun (hspec.state ▸ hstate) id
    exact (hspec.answer id).agrees (hspoken.congr hagree)
  · intro h id hid
    refine ⟨n, le_rfl, hspec.state ▸ (hok n).typeState_le_seq _,
      (hspec.answer id).congr (h id hid), fun hsome => ?_⟩
    have hagree := h id hid
    obtain ⟨list, rfl⟩ := Option.isSome_iff_exists.mp hsome
    have hloaded : id ∈ loadedIds (fun i => (σ i).store) t.name (some list) :=
      ((dropRepeated_spec list List.nodup_nil).2 id).mpr (.inr hid)
    rw [hspec.notFound]
    cases hl : loaded (fun i => (σ i).store) batch t.name (some list) id <;>
      cases hr : (σ n).store.objs[RecKey.mk t.name id]? <;> simp_all [Agrees]

theorem cachesSafely_of_undisturbed (h : Undisturbed σ batch t ids names n) :
    CachesSafely db acct σ t ids names resp n := by
  intro w hmoves cs hcs id hid hnot
  have hreachn : Reachable db acct (σ n) := by
    obtain ⟨acts, hrun⟩ := Run.of_moves (hσ.reaches (Nat.zero_le n))
    exact hreach.run hrun
  obtain ⟨acts, hrun⟩ := Run.of_moves hmoves
  have hexact := changes_exact hreachn hrun ht hspec.state.ge
    (hspec.state ▸ hreachn.ok.typeState_le_seq _) (le_refl 0)
  split at hexact
  · obtain ⟨cs', hcs', hexact, -⟩ := hexact
    cases hcs.symm.trans hcs'
    simp only [ChangeSet.ids, List.mem_append, not_or] at hnot
    obtain ⟨⟨hcreated, hupdated⟩, hdestroyed⟩ := hnot
    refine ((hspec.answer id).congr (h id hid)).congr (agrees_of_sameVisible hnames ?_ ?_)
    · have hc := (hexact.created id).not.mp hcreated
      have hd := (hexact.destroyed id).not.mp hdestroyed
      cases hb : (σ n).store.has t.name id <;> cases ha : w.store.has t.name id <;> simp_all
    · intro old new hold hnew
      by_contra hvis
      exact hupdated (hexact.updated hold hnew hvis)
  · rw [hcs] at hexact
    cases hexact

end Fresh

/-- **What the state of `Foo/get` covers.**  In any interleaving of commits and trims with the
    reads of a call, the answer reflects every commit up to the state it returns, and a client
    can go on from that state with `Foo/changes`, if and only if no commit between the read of
    a record and the read of the state changes what is answered of it. -/
theorem get_fresh_iff (ht : db.types[t.name]? = some t) (hreach : Reachable db acct (σ 0))
    (hσ : Interleaving (Moves db acct) σ)
    (hprops : getProps t ext properties = .ok (props, computed))
    (hcall : ReadM.runAt (fun i => (σ i).store) (fooGet db batch t ext maxGet ids properties) 0 =
      (.ok resp, n + 1)) :
    (Reflects σ t ids (storedNames props computed) resp n ∧
      CachesSafely db acct σ t ids (storedNames props computed) resp n) ↔
      Undisturbed σ batch t ids (storedNames props computed) n := by
  obtain ⟨n', hn, hspec⟩ := runAt_fooGet hprops hcall
  obtain rfl : n = n' := Nat.succ.inj hn
  have hnames := storedNames_visible ht hprops
  rw [reflects_iff hnames ht hreach hσ hspec]
  exact and_iff_left_of_imp (cachesSafely_of_undisturbed hnames ht hreach hσ hspec)

end

/-! ## A note that is retitled during the call -/

def retitledWorld : World := noteWorld.commits noteDB "u" [putNote "A" "\"new\"" "\"m\""]

theorem retitledWorld_moves :
    Reachable noteDB "u" noteWorld ∧
      Relation.ReflTransGen (Moves noteDB "u") noteWorld retitledWorld := by
  obtain ⟨hreach, hrun⟩ := @Reachable.of_runsOn noteDB "u" [createNotes ["A"]]
    [putNote "A" "\"new\"" "\"m\""] (by decide +kernel)
  exact ⟨hreach, hrun.moves⟩

/-- Where a call ends and what it answers, as far as it can be compared. -/
def getOutcome (σ : ℕ → World) : Option (ℕ × List (JmapId × Option Raw)) × ℕ :=
  let r := ReadM.runAt (fun i => (σ i).store)
    (fooGet noteDB 1 noteType {} 10 (some ["A"]) none) 0
  (r.1.toOption.map fun resp =>
    (resp.state, resp.list.map fun e => (e.1, e.2[("title" : String)]?)), r.2)

theorem getOutcome_eq {σ : ℕ → World} {state n : ℕ} {list : List (JmapId × Option Raw)}
    (h : getOutcome σ = (some (state, list), n)) :
    ∃ resp, ReadM.runAt (fun i => (σ i).store)
        (fooGet noteDB 1 noteType {} 10 (some ["A"]) none) 0 = (.ok resp, n) ∧
      resp.state = state ∧ resp.list.map (fun e => (e.1, e.2[("title" : String)]?)) = list := by
  obtain ⟨hresp, hn⟩ := Prod.mk.inj h
  cases hr : ReadM.runAt (fun i => (σ i).store)
      (fooGet noteDB 1 noteType {} 10 (some ["A"]) none) 0 with
  | mk r m =>
    rw [hr] at hresp hn
    cases r with
    | error e => cases hresp
    | ok resp =>
      obtain ⟨hstate, hlist⟩ := Prod.mk.inj (Option.some.inj hresp)
      exact ⟨resp, by rw [← hn], hstate, hlist⟩

def markedWorld : World := noteWorld.commits noteDB "u" [markNote "A" "\"x\""]

/-- A bookkeeping commit comes after the read of the note; it changes nothing that is answered. -/
theorem get_fresh_iff_quiet : ∃ resp,
    ReadM.runAt (fun i => (switchAt 1 noteWorld markedWorld i).store)
      (fooGet noteDB 1 noteType {} 10 (some ["A"]) none) 0 = (.ok resp, 2) ∧
    Reflects (switchAt 1 noteWorld markedWorld) noteType (some ["A"])
      (storedNames (visibleProps noteType) []) resp 1 ∧
    CachesSafely noteDB "u" (switchAt 1 noteWorld markedWorld) noteType (some ["A"])
      (storedNames (visibleProps noteType) []) resp 1 := by
  obtain ⟨resp, hcall, -⟩ := @getOutcome_eq (switchAt 1 noteWorld markedWorld) 1 2 [("A", none)]
    (by decide +kernel)
  obtain ⟨hreach, hrun⟩ := @Reachable.of_runsOn noteDB "u" [createNotes ["A"]]
    [markNote "A" "\"x\""] (by decide +kernel)
  refine ⟨resp, hcall, (get_fresh_iff noteDB_types hreach (.switchAt 1 hrun.moves) rfl
    hcall).mpr fun id hid => ?_⟩
  obtain rfl := List.mem_singleton.mp hid
  have hprops : getProps noteType {} none = .ok (visibleProps noteType, []) := rfl
  exact agrees_of_typeState (storedNames_visible noteDB_types hprops) noteDB_types hreach.ok hrun
    (by decide +kernel) "A"

/-- The note is retitled after its read and before that of the state: the answer has the old
    title and the new state, from which `Foo/changes` reports nothing. -/
theorem stale_under_newer_state :
    Reachable noteDB "u" noteWorld ∧
    Interleaving (Moves noteDB "u") (switchAt 1 noteWorld retitledWorld) ∧
    ∃ resp, ReadM.runAt (fun i => (switchAt 1 noteWorld retitledWorld i).store)
        (fooGet noteDB 1 noteType {} 10 (some ["A"]) none) 0 = (.ok resp, 2) ∧
      resp.state = 2 ∧ resp.list.map (fun e => (e.1, e.2[("title" : String)]?)) = [("A", none)] ∧
      ¬ CachesSafely noteDB "u" (switchAt 1 noteWorld retitledWorld) noteType (some ["A"])
        (storedNames (visibleProps noteType) []) resp 1 := by
  obtain ⟨hreach, hmoves⟩ := retitledWorld_moves
  obtain ⟨resp, hcall, hstate, hlist⟩ := @getOutcome_eq (switchAt 1 noteWorld retitledWorld) 2 2
    [("A", none)] (by decide +kernel)
  refine ⟨hreach, .switchAt 1 hmoves, resp, hcall, hstate, hlist, fun hsafe => ?_⟩
  have hchanges : (noteDB.changes "Note" (some ((2 : ℕ) : Int)) 0).run retitledWorld.store =
      .ok ⟨2, false, [], [], [], some []⟩ := by
    decide +kernel
  have hspoken := hsafe retitledWorld .refl _ (hstate ▸ hchanges) "A" (List.mem_singleton_self _)
    (by simp [ChangeSet.ids])
  have htitle : (retitledWorld.store.objs[RecKey.mk "Note" "A"]?).map
      (·[("title" : String)]?) = some (some "\"new\"") := by
    decide +kernel
  obtain ⟨obj, hobj, htitle⟩ := Option.map_eq_some_iff.mp htitle
  rw [show noteType.name = "Note" from rfl, hobj] at hspoken
  obtain ⟨⟨entry, hentry⟩, hshow⟩ := hspoken
  have hold : entry[("title" : String)]? = none := by
    have := List.mem_map_of_mem (f := fun e : JmapId × Object =>
      (e.1, e.2[("title" : String)]?)) hentry
    rw [hlist] at this
    exact (Prod.mk.inj (List.mem_singleton.mp this)).2
  have hname : "title" ∈ storedNames (visibleProps noteType) [] :=
    ⟨by decide +kernel, by simp⟩
  have := hshow entry hentry "title" hname
  rw [hold, htitle] at this
  cases this

/-- A bookkeeping commit rewrites the note and leaves the state of its type. -/
theorem same_state_same_records_mark :
    Agrees {name | noteType.hides name = false} (noteWorld.store.objs[RecKey.mk "Note" "A"]?)
      (markedWorld.store.objs[RecKey.mk "Note" "A"]?) := by
  obtain ⟨hreach, hrun⟩ := @Reachable.of_runsOn noteDB "u" [createNotes ["A"]]
    [markNote "A" "\"x\""] (by decide +kernel)
  exact same_state_same_records hreach hrun noteDB_types (by decide +kernel) "A"

end NaustJmap.Runtime
