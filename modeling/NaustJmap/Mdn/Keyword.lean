import NaustJmap.Mdn.Once

/-!
# The Keyword of a Sent Notification

`MDN/send` insists that the `onSuccessUpdateEmail` patch of an entry sets `$mdnsent` (RFC 9007
section 2.1).  It looks at the patch before it sends, and the implicit `Email/set` applies it after:
a patch that is accepted does set the keyword, but not every patch that passes the look is.
-/

namespace NaustJmap.Mdn

open Library ObjectDB NaustJmap.Runtime Mail

/-! ## What a patch does to the keywords -/

/-- What the handlers rely on in `encoding/json`, for objects of booleans. -/
structure LawfulJson (j : MailJson) : Prop where
  /-- `null` leaves a bool false. -/
  bool_null : ∀ {raw : Raw}, isNull raw = true → j.bool raw ≠ some true
  /-- `null` leaves a map without members. -/
  object_null : ∀ {raw : Raw} {m : Object} {k : String}, isNull raw = true →
    j.object raw = some m → m[k]? = none
  /-- What is encoded decodes, and `true` stays true. -/
  object_encode : ∀ {m : Object} {raw : Raw}, j.encode m = .ok raw →
    ∃ m', j.object raw = some m' ∧ ∀ (k : String) (v : Raw), m[k]? = some v →
      j.bool v = some true → ∃ v', m'[k]? = some v' ∧ j.bool v' = some true
  /-- The two decodings of an object agree on what is true. -/
  bools_object : ∀ {raw : Raw} {m : Object} {b : Map String Bool}, j.object raw = some m →
    j.bools raw = some b → ∀ {k : String} {v : Raw}, m[k]? = some v → j.bool v = some true →
      b[k]? = some true
  bools_encodeBools : ∀ b, j.bools (j.encodeBools b) = some b

/-- The value is an object with the keyword. -/
def SetsKeyword (j : MailJson) (raw : Raw) (k : String) : Prop :=
  ∃ m v, j.object raw = some m ∧ m[k]? = some v ∧ j.bool v = some true

def HasKeyword (j : MailJson) (obj : Object) (k : String) : Prop :=
  ∃ raw, obj["keywords"]? = some raw ∧ SetsKeyword j raw k

/-- The entry sets the keyword, in a whole replacement or as a member. -/
def EntrySets (j : MailJson) (k : String) (e : PatchEntry) : Prop :=
  (e.segments = ["keywords"] ∧ SetsKeyword j e.value k) ∨
    (e.segments = ["keywords", k] ∧ j.bool e.value = some true)

def EntrySpares (k : String) (e : PatchEntry) : Prop :=
  e.segments ≠ ["keywords"] ∧ e.segments ≠ ["keywords", k]

section Paths

theorem replacePair_eq_self {a b c : Char} {l : List Char} (h : c ∉ replacePair a b c l) :
    replacePair a b c l = l := by
  fun_induction replacePair a b c l with
  | case1 x y rest heq ih => exact absurd List.mem_cons_self h
  | case2 x y rest hne ih => rw [ih (fun hc => h (List.mem_cons_of_mem _ hc))]
  | case3 l => rfl

theorem unescape_inj {seg : List Char} {s : String} (hslash : '/' ∉ s.toList)
    (htilde : '~' ∉ s.toList)
    (h : String.ofList (replacePair '~' '0' '~' (replacePair '~' '1' '/' seg)) = s) :
    seg = s.toList := by
  have hlist := (String.toList_ofList).symm.trans (congrArg String.toList h)
  have houter := replacePair_eq_self (hlist ▸ htilde)
  have hinner := houter.symm.trans hlist
  exact (replacePair_eq_self (hinner ▸ hslash)).symm.trans hinner

theorem pathSegments_inj {path : String} {segs : List String}
    (hslash : ∀ s ∈ segs, '/' ∉ s.toList) (htilde : ∀ s ∈ segs, '~' ∉ s.toList)
    (h : pathSegments path = segs) :
    path = String.ofList (List.intercalate ['/'] (segs.map String.toList)) := by
  have hparts : ∀ (parts : List (List Char)) (segs : List String),
      (∀ s ∈ segs, '/' ∉ s.toList) → (∀ s ∈ segs, '~' ∉ s.toList) →
      parts.map (fun seg => String.ofList (replacePair '~' '0' '~' (replacePair '~' '1' '/' seg))) =
        segs → parts = segs.map String.toList := by
    intro parts
    induction parts with
    | nil =>
      rintro _ - - rfl
      rfl
    | cons seg rest ih =>
      rintro _ hslash htilde rfl
      rw [List.map_cons, List.forall_mem_cons] at hslash htilde
      rw [List.map_cons, List.map_cons, ← unescape_inj hslash.1 htilde.1 rfl,
        ← ih _ hslash.2 htilde.2 rfl]
  rw [← hparts _ _ hslash htilde h, List.intercalate_splitOn, String.ofList_toList]

end Paths

variable {raw : Raw} {patch : Option Raw} {env : CommitEnv} {st : SendState}
  {look : Store → JmapId → Except Err Bool}

section Patch

variable {sc : Scanner} {j : MailJson} {t : TypeDesc} {ids : CreatedIds} {k : String}
  {e : PatchEntry} {obj obj' : Object} {invalid invalid' : List String}

section Sets

variable (hj : LawfulJson j)

include hj

theorem SetsKeyword.not_null (h : SetsKeyword j raw k) : isNull raw = false := by
  obtain ⟨m, v, hm, hv, -⟩ := h
  cases hnull : isNull raw with
  | false => rfl
  | true =>
    rw [hj.object_null hnull hm] at hv
    cases hv

theorem SetsKeyword.of_encode {m : Object} {v : Raw} (hraw : j.encode m = .ok raw)
    (hv : m[k]? = some v) (htrue : j.bool v = some true) : SetsKeyword j raw k := by
  obtain ⟨m', hm', hkeep⟩ := hj.object_encode hraw
  obtain ⟨v', hv', htrue'⟩ := hkeep k v hv htrue
  exact ⟨m', v', hm', hv', htrue'⟩

theorem patchMember_sets (hsets : EntrySets j k e ∨ (EntrySpares k e ∧ HasKeyword j obj k))
    (h : patchMember j.toJson t e "keywords" obj = .ok obj')
    (hsegs : e.segments.head? = some "keywords") : HasKeyword j obj' k := by
  unfold patchMember at h
  split at h
  rotate_left
  · cases h
  rename_i x key p hkey hp
  split at h
  · cases h
  split at h
  · cases h
  rename_i members hmembers
  dsimp only at h
  split at h
  · cases h
  rename_i raw hraw
  cases h
  obtain rfl : x = "keywords" := by simpa [hkey] using hsegs
  refine ⟨raw, Std.ExtTreeMap.getElem?_insert_self, ?_⟩
  rcases hsets with hsets | ⟨hspares, kept, hkept, m, v, hm, hv, htrue⟩
  · -- the member itself
    rcases hsets with ⟨hwhole, -⟩ | ⟨hmember, htrue⟩
    · simp [hkey] at hwhole
    · obtain rfl : key = k := by simpa [hkey] using hmember
      have hnull : isNull e.value = false := by
        cases hnull : isNull e.value with
        | false => rfl
        | true => exact absurd htrue (hj.bool_null hnull)
      rw [hnull] at hraw
      exact .of_encode hj hraw Std.ExtTreeMap.getElem?_insert_self htrue
  · have hne : key ≠ k := fun heq => hspares.2 (by rw [hkey, heq])
    have hkeptNull : isNull kept = false := SetsKeyword.not_null hj ⟨m, v, hm, hv, htrue⟩
    have hold : members[k]? = some v := by
      rw [hkept, Option.filter_some, if_pos (by rw [hkeptNull]; rfl)] at hmembers
      rw [Option.some.inj (hmembers.symm.trans hm)]
      exact hv
    refine .of_encode hj hraw ?_ htrue
    split
    · rw [Map.getElem?_erase, if_neg hne, hold]
    · rw [Map.getElem?_insert, if_neg hne, hold]

variable (hkind : ∀ p, t.properties["keywords"]? = some p → p.kind = .object)

include hkind

theorem patchProperty_sets (hsets : SetsKeyword j e.value k)
    (h : patchProperty sc j.toJson t ids e "keywords" obj = some obj') : HasKeyword j obj' k := by
  unfold patchProperty at h
  rw [if_neg (by decide)] at h
  split at h
  · cases h
  rename_i p hp
  split at h
  · cases h
  rw [if_neg (by rw [hsets.not_null hj]; decide), if_neg (by rw [hkind p hp]; decide)] at h
  dsimp only at h
  split at h
  · cases h
    exact ⟨e.value, Std.ExtTreeMap.getElem?_insert_self, hsets⟩
  · cases h

theorem patchLoop_sets {entries : List PatchEntry}
    (hentries : ∀ e ∈ entries, EntrySets j k e ∨ EntrySpares k e)
    (hsets : HasKeyword j obj k ∨ ∃ e ∈ entries, EntrySets j k e)
    (h : patchLoop sc j.toJson t ids entries obj [] = .ok (obj', [])) : HasKeyword j obj' k := by
  induction entries generalizing obj with
  | nil =>
    cases h
    rcases hsets with hhas | ⟨e, he, -⟩
    · exact hhas
    · cases he
  | cons e rest ih =>
    obtain ⟨hentry, hrest⟩ := List.forall_mem_cons.mp hentries
    -- it is set by this entry, or was there, or is set by a later one
    have hcases : (EntrySets j k e ∨ (EntrySpares k e ∧ HasKeyword j obj k)) ∨
        (EntrySpares k e ∧ ∃ e' ∈ rest, EntrySets j k e') := by
      rcases hentry with hentry | hentry
      · exact .inl (.inl hentry)
      · rcases hsets with hhas | ⟨e', he', hsets⟩
        · exact .inl (.inr ⟨hentry, hhas⟩)
        · rcases List.mem_cons.mp he' with rfl | he'
          · exact .inl (.inl hsets)
          · exact .inr ⟨hentry, e', he', hsets⟩
    rw [patchLoop] at h
    split at h
    · rename_i name hname
      split at h
      · exact absurd (patchLoop_invalid h) (by simp)
      · rename_i obj1 hobj1
        refine ih hrest ?_ h
        by_cases hkw : name = "keywords"
        · subst hkw
          rcases hentry with (⟨-, hvalue⟩ | ⟨hmember, -⟩) | hspares
          · exact .inl (patchProperty_sets hj hkind hvalue hobj1)
          · simp [hname] at hmember
          · exact absurd hname hspares.1
        · have hsame : obj1["keywords"]? = obj["keywords"]? :=
            patchProperty_other hkw hobj1
          rcases hcases with (hset | ⟨-, raw, hraw, hset⟩) | ⟨-, hlater⟩
          · rcases hset with ⟨hwhole, -⟩ | ⟨hmember, -⟩
            · exact absurd (by simpa [hname] using hwhole) hkw
            · simp [hname] at hmember
          · exact .inl ⟨raw, hsame.trans hraw, hset⟩
          · exact .inr hlater
    · rename_i segments hsegs
      split at h
      · cases h
      · rename_i obj1 hobj1
        refine ih hrest ?_ h
        by_cases hkw : e.segments.headD "" = "keywords"
        · rw [hkw] at hobj1
          have hhead : e.segments.head? = some "keywords" := by
            cases hs : e.segments with
            | nil => simp [hs] at hkw
            | cons a l => simpa [hs] using hkw
          rcases hcases with hcases | ⟨-, hlater⟩
          · exact .inl (patchMember_sets hj hcases hobj1 hhead)
          · exact .inr hlater
        · have hsame : obj1["keywords"]? = obj["keywords"]? := patchMember_other hkw hobj1
          rcases hcases with (hset | ⟨-, raw, hraw, hset⟩) | ⟨-, hlater⟩
          · rcases hset with ⟨hwhole, -⟩ | ⟨hmember, -⟩
            · exact absurd (by rw [hwhole]; rfl) hkw
            · exact absurd (by rw [hmember]; rfl) hkw
          · exact .inl ⟨raw, hsame.trans hraw, hset⟩
          · exact .inr hlater

theorem applyPatch_sets {patch current new : Object}
    (hlook : patchSetsMdnSent j (some raw) = true) (hobject : j.object raw = some patch)
    (h : applyPatch sc j.toJson t current patch ids = .ok new) : HasKeyword j new mdnSent := by
  unfold applyPatch at h
  split at h
  · cases h
  rename_i hoverlap
  split at h
  · cases h
  rename_i obj invalid hloop
  dsimp only at h
  split at h
  rotate_left
  · cases h
  rename_i hnone
  cases h
  rw [(List.append_eq_nil_iff.mp hnone).1] at hloop
  have hmemberPath : pathSegments ("keywords/" ++ mdnSent) = ["keywords", mdnSent] := by
    decide +kernel
  have hwholePath : pathSegments "keywords" = ["keywords"] := by decide +kernel
  -- the segments of a path to the keyword determine it
  have hmember : ∀ e ∈ patchEntries patch, e.segments = ["keywords", mdnSent] →
      patch[("keywords/" ++ mdnSent : String)]? = some e.value := by
    intro e he hsegs
    obtain ⟨hvalue, hpath⟩ := mem_patchEntries.mp he
    have := pathSegments_inj (by decide) (by decide) (hpath.symm.trans hsegs)
    rw [← hvalue, this]
    congr 1
  have hwhole : ∀ e ∈ patchEntries patch, e.segments = ["keywords"] →
      patch["keywords"]? = some e.value := by
    intro e he hsegs
    obtain ⟨hvalue, hpath⟩ := mem_patchEntries.mp he
    have := pathSegments_inj (by decide) (by decide) (hpath.symm.trans hsegs)
    rw [← hvalue, this]
    congr 1
  rw [patchSetsMdnSent, Option.bind_some, hobject] at hlook
  rw [Bool.or_eq_true, decide_eq_true_iff, decide_eq_true_iff] at hlook
  rcases hlook with hlook | hlook
  · -- a pointer to the member: nothing replaces the keywords as a whole
    obtain ⟨v, hv, htrue⟩ := Option.bind_eq_some_iff.mp hlook
    have hentry : (⟨"keywords/" ++ mdnSent, ["keywords", mdnSent], v⟩ : PatchEntry) ∈
        patchEntries patch := mem_patchEntries.mpr ⟨hv, hmemberPath.symm⟩
    refine patchLoop_sets hj hkind (fun e he => ?_) (.inr ⟨_, hentry, .inr ⟨rfl, htrue⟩⟩) hloop
    by_cases hsegs : e.segments = ["keywords", mdnSent]
    · cases hv.symm.trans (hmember e he hsegs)
      exact .inl (.inr ⟨hsegs, htrue⟩)
    · refine .inr ⟨fun heq => ?_, hsegs⟩
      exact not_overlap hoverlap hentry he Nat.one_pos (by simp) heq
  · -- a whole replacement: nothing points into the keywords
    obtain ⟨m, hm, hlook⟩ := Option.bind_eq_some_iff.mp hlook
    obtain ⟨kw, hkw, hm⟩ := Option.bind_eq_some_iff.mp hm
    obtain ⟨v, hv, htrue⟩ := Option.bind_eq_some_iff.mp hlook
    have hentry : (⟨"keywords", ["keywords"], kw⟩ : PatchEntry) ∈ patchEntries patch :=
      mem_patchEntries.mpr ⟨hkw, hwholePath.symm⟩
    have hsets : SetsKeyword j kw mdnSent := ⟨m, v, hm, hv, htrue⟩
    refine patchLoop_sets hj hkind (fun e he => ?_) (.inr ⟨_, hentry, .inl ⟨rfl, hsets⟩⟩) hloop
    by_cases hsegs : e.segments = ["keywords"]
    · cases hkw.symm.trans (hwhole e he hsegs)
      exact .inl (.inl ⟨hsegs, hsets⟩)
    · refine .inr ⟨hsegs, fun heq => ?_⟩
      refine not_overlap hoverlap he hentry Nat.one_pos (by rw [heq]; decide) ?_
      rw [heq]
      rfl

end Sets

theorem lowerKeywords_mem {l : List (String × Bool)} {lowered lowered' : Map String Bool}
    (h : lowerKeywords l lowered = .ok lowered') {kw : String}
    (hkw : lowered[kw]? = some true ∨ ∃ x ∈ l, x.1.toLower = kw) : lowered'[kw]? = some true := by
  induction l generalizing lowered with
  | nil =>
    cases h
    rcases hkw with hkw | ⟨x, hx, -⟩
    · exact hkw
    · cases hx
  | cons x rest ih =>
    rw [lowerKeywords] at h
    split at h
    · cases h
    split at h
    · cases h
    apply ih h
    rw [Map.getElem?_insert]
    rcases hkw with hkw | ⟨x, hx, rfl⟩
    · left
      split
      · rfl
      · exact hkw
    · rcases List.mem_cons.mp hx with rfl | hx
      · exact .inl (if_pos rfl)
      · exact .inr ⟨x, hx, rfl⟩

theorem recHasKeyword_of_validated (hj : LawfulJson j) {new stored : Object}
    (hlower : k.toLower = k) (h : HasKeyword j new k)
    (hvalid : validateKeywords j new = .ok stored) :
    recHasKeyword j stored k = true := by
  obtain ⟨raw, hraw, m, v, hm, hv, htrue⟩ := h
  obtain ⟨members, lowered, hmembers, hlowered, rfl⟩ := validateKeywords_ok hvalid
  obtain ⟨raw', hraw', hbools⟩ := Option.bind_eq_some_iff.mp hmembers
  obtain rfl : raw' = raw := by
    rw [hraw] at hraw'
    exact (Option.some.inj (Option.eq_some_of_filter_eq_some hraw')).symm
  have hmem : (k, true) ∈ members.toList :=
    (Map.mem_toList _ _ _).mpr (hj.bools_object hm hbools hv htrue)
  have hstored := lowerKeywords_mem hlowered (.inr ⟨(k, true), hmem, hlower⟩)
  simp [recHasKeyword, hj.bools_encodeBools, hstored]

end Patch

/-! ## A call -/

structure SendEntry where
  cid : JmapId
  raw : Raw
  patch : Option Raw

def entriesOf (send onSuccess : Map JmapId Raw) : List SendEntry :=
  send.toList.map fun entry => ⟨entry.1, entry.2, onSuccess[("#" ++ entry.1 : String)]?⟩

/-- What `sendOne` answered for the entries. -/
abbrev SendResults := List (SendEntry × Except SetError (Object × JmapId))

def SendState.entries (st : SendState) (results : SendResults) : SendState :=
  results.foldl (fun st x => st.entry x.1.cid x.1.patch x.2) st

/-- The entries of a call are sent from `s` to `t`; commits between them leave the Email `e` alone.
    -/
inductive Sends (cfg : SendConfig) (call : SendCall) (e : JmapId) :
    Store → List SendEntry → SendResults → Store → Prop where
  | done (s : Store) : Sends cfg call e s [] [] s
  | other {s s' t : Store} {entries : List SendEntry} {results : SendResults}
      (hsame : emails s' e = emails s e) (hrest : Sends cfg call e s' entries results t) :
      Sends cfg call e s entries results t
  | entry {s t : Store} {env : CommitEnv} {x : SendEntry} {entries : List SendEntry}
      {results : SendResults}
      (hworks : Works cfg env (Account.start s)
        ((preflight env.db cfg call x.raw x.patch).runAt env.schedule 0).2)
      (hplain : ∀ id, (emails s id).isSome → creationRef id = none)
      (hrest : Sends cfg call e (applyBatch (sendOne cfg env call x.raw x.patch).2 s) entries
        results t) :
      Sends cfg call e s (x :: entries) ((x, (sendOne cfg env call x.raw x.patch).1) :: results) t

section Call

variable {cfg : SendConfig} {call : SendCall} {ids : CreatedIds} {e : JmapId} {s t : Store}
  {entries : List SendEntry} {results : SendResults}

theorem sendOne_patch {sent : Object × JmapId} (h : (sendOne cfg env call raw patch).1 = .ok sent) :
    patchSetsMdnSent cfg.email.json patch = true := by
  unfold sendOne at h
  split at h
  · cases h
  · cases h
  · rename_i hpre
    exact (preflight_ok hpre).1

theorem patch_of_look {j : MailJson} (h : patchSetsMdnSent j patch = true) :
    ∃ raw, patch = some raw ∧ patchSetsMdnSent j (some raw) = true := by
  cases patch with
  | none => cases h
  | some raw => exact ⟨raw, rfl, h⟩

theorem Sends.marked (h : Sends cfg call e s entries results t) {rec : Object}
    (hrec : emails s e = some rec) (hmark : recHasIssuedMDN rec = true) :
    emails t e = some rec ∧ ∀ x ∈ results, ∀ echo, x.2 ≠ .ok (echo, e) := by
  induction h with
  | done s => exact ⟨hrec, fun x hx => absurd hx List.not_mem_nil⟩
  | other hsame _ ih => exact ih (hsame.trans hrec)
  | @entry s t env x entries results hworks _ _ ih =>
    -- an entry that is sent is for another Email
    have hother : ∀ sent, (sendOne cfg env call x.raw x.patch).1 = .ok sent → sent.2 ≠ e ∧
        emails (applyBatch (sendOne cfg env call x.raw x.patch).2 s) e = some rec := by
      rintro ⟨echo, emailId⟩ hsent
      obtain ⟨⟨found, stamp, hfound, hclean, -, -⟩, i, hnew, hothers⟩ := sendOne_ok hworks hsent
      have hne : e ≠ emailId := by
        rintro rfl
        cases hrec.symm.trans hfound
        rw [hmark] at hclean
        cases hclean
      have hne' : e ≠ env.draw i := by
        rintro rfl
        rw [show emails s (env.draw i) = none from hnew] at hrec
        cases hrec
      exact ⟨hne.symm, (hothers e hne hne').trans hrec⟩
    have hkept : emails (applyBatch (sendOne cfg env call x.raw x.patch).2 s) e = some rec := by
      cases hr : (sendOne cfg env call x.raw x.patch).1 with
      | error serr =>
        rw [sendOne_error hr]
        exact hrec
      | ok sent => exact (hother sent hr).2
    obtain ⟨hend, hrest⟩ := ih hkept
    refine ⟨hend, List.forall_mem_cons.mpr ⟨fun echo hsent => ?_, hrest⟩⟩
    exact (hother _ hsent).1 rfl

theorem Sends.sent (h : Sends cfg call e s entries results t) :
    ∀ x ∈ results, ∀ echo emailId, x.2 = .ok (echo, emailId) → creationRef emailId = none ∧
      ∃ patch, x.1.patch = some patch ∧ patchSetsMdnSent cfg.email.json (some patch) = true := by
  induction h with
  | done s => exact fun x hx => absurd hx List.not_mem_nil
  | other _ _ ih => exact ih
  | @entry s t env x entries results hworks hplain _ ih =>
    refine List.forall_mem_cons.mpr ⟨fun echo emailId hsent => ?_, ih⟩
    obtain ⟨⟨rec, stamp, hrec, -⟩, -⟩ := sendOne_ok hworks hsent
    refine ⟨hplain emailId ?_, ?_⟩
    · rw [show emails s emailId = some rec from hrec]
      rfl
    · exact patch_of_look (sendOne_patch hsent)

theorem SendState.entries_updates (h : ∀ x ∈ results, ∀ echo, x.2 ≠ .ok (echo, e)) :
    (st.entries results).updates[e]? = st.updates[e]? := by
  induction results generalizing st with
  | nil => rfl
  | cons x rest ih =>
    obtain ⟨hx, hrest⟩ := List.forall_mem_cons.mp h
    obtain ⟨entry, serr | ⟨echo, emailId⟩⟩ := x
    · exact ih hrest
    · refine (ih hrest).trans ?_
      have hne : emailId ≠ e := fun heq => hx echo (by rw [heq])
      change (entry.patch.elim st.updates (st.updates.insert emailId))[e]? = _
      cases entry.patch with
      | none => rfl
      | some patch => exact (Map.getElem?_insert _ _ _ _).trans (if_neg hne)

theorem SendState.mem_entries_updates {id : JmapId} (h : id ∈ (st.entries results).updates) :
    id ∈ st.updates ∨ ∃ x ∈ results, ∃ echo, x.2 = .ok (echo, id) := by
  by_cases hsent : ∃ x ∈ results, ∃ echo, x.2 = .ok (echo, id)
  · exact .inr hsent
  · left
    rw [Std.ExtTreeMap.mem_iff_isSome_getElem?] at h ⊢
    rwa [SendState.entries_updates fun x hx echo heq => hsent ⟨x, hx, echo, heq⟩] at h

/-- An Email a notification was sent for has the mark and not the keyword, and its patch waits. -/
theorem Sends.pending (h : Sends cfg call e s entries results t) {x : SendEntry} {echo : Object}
    (hx : (x, .ok (echo, e)) ∈ results) (st : SendState) :
    (∃ rec, emails t e = some rec ∧ recHasKeyword cfg.email.json rec mdnSent = false) ∧
      ∃ patch, x.patch = some patch ∧ patchSetsMdnSent cfg.email.json (some patch) = true ∧
        (st.entries results).updates[e]? = some patch := by
  induction h generalizing st with
  | done s => exact absurd hx List.not_mem_nil
  | other _ _ ih => exact ih hx st
  | @entry s t env y entries results hworks hplain hrest ih =>
    rcases List.mem_cons.mp hx with heq | hlater
    · -- this entry; after it the Email is marked
      obtain ⟨rfl, hsent⟩ := Prod.mk.inj heq
      obtain ⟨⟨rec, stamp, hrec, -, hclean, hafter⟩, -⟩ := sendOne_ok hworks hsent.symm
      obtain ⟨hend, hnone⟩ := hrest.marked hafter (recHasIssuedMDN_insert rec stamp)
      refine ⟨⟨_, hend, ?_⟩, ?_⟩
      · rw [← hclean, recHasKeyword, recHasKeyword, Map.getElem?_insert, if_neg (by decide)]
      · obtain ⟨patch, hpatch, hlook⟩ := patch_of_look (sendOne_patch hsent.symm)
        refine ⟨patch, hpatch, hlook, (SendState.entries_updates hnone).trans ?_⟩
        dsimp only
        rw [← hsent, hpatch]
        exact Std.ExtTreeMap.getElem?_insert_self
    · exact ih hlater _

theorem emailType_keywords {internal : Map String Property} {desc : TypeDesc}
    (h : emailType internal = some desc) {p : Property}
    (hp : desc.properties["keywords"]? = some p) : p.kind = .object := by
  unfold emailType at h
  split at h
  · cases h
  rename_i hfree
  cases h
  have hnone : internal["keywords"]? = none := by
    refine Std.ExtTreeMap.getElem?_eq_none fun hmem => hfree ?_
    exact List.any_eq_true.mpr ⟨_, Std.ExtTreeMap.mem_keys.mpr hmem, by decide +kernel⟩
  have hfold := Map.get_foldl_toList (fun (m : Map String Property) a => m[a]?)
    (g := fun (v : Property) _ => some { v with internal := true })
    (fun m x a => Map.getElem?_insert m x.1 a _) internal emailProperties "keywords"
  have hkeywords : (emailProperties["keywords"]?).any (·.kind = .object) = true := by decide +kernel
  have hdeclared : emailProperties["keywords"]? = some p := by
    rw [hnone] at hfold
    exact hfold.symm.trans hp
  rw [hdeclared] at hkeywords
  simpa using hkeywords

theorem unmoved_blobExists {γ : Type} {obs : Store → Update → γ} {st : StdType}
    (hlook : st.LooksUp look) (id : JmapId) : Unmoved env obs (st.blobExists id) := by
  intro s u n _
  rw [hlook id]
  rfl

/-- What an implicit `Email/set` leaves of one Email: the verdict on its patch decides. -/
theorem implicitSet_verdict {w : Store} {resp : SetResponse} (hlook : cfg.email.std.LooksUp look)
    (hworks : Works cfg env (Account.start w)
      ((prepareSet cfg.email.std (implicitSet st) ids).runAt env.schedule 0).2)
    (hcounters : ∀ old new,
      Unmoved env (presence typeMailbox) (cfg.email.store.adjustCounters old new))
    (hplain : ∀ id ∈ st.updates, creationRef id = none) {patch : Raw} {rec : Object}
    (hpatch : st.updates[e]? = some patch) (hrec : emails w e = some rec)
    (hresp : (fooSet env cfg.email.std (implicitSet st) ids).1 = .ok resp) :
    ∃ u n verdict r, env.run (admitUpdate env.db.scan cfg.email.std rec patch ids) u n =
        (.ok verdict, r) ∧
      (verdict.isOk ↔ PatchAccepted cfg.email env.db.scan (blobFound look w)
        (fun id => w.objs[RecKey.mk typeMailbox id]?.isSome) ids rec patch) ∧
      emails (applyBatch (fooSetWrites env cfg.email.std (implicitSet st) ids) w) e =
        some (match verdict with
          | .ok (obj, _) => obj
          | .error _ => rec) := by
  obtain ⟨prepared, n0, ⟨c1, u1, n1⟩, ⟨c2, u2, n2⟩, ⟨u, n⟩, newState, hprepared, hexec1, hexec2,
    hexec3, hcallback, hcommit, -⟩ := fooSet_stages hresp
  have hname : cfg.email.std.desc.name = typeEmail := hworks.quiet.email.name
  have hheld := hworks.held
  rw [hprepared] at hheld
  -- nothing is created
  have hnone : prepared = [] := by
    change (prepareAll cfg.email.prepareCreate ids (∅ : Map JmapId Raw).toList).runAt
      env.schedule 0 = _ at hprepared
    cases hprepared
    rfl
  subst hnone
  cases hexec1
  -- and nothing is destroyed
  change ((Except.ok (), c2), u2, n2) = _ at hexec3
  obtain ⟨rfl, rfl, rfl⟩ := hexec3
  have hl1 : Leased env w { sequence := (env.schedule n0).seq + 1 } (n0 + 2) :=
    leased_opened (fun m hm => hheld m (by omega)) hworks.unused
  have hargs : ∀ x ∈ (implicitSet st).update.toList, (implicitSet st).update[x.1]? = some x.2 :=
    fun x hx => (Map.mem_toList _ x.1 x.2).mp hx
  have hobs : ∀ (s : Store) (u u' : Update),
      (∀ k : RecKey, k.typeName ≠ cfg.email.std.desc.name → u'.view s k = u.view s k) →
      presence typeMailbox s u' = presence typeMailbox s u := by
    intro s u u' hviews
    funext id
    have hne : typeMailbox ≠ typeEmail := by decide
    rw [presence, presence, recordsOf, recordsOf, hviews _ (hname ▸ hne)]
  have hstart : recordsOf cfg.email.std.desc.name w { sequence := (env.schedule n0).seq + 1 } e =
      some rec := by
    rw [hname]
    simpa [recordsOf, Update.view, emails] using hrec
  obtain ⟨u3, n3, verdict, r, hl3, hpresence, hrun, hafter⟩ := processUpdates_verdict
    hworks.quiet.email.hooks hl1 hobs (fun id => unmoved_blobExists hlook id)
    (fun _ old new heq => by
      cases heq
      exact @unmoved_emailValidate env _ (presence typeMailbox) (fun _ _ _ h => presence_congr h)
        cfg.email hcounters old new)
    hargs (Map.nodup_toList_keys st.updates)
    (fun x hx => hplain x.1 (Std.ExtTreeMap.mem_iff_isSome_getElem?.mpr (by
      rw [show st.updates[x.1]? = some x.2 from hargs x hx]; rfl)))
    ((Map.mem_toList st.updates e patch).mpr hpatch) hstart hexec2
  refine ⟨u3, n3, verdict, r, hrun, ?_, ?_⟩
  · have hpresent : presence typeMailbox w u3 =
        fun id => w.objs[RecKey.mk typeMailbox id]?.isSome := by
      rw [hpresence]
      funext id
      simp [presence, recordsOf, Update.view]
    rw [← hpresent]
    exact admitUpdate_verdict hlook hl3 hrun
  · obtain ⟨_, -, -, hmoved⟩ := processUpdates_turns hworks.quiet.email.hooks hl1 hargs hexec2
    rw [emails, fooSetWrites_of_ok hresp hprepared hcallback,
      writes_objs hmoved.leased hcommit ⟨typeEmail, e⟩]
    rw [hname] at hafter
    refine Eq.trans hafter ?_
    cases verdict <;> rfl

/-- **The keyword of a sent notification.**  After a call and its implicit `Email/set`, with no
    other change to the Email, the Email has `$mdnsent` exactly if `Email/set` accepts the patch
    of the entry for the Email as the call leaves it. -/
theorem mdnsent_set_iff {internal : Map String Property}
    (hdesc : emailType internal = some cfg.email.desc) (hj : LawfulJson cfg.email.json)
    {look : Store → JmapId → Except Err Bool} (hlook : cfg.email.std.LooksUp look)
    {send onSuccess : Map JmapId Raw} {w : Store}
    (hsends : Sends cfg call e s (entriesOf send onSuccess) results w)
    {x : SendEntry} {echo : Object} (hx : (x, .ok (echo, e)) ∈ results)
    {env : CommitEnv} {resp : SetResponse}
    (hworks : Works cfg env (Account.start w)
      ((prepareSet cfg.email.std (implicitSet (SendState.entries {} results)) ids).runAt
        env.schedule 0).2)
    (hcounters : ∀ old new,
      Unmoved env (presence typeMailbox) (cfg.email.store.adjustCounters old new))
    (hresp : (fooSet env cfg.email.std (implicitSet (SendState.entries {} results)) ids).1 =
      .ok resp) :
    ∃ patch rec, x.patch = some patch ∧ emails w e = some rec ∧
      ((emails (applyBatch (fooSetWrites env cfg.email.std
          (implicitSet (SendState.entries {} results)) ids) w) e).any
          (recHasKeyword cfg.email.json · mdnSent) = true ↔
        PatchAccepted cfg.email env.db.scan (blobFound look w)
          (fun id => w.objs[RecKey.mk typeMailbox id]?.isSome) ids rec patch) := by
  obtain ⟨⟨rec, hrec, hclean⟩, patch, hpatch, hlookPatch, hupdate⟩ := hsends.pending hx {}
  have hplain : ∀ id ∈ (SendState.entries {} results).updates, creationRef id = none := by
    intro id hid
    rcases SendState.mem_entries_updates hid with hempty | ⟨y, hy, echo', hsent⟩
    · exact absurd hempty Std.ExtTreeMap.not_mem_empty
    · exact (hsends.sent y hy echo' id hsent).1
  obtain ⟨u, n, verdict, ⟨u', n'⟩, hrun, hverdict, hafter⟩ :=
    implicitSet_verdict hlook hworks hcounters hplain hupdate hrec hresp
  refine ⟨patch, rec, hpatch, hrec, ?_⟩
  rw [hafter, ← hverdict]
  cases verdict with
  | error serr =>
    -- a rejected patch leaves the Email without the keyword
    simp [hclean, Except.isOk, Except.toBool]
  | ok r =>
    obtain ⟨patch', new, hobject, hnew, hvalid⟩ := admitUpdate_ok hrun
    have hhas : HasKeyword cfg.email.json new mdnSent :=
      applyPatch_sets hj (fun p hp => emailType_keywords hdesc hp) hlookPatch hobject hnew
    have hstored := recHasKeyword_of_validated hj (by decide +kernel) hhas hvalid
    simp [hstored, Except.isOk, Except.toBool]

end Call

/-! ## A patch that is not accepted -/

theorem letterDecode_null {b : Map String Bool} (h : letterDecode raw = some b) :
    isNull raw = false := by
  obtain ⟨m, hm, -⟩ := Option.bind_eq_some_iff.mp h
  exact isNull_of_pairDecode hm

theorem letterJson_lawful {objects : List (Raw × Object)}
    (hobjects : ∀ x ∈ objects, isNull x.1 = false) : LawfulJson (letterJson objects) where
  bool_null := by
    intro raw hnull htrue
    have hraw : raw = "true" := by
      simp only [letterJson] at htrue
      split at htrue
      · assumption
      · split at htrue <;> cases htrue
    subst hraw
    exact absurd hnull (by decide +kernel)
  object_null := by
    intro raw m k hnull hm
    simp only [letterJson] at hm
    cases hdecode : letterDecode raw with
    | some b =>
      rw [letterDecode_null hdecode] at hnull
      cases hnull
    | none =>
      rw [hdecode] at hm
      change Option.map _ _ = _ at hm
      obtain ⟨x, hx, -⟩ := Option.map_eq_some_iff.mp hm
      have hkey := List.find?_some hx
      rw [decide_eq_true_iff] at hkey
      rw [← hkey, hobjects x (List.mem_of_find?_eq_some hx)] at hnull
      cases hnull
  object_encode := by
    intro m raw hraw
    simp only [letterJson] at hraw ⊢
    split at hraw
    · cases hraw
      refine ⟨_, by rw [letterDecode_encode]; rfl, fun k v hv htrue => ⟨"true", ?_, rfl⟩⟩
      have hv' : v = "true" := by
        split at htrue
        · assumption
        · split at htrue <;> cases htrue
      simp [hv, hv', letterBool]
    · cases hraw
  bools_object := by
    intro raw m b hm hb k v hv htrue
    simp only [letterJson] at hm hb htrue
    rw [hb] at hm
    cases hm
    simp only [Std.ExtTreeMap.getElem?_map, Option.map_eq_some_iff] at hv
    obtain ⟨val, hval, rfl⟩ := hv
    rw [hval]
    cases val
    · exact absurd htrue (by decide)
    · rfl
  bools_encodeBools := letterDecode_encode

def greedyPatches : List (Raw × Object) :=
  [("mdn", (∅ : Object).insert "forEmailId" "\"E\""),
    ("patch", (∅ : Object).insert "keywords/$mdnsent" "true"),
    ("greedy", ((∅ : Object).insert "keywords/$mdnsent" "true").insert "subject" "\"x\"")]

def greedySend : SendConfig :=
  { letterSend with
    email := { letterEmail greedyPatches with
      blobExists := fun _ => .read fun _ => .done (.ok true) } }

theorem greedySend_looksUp : greedySend.email.std.LooksUp fun _ _ => .ok true := fun _ => rfl

def sentWith (patch : Raw) : Except SetError (Object × JmapId) × List BatchOp :=
  sendOne greedySend (letterEnv letterStore 'n') {} "mdn" (some patch)

def afterEntry (patch : Raw) : Store := applyBatch (sentWith patch).2 letterStore

def resultsWith (patch : Raw) : SendResults := [(⟨"c", "mdn", some patch⟩, (sentWith patch).1)]

/-- The implicit `Email/set` draws ids of its own. -/
def implicitEnv (patch : Raw) : CommitEnv := letterEnv (afterEntry patch) 'm'

def afterCall (patch : Raw) : Store :=
  applyBatch (fooSetWrites (implicitEnv patch) greedySend.email.std
    (implicitSet (SendState.entries {} (resultsWith patch))) ∅) (afterEntry patch)

/-- The Emails a notification was sent for, and whether Email `E` has the keyword. -/
def sentAndKeyword (patch : Raw) : List JmapId × Bool :=
  (sentFor (sentWith patch).1,
    (emails (afterCall patch) "E").any (recHasKeyword greedySend.email.json · mdnSent))

theorem greedySend_desc : emailType emailInternalProperties = some greedySend.email.desc :=
  (Option.some_get (by decide +kernel)).symm

theorem greedySend_quiet (env : CommitEnv) : greedySend.Quiet env :=
  ⟨{ (letterSend_quiet env).email with
      blobExists := unmoved_blobExists greedySend_looksUp },
    (letterSend_quiet env).threads⟩

theorem implicitEnv_works (n : ℕ) :
    Works greedySend (implicitEnv "patch") (Account.start (afterEntry "patch")) n := by
  have hm : lacks (afterEntry "patch") 'm' = true := by decide +kernel
  exact letterEnv_works (w := Account.start (afterEntry "patch")) (greedySend_quiet _) hm
    (unseen_of_lacks hm) n

theorem greedySend_sends : Sends greedySend {} "E" letterStore
    (entriesOf ((∅ : Map JmapId Raw).insert "c" "mdn") ((∅ : Map JmapId Raw).insert "#c" "patch"))
    (resultsWith "patch") (afterEntry "patch") := by
  have hn : lacks letterStore 'n' = true := by decide +kernel
  refine .entry (letterEnv_works (w := Account.start letterStore) (greedySend_quiet _) hn
    (unseen_of_lacks hn) _) (fun id hid => ?_) (.done _)
  have hkeys : letterStore.objs.keys.all (fun k => creationRef k.id = none) = true := by
    decide +kernel
  have hmem : (⟨typeEmail, id⟩ : RecKey) ∈ letterStore.objs :=
    Std.ExtTreeMap.mem_iff_isSome_getElem?.mpr hid
  simpa using List.all_eq_true.mp hkeys _ (Std.ExtTreeMap.mem_keys.mpr hmem)

/-- A patch that is accepted: the notification is sent and the Email has the keyword. -/
theorem mdnsent_set_iff_letter : sentAndKeyword "patch" = (["E"], true) ∧
    ∃ rec, emails (afterEntry "patch") "E" = some rec ∧
      PatchAccepted greedySend.email lettersScanner (fun _ => true)
        (fun id => (afterEntry "patch").objs[RecKey.mk typeMailbox id]?.isSome) ∅ rec "patch" := by
  have hvalue : sentAndKeyword "patch" = (["E"], true) := by decide +kernel
  refine ⟨hvalue, ?_⟩
  have hok : (fooSet (implicitEnv "patch") greedySend.email.std
      (implicitSet (SendState.entries {} (resultsWith "patch"))) ∅).1.isOk = true := by
    decide +kernel
  have hsent : ∃ echo, (sentWith "patch").1 = .ok (echo, "E") := by
    have hfor : sentFor (sentWith "patch").1 = ["E"] := (Prod.mk.inj hvalue).1
    cases hr : (sentWith "patch").1 with
    | error e => simp [hr, sentFor] at hfor
    | ok sent =>
      rw [hr] at hfor
      exact ⟨sent.1, by rw [← List.singleton_injective hfor]⟩
  obtain ⟨echo, hsent⟩ := hsent
  have hentry : ((⟨"c", "mdn", some "patch"⟩, (sentWith "patch").1) :
      SendEntry × Except SetError (Object × JmapId)) =
        (⟨"c", "mdn", some "patch"⟩, .ok (echo, "E")) :=
    by rw [hsent]
  cases hresp : (fooSet (implicitEnv "patch") greedySend.email.std
      (implicitSet (SendState.entries {} (resultsWith "patch"))) ∅).1 with
  | error e =>
    rw [hresp] at hok
    cases hok
  | ok resp =>
    obtain ⟨patch, rec, hpatch, hrec, hiff⟩ := mdnsent_set_iff
      greedySend_desc (letterJson_lawful (by decide +kernel)) greedySend_looksUp
      greedySend_sends (List.mem_singleton.mpr hentry.symm) (implicitEnv_works _)
      (fun _ _ => .pure _) hresp
    cases hpatch
    exact ⟨rec, hrec, hiff.mp (Prod.mk.inj hvalue).2⟩

/-- The notification is sent, and its Email never gets the keyword. -/
theorem mdnsent_missing : sentAndKeyword "greedy" = (["E"], false) := by decide +kernel

end NaustJmap.Mdn
