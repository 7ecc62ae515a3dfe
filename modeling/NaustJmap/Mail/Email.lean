import NaustJmap.Mail.Ingest
import NaustJmap.Mail.Mailbox
import NaustJmap.Runtime.CopyChecks
import NaustJmap.Runtime.Outcomes
import NaustJmap.Runtime.PatchSpec

/-!
# The Email Type

`datatypes/mail/email.go`: the stored descriptor of RFC 8621 section 4 and the hooks of
`Email/set`.  The hooks check the two properties a client may change and keep the counters of
Threads and Mailboxes; the counter maintenance of `emailstore` is a parameter here, a program
that leaves the Email records alone.
-/

namespace NaustJmap.Mail

open Library ObjectDB NaustJmap.Runtime

/-! ## The descriptor -/

/-- What a property of the message is: immutable and set by the server. -/
def derived (kind : Kind) : Property := { kind := kind, immutable := true, serverSet := true }

def derivedList : Property := { derived .array with nullable := true }

def emailProperties : Map String Property :=
  (["messageId", "inReplyTo", "references", "sender", "from", "to", "cc", "bcc", "replyTo"].foldl
      (fun m name => m.insert name derivedList) (∅ : Map String Property))
    |>.insert "blobId" { derived .id with blobRef := true }
    |>.insert "threadId" { derived .id with indexed := true, orderBy := ["receivedAt"] }
    |>.insert "mailboxIds" { kind := .object, setIndexed := true }
    |>.insert "keywords" { kind := .object, default := some "{}", setIndexed := true }
    |>.insert "size" (derived .unsignedInt)
    |>.insert "receivedAt" { derived .date with indexed := true }
    |>.insert "subject" { derived .string with nullable := true }
    |>.insert "sentAt" { derived .date with nullable := true }
    |>.insert "hasAttachment" { derived .bool with default := some "false" }
    |>.insert "preview" { derived .string with default := some "\"\"" }
    |>.insert "threadKeys" { derived .array with setIndexed := true, internal := true }

/-- `RegisterEmail`: the properties of other packages are forced Internal. -/
def emailType (internalProperties : Map String Property) : Option TypeDesc :=
  if internalProperties.keys.any (· ∈ emailProperties) then none
  else
    some {
      name := typeEmail
      capability := capabilityURI
      properties := internalProperties.toList.foldl
        (fun m entry => m.insert entry.1 { entry.2 with internal := true }) emailProperties }

/-! ## Keywords and mailboxes -/

/-- `encoding/json` on the values of an Email. -/
structure MailJson extends Json where
  /-- `Unmarshal` into a fresh bool; `null` leaves it false. -/
  bool : Raw → Option Bool
  /-- `Unmarshal` into a map of bools. -/
  bools : Raw → Option (Map String Bool)
  /-- `Marshal` of a map of bools. -/
  encodeBools : Map String Bool → Raw

def decodeBoolMap (j : MailJson) (raw : Option Raw) : Option (Map String Bool) :=
  (raw.filter (!isNull ·)).bind j.bools

def invalidProp (name description : String) : SetError :=
  { type := .invalidProperties, properties := [name], description := description }

def maxKeywordsPerEmail : ℕ := 100

def keywordForbidden : List Char := ['(', ')', '\x7b', ']', '%', '*', '"', '\\']

def validKeyword (s : String) : Bool :=
  1 ≤ s.utf8ByteSize && s.utf8ByteSize ≤ 255 &&
    s.toList.all fun c => '\x21' ≤ c && c ≤ '\x7e' && c ∉ keywordForbidden

def lowerKeywords : List (String × Bool) → Map String Bool → Except SetError (Map String Bool)
  | [], lowered => .ok lowered
  | (kw, val) :: rest, lowered =>
    if !val then .error (invalidProp "keywords" "each value must be true")
    else if !validKeyword kw then
      .error (invalidProp "keywords" (quoteId kw ++ " is not a valid keyword"))
    else lowerKeywords rest (lowered.insert kw.toLower true)

/-- `ValidateKeywords`: the object with its keywords in lower case. -/
def validateKeywords (j : MailJson) (new : Object) : Except SetError Object :=
  match decodeBoolMap j new["keywords"]? with
  | none => .error (invalidProp "keywords" "must be an object of keyword to true")
  | some members =>
    if maxKeywordsPerEmail < members.size then
      .error { type := .extension "tooManyKeywords"
               description := "too many keywords on one Email" }
    else
      (lowerKeywords members.toList ∅).map fun lowered =>
        new.insert "keywords" (j.encodeBools lowered)

def checkMailboxes : List (String × Bool) → Callback (Except Err (Option SetError))
  | [] => pure (.ok none)
  | (id, val) :: rest =>
    if !val then pure (.ok (some (invalidProp "mailboxIds" "each value must be true")))
    else
      .get typeMailbox id fun
        | .ok _ => checkMailboxes rest
        | .error .notFound => pure (.ok (some (invalidProp "mailboxIds"
            ("Mailbox " ++ quoteId id ++ " does not exist"))))
        | .error e => pure (.error e)

def validateMailboxIds (j : MailJson) (maxMailboxes : Option ℕ) (new : Object) :
    Callback (Except Err (Option SetError)) :=
  match decodeBoolMap j new["mailboxIds"]? with
  | none => pure (.ok (some
      (invalidProp "mailboxIds" "must be an object of Mailbox id to true")))
  | some members =>
    if members.isEmpty then
      pure (.ok (some (invalidProp "mailboxIds" "an Email must be in at least one Mailbox")))
    else if maxMailboxes.any (· < members.size) then
      pure (.ok (some { type := .extension "tooManyMailboxes"
                        description := "too many Mailboxes for one Email" }))
    else checkMailboxes members.toList

/-! ## The hooks -/

/-- What `emailstore` and `record` do for the Email methods. -/
structure EmailStore where
  /-- `AdjustCounters`, from the old to the new Email. -/
  adjustCounters : Option Object → Option Object → Callback (Except Err Unit)
  /-- `removeEmailFromThread`. -/
  removeEmailFromThread : Object → Callback (Except Err Unit)
  /-- `RoleMailboxId`, empty when no Mailbox has the role. -/
  roleMailboxId : String → Callback (Except Err JmapId)

def emailValidate (j : MailJson) (es : EmailStore) (maxMailboxes : Option ℕ)
    (old : Option Object) (new : Object) : Callback (Verdict Object) :=
  validateMailboxIds j maxMailboxes new >>= fun
    | .error e => pure (.error e)
    | .ok (some serr) => pure (.ok (.error serr))
    | .ok none =>
      match validateKeywords j new with
      | .error serr => pure (.ok (.error serr))
      | .ok lowered =>
        es.adjustCounters old (some lowered) >>= fun
          | .error e => pure (.error e)
          | .ok () => pure (.ok (.ok lowered))

def emailDestroy (es : EmailStore) (id : JmapId) : Callback (Except Err (Option SetError)) :=
  .get typeEmail id fun
    | .error e => pure (.error e)
    | .ok old =>
      es.adjustCounters (some old) none >>= fun
        | .error e => pure (.error e)
        | .ok () =>
          es.removeEmailFromThread old >>= fun
            | .error e => pure (.error e)
            | .ok () => pure (.ok none)

/-- The Email type as it is registered. -/
structure EmailConfig where
  desc : TypeDesc
  json : MailJson
  store : EmailStore
  maxMailboxesPerEmail : Option ℕ
  maxObjectsInSet : ℕ
  blobExists : JmapId → Callback (Except Err Bool)
  prepareCreate : PrepareCreate

def EmailConfig.std (cfg : EmailConfig) : StdType where
  desc := cfg.desc
  hooks := {
    validate := some (emailValidate cfg.json cfg.store cfg.maxMailboxesPerEmail)
    destroy := some (emailDestroy cfg.store)
    prepareCreate := some cfg.prepareCreate }
  json := cfg.json.toJson
  blobExists := cfg.blobExists
  maxObjectsInSet := cfg.maxObjectsInSet

/-! ## The hooks leave the Email records alone -/

/-- What the Email methods are built on leaves the Email records alone; a create makes one. -/
structure EmailConfig.Quiet (env : CommitEnv) (cfg : EmailConfig) : Prop where
  name : cfg.desc.name = typeEmail
  adjustCounters : ∀ old new, Runtime.Quiet env typeEmail (cfg.store.adjustCounters old new)
  removeEmailFromThread : ∀ old, Runtime.Quiet env typeEmail (cfg.store.removeEmailFromThread old)
  roleMailboxId : ∀ role, Runtime.Quiet env typeEmail (cfg.store.roleMailboxId role)
  blobExists : ∀ id, Runtime.Quiet env typeEmail (cfg.blobExists id)
  prepareCreate : ∀ ids cid raw n commit m,
    (cfg.prepareCreate ids cid raw).runAt env.schedule n = (.ok (.ok commit), m) →
      CreatesOne env typeEmail commit

section Quiet

variable {env : CommitEnv} {α : Type}

theorem unmoved_get {γ : Type} {obs : Store → Update → γ}
    (hobs : ∀ s u u', u'.staged = u.staged → obs s u' = obs s u) (typeName : String) (id : JmapId)
    {k : Except Err Object → Callback α} (hk : ∀ r, Unmoved env obs (k r)) :
    Unmoved env obs (.get typeName id k) := by
  intro s u n hl
  obtain ⟨r, u1, n1, heq, hl1, hstaged, -⟩ := hl.run_get typeName id k
  rw [heq]
  exact (hk r s u1 n1 hl1).trans (hobs s u u1 hstaged)

theorem quiet_get (typeName typeName' : String) (id : JmapId) {k : Except Err Object → Callback α}
    (hk : ∀ r, Runtime.Quiet env typeName (k r)) :
    Runtime.Quiet env typeName (.get typeName' id k) :=
  @unmoved_get env _ _ (recordsOf typeName) (fun _ _ _ h => Leased.recordsOf_congr h) typeName' id
    _ hk

section Observed

variable {γ : Type} {obs : Store → Update → γ}
  (hobs : ∀ s u u', u'.staged = u.staged → obs s u' = obs s u)
include hobs

theorem unmoved_checkMailboxes (l : List (String × Bool)) : Unmoved env obs (checkMailboxes l) := by
  induction l with
  | nil => exact .pure _
  | cons x rest ih =>
    rw [checkMailboxes]
    split
    · exact .pure _
    refine unmoved_get hobs _ _ fun r => ?_
    split
    · exact ih
    · exact .pure _
    · exact .pure _

theorem unmoved_emailValidate {cfg : EmailConfig}
    (h : ∀ old new, Unmoved env obs (cfg.store.adjustCounters old new))
    (old : Option Object) (new : Object) :
    Unmoved env obs (emailValidate cfg.json cfg.store cfg.maxMailboxesPerEmail old new) := by
  refine .bind ?_ fun r => ?_
  · unfold validateMailboxIds
    split
    · exact .pure _
    split
    · exact .pure _
    split
    · exact .pure _
    · exact unmoved_checkMailboxes hobs _
  rcases r with e | _ | serr
  · exact .pure _
  · dsimp only
    split
    · exact .pure _
    refine .bind (h _ _) fun r => ?_
    cases r <;> exact .pure _
  · exact .pure _

end Observed

variable {cfg : EmailConfig}

theorem quiet_emailValidate (h : cfg.Quiet env) (old : Option Object) (new : Object) :
    Runtime.Quiet env typeEmail
      (emailValidate cfg.json cfg.store cfg.maxMailboxesPerEmail old new) :=
  @unmoved_emailValidate env _ (recordsOf typeEmail) (fun _ _ _ h => Leased.recordsOf_congr h) cfg
    h.adjustCounters old new

theorem quiet_emailDestroy (h : cfg.Quiet env) (id : JmapId) :
    Runtime.Quiet env typeEmail (emailDestroy cfg.store id) := by
  refine quiet_get _ _ _ fun r => ?_
  cases r with
  | error e => exact .pure _
  | ok old =>
    refine .bind (h.adjustCounters _ _) fun r => ?_
    cases r with
    | error e => exact .pure _
    | ok _ =>
      refine .bind (h.removeEmailFromThread _) fun r => ?_
      cases r <;> exact .pure _

theorem EmailConfig.Quiet.hooks (h : cfg.Quiet env) : HooksQuiet env cfg.std where
  blobExists := fun id => h.name.symm ▸ h.blobExists id
  validate := fun _ old new heq => by
    cases heq
    exact h.name.symm ▸ quiet_emailValidate h old new
  destroy := fun _ id heq => by
    cases heq
    exact h.name.symm ▸ quiet_emailDestroy h id
  prepareCreate := fun _ ids cid raw n commit m heq hrun => by
    cases heq
    exact h.name.symm ▸ h.prepareCreate ids cid raw n commit m hrun

end Quiet

/-! ## What an accepted update stores -/

section Accepted

variable {sc : Scanner} {j : Json} {t : TypeDesc} {ids : CreatedIds} {name : String}

variable {env : CommitEnv} {cfg : EmailConfig} {u u' : Update} {n n' : ℕ}

theorem run_bind_eq {α β : Type} {cb : Callback α} {f : α → Callback β} {r : β}
    (h : env.run (cb >>= f) u n = (r, u', n')) :
    ∃ x u1 n1, env.run cb u n = (x, u1, n1) ∧ env.run (f x) u1 n1 = (r, u', n') := by
  have heq : env.run (cb >>= f) u n =
      env.run (f (env.run cb u n).1) (env.run cb u n).2.1 (env.run cb u n).2.2 :=
    Callback.runAt_bind cb f u n
  exact ⟨_, _, _, rfl, heq ▸ h⟩

theorem emailValidate_ok {old : Option Object} {new obj : Object}
    (h : env.run (emailValidate cfg.json cfg.store cfg.maxMailboxesPerEmail old new) u n =
      (.ok (.ok obj), u', n')) : validateKeywords cfg.json new = .ok obj := by
  obtain ⟨r, u1, n1, -, h⟩ := run_bind_eq h
  rcases r with e | _ | serr
  · cases h
  · dsimp only at h
    split at h
    · cases h
    · rename_i lowered hlowered
      obtain ⟨r, u2, n2, -, h⟩ := run_bind_eq h
      cases r with
      | error e => cases h
      | ok _ =>
        cases h
        exact hlowered
  · cases h

theorem validateKeywords_ok {mj : MailJson} {new obj : Object}
    (h : validateKeywords mj new = .ok obj) :
    ∃ members lowered, decodeBoolMap mj new["keywords"]? = some members ∧
      lowerKeywords members.toList ∅ = .ok lowered ∧
      obj = new.insert "keywords" (mj.encodeBools lowered) := by
  unfold validateKeywords at h
  split at h
  · cases h
  rename_i members hmembers
  split at h
  · cases h
  obtain ⟨lowered, hlowered, heq⟩ := Except.map_eq_ok h
  exact ⟨members, lowered, hmembers, hlowered, heq.symm⟩

theorem admitUpdate_ok {current obj : Object} {raw : Raw} {side : Option Object}
    (h : env.run (admitUpdate env.db.scan cfg.std current raw ids) u n =
      (.ok (.ok (obj, side)), u', n')) :
    ∃ patch new, cfg.json.object raw = some patch ∧
      applyPatch env.db.scan cfg.json.toJson cfg.desc current patch ids = .ok new ∧
      validateKeywords cfg.json new = .ok obj := by
  unfold admitUpdate at h
  split at h
  · cases h
  rename_i patch hpatch
  split at h
  · cases h
  rename_i new hnew
  refine ⟨patch, new, hpatch, hnew, ?_⟩
  obtain ⟨r, u1, n1, -, h⟩ := run_bind_eq h
  cases r with
  | error e => cases h
  | ok bad =>
    dsimp only at h
    split at h
    · cases h
    obtain ⟨r, u2, n2, hrun, h⟩ := run_bind_eq h
    rcases r with e | serr | obj'
    · cases h
    · cases h
    · cases h
      exact emailValidate_ok hrun

/-! ## When an update is accepted -/

/-- What `ValidateMailboxIds` asks of an object, with the Mailboxes there are. -/
def MailboxIdsOk (j : MailJson) (maxMailboxes : Option ℕ) (mailbox : JmapId → Bool)
    (new : Object) : Prop :=
  ∃ members, decodeBoolMap j new["mailboxIds"]? = some members ∧ members.isEmpty = false ∧
    maxMailboxes.any (· < members.size) = false ∧
    ∀ id val, members[id]? = some val → val = true ∧ mailbox id = true

/-- The patch applies, and what it leaves has blobs and Mailboxes that exist and valid keywords. -/
def PatchAccepted (cfg : EmailConfig) (sc : Scanner) (blob mailbox : JmapId → Bool)
    (ids : CreatedIds) (current : Object) (raw : Raw) : Prop :=
  ∃ patch new, cfg.json.object raw = some patch ∧
    applyPatch sc cfg.json.toJson cfg.desc current patch ids = .ok new ∧
    (∀ entry ∈ cfg.desc.properties.toList, ∀ id, blobOf cfg.json.toJson new entry = some id →
      blob id = true) ∧
    MailboxIdsOk cfg.json cfg.maxMailboxesPerEmail mailbox new ∧
    (validateKeywords cfg.json new).isOk

/-- Whether a record of the type is there, as the callback sees it. -/
def presence (typeName : String) (s : Store) (u : Update) (id : JmapId) : Bool :=
  (recordsOf typeName s u id).isSome

theorem presence_congr {typeName : String} {s : Store} (h : u'.staged = u.staged) :
    presence typeName s u' = presence typeName s u := by
  funext id
  rw [presence, presence, Leased.recordsOf_congr h]

variable {s : Store}

theorem checkMailboxes_verdict (hl : Leased env s u n) {l : List (String × Bool)}
    {r : Option SetError} (h : env.run (checkMailboxes l) u n = (.ok r, u', n')) :
    r = none ↔ ∀ x ∈ l, x.2 = true ∧ presence typeMailbox s u x.1 = true := by
  induction l generalizing u n with
  | nil =>
    cases h
    simp
  | cons x rest ih =>
    obtain ⟨id, val⟩ := x
    rw [checkMailboxes] at h
    split at h
    · rename_i hval
      cases h
      simp at hval
      simp [hval]
    rename_i hval
    obtain ⟨g, u1, n1, heq, hl1, hstaged, hfound, hnone⟩ := hl.run_get typeMailbox id _
    rw [heq] at h
    split at h
    · rename_i obj
      have hhere : presence typeMailbox s u id = true := by rw [presence, hfound obj rfl]; rfl
      rw [ih hl1 h, presence_congr hstaged]
      simp only [Bool.not_eq_true', Bool.not_eq_false] at hval
      simp [hval, hhere]
    · cases h
      have hgone : presence typeMailbox s u id = false := by rw [presence, hnone rfl]; rfl
      simp [hgone]
    · cases h

theorem emailValidate_verdict (hl : Leased env s u n) {old : Option Object} {new : Object}
    {verdict : Except SetError Object}
    (h : env.run (emailValidate cfg.json cfg.store cfg.maxMailboxesPerEmail old new) u n =
      (.ok verdict, u', n')) :
    verdict.isOk ↔
      MailboxIdsOk cfg.json cfg.maxMailboxesPerEmail (presence typeMailbox s u) new ∧
        (validateKeywords cfg.json new).isOk := by
  obtain ⟨r, u1, n1, hmailboxes, h⟩ := run_bind_eq h
  -- whether the Mailboxes pass
  have hverdict : ∀ r', r = .ok r' → (r' = none ↔
      MailboxIdsOk cfg.json cfg.maxMailboxesPerEmail (presence typeMailbox s u) new) := by
    rintro r' rfl
    unfold validateMailboxIds at hmailboxes
    unfold MailboxIdsOk
    split at hmailboxes
    · rename_i hnone
      cases hmailboxes
      simp [hnone]
    rename_i members hmembers
    simp only [hmembers, Option.some.injEq, existsAndEq, true_and]
    split at hmailboxes
    · rename_i hempty
      cases hmailboxes
      simp [hempty]
    rename_i hempty
    split at hmailboxes
    · rename_i hmany
      cases hmailboxes
      simp [hmany]
    rename_i hmany
    rw [checkMailboxes_verdict hl hmailboxes]
    simp only [hempty, hmany, true_and, Prod.forall, Map.mem_toList]
  rcases r with e | _ | serr
  · cases h
  · have hok := (hverdict none rfl).mp rfl
    dsimp only at h
    split at h
    · rename_i serr hkeywords
      cases h
      simp [hkeywords, Except.isOk, Except.toBool]
    · rename_i lowered hkeywords
      obtain ⟨r, u2, n2, -, h⟩ := run_bind_eq h
      cases r <;> cases h
      simp [hok, hkeywords, Except.isOk, Except.toBool]
  · have hno := (hverdict (some serr) rfl).not.mp (by simp)
    cases h
    simp [hno, Except.isOk, Except.toBool]

def blobFound (look : Store → JmapId → Except Err Bool) (s : Store) (id : JmapId) : Bool :=
  (look s id).toOption = some true

theorem admitUpdate_verdict {look : Store → JmapId → Except Err Bool}
    (hlook : cfg.std.LooksUp look) (hl : Leased env s u n) {current : Object} {raw : Raw}
    {verdict : Except SetError (Object × Option Object)}
    (h : env.run (admitUpdate env.db.scan cfg.std current raw ids) u n = (.ok verdict, u', n')) :
    verdict.isOk ↔ PatchAccepted cfg env.db.scan (blobFound look s) (presence typeMailbox s u) ids
      current raw := by
  unfold admitUpdate at h
  unfold PatchAccepted
  split at h
  · rename_i hnone
    cases h
    change cfg.json.object raw = none at hnone
    simp [hnone, Except.isOk, Except.toBool]
  rename_i patch hpatch
  change cfg.json.object raw = some patch at hpatch
  simp only [hpatch, Option.some.injEq, existsAndEq, true_and]
  split at h
  · rename_i serr hserr
    cases h
    change applyPatch env.db.scan cfg.json.toJson cfg.desc current patch ids = _ at hserr
    simp [hserr, Except.isOk, Except.toBool]
  rename_i new hnew
  change applyPatch env.db.scan cfg.json.toJson cfg.desc current patch ids = _ at hnew
  simp only [hnew, Except.ok.injEq, existsAndEq, true_and]
  -- the blob check only reads, so the hook sees the update as it was
  obtain ⟨r, u1, n1, hblobs, h⟩ := run_bind_eq h
  have hrun := hl.runOn_eq hblobs
  obtain ⟨hsame, hfound⟩ := @checkBlobRefs_runOn env cfg.std look new u hlook s
    cfg.desc.properties.toList []
  have hl1 := (hl.run (checkBlobRefs cfg.std.json cfg.std.blobExists new
    cfg.std.desc.properties.toList [])).1
  rw [hblobs] at hl1
  change Callback.runOn _ _ _ (checkBlobRefs _ _ _ cfg.desc.properties.toList []) _ = _ at hrun
  rw [hrun] at hsame hfound
  dsimp only at hsame
  subst hsame
  have hblob : ∀ id, blobFound look s id = true ↔ look s id = .ok true := by
    intro id
    rw [blobFound]
    cases look s id <;> simp [Except.toOption]
  simp only [hblob]
  cases r with
  | error e => cases h
  | ok bad =>
    dsimp only at h
    split at h
    · rename_i hbad
      cases h
      have hno := hfound.not.mp (fun heq => hbad (Except.ok.inj heq))
      simp only [true_and] at hno
      simp only [Except.isOk, Except.toBool, Bool.false_eq_true, false_iff, not_and]
      exact fun hall => absurd hall hno
    · rename_i hbad
      have hall := (hfound.mp (by rw [not_not.mp hbad])).2
      obtain ⟨r, u2, n2, hvalidate, h⟩ := run_bind_eq h
      change env.run (emailValidate cfg.json cfg.store cfg.maxMailboxesPerEmail _ _) _ _ = _
        at hvalidate
      have hverdict : ∀ v, r = .ok v → _ := fun v hv =>
        @emailValidate_verdict env cfg u1 u2 n1 n2 s hl1 (some current) new v
          (hvalidate.trans (by rw [hv]))
      rcases r with e | serr | obj
      · cases h
      · cases h
        rw [← hverdict _ rfl]
        simp [Except.isOk, Except.toBool]
      · cases h
        rw [← hverdict _ rfl]
        simp only [Except.isOk, Except.toBool, true_iff, and_true]
        exact hall

end Accepted

/-! ## Letters

A small account with Emails, over texts that a program can read back: an object of booleans is
written as one of their texts. -/

def letterBool (v : Bool) : Raw := if v then "true" else "false"

def letterEncode (b : Map String Bool) : Raw := pairEncode (b.map fun _ v => letterBool v)

def letterDecode (raw : Raw) : Option (Map String Bool) :=
  (pairDecode raw).bind fun m =>
    if m.toList.all fun e => e.2 = "true" ∨ e.2 = "false" then some (m.map fun _ v => v = "true")
    else none

theorem letterDecode_encode (b : Map String Bool) : letterDecode (letterEncode b) = some b := by
  rw [letterDecode, letterEncode, pairDecode_encode, Option.bind_some, if_pos ?_]
  · congr 1
    refine Std.ExtTreeMap.ext_getElem? fun k => ?_
    simp only [Std.ExtTreeMap.getElem?_map]
    cases b[k]? with
    | none => rfl
    | some v => cases v <;> rfl
  · refine List.all_eq_true.mpr fun e he => ?_
    have hget := (Map.mem_toList _ _ _).mp he
    rw [Std.ExtTreeMap.getElem?_map] at hget
    obtain ⟨v, -, hv⟩ := Option.map_eq_some_iff.mp hget
    rw [← hv]
    cases v <;> decide

def letterJson (objects : List (Raw × Object)) : MailJson where
  string := plainString
  object raw := ((letterDecode raw).map fun b => b.map fun _ v => letterBool v).or
    ((objects.find? (·.1 = raw)).map Prod.snd)
  quote := quoteId
  encode m :=
    if m.toList.all fun e => e.2 = "true" ∨ e.2 = "false" then
      .ok (letterEncode (m.map fun _ v => v = "true"))
    else .error "not encoded"
  equal a b := a = b
  bool raw := if raw = "true" then some true else if raw = "false" ∨ raw = "null" then some false
    else none
  bools := letterDecode
  encodeBools := letterEncode

def lettersScanner : Scanner where
  string := plainString
  stringFolded raw := (plainString raw).map bytesOf
  validString raw := (plainString raw).isSome
  bool raw := if raw = "true" then some true else if raw = "false" then some false else none
  int _ := none
  validObject raw := (letterDecode raw).isSome
  validArray _ := false
  eachKey raw := (letterDecode raw).map (·.keys)
  eachString _ := none
  validValue raw := (plainString raw).isSome || (letterDecode raw).isSome
  parseTime s := if s = "1970-01-01T00:00:00Z" then some 0 else none

end NaustJmap.Mail
