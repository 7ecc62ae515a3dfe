import NaustJmap.Mail.Mailbox
import NaustJmap.ObjectDB.ChangedProps

/-!
# A Client That Refetches Only What Is Listed

`DB.Changes` names the properties that may have changed on the records it reports as updated, and
`Mailbox/changes` passes the names on when they are counters only.  A client that fetches just these
has every visible property right, up to the state of the answer's own page (`next_page_not_listed`).
-/

namespace NaustJmap.Mail

open Library ObjectDB NaustJmap.Runtime

def mailboxObject (id : JmapId) (totalEmails : Raw) : Object :=
  (((∅ : Object).insert "id" (quoteId id)).insert "name" "\"in\"").insert "totalEmails" totalEmails

def createMailbox : Commit where
  fn := .create typeMailbox ((mailboxObject "M" "0").erase "id") fun _ => .done (.ok ())
  draw _ := "M"
  now := 0

def countEmail : Commit where
  fn := .write (.put typeMailbox "M" (mailboxObject "M" "1")) .done
  draw _ := "Z"
  now := 0

/-- **What is not listed has not changed.**  For every state of an account, every later state
    `w2` and the state `w1` an answer given there brings its client to: the properties that
    `DB.Changes` lists include every visible one that differs between the two ends on a record
    it reports as updated, and the same goes for `Mailbox/changes`. -/
theorem unlisted_unchanged {db : DB} {acct : JmapId} {w w1 w2 : World} {acts1 acts2 : List Action}
    (hreach : Reachable db acct w) (hrun1 : Run db acct w acts1 w1)
    (hrun2 : Run db acct w1 acts2 w2) {since : ℕ} (hseq : since ≤ w.store.seq) :
    (∀ (t : TypeDesc) (limit : Int) (cs : ChangeSet) (props : List String),
      db.types[t.name]? = some t → w.store.typeState t.name ≤ since →
      (db.changes t.name (some since) limit).run w2.store = .ok cs → cs.BringsTo w1 w2 →
      cs.updatedProps = some props → ∀ id ∈ cs.updated,
        ∃ old new, w.store.objs[RecKey.mk t.name id]? = some old ∧
          w1.store.objs[RecKey.mk t.name id]? = some new ∧
          ∀ name : String, t.hides name = false → old[name]? ≠ new[name]? → name ∈ props) ∧
    (∀ (maxChanges : Option Int) (cs : ChangeSet) (props : List String),
      db.types[typeMailbox]? = some mailboxType → w.store.typeState typeMailbox ≤ since →
      (mailboxChanges db (some (some since)) maxChanges).run w2.store = .ok (cs, some props) →
      cs.BringsTo w1 w2 → ∀ id ∈ cs.updated,
        ∃ old new, w.store.objs[RecKey.mk typeMailbox id]? = some old ∧
          w1.store.objs[RecKey.mk typeMailbox id]? = some new ∧
          ∀ name : String, name ∉ props → old[name]? = new[name]?) := by
  have hlisted : ∀ (t : TypeDesc) (limit : Int) (cs : ChangeSet) (props : List String),
      db.types[t.name]? = some t → w.store.typeState t.name ≤ since →
      (db.changes t.name (some since) limit).run w2.store = .ok cs → cs.BringsTo w1 w2 →
      cs.updatedProps = some props → ∀ id ∈ cs.updated,
        ∃ old new, w.store.objs[RecKey.mk t.name id]? = some old ∧
          w1.store.objs[RecKey.mk t.name id]? = some new ∧
          ∀ name : String, t.hides name = false → old[name]? ≠ new[name]? → name ∈ props := by
    intro t limit cs props ht hstate h hend hprops id hid
    obtain ⟨hold, hnew⟩ := changes_updated_present hreach hrun1 hrun2 hstate hseq h hend hid
    obtain ⟨old, hold⟩ := Option.isSome_iff_exists.mp hold
    obtain ⟨new, hnew⟩ := Option.isSome_iff_exists.mp hnew
    refine ⟨old, new, hold, hnew, fun name hvis hne => ?_⟩
    exact changes_lists_changed hreach hrun1 hrun2 ht hseq h hend hprops hold hnew hvis hne
  refine ⟨hlisted, fun maxChanges cs props ht hstate h hend id hid => ?_⟩
  -- `Mailbox/changes` names whatever `db.changes` lists
  obtain ⟨cs', hcs, h⟩ := ReadM.run_bind_eq_ok.mp h
  obtain ⟨rfl, hextra⟩ := Prod.mk.inj (Except.ok.inj h)
  obtain ⟨limit, hcs⟩ := fooChanges_eq_ok hcs
  obtain ⟨updatedProps, hupdated, hsub⟩ := mailboxChangesExtra_eq_some hextra
  obtain ⟨old, new, hold, hnew, hall⟩ :=
    hlisted mailboxType limit cs' updatedProps ht hstate hcs hend hupdated id hid
  refine ⟨old, new, hold, hnew, fun name hname => ?_⟩
  by_contra hne
  exact hname (hsub name (hall name (mailboxType_hides name) hne))

/-- An email is counted in the only mailbox, and the client is told to fetch the count. -/
theorem unlisted_unchanged_count :
    let w := World.of mailboxDB "u" [createMailbox]
    let w' := w.commits mailboxDB "u" [countEmail]
    ∃ cs, (mailboxChanges mailboxDB (some (some 1)) none).run w'.store =
        .ok (cs, some ["totalEmails"]) ∧ cs.updated = ["M"] ∧
      ∃ old new, w.store.objs[RecKey.mk typeMailbox "M"]? = some old ∧
        w'.store.objs[RecKey.mk typeMailbox "M"]? = some new ∧
        ∀ name : String, name ∉ ["totalEmails"] → old[name]? = new[name]? := by
  obtain ⟨hreach, hrun⟩ := @Reachable.of_runsOn mailboxDB "u" [createMailbox] [countEmail]
    (by decide +kernel)
  have hval : (mailboxChanges mailboxDB (some (some 1)) none).run
      ((World.of mailboxDB "u" [createMailbox]).commits mailboxDB "u" [countEmail]).store =
      .ok (⟨2, false, [], ["M"], [], some ["totalEmails"]⟩, some ["totalEmails"]) := by
    decide +kernel
  refine ⟨_, hval, rfl, ?_⟩
  have hseq : 1 ≤ (World.of mailboxDB "u" [createMailbox]).store.seq := by decide +kernel
  exact (unlisted_unchanged hreach hrun .nil hseq).2 none _ _
    mailboxDB_types (by decide +kernel) hval rfl "M" (by simp)

/-! ## A record that changes again on the next page -/

def titleNotes : Commit where
  fn := .write (.put "Note" "A" (((∅ : Object).insert "id" "\"A\"").insert "title" "\"t\""))
    fun _ => .write (.put "Note" "B" (((∅ : Object).insert "id" "\"B\"").insert "title" "\"t\""))
      .done
  draw _ := "Z"
  now := 0

/-- The first page reports the note `A`, which got a mark no client sees, and lists no
    property; the title it got since is news of the next page. -/
theorem next_page_not_listed :
    let w := World.of noteDB "u" [createNotes ["A", "B"]]
    let commits := [putNote "A" "\"x\"" "\"m\"", putNote "A" "\"x\"" "\"n\"", titleNotes]
    let s := w.commits noteDB "u" (commits.take 1)
    let t := s.commits noteDB "u" (commits.drop 1)
    Reachable noteDB "u" s ∧ Run noteDB "u" s ((commits.drop 1).map .commit) t ∧
      (noteDB.changes "Note" (some 2) 2).run t.store = .ok ⟨3, true, [], ["A"], [], some []⟩ ∧
      noteType.hides "title" = false ∧
      (s.store.objs[RecKey.mk "Note" "A"]?).bind (·["title"]?) ≠
        (t.store.objs[RecKey.mk "Note" "A"]?).bind (·["title"]?) := by
  have hrun := @Reachable.of_runsOn noteDB "u"
    [createNotes ["A", "B"], putNote "A" "\"x\"" "\"m\""]
    [putNote "A" "\"x\"" "\"n\"", titleNotes] (by decide +kernel)
  exact ⟨hrun.1, hrun.2, by decide +kernel, by decide +kernel, by decide +kernel⟩

end NaustJmap.Mail
