import NaustJmap.ObjectDB.History
import NaustJmap.Runtime.Method

/-!
# The Mailbox Type

`datatypes/mail/mailbox.go`: the stored descriptor of RFC 8621 section 2 and the
`updatedProperties` that `Mailbox/changes` adds to its answer (section 2.2).
-/

namespace NaustJmap.Mail

open Library ObjectDB NaustJmap.Runtime

def capabilityURI : String := "urn:ietf:params:jmap:mail"

def typeMailbox : String := "Mailbox"

def mailboxCounters : List String :=
  ["totalEmails", "unreadEmails", "totalThreads", "unreadThreads"]

def counter : Property := { kind := .unsignedInt, serverSet := true, default := some "0" }

def mailboxType : TypeDesc where
  name := typeMailbox
  capability := capabilityURI
  properties :=
    (mailboxCounters.foldl (fun m name => m.insert name counter) (∅ : Map String Property))
      |>.insert "name" { kind := .string }
      |>.insert "parentId"
        { kind := .id, nullable := true, indexed := true, default := some "null" }
      |>.insert "role"
        { kind := .string, nullable := true, indexed := true, default := some "null" }
      |>.insert "sortOrder" { kind := .unsignedInt, default := some "0" }
      |>.insert "isSubscribed" { kind := .bool, default := some "true" }

theorem mailboxType_hides (name : String) : mailboxType.hides name = false := by
  simp only [TypeDesc.hides, mailboxType, mailboxCounters, List.foldl_cons, List.foldl_nil,
    Map.getElem?_insert, counter]
  split_ifs <;> simp

/-! ## `Mailbox/changes` -/

/-- The value of `updatedProperties`, `none` for null: given if only counts were updated. -/
def mailboxChangesExtra (view : ChangeSet) : Option (List String) :=
  match view.updatedProps with
  | none => none
  | some updatedProps =>
    if view.updated = [] ∨ view.created ≠ [] ∨ view.destroyed ≠ [] then none
    -- a property that is no counter may have changed
    else if updatedProps.any (· ∉ mailboxCounters) then none
    else some (mailboxCounters.filter (· ∈ updatedProps))

def mailboxChanges (db : DB) (sinceState : Option (Option Int)) (maxChanges : Option Int) :
    ReadM MethodErr Store (ChangeSet × Option (List String)) := do
  let cs ← fooChanges db typeMailbox sinceState maxChanges
  return (cs, mailboxChangesExtra cs)

theorem mailboxChangesExtra_eq_some {view : ChangeSet} {props : List String}
    (h : mailboxChangesExtra view = some props) :
    ∃ updatedProps, view.updatedProps = some updatedProps ∧
      ∀ name ∈ updatedProps, name ∈ props := by
  unfold mailboxChangesExtra at h
  split at h
  · cases h
  · next updatedProps hprops =>
    refine ⟨updatedProps, hprops, fun name hname => ?_⟩
    split at h
    · cases h
    · split at h
      · cases h
      · next hall =>
        cases h
        simp only [List.any_eq_true, decide_eq_true_eq, not_exists, not_and, not_not] at hall
        exact List.mem_filter.mpr ⟨hall name hname, decide_eq_true hname⟩

/-! ## A database of mailboxes

Over a scanner that knows strings without escapes, decimal numbers and the two booleans. -/

def plainInt (raw : Raw) : Option Int :=
  if raw.toList ≠ [] ∧ raw.toList.all Char.isDigit then
    some (raw.toList.foldl (fun n c => 10 * n + (c.toNat - '0'.toNat)) 0)
  else none

def plainBool (raw : Raw) : Option Bool :=
  if raw = "true" then some true else if raw = "false" then some false else none

def mailScanner : Scanner :=
  { plainScanner with
    int := plainInt
    bool := plainBool
    validValue := fun raw =>
      (plainString raw).isSome || (plainInt raw).isSome || (plainBool raw).isSome || isNull raw }

def mailboxDB : DB := (DB.new mailScanner).add mailboxType (by decide +kernel)

theorem mailboxDB_types : mailboxDB.types[typeMailbox]? = some mailboxType :=
  DB.types_add

end NaustJmap.Mail
