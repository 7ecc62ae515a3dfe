import NaustJmap.ObjectDB.Keys

/-!
# The Key Space

`core/objectdb/keys.go`: the families of keys the object database writes,

- `{acct} o {type} {id}`: object records, `{acct} x …`: property index;
- `{acct} g {seq}`: change log, `{acct} f`: its floor, `{acct} q`: sequence counter;
- `{acct} s {type}`: per-type states, `{acct} u {blobId}`: blob uploads;
- `{acct} r …`: blob references, `{acct} p {blobId}`: pending-collection hints;
- `!tag {tag} {acct}`: account tags, outside every account's range.

The rest of the development keeps each family in a map of its own.  That is sound because
no key belongs to two families or to two accounts (`StoreKey.family_acct_of_bytes`).
-/

namespace NaustJmap.ObjectDB

/-! ## The key builders -/

def objKey (acct : JmapId) (typeName : String) (id : JmapId) : Bytes :=
  key [bytesOf acct, bytesOf "o", bytesOf typeName, bytesOf id]

def logKey (acct : JmapId) (sequence : Int) : Bytes :=
  key [bytesOf acct, bytesOf "g", encodeInt64 sequence]

def logFloorKey (acct : JmapId) : Bytes := key [bytesOf acct, bytesOf "f"]

def seqKey (acct : JmapId) : Bytes := key [bytesOf acct, bytesOf "q"]

def typeStateKey (acct : JmapId) (typeName : String) : Bytes :=
  key [bytesOf acct, bytesOf "s", bytesOf typeName]

def tagKey (tag : String) (acct : JmapId) : Bytes :=
  key [bytesOf "!tag", bytesOf tag, bytesOf acct]

def uploadKey (acct blobID : JmapId) : Bytes :=
  key [bytesOf acct, bytesOf "u", bytesOf blobID]

/-! ## Families -/

inductive Family where
  | record | index | log | floor | sequence | state | upload | reference | hint | tag
  deriving DecidableEq, Repr

/-- The segment after the account; the tag sets have a first segment of their own. -/
def Family.letter : Family → String
  | .record => "o"
  | .index => "x"
  | .log => "g"
  | .floor => "f"
  | .sequence => "q"
  | .state => "s"
  | .upload => "u"
  | .reference => "r"
  | .hint => "p"
  | .tag => "!tag"

/-- What one key of the store stands for. -/
inductive StoreKey where
  | record (acct : JmapId) (typeName : String) (id : JmapId)
  | index (acct : JmapId) (typeName prop : String) (value : Bytes) (order : List Bytes)
      (id : JmapId)
  | log (acct : JmapId) (sequence : Int)
  | floor (acct : JmapId)
  | sequence (acct : JmapId)
  | state (acct : JmapId) (typeName : String)
  | upload (acct blobID : JmapId)
  | reference (acct blobID : JmapId) (typeName : String) (id : JmapId)
  | hint (acct blobID : JmapId)
  | tag (tag : String) (acct : JmapId)

namespace StoreKey

def family : StoreKey → Family
  | record .. => .record
  | index .. => .index
  | log .. => .log
  | floor .. => .floor
  | sequence .. => .sequence
  | state .. => .state
  | upload .. => .upload
  | reference .. => .reference
  | hint .. => .hint
  | tag .. => .tag

def acct : StoreKey → JmapId
  | record a .. | index a .. | log a _ | floor a | sequence a | state a _ | upload a _
  | reference a .. | hint a _ | tag _ a => a

def bytes : StoreKey → Bytes
  | record a t id => objKey a t id
  | index a t prop value order id => idxKey a t prop value order id
  | log a n => logKey a n
  | floor a => logFloorKey a
  | sequence a => seqKey a
  | state a t => typeStateKey a t
  | upload a b => uploadKey a b
  | reference a b t id => refKey a b t id
  | hint a b => pendingKey a b
  | tag t a => tagKey t a

/-! ## Keys of different families -/

theorem bytes_eq_of_family {k : StoreKey} (h : k.family ≠ .tag) :
    ∃ rest, k.bytes = key (bytesOf k.acct :: bytesOf k.family.letter :: rest) := by
  cases k with
  | tag t a => exact absurd rfl h
  | _ => exact ⟨_, rfl⟩

theorem bytes_eq_of_tag {k : StoreKey} (h : k.family = .tag) :
    ∃ t, k.bytes = key [bytesOf "!tag", t, bytesOf k.acct] := by
  cases k with
  | tag t a => exact ⟨bytesOf t, rfl⟩
  | _ => simp [family] at h

/-- `!` is outside the id alphabet, so the tag sets lie in no account's range. -/
theorem bytesOf_acct_ne_tag {a : JmapId} (h : a.valid) : bytesOf a ≠ bytesOf "!tag" := by
  intro heq
  rw [bytesOf_injective heq] at h
  exact absurd h (by decide)

end StoreKey

theorem Family.letter_injective : Function.Injective Family.letter := by
  intro f g h
  cases f <;> cases g <;> first | rfl | exact absurd h (by decide)

namespace StoreKey

theorem family_acct_of_bytes {k l : StoreKey} (hk : k.acct.valid) (hl : l.acct.valid)
    (h : k.bytes = l.bytes) : k.family = l.family ∧ k.acct = l.acct := by
  by_cases hkt : k.family = .tag <;> by_cases hlt : l.family = .tag
  · obtain ⟨t, ht⟩ := bytes_eq_of_tag hkt
    obtain ⟨u, hu⟩ := bytes_eq_of_tag hlt
    rw [ht, hu] at h
    have hsegs := key_injective h
    simp only [List.cons.injEq, and_true, true_and] at hsegs
    exact ⟨hkt.trans hlt.symm, bytesOf_injective hsegs.2⟩
  · obtain ⟨t, ht⟩ := bytes_eq_of_tag hkt
    obtain ⟨rest, hr⟩ := bytes_eq_of_family hlt
    rw [ht, hr] at h
    have hhead := (List.cons.inj (key_injective h)).1
    exact absurd hhead.symm (bytesOf_acct_ne_tag hl)
  · obtain ⟨rest, hr⟩ := bytes_eq_of_family hkt
    obtain ⟨t, ht⟩ := bytes_eq_of_tag hlt
    rw [hr, ht] at h
    have hhead := (List.cons.inj (key_injective h)).1
    exact absurd hhead (bytesOf_acct_ne_tag hk)
  · obtain ⟨rest, hr⟩ := bytes_eq_of_family hkt
    obtain ⟨rest', hr'⟩ := bytes_eq_of_family hlt
    rw [hr, hr'] at h
    have hsegs := key_injective h
    simp only [List.cons.injEq] at hsegs
    exact ⟨Family.letter_injective (bytesOf_injective hsegs.2.1), bytesOf_injective hsegs.1⟩

end StoreKey

/-- The encoding is injective and keeps the order of the segment lists, a scan of a prefix
    sees the keys with that prefix and no other key, and no key of the store belongs to two
    families or to two accounts. -/
theorem key_space_separated :
    Function.Injective key ∧
    (∀ p q : List Bytes, key p < key q ↔ p < q) ∧
    (∀ segs q : List Bytes, inRange (prefixRange segs) (key q) ↔ segs <+: q) ∧
    ∀ k l : StoreKey, k.acct.valid → l.acct.valid → k.bytes = l.bytes →
      k.family = l.family ∧ k.acct = l.acct := by
  refine ⟨key_injective, fun p q => key_lt_key_iff, ?_, fun k l hk hl h =>
    StoreKey.family_acct_of_bytes hk hl h⟩
  intro segs q
  rw [mem_prefixRange_iff, key_isPrefix_iff]

/-- An account with the letter of a family for its id: the record and the log floor have
    keys of their own, and the floor is in the account's range. -/
theorem key_space_separated_floor :
    objKey "f" "f" "" ≠ logFloorKey "f" ∧
      inRange (prefixRange [bytesOf "f"]) (logFloorKey "f") := by
  have hrange := (key_space_separated.2.2.1 [bytesOf "f"] _).mpr ⟨[bytesOf "f"], rfl⟩
  refine ⟨fun h => ?_, hrange⟩
  have hsame := key_space_separated.2.2.2 (.record "f" "f" "") (.floor "f")
    (by decide) (by decide) h
  exact absurd hsame.1 (by decide)

end NaustJmap.ObjectDB
