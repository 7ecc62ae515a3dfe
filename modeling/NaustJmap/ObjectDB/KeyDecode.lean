import NaustJmap.ObjectDB.KeySpace
import NaustJmap.ObjectDB.Lookup

/-!
# Reading Keys Back

`idFromObjKey` and `seqFromLogKey` look for the last segment of a key from its end.  The strings of
the source are bytes, so the keys are built here from any bytes; only ids have an alphabet.  A scan
of the change log relies on the order of its keys.
-/

namespace NaustJmap.ObjectDB

/-! ## Keys of arbitrary bytes -/

section Builders

variable (acct typeName prop : Bytes)

def objKeyOf (id : JmapId) : Bytes := key [acct, bytesOf "o", typeName, bytesOf id]

def idxKeyOf (value : Bytes) (order : List Bytes) (id : JmapId) : Bytes :=
  key ([acct, bytesOf "x", typeName, prop] ++ value :: (order ++ [bytesOf id]))

def pendingKeyOf (blobID : JmapId) : Bytes := key [acct, bytesOf "p", bytesOf blobID]

def logKeyOf (sequence : Int) : Bytes := key [acct, bytesOf "g", encodeInt64 sequence]

end Builders

/-- The keys of the store are these, for the bytes of its strings. -/
theorem keys_of_strings (acct : JmapId) (T prop : String) (value : Bytes) (order : List Bytes)
    (id : JmapId) (sequence : Int) :
    objKey acct T id = objKeyOf (bytesOf acct) (bytesOf T) id ∧
      idxKey acct T prop value order id =
        idxKeyOf (bytesOf acct) (bytesOf T) (bytesOf prop) value order id ∧
      pendingKey acct id = pendingKeyOf (bytesOf acct) id ∧
      logKey acct sequence = logKeyOf (bytesOf acct) sequence :=
  ⟨rfl, rfl, rfl, rfl⟩

/-! ## `seqFromLogKey` -/

/-- The bytes behind the last terminator, from the end of the key without its own; all of them
    if there is none. -/
def logSegment (acc : Bytes) : Bytes → Bytes
  | b1 :: b0 :: rest =>
    if b0 = 0x00 ∧ b1 = 0x01 then acc else logSegment (b1 :: acc) (b0 :: rest)
  | rest => rest ++ acc

def unescape : Bytes → Bytes
  | b :: c :: rest =>
    if b = 0x00 ∧ c = 0xFF then 0x00 :: unescape rest else b :: unescape (c :: rest)
  | rest => rest

/-- `backend.DecodeInt64`: the sign bit is flipped back. -/
def decodeInt64 (value : Bytes) : Option Int :=
  if value.length = 8 then some (value.foldl (fun n b => n * 256 + (b.toNat : Int)) 0 - 2 ^ 63)
  else none

def seqFromLogKey (k : Bytes) : Int :=
  (decodeInt64 (unescape (logSegment [] (k.take (k.length - 2)).reverse))).getD 0

theorem logSegment_cons {b : UInt8} {rest : Bytes} (hrest : rest ≠ [])
    (h : b ≠ 0x01 ∨ rest.head? ≠ some 0x00) (acc : Bytes) :
    logSegment acc (b :: rest) = logSegment (b :: acc) rest := by
  cases rest with
  | nil => exact absurd rfl hrest
  | cons c rest =>
    have hstep : ¬ (c = 0x00 ∧ b = 0x01) := by
      rintro ⟨rfl, rfl⟩
      simp at h
    simp only [logSegment, hstep, if_false]

theorem head?_escaped (raw rest : Bytes) :
    ((raw.flatMap escape).reverse ++ 0x01 :: rest).head? ≠ some 0x00 := by
  induction raw using List.reverseRecOn with
  | nil => simp
  | append_singleton raw b =>
    by_cases hb : b = 0 <;> simp [escape, hb]

/-- Bytes that look like a terminator do not stop the loop: a zero is followed by `0xFF`. -/
theorem logSegment_escaped (raw acc rest : Bytes) :
    logSegment acc ((raw.flatMap escape).reverse ++ 0x01 :: 0x00 :: rest) =
      raw.flatMap escape ++ acc := by
  induction raw using List.reverseRecOn generalizing acc with
  | nil => simp [logSegment]
  | append_singleton raw b ih =>
    have hhead := head?_escaped raw (0x00 :: rest)
    have hne : (raw.flatMap escape).reverse ++ 0x01 :: 0x00 :: rest ≠ [] := by simp
    rw [List.flatMap_append, List.reverse_append, List.append_assoc]
    by_cases hb : b = 0
    · subst hb
      show logSegment acc ([0xFF, 0x00] ++ _) = _
      rw [List.cons_append, List.singleton_append,
        logSegment_cons (List.cons_ne_nil _ _) (.inl (by decide)),
        logSegment_cons hne (.inl (by decide)), ih]
      simp [escape]
    · have hescape : [b].flatMap escape = [b] := by simp [escape, hb]
      rw [hescape, List.reverse_singleton, List.singleton_append,
        logSegment_cons hne (.inr hhead), ih, List.append_assoc, List.singleton_append]

theorem unescape_escape (b : UInt8) (rest : Bytes) :
    unescape (escape b ++ rest) = b :: unescape rest := by
  by_cases hb : b = 0
  · simp [escape, unescape, hb]
  · cases rest <;> simp [escape, unescape, hb]

theorem unescape_flatMap (raw : Bytes) : unescape (raw.flatMap escape) = raw := by
  induction raw with
  | nil => rfl
  | cons b raw ih => rw [List.flatMap_cons, unescape_escape, ih]

/-! ## Eight bytes of an integer -/

theorem length_bigEndian (width n : ℕ) : (bigEndian width n).length = width := by
  induction width with
  | zero => rfl
  | succ width ih => simp [bigEndian, ih]

theorem foldl_bigEndian (width n : ℕ) (v : Int) :
    (bigEndian width n).foldl (fun n b => n * 256 + (b.toNat : Int)) v =
      v * 256 ^ width + (n % 256 ^ width : ℕ) := by
  induction width generalizing v with
  | zero => simp [bigEndian, Nat.mod_one]
  | succ width ih =>
    have hbyte : (UInt8.ofNat (n / 256 ^ width)).toNat = n / 256 ^ width % 256 := by simp
    have hmod := Nat.mod_mul (x := n) (a := 256 ^ width) (b := 256)
    rw [bigEndian, List.foldl_cons, ih, hbyte, pow_succ, pow_succ, hmod]
    push_cast
    ring

theorem decodeInt64_encodeInt64 {v : Int} (hv : -2 ^ 63 ≤ v ∧ v < 2 ^ 63) :
    decodeInt64 (encodeInt64 v) = some v := by
  rw [decodeInt64, encodeInt64, if_pos (length_bigEndian 8 _), foldl_bigEndian]
  congr 1
  omega

theorem seqFromLogKey_logKeyOf (acct : Bytes) {sequence : Int}
    (h : -2 ^ 63 ≤ sequence ∧ sequence < 2 ^ 63) :
    seqFromLogKey (logKeyOf acct sequence) = sequence := by
  have hkey :
      logKeyOf acct sequence = (key [acct] ++ (bytesOf "g").flatMap escape ++ [0x00, 0x01] ++
      (encodeInt64 sequence).flatMap escape) ++ [0x00, 0x01] := by
    simp [logKeyOf, key, segment]
  rw [seqFromLogKey, hkey, take_terminator, List.reverse_append, List.reverse_append]
  show (decodeInt64 (unescape (logSegment [] (_ ++ 0x01 :: 0x00 :: _)))).getD 0 = _
  rw [logSegment_escaped, List.append_nil, unescape_flatMap, decodeInt64_encodeInt64 h]
  rfl

/-- **What was put into a key is read back from it**, whatever stands before it. -/
theorem keys_read_back (acct typeName prop value : Bytes) (order : List Bytes) {id : JmapId}
    (hid : ∀ c ∈ id.toList, (c.isAlphanum || c == '-' || c == '_') = true) {sequence : Int}
    (hseq : -2 ^ 63 ≤ sequence ∧ sequence < 2 ^ 63) :
    idFromObjKey (objKeyOf acct typeName id) = id ∧
      idFromObjKey (idxKeyOf acct typeName prop value order id) = id ∧
      idFromObjKey (pendingKeyOf acct id) = id ∧
      seqFromLogKey (logKeyOf acct sequence) = sequence := by
  have hzero := bytesOf_ne_zero fun c hc => isAscii_of_alphabet (hid c hc)
  have hidx : idxKeyOf acct typeName prop value order id =
      key (([acct, bytesOf "x", typeName, prop] ++ value :: order) ++ [bytesOf id]) := by
    simp [idxKeyOf]
  refine ⟨?_, ?_, ?_, seqFromLogKey_logKeyOf acct hseq⟩
  · exact @idFromObjKey_key [acct, bytesOf "o", typeName] id hzero (by simp)
  · rw [hidx, idFromObjKey_key hzero (by simp)]
  · exact @idFromObjKey_key [acct, bytesOf "p"] id hzero (by simp)

/-- An account of zeros and terminators, a value that ends in an escape, the id of no characters
    and the least sequence. -/
theorem keys_read_back_terminators :
    idFromObjKey (idxKeyOf [0, 1, 0, 255] [0, 1] [] [7, 0] [[], [0, 1]] "") = "" ∧
      seqFromLogKey (logKeyOf [0, 1, 0, 255] (-2 ^ 63)) = -2 ^ 63 := by
  have h := @keys_read_back [0, 1, 0, 255] [0, 1] [] [7, 0] [[], [0, 1]] "" (by simp) (-2 ^ 63)
    (by decide)
  exact ⟨h.2.1, h.2.2.2⟩

/-! ## Scans of the log -/

theorem bigEndian_lt_iff (width n m : ℕ) :
    bigEndian width n < bigEndian width m ↔ n % 256 ^ width < m % 256 ^ width := by
  induction width with
  | zero => simp [bigEndian, Nat.mod_one]
  | succ width ih =>
    have hn := Nat.mod_lt n (show 0 < 256 ^ width by positivity)
    have hm := Nat.mod_lt m (show 0 < 256 ^ width by positivity)
    rw [bigEndian, bigEndian, List.cons_lt_cons_iff, ih, UInt8.lt_iff_toNat_lt, ← UInt8.toNat_inj,
      UInt8.toNat_ofNat', UInt8.toNat_ofNat', show 2 ^ 8 = 256 from rfl, pow_succ 256, Nat.mod_mul,
      Nat.mod_mul]
    generalize 256 ^ width = P, n % 256 ^ width = x, m % 256 ^ width = y,
      n / 256 ^ width % 256 = a, m / 256 ^ width % 256 = b at *
    -- the leading byte decides unless it is the same
    rcases lt_trichotomy a b with h | rfl | h
    · exact iff_of_true (.inl h) (by nlinarith)
    · simp
    · exact iff_of_false (by omega) (by nlinarith)

variable {acct : JmapId} {v w : Int}

theorem encodeInt64_lt_iff (hv : -2 ^ 63 ≤ v ∧ v < 2 ^ 63) (hw : -2 ^ 63 ≤ w ∧ w < 2 ^ 63) :
    encodeInt64 v < encodeInt64 w ↔ v < w := by
  rw [encodeInt64, encodeInt64, bigEndian_lt_iff]
  omega

/-- Only the log entries of an account start like its log keys. -/
theorem StoreKey.eq_log {k : StoreKey} (hacct : acct.valid)
    (h : key [bytesOf acct, bytesOf "g"] <+: k.bytes) : ∃ n, k = .log acct n := by
  by_cases htag : k.family = .tag
  · obtain ⟨t, ht⟩ := bytes_eq_of_tag htag
    rw [ht, key_isPrefix_iff, List.cons_prefix_cons] at h
    exact absurd h.1 (bytesOf_acct_ne_tag hacct)
  · obtain ⟨rest, hrest⟩ := bytes_eq_of_family htag
    rw [hrest, key_isPrefix_iff, List.cons_prefix_cons, List.cons_prefix_cons] at h
    have hf : Family.log = k.family := Family.letter_injective (bytesOf_injective h.2.1)
    cases k with
    | log a n => exact ⟨n, bytesOf_injective h.1 ▸ rfl⟩
    | _ => cases hf

/-- **The scan of `Changes` is the log from a sequence on**: of all keys of the store its range
    holds the entries of the account from there on, and byte order is their order. -/
theorem log_scan_exact (hacct : acct.valid) (hv : -2 ^ 63 ≤ v ∧ v < 2 ^ 63) (k : StoreKey)
    (hk : ∀ n, k = .log acct n → -2 ^ 63 ≤ n ∧ n < 2 ^ 63) :
    (inRange (logKey acct v, (prefixRange [bytesOf acct, bytesOf "g"]).2) k.bytes ↔
      ∃ n, k = .log acct n ∧ v ≤ n) ∧ ∀ n, k = .log acct n → (k.bytes < logKey acct v ↔ n < v) := by
  have hlt : ∀ n, k = .log acct n → (k.bytes < logKey acct v ↔ n < v) := by
    rintro n rfl
    rw [← encodeInt64_lt_iff (hk n rfl) hv]
    exact key_append_lt_iff [bytesOf acct, bytesOf "g"] _ _ []
  refine ⟨?_, hlt⟩
  have hpre : ∀ n, key [bytesOf acct, bytesOf "g"] <+: logKey acct n :=
    fun n => key_isPrefix_iff.mpr ⟨[_], rfl⟩
  simp only [inRange, prefixRange, Bool.and_eq_true, decide_eq_true_eq,
    all_lt_prefixSuccessor_iff]
  constructor
  · rintro ⟨hge, hend⟩
    -- a key below the account's log would be below the start of the scan
    have := hend.resolve_left fun h => not_lt_of_isPrefix (hpre v) (List.lt_of_le_of_lt hge h)
    obtain ⟨n, hn⟩ := StoreKey.eq_log hacct this
    exact ⟨n, hn, not_lt.mp fun h => List.not_lt.mpr hge ((hlt n hn).mpr h)⟩
  · rintro ⟨n, hn, hle⟩
    exact ⟨List.not_lt.mp fun h => not_lt.mpr hle ((hlt n hn).mp h), .inr (hn ▸ hpre n)⟩

theorem log_scan_exact_two :
    inRange (logKey "u" 1, (prefixRange [bytesOf "u", bytesOf "g"]).2) (logKey "u" 2) := by
  refine (log_scan_exact (by decide) (by decide) (.log "u" 2) (by simp)).1.mpr ⟨2, rfl, ?_⟩
  decide

end NaustJmap.ObjectDB
