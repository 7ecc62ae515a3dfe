import NaustJmap.Library.MapRange
import NaustJmap.Runtime.Patch

/-!
# Result References

`core/runtime/backref.go`: every argument whose name starts with `#` is replaced by the part of an
earlier response that it points to (RFC 8620 section 3.7), in one loop over the arguments, from
which it deletes the reference and to which it adds the value.  The loop may produce the names it
adds, so that what becomes of a `##` name, and which of two errors is answered, is up to the order
of the map.
-/

namespace NaustJmap.Runtime

open Library ObjectDB

/-! ## The reference -/

/-- `jmap.Invocation`: a response. -/
structure Invocation where
  name : String
  args : Raw
  callId : String

/-- `ResultReference` of RFC 8620, section 3.7. -/
structure ResultReference where
  resultOf : String
  name : String
  path : String

/-- `encoding/json` on arrays and references. -/
structure RefJson extends Json where
  /-- `Unmarshal` into a list of raw values. -/
  array : Raw → Option (List Raw)
  /-- `Marshal` of a list of raw values. -/
  encodeArray : List Raw → Except String Raw
  /-- `Unmarshal` into a `ResultReference`. -/
  reference : Raw → Option ResultReference

/-- The first character that is not white space. -/
def firstJSONByte (raw : Raw) : Option Char :=
  raw.toList.find? (· ∉ [' ', '\t', '\n', '\r'])

/-- The number that digits alone spell. -/
def digitsValue (l : List Char) : Option ℕ :=
  if l ≠ [] ∧ l.all Char.isDigit then some (l.foldl (fun n c => 10 * n + (c.toNat - '0'.toNat)) 0)
  else none

/-- `strconv.Atoi`: a sign, digits, and the range of `int`. -/
def atoi (s : String) : Option Int :=
  (match s.toList with
    | '-' :: rest => (digitsValue rest).map fun n => -(n : Int)
    | '+' :: rest => (digitsValue rest).map fun n => (n : Int)
    | l => (digitsValue l).map fun n => (n : Int)).filter fun n => -2 ^ 63 ≤ n ∧ n < 2 ^ 63

section Pointer

variable (j : RefJson)

/-- The loop over an array for `*`: arrays among the results are flattened. -/
def mapLoop (eval : Raw → Except String Raw) : List Raw → List Raw → Except String (List Raw)
  | [], results => .ok results
  | item :: rest, results => do
    let r ← eval item
    if firstJSONByte r = some '[' then
      match j.array r with
      | none => .error "malformed array"
      | some inner => mapLoop eval rest (results ++ inner)
    else mapLoop eval rest (results ++ [r])

/-- `evalTokens`, with `mapArray` for the token `*`. -/
def evalTokens : List String → Raw → Except String Raw
  | [], doc => .ok doc
  | token :: rest, doc =>
    match firstJSONByte doc with
    | some '\x7b' =>
      match j.object doc with
      | none => .error "malformed object"
      | some obj =>
        match obj[token]? with
        | none => .error ("no member " ++ quoteId token)
        | some child => evalTokens rest child
    | some '[' =>
      match j.array doc with
      | none => .error "malformed array"
      | some arr =>
        if token = "*" then (mapLoop j (evalTokens rest) arr []).bind j.encodeArray
        else
          match ((atoi token).filter (0 ≤ ·)).bind fun idx => arr[idx.toNat]? with
          | none => .error ("bad array index " ++ quoteId token)
          | some item => evalTokens rest item
    | _ => .error ("cannot descend into scalar with token " ++ quoteId token)

/-- A pointer is empty or begins with a slash. -/
def evalPointer (doc : Raw) (path : String) : Except String Raw :=
  match path.toList with
  | [] => .ok doc
  | '/' :: rest => evalTokens j (pathSegments (String.ofList rest)) doc
  | _ => .error ("pointer " ++ quoteId path ++ " does not start with /")

/-- `resolveReference`: the first response with the call id decides. -/
def resolveReference (ref : ResultReference) (prior : List Invocation) : Except String Raw :=
  match prior.find? (·.callId = ref.resultOf) with
  | none => .error ("no response with call id " ++ quoteId ref.resultOf)
  | some resp =>
    if resp.name ≠ ref.name then
      .error ("response name " ++ quoteId resp.name ++ " does not match reference name "
        ++ quoteId ref.name)
    else evalPointer j resp.args ref.path

/-- The value a reference stands for, or the error of the whole method call. -/
def resolveValue (prior : List Invocation) (raw : Raw) : Except MethodErr Raw :=
  match j.reference raw with
  | none => .error (.invalidResultReference "malformed ResultReference")
  | some ref =>
    match resolveReference j ref prior with
    | .error text => .error (.invalidResultReference text)
    | .ok value => .ok value

end Pointer

/-! ## The loop -/

/-- The name of the argument that a reference stands for. -/
def referenced (key : String) : Option String :=
  match key.toList with
  | '#' :: rest => some (String.ofList rest)
  | _ => none

/-- The arguments as the loop has them, and whether it changed them. -/
structure BackrefState where
  args : Object
  changed : Bool := false

section Loop

variable (j : RefJson) (prior : List Invocation) (m : Object)

/-- One turn of the loop over the arguments. -/
def backrefRound (s : BackrefState) (key : String) (raw : Raw) : Except MethodErr BackrefState :=
  match referenced key with
  | none => .ok s
  | some name =>
    if name ∈ s.args then
      .error (.invalidArguments
        ("argument " ++ quoteId name ++ " supplied in both normal and referenced form"))
    else
      match resolveValue j prior raw with
      | .error e => .error e
      | .ok value => .ok ⟨(s.args.erase key).insert name value, true⟩

/-- A way the loop can go on. -/
abbrev BackrefRange :=
  Ranges BackrefState.args (backrefRound j prior)

/-- A way the loop can go over the decoded arguments. -/
def BackrefLoop (r : Except MethodErr BackrefState) : Prop :=
  BackrefRange j prior ⟨m, false⟩ m.keys [] r

/-- The members of an arguments object; no arguments at all are none. -/
def argMembers (args : Raw) : Option Object :=
  if args = "" then some ∅ else j.object args

/-- What `resolveBackrefs` makes of its loop. -/
def backrefAnswer (args : Raw) : Except MethodErr BackrefState → Except MethodErr Raw
  | .error e => .error e
  | .ok s =>
    if s.changed then
      match j.encode s.args with
      | .error text => .error (.serverFail text)
      | .ok raw => .ok raw
    else .ok args

/-- `resolveBackrefs`: the answers it can give. -/
def ResolveBackrefs (args : Raw) (prior : List Invocation) (out : Except MethodErr Raw) : Prop :=
  match argMembers j args with
  | none => out = .error (.invalidArguments "arguments are not an object")
  | some m => ∃ r, BackrefLoop j prior m r ∧ out = backrefAnswer j args r

/-! ## What the references stand for -/

/-- The value a member has once every reference is replaced under its name. -/
def replacedAt (name : String) : Option Raw :=
  match m[("#" ++ name : String)]? with
  | some raw => (resolveValue j prior raw).toOption
  | none => if (referenced name).isSome then none else m[name]?

/-- The same value, or errors of the same type. -/
def sameAnswer : Except MethodErr Raw → Except MethodErr Raw → Prop
  | .ok a, .ok b => a = b
  | .error e, .error e' => e.type = e'.type
  | _, _ => False

/-- The references of a call are resolved as they should be. -/
structure BackrefsOk (j : RefJson) (args : Raw) (prior : List Invocation) : Prop where
  /-- There is an answer. -/
  answers : ∃ out, ResolveBackrefs j args prior out
  /-- The order of the map does not matter. -/
  order : ∀ out out', ResolveBackrefs j args prior out → ResolveBackrefs j args prior out' →
    sameAnswer out out'
  /-- Every reference is replaced once, and nothing else changes. -/
  replaced : ∀ m raw, argMembers j args = some m → ResolveBackrefs j args prior (.ok raw) →
    ((∃ key ∈ m, (referenced key).isSome) → ∃ m' : Object, j.encode m' = .ok raw ∧
      ∀ name : String, m'[name]? = replacedAt j prior m name) ∧
    ((∀ key ∈ m, referenced key = none) → raw = args)
  /-- A name in both forms is refused. -/
  both : ∀ m name, argMembers j args = some m → name ∈ m → "#" ++ name ∈ m →
    ∀ raw, ¬ ResolveBackrefs j args prior (.ok raw)

/-! ## The names of a call

A reference is replaced under a name with one `#` less, so the names that differ in their leading
`#` only stand above each other.  A value goes down from name to name as long as it is a reference
that resolves and the name below it is free. -/

/-- The name with `i` more `#`. -/
def hashes : ℕ → String → String
  | 0, x => x
  | i + 1, x => "#" ++ hashes i x

/-- The value is a reference that resolves, to another one that resolves, `k` times. -/
def ResolvesTimes : ℕ → Raw → Prop
  | 0, _ => True
  | k + 1, raw => ∃ value, resolveValue j prior raw = .ok value ∧ ResolvesTimes k value

/-- How many of the names below `hashes i x`, down to `x`, are not given. -/
def freeBelow (x : String) : ℕ → ℕ
  | 0 => 0
  | i + 1 => freeBelow x i + if hashes i x ∈ m then 0 else 1

/-- No name starts with `##`. -/
def SingleHash : Prop :=
  ∀ key name, key ∈ m → referenced key = some name → referenced name = none

/-- A reference does not resolve, or is to stand for a name without `#` that is given as well. -/
def Refused : Prop :=
  ∃ name raw, m[("#" ++ name : String)]? = some raw ∧
    ((resolveValue j prior raw).isOk = false ∨ referenced name = none ∧ name ∈ m)

/-- A value resolves until it stands right above a name that is given. -/
def CanClash : Prop :=
  ∃ x i raw, x ∈ m ∧ m[hashes (i + 1) x]? = some raw ∧ (∀ k < i, hashes (k + 1) x ∉ m) ∧
    ResolvesTimes j prior i raw

/-- A value stops resolving while a name below it is free. -/
def CanFail : Prop :=
  ∃ x i raw, m[hashes i x]? = some raw ∧ ¬ ResolvesTimes j prior (freeBelow m x i) raw

/-- The order of the map has no say: no name starts with `##` or the call is refused in any case,
    and one type of error only can come. -/
structure OrderFree (j : RefJson) (prior : List Invocation) (m : Object) : Prop where
  single : SingleHash m ∨ Refused j prior m
  oneError : ¬ (CanClash j prior m ∧ CanFail j prior m)

end Loop

variable {j : RefJson} {prior : List Invocation} {m m' : Object} {key name x : String} {i : ℕ}
  {raw value : Raw} {s s' : BackrefState} {due may : List String}
  {r : Except MethodErr BackrefState}

/-! ## A round -/

theorem referenced_eq_some : referenced key = some name ↔ key = "#" ++ name := by
  unfold referenced
  constructor
  · intro h
    split at h
    · rename_i rest hkey
      cases h
      have hparts : ("#" ++ String.ofList rest).toList = '#' :: rest := by simp
      rw [← String.toList_inj, hparts, hkey]
    · cases h
  · rintro rfl
    rw [String.toList_append]
    change some (String.ofList name.toList) = some name
    rw [String.ofList_toList]

@[simp] theorem referenced_hash (name : String) : referenced ("#" ++ name) = some name :=
  referenced_eq_some.mpr rfl

/-- A name without `#` is not the one a reference stands under. -/
theorem ne_hash (h : referenced key = none) (name : String) : key ≠ "#" ++ name := by
  rintro rfl
  simp at h

theorem hashes_hash (i : ℕ) (x : String) : hashes i ("#" ++ x) = hashes (i + 1) x := by
  induction i with
  | zero => rfl
  | succ i ih => exact congrArg ("#" ++ ·) ih

theorem hashes_inj {i k : ℕ} (h : hashes i x = hashes k x) : i = k := by
  have hlength : ∀ i, (hashes i x).length = i + x.length := by
    intro i
    induction i with
    | zero => simp [hashes]
    | succ i ih =>
      rw [hashes, String.length_append, ih]
      change 1 + _ = _
      omega
  have := congrArg String.length h
  rw [hlength, hlength] at this
  omega

theorem ResolvesTimes.of_succ {k : ℕ} (h : ResolvesTimes j prior (k + 1) raw) :
    ResolvesTimes j prior k raw := by
  induction k generalizing raw with
  | zero => trivial
  | succ k ih =>
    obtain ⟨value, hvalue, hrest⟩ := h
    exact ⟨value, hvalue, ih hrest⟩

theorem resolveValue_type {e : MethodErr} (h : resolveValue j prior raw = .error e) :
    e.type = "invalidResultReference" := by
  unfold resolveValue at h
  split at h
  · cases h
    rfl
  · split at h <;> cases h
    rfl

/-- The arguments `m'` are `m` with the reference of `name` replaced. -/
structure Replaces (j : RefJson) (prior : List Invocation) (m : Object) (name : String)
    (m' : Object) : Prop where
  free : name ∉ m
  moved : ∃ raw value, m[("#" ++ name : String)]? = some raw ∧
    resolveValue j prior raw = .ok value ∧ m'[name]? = some value
  gone : "#" ++ name ∉ m'
  same : ∀ k : String, k ≠ name → k ≠ "#" ++ name → m'[k]? = m[k]?

theorem backrefRound_hash (hfree : name ∉ s.args) : backrefRound j prior s ("#" ++ name) raw =
    (resolveValue j prior raw).map fun value =>
      ⟨(s.args.erase ("#" ++ name)).insert name value, true⟩ := by
  rw [backrefRound, referenced_hash]
  dsimp only
  rw [if_neg hfree]
  cases resolveValue j prior raw <;> rfl

theorem backrefRound_ok (hraw : s.args[key]? = some raw)
    (h : backrefRound j prior s key raw = .ok s') :
    (referenced key = none ∧ s' = s) ∨
      ∃ name, key = "#" ++ name ∧ Replaces j prior s.args name s'.args ∧ s'.changed = true := by
  cases hkey : referenced key with
  | none =>
    rw [backrefRound, hkey] at h
    exact .inl ⟨rfl, (Except.ok.inj h).symm⟩
  | some name =>
    obtain rfl := referenced_eq_some.mp hkey
    by_cases hfree : name ∈ s.args
    · rw [backrefRound, hkey] at h
      dsimp only at h
      rw [if_pos hfree] at h
      cases h
    rw [backrefRound_hash hfree] at h
    cases hvalue : resolveValue j prior raw with
    | error e =>
      rw [hvalue] at h
      cases h
    | ok value =>
      rw [hvalue] at h
      cases h
      have hne : name ≠ "#" ++ name := fun heq =>
        absurd (hashes_inj (i := 0) (k := 1) heq) (by omega)
      refine .inr ⟨name, rfl, ⟨hfree, ⟨raw, value, hraw, hvalue,
        Std.ExtTreeMap.getElem?_insert_self⟩, ?_, fun k hk hk' => ?_⟩, rfl⟩
      · simp only [Map.mem_insert_iff, Map.mem_erase_iff]
        simp [hne.symm]
      · rw [Map.getElem?_insert, if_neg (Ne.symm hk), Map.getElem?_erase, if_neg (Ne.symm hk')]

theorem backrefRound_error {e : MethodErr} (h : backrefRound j prior s key raw = .error e) :
    ∃ name, key = "#" ++ name ∧
      ((name ∈ s.args ∧ e.type = "invalidArguments") ∨
        (name ∉ s.args ∧ (∀ value, resolveValue j prior raw ≠ .ok value) ∧
          e.type = "invalidResultReference")) := by
  cases hkey : referenced key with
  | none =>
    rw [backrefRound, hkey] at h
    cases h
  | some name =>
    obtain rfl := referenced_eq_some.mp hkey
    refine ⟨name, rfl, ?_⟩
    by_cases hfree : name ∈ s.args
    · rw [backrefRound, hkey] at h
      dsimp only at h
      rw [if_pos hfree] at h
      cases h
      exact .inl ⟨hfree, rfl⟩
    rw [backrefRound_hash hfree] at h
    cases hvalue : resolveValue j prior raw with
    | error e' =>
      rw [hvalue] at h
      cases h
      exact .inr ⟨hfree, by simp, resolveValue_type hvalue⟩
    | ok value =>
      rw [hvalue] at h
      cases h

/-! ## What an error tells of the arguments -/

namespace Replaces

theorem mem_iff (h : Replaces j prior m name m') {k : String} (hne : k ≠ name)
    (hne' : k ≠ "#" ++ name) : k ∈ m' ↔ k ∈ m := by
  rw [Map.mem_iff, Map.mem_iff, h.same k hne hne']

theorem canClash (h : Replaces j prior m name m') (hc : CanClash j prior m') :
    CanClash j prior m := by
  obtain ⟨x, i, raw, hx, hraw, hfree, hres⟩ := hc
  obtain ⟨old, new, hold, hnew, hin⟩ := h.moved
  have hup : hashes (i + 1) x ≠ "#" ++ name := fun heq =>
    h.gone (heq ▸ Map.mem_of_getElem? hraw)
  by_cases hlow : x = name
  · -- the lower value came down to `x`
    subst hlow
    cases i with
    | zero => exact absurd rfl hup
    | succ i =>
      have hother : ∀ k, 2 ≤ k → hashes k x ≠ x ∧ hashes k x ≠ "#" ++ x := fun k hk =>
        ⟨fun heq => absurd (hashes_inj (k := 0) heq) (by omega),
          fun heq => absurd (hashes_inj (k := 1) heq) (by omega)⟩
      refine ⟨"#" ++ x, i, raw, Map.mem_of_getElem? hold, ?_, fun k hk => ?_, hres.of_succ⟩
      · have hi := hother (i + 1 + 1) (by omega)
        rw [hashes_hash, ← h.same _ hi.1 hi.2]
        exact hraw
      · have hk' := hother (k + 1 + 1) (by omega)
        rw [hashes_hash]
        exact mt (h.mem_iff hk'.1 hk'.2).mpr (hfree (k + 1) (by omega))
  have hx' : x ∈ m := (h.mem_iff hlow fun heq => h.gone (heq ▸ hx)).mp hx
  have hfree' : ∀ k < i, hashes (k + 1) x ∉ m := by
    intro k hk hmem
    by_cases hkname : hashes (k + 1) x = name
    · exact h.free (hkname ▸ hmem)
    by_cases hkhash : hashes (k + 1) x = "#" ++ name
    · -- the name below it is given now
      have hbelow : hashes k x = name := (String.append_right_inj _).mp hkhash
      cases k with
      | zero => exact hlow hbelow
      | succ k => exact hfree k (by omega) (hbelow ▸ Map.mem_of_getElem? hin)
    · exact hfree k hk ((h.mem_iff hkname hkhash).mpr hmem)
  by_cases hname : hashes (i + 1) x = name
  · -- the upper value came down
    refine ⟨x, i + 1, old, hx', ?_, fun k hk => ?_, new, hnew, ?_⟩
    · rw [hashes, hname]
      exact hold
    · rcases Nat.lt_succ_iff_lt_or_eq.mp hk with hk | rfl
      · exact hfree' k hk
      · exact hname ▸ h.free
    · rw [hname] at hraw
      cases hin.symm.trans hraw
      exact hres
  · exact ⟨x, i, raw, hx', (h.same _ hname hup).symm.trans hraw, hfree', hres⟩

end Replaces

theorem freeBelow_congr {k : ℕ} (hle : k ≤ i) (hk : freeBelow m' x k = freeBelow m x k)
    (h : ∀ l, k ≤ l → l < i → (hashes l x ∈ m' ↔ hashes l x ∈ m)) :
    freeBelow m' x i = freeBelow m x i := by
  induction i, hle using Nat.le_induction with
  | base => exact hk
  | succ i hle ih =>
    rw [freeBelow, freeBelow, ih fun l hl hlt => h l hl (by omega)]
    simp only [h i hle (Nat.lt_succ_self i)]

theorem freeBelow_hash (i : ℕ) : freeBelow m x (i + 1) =
    freeBelow m ("#" ++ x) i + if x ∈ m then 0 else 1 := by
  induction i with
  | zero => rfl
  | succ i ih =>
    rw [freeBelow, ih, freeBelow, hashes_hash]
    omega

namespace Replaces

/-- Above the two names, and below them, as many are free as before. -/
theorem freeBelow_eq {l : ℕ} (h : Replaces j prior m (hashes l x) m') (hi : i ≠ l + 1) :
    freeBelow m' x i = freeBelow m x i := by
  have hsame : ∀ k, k ≠ l → k ≠ l + 1 → (hashes k x ∈ m' ↔ hashes k x ∈ m) := fun k hk hk' =>
    h.mem_iff (fun heq => hk (hashes_inj heq)) fun heq => hk' (hashes_inj (k := l + 1) heq)
  have hlow : ∀ i ≤ l, freeBelow m' x i = freeBelow m x i := fun i hi =>
    freeBelow_congr (Nat.zero_le i) rfl fun k _ hk => hsame k (by omega) (by omega)
  rcases Nat.lt_or_ge i (l + 1) with hlt | hge
  · exact hlow i (by omega)
  · refine freeBelow_congr (k := l + 2) (by omega) ?_ fun k hk _ => hsame k (by omega) (by omega)
    obtain ⟨raw, value, hraw, -, hvalue⟩ := h.moved
    have hin : hashes l x ∈ m' := Map.mem_of_getElem? hvalue
    have hin' : hashes (l + 1) x ∈ m := Map.mem_of_getElem? hraw
    simp only [freeBelow, hlow l le_rfl, hin, hin', h.free, show hashes (l + 1) x ∉ m' from h.gone,
      if_true, if_false]

theorem canFail_of_chain {l : ℕ} (h : Replaces j prior m (hashes l x) m')
    (hraw : m'[hashes i x]? = some raw) (hnot : ¬ ResolvesTimes j prior (freeBelow m' x i) raw) :
    CanFail j prior m := by
  obtain ⟨old, new, hold, hnew, hin⟩ := h.moved
  have hi : i ≠ l + 1 := fun heq => h.gone (by rw [heq] at hraw; exact Map.mem_of_getElem? hraw)
  rw [h.freeBelow_eq hi] at hnot
  by_cases hil : i = l
  · subst hil
    refine ⟨x, i + 1, old, hold, fun hres => hnot ?_⟩
    rw [freeBelow, if_neg h.free] at hres
    obtain ⟨new', hnew', hres⟩ := hres
    cases hnew.symm.trans hnew'
    cases hin.symm.trans hraw
    exact hres
  · refine ⟨x, i, raw, ?_, hnot⟩
    rw [← h.same _ (fun heq => hil (hashes_inj heq)) fun heq => hi (hashes_inj (k := l + 1) heq)]
    exact hraw

theorem canFail (h : Replaces j prior m name m') (hc : CanFail j prior m') :
    CanFail j prior m := by
  obtain ⟨x, i, raw, hraw, hnot⟩ := hc
  by_cases hchain : ∃ l, name = hashes l x
  · obtain ⟨l, rfl⟩ := hchain
    exact h.canFail_of_chain hraw hnot
  by_cases hx : x = "#" ++ name
  · -- the names are counted from the one below `x`
    subst hx
    obtain ⟨-, new, -, -, hin⟩ := h.moved
    refine h.canFail_of_chain (x := name) (l := 0) (i := i + 1)
      (by rw [← hashes_hash]; exact hraw) ?_
    rwa [freeBelow_hash, if_pos (Map.mem_of_getElem? hin)]
  have hother : ∀ k, hashes k x ≠ name ∧ hashes k x ≠ "#" ++ name := by
    refine fun k => ⟨fun heq => hchain ⟨k, heq.symm⟩, fun heq => ?_⟩
    cases k with
    | zero => exact hx heq
    | succ k => exact hchain ⟨k, ((String.append_right_inj _).mp heq).symm⟩
  have hsame : freeBelow m' x i = freeBelow m x i :=
    freeBelow_congr (Nat.zero_le i) rfl fun k _ _ => h.mem_iff (hother k).1 (hother k).2
  exact ⟨x, i, raw, (h.same _ (hother i).1 (hother i).2).symm.trans hraw, hsame ▸ hnot⟩

end Replaces

/-- **An error of the loop** could come from the arguments it began with: a round that goes through
    makes neither error possible. -/
theorem error_of_run {e : MethodErr} (hloop : BackrefRange j prior s due may (.error e)) :
    (e.type = "invalidArguments" ∧ CanClash j prior s.args) ∨
      (e.type = "invalidResultReference" ∧ CanFail j prior s.args) := by
  generalize hr : Except.error e = r at hloop
  induction hloop with
  | stop => cases hr
  | next _ hentry hbody _ ih =>
    obtain ⟨-, rfl⟩ | ⟨name, -, hrep, -⟩ := backrefRound_ok hentry hbody
    · exact ih hr
    · exact (ih hr).imp (And.imp_right hrep.canClash) (And.imp_right hrep.canFail)
  | @fail s due may key raw e' hmem hentry hbody =>
    cases hr
    obtain ⟨name, rfl, ⟨hin, htype⟩ | ⟨hfree, hbad, htype⟩⟩ := backrefRound_error hbody
    · exact .inl ⟨htype, name, 0, raw, hin, hentry, by simp, trivial⟩
    · refine .inr ⟨htype, name, 1, raw, hentry, ?_⟩
      have hone : freeBelow s.args name 1 = 1 := by simp [freeBelow, hashes, hfree]
      rw [hone]
      exact fun ⟨value, hvalue, _⟩ => hbad value hvalue

/-! ## Errors that can come do, in some order -/

/-- Every reference that is there may still be produced. -/
def Open (s : BackrefState) (due may : List String) : Prop :=
  ∀ name : String, "#" ++ name ∈ s.args → "#" ++ name ∈ due ∨ "#" ++ name ∈ may

namespace Open

theorem start (m : Object) : Open ⟨m, false⟩ m.keys [] :=
  fun _ h => .inl (Std.ExtTreeMap.mem_keys.mpr h)

variable (h : Open s due may)
  (hraw : s.args[("#" ++ name : String)]? = some raw)

include h hraw

/-- A reference that resolves, with its name free, goes down next. -/
theorem move (hfree : name ∉ s.args) (hvalue : resolveValue j prior raw = .ok value) :
    ∃ s' due' may', Open s' due' may' ∧ Replaces j prior s.args name s'.args ∧
      s'.args[name]? = some value ∧ s'.changed = true ∧
      (∀ k ∈ due', k ∈ due ∧ k ≠ "#" ++ name ∧ k ∈ s'.args) ∧
      ∀ r, BackrefRange j prior s' due' may' r → BackrefRange j prior s due may r := by
  have hround : backrefRound j prior s ("#" ++ name) raw =
      .ok ⟨(s.args.erase ("#" ++ name)).insert name value, true⟩ := by
    rw [backrefRound_hash hfree, hvalue]
    rfl
  obtain ⟨hkey, -⟩ | ⟨name', heq, hrep, -⟩ := backrefRound_ok hraw hround
  · simp at hkey
  obtain rfl : name = name' := (String.append_right_inj _).mp heq
  refine ⟨_, _, _, fun b hb => ?_, hrep, Std.ExtTreeMap.getElem?_insert_self, rfl, fun k hk => ?_,
    fun r hr => .next (h name (Map.mem_of_getElem? hraw)) hraw hround hr⟩
  · have hne : "#" ++ b ≠ "#" ++ name := fun heq => hrep.gone (heq ▸ hb)
    simp only [List.mem_filter, List.mem_append, decide_eq_true_eq, Std.ExtTreeMap.mem_keys]
    by_cases hold : "#" ++ b ∈ s.args
    · exact (h b hold).imp (fun hd => ⟨hd, hne, hb⟩) fun hm => .inl ⟨hm, hne⟩
    · exact .inr (.inr ⟨hb, hold⟩)
  · exact ⟨List.mem_of_mem_filter hk, by simpa using List.of_mem_filter hk⟩

theorem fail (hfree : name ∉ s.args) {e : MethodErr} (he : resolveValue j prior raw = .error e) :
    ∃ e : MethodErr, e.type = "invalidResultReference" ∧
      BackrefRange j prior s due may (.error e) := by
  refine ⟨e, resolveValue_type he, .fail (h name (Map.mem_of_getElem? hraw)) hraw ?_⟩
  rw [backrefRound_hash hfree, he]
  rfl

theorem clash (hin : name ∈ s.args) :
    ∃ text, BackrefRange j prior s due may (.error (.invalidArguments text)) := by
  refine ⟨"argument " ++ quoteId name ++ " supplied in both normal and referenced form",
    .fail (h name (Map.mem_of_getElem? hraw)) hraw ?_⟩
  rw [backrefRound, referenced_hash]
  exact if_pos hin

omit hraw in
theorem exists_clash (hc : CanClash j prior s.args) :
    ∃ text, BackrefRange j prior s due may (.error (.invalidArguments text)) := by
  obtain ⟨x, i, raw, hx, hraw, hfree, hres⟩ := hc
  induction i generalizing s due may raw with
  | zero => exact h.clash hraw hx
  | succ i ih =>
    obtain ⟨value, hvalue, hres⟩ := hres
    obtain ⟨s', due', may', hopen, hrep, hin, -, -, hrun⟩ :=
      h.move hraw (hfree i (Nat.lt_succ_self i)) hvalue
    have hsame : ∀ k ≤ i, hashes k x ∈ s'.args ↔ hashes k x ∈ s.args := fun k hk =>
      hrep.mem_iff (fun heq => absurd (hashes_inj heq) (by omega))
        fun heq => absurd (hashes_inj (k := i + 1 + 1) heq) (by omega)
    obtain ⟨text, hend⟩ := ih hopen value ((hsame 0 (Nat.zero_le i)).mpr hx) hin
      (fun k hk => mt (hsame (k + 1) (by omega)).mp (hfree k (by omega))) hres
    exact ⟨text, hrun _ hend⟩

end Open

/-- The highest free name below `hashes i x`. -/
theorem exists_free (h : 0 < freeBelow m x i) :
    ∃ p d, i = p + 1 + d ∧ hashes p x ∉ m ∧ ∀ k, p < k → k < i → hashes k x ∈ m := by
  induction i with
  | zero => cases h
  | succ i ih =>
    by_cases hi : hashes i x ∈ m
    · rw [freeBelow, if_pos hi] at h
      obtain ⟨p, d, hd, hp, hrest⟩ := ih h
      refine ⟨p, d + 1, by omega, hp, fun k hk hk' => ?_⟩
      rcases Nat.lt_succ_iff_lt_or_eq.mp hk' with hlt | rfl
      · exact hrest k hk hlt
      · exact hi
    · exact ⟨i, 0, rfl, hi, fun k hk hk' => absurd hk' (by omega)⟩

/-- The value goes down as far as it can, and what is in its way goes first; if that does not
    resolve, it fails instead. -/
theorem Open.exists_fail (h : Open s due may) (hc : CanFail j prior s.args) :
    ∃ e : MethodErr, e.type = "invalidResultReference" ∧
      BackrefRange j prior s due may (.error e) := by
  obtain ⟨x, i, raw, hraw, hnot⟩ := hc
  induction i using Nat.strong_induction_on generalizing s due may raw with
  | _ i ih =>
  have hpos : 0 < freeBelow s.args x i := by
    rw [Nat.pos_iff_ne_zero]
    intro hzero
    exact hnot (hzero ▸ trivial)
  obtain ⟨p, d, hd, hp, hrest⟩ := exists_free hpos
  -- the values at `p + 1`, …, `i` go down in this order
  induction d generalizing s due may p with
  | zero =>
    subst hd
    cases hvalue : resolveValue j prior raw with
    | error e => exact h.fail hraw hp hvalue
    | ok value =>
      obtain ⟨s', due', may', hopen, hrep, hin, -, -, hrun⟩ := h.move hraw hp hvalue
      refine (ih p (Nat.lt_succ_self p) hopen value hin fun hres => hnot ?_).imp fun e he =>
        ⟨he.1, hrun _ he.2⟩
      rw [hrep.freeBelow_eq (Nat.ne_of_lt (Nat.lt_succ_self p))] at hres
      rw [freeBelow, if_neg hp]
      exact ⟨value, hvalue, hres⟩
  | succ d ihd =>
    obtain ⟨raw', hraw'⟩ := Map.mem_iff.mp (hrest (p + 1) (by omega) (by omega))
    cases hvalue : resolveValue j prior raw' with
    | error e => exact h.fail hraw' hp hvalue
    | ok value =>
      obtain ⟨s', due', may', hopen, hrep, -, -, -, hrun⟩ := h.move hraw' hp hvalue
      have hother : ∀ k, p + 1 < k → hashes k x ≠ hashes p x ∧ hashes k x ≠ "#" ++ hashes p x :=
        fun k hk => ⟨fun heq => absurd (hashes_inj heq) (by omega),
          fun heq => absurd (hashes_inj (k := p + 1) heq) (by omega)⟩
      have hi := hother i (by omega)
      have hsame := hrep.freeBelow_eq (i := i) (by omega)
      refine (ihd hopen ((hrep.same _ hi.1 hi.2).trans hraw) (hsame ▸ hnot) (hsame ▸ hpos) (p + 1)
        (by omega) hrep.gone fun k hk hk' => ?_).imp fun e he => ⟨he.1, hrun _ he.2⟩
      have hk2 := hother k hk
      exact (hrep.mem_iff hk2.1 hk2.2).mpr (hrest k (by omega) hk')

/-! ## Calls that are accepted -/

/-- Between two rounds what is due is as it was given, and what was due is not refused. -/
structure Kept (j : RefJson) (prior : List Invocation) (m : Object) (s : BackrefState)
    (due : List String) : Prop where
  asGiven : ∀ k ∈ due, k ∈ m ∧ s.args[k]? = m[k]?
  plain : ∀ name ∈ m, referenced name = none → name ∈ s.args
  done : ∀ name raw, m[("#" ++ name : String)]? = some raw → "#" ++ name ∈ due ∨
    (resolveValue j prior raw).isOk ∧ (referenced name = none → name ∉ m)

namespace Kept

theorem start (m : Object) : Kept j prior m ⟨m, false⟩ m.keys where
  asGiven _ hk := ⟨Std.ExtTreeMap.mem_keys.mp hk, rfl⟩
  plain _ hin _ := hin
  done _ _ hraw := .inl (Std.ExtTreeMap.mem_keys.mpr (Map.mem_of_getElem? hraw))

theorem mem (h : Kept j prior m s due) (hkey : key ∈ due) : key ∈ s.args := by
  rw [Map.mem_iff, (h.asGiven key hkey).2, ← Map.mem_iff]
  exact (h.asGiven key hkey).1

theorem step (h : Kept j prior m s due) (hraw : s.args[key]? = some raw)
    (hround : backrefRound j prior s key raw = .ok s') :
    Kept j prior m s' (due.filter fun b => b ≠ key ∧ b ∈ s'.args) := by
  have hmem : ∀ b, b ∈ due → b ≠ key → b ∈ s'.args →
      b ∈ due.filter fun b => b ≠ key ∧ b ∈ s'.args := fun b hb hne hin =>
    List.mem_filter.mpr ⟨hb, by simpa using ⟨hne, hin⟩⟩
  obtain ⟨hplain, rfl⟩ | ⟨name, rfl, hrep, -⟩ := backrefRound_ok hraw hround
  · refine ⟨fun k hk => h.asGiven k (List.mem_of_mem_filter hk), h.plain, fun name raw' hraw' => ?_⟩
    exact (h.done name raw' hraw').imp_left fun hd =>
      hmem _ hd (ne_hash hplain name).symm (h.mem hd)
  · have hfree : ∀ b, b ∈ due → b ≠ name := fun b hb heq => hrep.free (heq ▸ h.mem hb)
    refine ⟨fun k hk => ?_, fun k hk hkplain => ?_, fun b raw' hraw' => ?_⟩
    · obtain ⟨hk, hne⟩ := List.mem_filter.mp hk
      have hne : k ≠ "#" ++ name := (of_decide_eq_true hne).1
      exact ⟨(h.asGiven k hk).1, (hrep.same k (hfree k hk) hne).trans (h.asGiven k hk).2⟩
    · have hin := h.plain k hk hkplain
      exact (hrep.mem_iff (fun heq => hrep.free (heq ▸ hin)) (ne_hash hkplain name)).mpr hin
    · obtain hd | hdone := h.done b raw' hraw'
      · by_cases heq : "#" ++ b = "#" ++ name
        · obtain rfl := (String.append_right_inj _).mp heq
          obtain ⟨old, new, hold, hnew, -⟩ := hrep.moved
          cases ((h.asGiven _ hd).2.symm.trans hold).symm.trans hraw'
          exact .inr ⟨by rw [hnew]; rfl, fun hplain hin => hrep.free (h.plain b hin hplain)⟩
        · exact .inl (hmem _ hd heq ((hrep.mem_iff (hfree _ hd) heq).mpr (h.mem hd)))
      · exact .inr hdone

/-- A loop that ends well refuses nothing. -/
theorem not_refused (hloop : BackrefRange j prior s due may (.ok s'))
    (h : Kept j prior m s due) : ¬ Refused j prior m := by
  generalize hr : Except.ok s' = r at hloop
  induction hloop with
  | stop =>
    rintro ⟨name, raw, hraw, hwhy⟩
    obtain hd | ⟨hok, hfree⟩ := h.done name raw hraw
    · cases hd
    · obtain hbad | ⟨hplain, hin⟩ := hwhy
      · rw [hok] at hbad
        cases hbad
      · exact hfree hplain hin
  | next _ hentry hbody _ ih => exact ih (h.step hentry hbody) hr
  | fail => cases hr

/-- If nothing is to be refused, a loop that takes shorter names first ends well. -/
theorem exists_accepting (hnot : ¬ Refused j prior m) (h : Kept j prior m s due)
    (hbelow : ∀ name : String, "#" ++ name ∈ due → name ∈ s.args → name ∈ due) :
    ∃ s', BackrefRange j prior s due may (.ok s') := by
  induction hn : due.length using Nat.strong_induction_on generalizing s due may with
  | _ l ih =>
  by_cases hnil : due = []
  · subst hnil
    exact ⟨s, .stop s may⟩
  obtain ⟨key, hkey, hmin⟩ := Finset.exists_min_image due.toFinset String.length
    (by simpa [Finset.nonempty_iff_ne_empty] using hnil)
  have hkey := List.mem_toFinset.mp hkey
  obtain ⟨hgiven, hsame⟩ := h.asGiven key hkey
  obtain ⟨raw, hraw⟩ := Map.mem_iff.mp hgiven
  have hentry := hsame.trans hraw
  have hround : ∃ s', backrefRound j prior s key raw = .ok s' := by
    cases href : referenced key with
    | none => exact ⟨s, by rw [backrefRound, href]⟩
    | some name =>
      obtain rfl := referenced_eq_some.mp href
      -- the name below would have come first
      have hfree : name ∉ s.args := by
        intro hin
        have hle := hmin name (List.mem_toFinset.mpr (hbelow name hkey hin))
        rw [String.length_append] at hle
        change 1 + _ ≤ _ at hle
        omega
      cases hvalue : resolveValue j prior raw with
      | error e => exact absurd ⟨name, raw, hraw, .inl (by rw [hvalue]; rfl)⟩ hnot
      | ok value => exact ⟨_, by rw [backrefRound_hash hfree, hvalue]; rfl⟩
  obtain ⟨s', hround⟩ := hround
  have hless : (due.filter fun b => b ≠ key ∧ b ∈ s'.args).length < l := by
    rw [← hn]
    exact List.length_filter_lt_length_iff_exists.mpr ⟨key, hkey, by simp⟩
  refine (ih _ hless (h.step hentry hround) (fun name hdue hin => ?_) rfl).imp fun s'' hrun =>
    .next (.inl hkey) hentry hround hrun
  obtain ⟨hdue, hne⟩ := List.mem_filter.mp hdue
  have hne : "#" ++ name ≠ key := (of_decide_eq_true hne).1
  have hold : name ∈ s.args ∧ name ≠ key := by
    obtain ⟨hplain, rfl⟩ | ⟨name', rfl, hrep, -⟩ := backrefRound_ok hentry hround
    · refine ⟨hin, fun heq => ?_⟩
      obtain ⟨raw', hraw'⟩ := Map.mem_iff.mp (h.asGiven _ hdue).1
      exact hnot ⟨name, raw', hraw', .inr (heq ▸ ⟨hplain, hgiven⟩)⟩
    · have hgone : name ≠ "#" ++ name' := fun heq => hrep.gone (heq ▸ hin)
      exact ⟨(hrep.mem_iff (fun heq => hne (heq ▸ rfl)) hgone).mp hin, hgone⟩
  exact List.mem_filter.mpr ⟨hbelow name hdue hold.1, by simpa using ⟨hold.2, hin⟩⟩

end Kept

theorem exists_accepted (hnot : ¬ Refused j prior m) : ∃ s, BackrefLoop j prior m (.ok s) :=
  (Kept.start m).exists_accepting hnot fun _ _ hin => Std.ExtTreeMap.mem_keys.mpr hin

/-! ## Calls without a second `#` -/

/-- Between two rounds what is no longer due, and will not be, is as it should be. -/
structure Midway (j : RefJson) (prior : List Invocation) (m : Object) (s : BackrefState)
    (due : List String) : Prop extends Kept j prior m s due where
  settled : ∀ k : String, k ∉ due → s.args[k]? =
    if "#" ++ k ∈ due then none else replacedAt j prior m k
  changed : s.changed = true ↔ ∃ name : String, "#" ++ name ∈ m ∧ "#" ++ name ∉ due

section Single

variable (hsingle : SingleHash m) (hnot : ¬ Refused j prior m)

include hsingle

theorem not_mem_double (name : String) : "#" ++ ("#" ++ name) ∉ m := by
  intro h
  have := hsingle _ _ h (referenced_hash _)
  simp at this

theorem replacedAt_hash (name : String) : replacedAt j prior m ("#" ++ name) = none := by
  rw [replacedAt, Std.ExtTreeMap.getElem?_eq_none (not_mem_double hsingle name), referenced_hash]
  rfl

omit hsingle in
theorem Midway.start : Midway j prior m ⟨m, false⟩ m.keys where
  toKept := .start m
  settled k hk := by
    have hk : k ∉ m := fun h => hk (Std.ExtTreeMap.mem_keys.mpr h)
    simp only [Std.ExtTreeMap.mem_keys, replacedAt, Std.ExtTreeMap.getElem?_eq_none hk]
    split
    · rfl
    · rename_i hhash
      rw [Std.ExtTreeMap.getElem?_eq_none hhash]
      simp
  changed := by simp [Std.ExtTreeMap.mem_keys]

include hnot

/-- Neither error can come. -/
theorem no_error : ¬ CanClash j prior m ∧ ¬ CanFail j prior m := by
  have hlow : ∀ {i x raw}, m[hashes i x]? = some raw → i ≤ 1 := by
    intro i x raw hraw
    by_contra hi
    obtain ⟨i, rfl⟩ : ∃ k, i = k + 2 := ⟨i - 2, by omega⟩
    exact not_mem_double hsingle _ (Map.mem_of_getElem? hraw)
  constructor
  · rintro ⟨x, i, raw, hx, hraw, -, -⟩
    obtain rfl : i = 0 := by have := hlow hraw; omega
    exact hnot ⟨x, raw, hraw, .inr ⟨hsingle _ _ (Map.mem_of_getElem? hraw) (referenced_hash x), hx⟩⟩
  · rintro ⟨x, i, raw, hraw, hres⟩
    have hi := hlow hraw
    interval_cases i
    · exact hres trivial
    refine hnot ⟨x, raw, hraw, .inl ?_⟩
    have hone : freeBelow m x 1 ≤ 1 := by
      simp only [freeBelow]
      split <;> omega
    cases hvalue : resolveValue j prior raw with
    | error => rfl
    | ok value =>
      refine absurd ?_ hres
      interval_cases freeBelow m x 1
      · trivial
      · exact ⟨value, hvalue, trivial⟩

theorem Midway.step (h : Midway j prior m s due) (hraw : s.args[key]? = some raw)
    (hround : backrefRound j prior s key raw = .ok s') :
    Midway j prior m s' (due.filter fun b => b ≠ key ∧ b ∈ s'.args) := by
  have hkept := h.toKept.step hraw hround
  have hdue : ∀ b, b ∈ due.filter (fun b => b ≠ key ∧ b ∈ s'.args) ↔ b ∈ due ∧ b ≠ key := by
    intro b
    rw [List.mem_filter, decide_eq_true_eq]
    refine ⟨fun hb => ⟨hb.1, hb.2.1⟩, fun hb => ⟨hb.1, hb.2, ?_⟩⟩
    obtain ⟨-, rfl⟩ | ⟨name, rfl, hrep, -⟩ := backrefRound_ok hraw hround
    · exact h.mem hb.1
    · exact (hrep.mem_iff (fun heq => hrep.free (heq ▸ h.mem hb.1)) hb.2).mpr (h.mem hb.1)
  obtain ⟨hplain, rfl⟩ | ⟨name, rfl, hrep, hchanged⟩ := backrefRound_ok hraw hround
  · -- another argument is passed over; no reference stands for it
    have hhash : ∀ b, "#" ++ b ∈ due.filter (fun b => b ≠ key ∧ b ∈ s'.args) ↔ "#" ++ b ∈ due :=
      fun b => (hdue _).trans (and_iff_left (ne_hash hplain b).symm)
    refine ⟨hkept, fun k hk => ?_, by simp only [hhash]; exact h.changed⟩
    rw [hdue] at hk
    simp only [hhash]
    by_cases hkdue : k ∈ due
    · obtain rfl : k = key := by_contra fun hne => hk ⟨hkdue, hne⟩
      have hfree : "#" ++ k ∉ m := fun hin => by
        obtain ⟨raw', hraw'⟩ := Map.mem_iff.mp hin
        exact hnot ⟨k, raw', hraw', .inr ⟨hplain, (h.asGiven k hkdue).1⟩⟩
      rw [if_neg fun hd => hfree (h.asGiven _ hd).1, (h.asGiven k hkdue).2, replacedAt,
        Std.ExtTreeMap.getElem?_eq_none hfree, hplain]
      rfl
    · exact h.settled k hkdue
  · obtain ⟨old, new, hold, hnew, hin⟩ := hrep.moved
    have hhash : "#" ++ name ∈ due := by
      by_contra hnotdue
      rw [h.settled _ hnotdue, if_neg fun hd => not_mem_double hsingle name (h.asGiven _ hd).1,
        replacedAt_hash hsingle] at hold
      cases hold
    obtain ⟨hgiven, hsame⟩ := h.asGiven _ hhash
    refine ⟨hkept, fun k hk => ?_, iff_of_true hchanged ⟨name, hgiven, by simp⟩⟩
    rw [hdue] at hk
    simp only [hdue]
    by_cases hkname : k = name
    · -- the value stands under its name
      subst hkname
      rw [if_neg (by simp), hin, replacedAt, ← hsame, hold]
      dsimp only
      rw [hnew]
      rfl
    by_cases hkhash : k = "#" ++ name
    · subst hkhash
      rw [Std.ExtTreeMap.getElem?_eq_none hrep.gone, replacedAt_hash hsingle, ite_self]
    · have hinj : "#" ++ k ≠ "#" ++ name := fun heq => hkname ((String.append_right_inj _).mp heq)
      rw [hrep.same k hkname hkhash, h.settled k fun hd => hk ⟨hd, hkhash⟩]
      simp only [hinj, ne_eq, not_false_eq_true, and_true]

/-- **The whole loop** replaces every reference. -/
theorem Midway.run (hloop : BackrefRange j prior s due may r) (h : Midway j prior m s due) :
    ∀ s', r = .ok s' → Midway j prior m s' [] := by
  induction hloop with
  | stop s may => exact fun s' hs => Except.ok.inj hs ▸ h
  | next _ hentry hbody _ ih => exact ih (h.step hsingle hnot hentry hbody)
  | fail => exact fun _ h => nomatch h

theorem loop_of_single (hloop : BackrefLoop j prior m r) :
    ∃ s, r = .ok s ∧ (∀ name : String, s.args[name]? = replacedAt j prior m name) ∧
      (s.changed = true ↔ ∃ name : String, "#" ++ name ∈ m) := by
  cases r with
  | error e =>
    obtain ⟨hclash, hfail⟩ := no_error hsingle hnot
    obtain ⟨-, h⟩ | ⟨-, h⟩ := error_of_run hloop
    · exact absurd h hclash
    · exact absurd h hfail
  | ok s =>
    have hend := Midway.start.run hsingle hnot hloop s rfl
    refine ⟨s, rfl, fun name => ?_, ?_⟩
    · rw [hend.settled name List.not_mem_nil, if_neg List.not_mem_nil]
    · simpa using hend.changed

end Single

/-! ## When the references are resolved as they should be -/

section Order

variable {args : Raw}

theorem exists_loop (m : Object) : ∃ r, BackrefLoop j prior m r := by
  obtain ⟨r, hr, -⟩ := Ranges.exists_skipping BackrefState.args (backrefRound j prior) ⟨m, false⟩
    m.keys [] (fun _ _ => True) (fun _ _ _ _ _ _ _ _ _ => trivial) trivial
    (fun a ha => Std.ExtTreeMap.mem_keys.mp ha)
  exact ⟨r, hr⟩

theorem sameAnswer_refl (out : Except MethodErr Raw) : sameAnswer out out := by
  cases out <;> rfl

section Members

variable (hm : argMembers j args = some m)

include hm

theorem resolveBackrefs_iff {out : Except MethodErr Raw} :
    ResolveBackrefs j args prior out ↔
      ∃ r, BackrefLoop j prior m r ∧ out = backrefAnswer j args r := by
  rw [ResolveBackrefs, hm]

theorem backrefsOk_of_single (hsingle : SingleHash m) (hnot : ¬ Refused j prior m) :
    BackrefsOk j args prior := by
  obtain ⟨r, hr⟩ := @exists_loop j prior m
  obtain ⟨s, rfl, hargs, hchanged⟩ := loop_of_single hsingle hnot hr
  have hall : ∀ out, ResolveBackrefs j args prior out → out = backrefAnswer j args (.ok s) := by
    intro out hout
    obtain ⟨r', hr', rfl⟩ := (resolveBackrefs_iff hm).mp hout
    obtain ⟨s', rfl, hargs', hchanged'⟩ := loop_of_single hsingle hnot hr'
    have hsame : s.args = s'.args := Std.ExtTreeMap.ext_getElem? fun name =>
      (hargs name).trans (hargs' name).symm
    have hflag : s.changed = s'.changed := Bool.eq_iff_iff.mpr (hchanged.trans hchanged'.symm)
    rw [show s' = s by cases s; cases s'; simp_all]
  refine ⟨⟨_, (resolveBackrefs_iff hm).mpr ⟨_, hr, rfl⟩⟩, fun out out' hout hout' => ?_,
    fun m' raw hm' hout => ?_, fun m' name hm' hname hboth raw hout => ?_⟩
  · rw [hall out hout, hall out' hout']
    exact sameAnswer_refl _
  · cases hm.symm.trans hm'
    have hraw := hall _ hout
    rw [backrefAnswer] at hraw
    refine ⟨fun ⟨key, hkey, hisref⟩ => ?_, fun hnone => ?_⟩
    · obtain ⟨name, href⟩ := Option.isSome_iff_exists.mp hisref
      rw [if_pos (hchanged.mpr ⟨name, referenced_eq_some.mp href ▸ hkey⟩)] at hraw
      split at hraw
      · cases hraw
      · rename_i hencoded
        cases hraw
        exact ⟨s.args, hencoded, hargs⟩
    · rw [if_neg] at hraw
      · exact Except.ok.inj hraw
      · intro h
        obtain ⟨name, hin⟩ := hchanged.mp h
        have := hnone _ hin
        simp at this
  · cases hm.symm.trans hm'
    obtain ⟨value, hvalue⟩ := Map.mem_iff.mp hboth
    exact hnot ⟨name, value, hvalue, .inr ⟨hsingle _ _ hboth (referenced_hash name), hname⟩⟩

/-- A call that is refused in any case is so with one type of error. -/
theorem backrefsOk_of_refused (href : Refused j prior m)
    (hone : ¬ (CanClash j prior m ∧ CanFail j prior m)) : BackrefsOk j args prior := by
  have hall : ∀ out, ResolveBackrefs j args prior out → ∃ e : MethodErr, out = .error e ∧
      (e.type = "invalidArguments" ∧ CanClash j prior m ∨
        e.type = "invalidResultReference" ∧ CanFail j prior m) := by
    intro out hout
    obtain ⟨r, hr, rfl⟩ := (resolveBackrefs_iff hm).mp hout
    cases r with
    | ok s => exact absurd href (Kept.not_refused hr (.start m))
    | error e => exact ⟨e, rfl, error_of_run hr⟩
  have hrefuses : ∀ raw, ¬ ResolveBackrefs j args prior (.ok raw) := fun raw hout => by
    obtain ⟨e, he, -⟩ := hall _ hout
    cases he
  obtain ⟨r, hr⟩ := @exists_loop j prior m
  refine ⟨⟨_, (resolveBackrefs_iff hm).mpr ⟨r, hr, rfl⟩⟩, fun out out' hout hout' => ?_,
    fun _ raw _ hout => absurd hout (hrefuses raw), fun _ _ _ _ _ => hrefuses⟩
  obtain ⟨e, rfl, h⟩ := hall _ hout
  obtain ⟨e', rfl, h'⟩ := hall _ hout'
  change e.type = e'.type
  obtain ⟨htype, hc⟩ | ⟨htype, hc⟩ := h <;> obtain ⟨htype', hc'⟩ | ⟨htype', hc'⟩ := h'
  · exact htype.trans htype'.symm
  · exact absurd ⟨hc, hc'⟩ hone
  · exact absurd ⟨hc', hc⟩ hone
  · exact htype.trans htype'.symm

theorem not_backrefsOk_of_errors (hclash : CanClash j prior m) (hfail : CanFail j prior m) :
    ¬ BackrefsOk j args prior := by
  intro hok
  obtain ⟨text, hloop⟩ := (Open.start m).exists_clash hclash
  obtain ⟨e, htype, hloop'⟩ := (Open.start m).exists_fail hfail
  have hsame := hok.order _ _ ((resolveBackrefs_iff hm).mpr ⟨_, hloop, rfl⟩)
    ((resolveBackrefs_iff hm).mpr ⟨_, hloop', rfl⟩)
  change "invalidArguments" = e.type at hsame
  rw [htype] at hsame
  exact absurd hsame (by decide)

/-- The names of an object survive its encoding. -/
def RefJson.KeepsNames (j : RefJson) : Prop :=
  ∀ (m : Object) (raw : Raw), j.encode m = .ok raw →
    ∃ m' : Object, j.object raw = some m' ∧ ∀ name : String, name ∈ m' ↔ name ∈ m

omit hm in
/-- If the loop produces the name it added for a `##` name, that name is gone again. -/
theorem loop_of_double {inner : String} (hraw : m[("#" ++ ("#" ++ inner) : String)]? = some raw)
    (hfree : "#" ++ inner ∉ m) (hvalue : resolveValue j prior raw = .ok value) :
    ∃ r, BackrefLoop j prior m r ∧
      ∀ s, r = .ok s → "#" ++ inner ∉ s.args ∧ s.changed = true := by
  -- first the reference itself, then the name it added
  obtain ⟨s1, due1, may1, hopen, -, hin, -, hdue1, hrun1⟩ :=
    (Open.start m).move hraw hfree hvalue
  by_cases hbelow : inner ∈ s1.args
  · obtain ⟨text, h⟩ := hopen.clash hin hbelow
    exact ⟨_, hrun1 _ h, fun s hs => nomatch hs⟩
  cases hvalue' : resolveValue j prior value with
  | error e =>
    obtain ⟨e, -, h⟩ := hopen.fail hin hbelow hvalue'
    exact ⟨_, hrun1 _ h, fun s hs => nomatch hs⟩
  | ok value' =>
    obtain ⟨s2, due2, may2, -, hrep, -, hchanged, hdue2, hrun2⟩ := hopen.move hin hbelow hvalue'
    -- what is still due does not add it again
    obtain ⟨r, hr, hend⟩ := Ranges.exists_skipping BackrefState.args (backrefRound j prior) s2 due2
      may2 (fun s due => "#" ++ inner ∉ s.args ∧ s.changed = true ∧ "#" ++ ("#" ++ inner) ∉ due)
      (fun s s' due a v ⟨hgone, hchanged, hnot⟩ ha hv hbody => by
        refine ⟨?_, ?_, fun hin => hnot (List.mem_of_mem_filter hin)⟩
        all_goals obtain ⟨-, rfl⟩ | ⟨name, rfl, hrep, hflag⟩ := backrefRound_ok hv hbody
        · exact hgone
        · by_cases heq : "#" ++ inner = "#" ++ name
          · exact heq ▸ hrep.gone
          · refine mt (hrep.mem_iff ?_ heq).mp hgone
            rintro rfl
            exact hnot ha
        · exact hchanged
        · exact hflag)
      ⟨hrep.gone, hchanged, fun hin => (hdue1 _ (hdue2 _ hin).1).2.1 rfl⟩ fun a ha =>
        (hdue2 a ha).2.2
    refine ⟨r, hrun1 _ (hrun2 _ hr), fun s hs => ?_⟩
    obtain ⟨hgone, hflag, -⟩ := hend s hs
    exact ⟨hgone, hflag⟩

/-- A call with a `##` name that is not refused depends on the order. -/
theorem not_backrefsOk_of_double (hj : j.KeepsNames)
    (hencode : ∀ s, BackrefLoop j prior m (.ok s) → (j.encode s.args).isOk)
    (hdouble : ¬ SingleHash m) (hnot : ¬ Refused j prior m) : ¬ BackrefsOk j args prior := by
  intro hok
  have hanswer :
      ∀ s, BackrefLoop j prior m (.ok s) → ∃ raw, ResolveBackrefs j args prior (.ok raw) ∧
      (s.changed = true → j.encode s.args = .ok raw) := by
    intro s hs
    have hout := (resolveBackrefs_iff hm).mpr ⟨_, hs, rfl⟩
    rw [backrefAnswer] at hout
    split at hout
    · have hok' := hencode s hs
      split at hout
      · rename_i herr
        rw [herr] at hok'
        cases hok'
      · rename_i raw hraw
        exact ⟨raw, hout, fun _ => hraw⟩
    · rename_i hflag
      exact ⟨args, hout, fun h => absurd h hflag⟩
  obtain ⟨s, hs⟩ := exists_accepted hnot
  obtain ⟨raw, haccepted, -⟩ := hanswer s hs
  simp only [SingleHash, not_forall] at hdouble
  obtain ⟨key, name, hkey, href, hname⟩ := hdouble
  obtain ⟨inner, hinner⟩ := Option.ne_none_iff_exists'.mp hname
  obtain rfl := referenced_eq_some.mp href
  obtain rfl := referenced_eq_some.mp hinner
  obtain ⟨old, hold⟩ := Map.mem_iff.mp hkey
  have hfree : "#" ++ inner ∉ m := fun hin => hok.both m _ hm hin hkey raw haccepted
  cases hvalue : resolveValue j prior old with
  | error e => exact hnot ⟨_, old, hold, .inl (by rw [hvalue]; rfl)⟩
  | ok value =>
    obtain ⟨r, hloop, hend⟩ := loop_of_double hold hfree hvalue
    cases r with
    | error e => exact hok.order _ _ haccepted ((resolveBackrefs_iff hm).mpr ⟨_, hloop, rfl⟩)
    | ok s' =>
      obtain ⟨hgone, hchanged⟩ := hend s' rfl
      obtain ⟨raw', hout, hencoded⟩ := hanswer s' hloop
      obtain ⟨m', hencoded', hm'⟩ :=
        (hok.replaced m raw' hm hout).1 ⟨_, hkey, by rw [referenced_hash]; rfl⟩
      -- the name is there by what it should be, and is not there
      obtain ⟨n, hn, hnames⟩ := hj s'.args raw' (hencoded hchanged)
      obtain ⟨n', hn', hnames'⟩ := hj m' raw' hencoded'
      cases hn.symm.trans hn'
      have hin : "#" ++ inner ∈ m' := Map.mem_of_getElem? (v := value) (by
        rw [hm', replacedAt, hold]
        dsimp only
        rw [hvalue]
        rfl)
      exact hgone ((hnames _).mp ((hnames' _).mpr hin))

end Members

/-- **Result references.**  The references of a call are resolved as they should be just if the
    order of the map has no say: no name starts with `##` or the call is refused in any case, and
    not both types of error can come. -/
theorem backrefsOk_iff (hj : j.KeepsNames) (args : Raw) (prior : List Invocation)
    (hencode : ∀ m s, argMembers j args = some m → BackrefLoop j prior m (.ok s) →
      (j.encode s.args).isOk) :
    BackrefsOk j args prior ↔ ∀ m, argMembers j args = some m → OrderFree j prior m := by
  constructor
  · intro hok m hm
    refine ⟨?_, fun ⟨hclash, hfail⟩ => not_backrefsOk_of_errors hm hclash hfail hok⟩
    by_contra hcase
    obtain ⟨hdouble, hnot⟩ := not_or.mp hcase
    exact not_backrefsOk_of_double hm hj (fun s => hencode m s hm) hdouble hnot hok
  · intro h
    cases hm : argMembers j args with
    | some m =>
      by_cases href : Refused j prior m
      · exact backrefsOk_of_refused hm href (h m hm).oneError
      · exact backrefsOk_of_single hm ((h m hm).single.resolve_right href) href
    | none =>
      -- what is no object has one answer
      have hanswer : ∀ out, ResolveBackrefs j args prior out ↔
          out = .error (.invalidArguments "arguments are not an object") := by
        intro out
        rw [ResolveBackrefs, hm]
      refine ⟨⟨_, (hanswer _).mpr rfl⟩, fun out out' hout hout' => ?_,
        fun m raw hm' => ?_, fun m name hm' => ?_⟩
      · rw [(hanswer out).mp hout, (hanswer out').mp hout']
        exact sameAnswer_refl _
      · rw [hm] at hm'
        cases hm'
      · rw [hm] at hm'
        cases hm'

end Order

/-! ## Three calls

The one response there is says `v`. -/

def vResponse : List Invocation := [⟨"Foo/get", "v", "t0"⟩]

def refTexts : List (Raw × Object) :=
  [("single", (∅ : Object).insert "#a" "ref"), ("single!", (∅ : Object).insert "a" "v"),
    ("double", (∅ : Object).insert "##a" "ref"), ("double!", (∅ : Object).insert "#a" "v"),
    ("mixed", (((∅ : Object).insert "#a" "v").insert "#b" "ref").insert "b" "v")]

def refJson : RefJson where
  string _ := none
  object raw := (refTexts.find? (·.1 = raw)).map Prod.snd
  quote := quoteId
  encode m := ((refTexts.find? (·.2 = m)).map Prod.fst).elim (.error "not encoded") .ok
  equal a b := a = b
  array _ := none
  encodeArray _ := .error "not encoded"
  reference raw := if raw = "ref" then some ⟨"t0", "Foo/get", ""⟩ else none

theorem refJson_keepsNames : refJson.KeepsNames := by
  intro m raw h
  simp only [refJson] at h ⊢
  cases hfind : refTexts.find? (·.2 = m) with
  | none =>
    rw [hfind] at h
    cases h
  | some x =>
    rw [hfind] at h
    cases h
    have heq : x.2 = m := by simpa using List.find?_some hfind
    have hself : ∀ y ∈ refTexts, refTexts.find? (·.1 = y.1) = some y := by decide +kernel
    rw [hself x (List.mem_of_find?_eq_some hfind)]
    exact ⟨x.2, rfl, fun name => by rw [heq]⟩

/-- A call with one reference. -/
theorem backrefsOk_single : BackrefsOk refJson "single" vResponse := by
  have hargs : argMembers refJson "single" = some ((∅ : Object).insert "#a" "ref") := by
    decide +kernel
  have hkeys : ∀ key ∈ (∅ : Object).insert "#a" "ref", key = "#a" := by simp
  have hsingle : SingleHash ((∅ : Object).insert "#a" "ref") := by
    intro key name hkey href
    have ha : referenced "#a" = some "a" := by decide +kernel
    rw [hkeys key hkey, ha] at href
    rw [← Option.some.inj href]
    decide +kernel
  have hnot : ¬ Refused refJson vResponse ((∅ : Object).insert "#a" "ref") := by
    rintro ⟨name, raw, hraw, hwhy⟩
    obtain rfl : name = "a" := (String.append_right_inj _).mp (hkeys _ (Map.mem_of_getElem? hraw))
    cases (show _ = some "ref" by decide +kernel).symm.trans hraw
    exact absurd hwhy (by decide +kernel)
  refine (backrefsOk_iff refJson_keepsNames "single" vResponse fun m s hm hloop => ?_).mpr
    fun m hm => ?_
  all_goals cases hargs.symm.trans hm
  · obtain ⟨s', hs, hvalues, -⟩ := loop_of_single hsingle hnot hloop
    cases hs
    have hend : s.args = (∅ : Object).insert "a" "v" := Std.ExtTreeMap.ext_getElem? fun name => by
      rw [hvalues, replacedAt, Map.getElem?_insert, Map.getElem?_insert, Map.getElem?_insert]
      by_cases hname : "a" = name
      · rw [← hname]
        rfl
      · have hne : "#a" ≠ "#" ++ name := fun h => hname ((String.append_right_inj "#").mp h)
        rw [if_neg hne, if_neg hname]
        by_cases hhash : "#a" = name
        · rw [← hhash]
          rfl
        · simp [hhash]
    rw [hend]
    decide +kernel
  · exact ⟨.inl hsingle, fun h => (no_error hsingle hnot).1 h.1⟩

/-- A `##` name, and a name in both forms beside a reference that does not resolve: both calls are
    answered by the order of the map. -/
theorem backrefs_order_matters :
    ¬ BackrefsOk refJson "double" vResponse ∧ ¬ BackrefsOk refJson "mixed" vResponse := by
  have hdouble : argMembers refJson "double" = some ((∅ : Object).insert "##a" "ref") := by
    decide +kernel
  have hmixed : argMembers refJson "mixed" =
      some ((((∅ : Object).insert "#a" "v").insert "#b" "ref").insert "b" "v") := by decide +kernel
  constructor
  · intro hok
    -- the name `#a` that the loop adds is skipped or produced
    have hround :
        backrefRound refJson vResponse ⟨(∅ : Object).insert "##a" "ref", false⟩ "##a" "ref" =
        .ok ⟨((((∅ : Object).insert "##a" "ref").erase "##a").insert "#a" "v"), true⟩ := rfl
    have hnext : ∀ {r}, _ → BackrefLoop refJson vResponse ((∅ : Object).insert "##a" "ref") r :=
      fun {r} h => .next (.inl (by decide +kernel)) (by decide +kernel) hround h
    refine hok.order (.ok "double!") (.error (.invalidResultReference "malformed ResultReference"))
      ((resolveBackrefs_iff hdouble).mpr ⟨_, hnext (.stop _ _), rfl⟩)
      ((resolveBackrefs_iff hdouble).mpr
        ⟨_, hnext (.fail (a := "#a") (v := "v") ?_ ?_ rfl), rfl⟩) <;>
      decide +kernel
  · refine not_backrefsOk_of_errors hmixed ⟨"b", 0, "ref", ?_, ?_, by simp, trivial⟩
      ⟨"a", 1, "v", ?_, ?_⟩
    · decide +kernel
    · decide +kernel
    · decide +kernel
    · rw [show freeBelow _ "a" 1 = 1 by decide +kernel]
      exact fun ⟨_, hvalue, _⟩ => nomatch (show Except.error _ = _ from hvalue)

end NaustJmap.Runtime
