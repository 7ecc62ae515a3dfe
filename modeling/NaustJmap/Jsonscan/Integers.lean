import NaustJmap.Jsonscan.Decode

/-!
# Integers

`jsonscan.Int` against the numbers of RFC 8259: it reads the tokens in integer notation whose
value an `int64` holds, and no others.  `int` counts in ℕ; the arithmetic of the source is that
of `uint64` (`intOfTokenWrapped`).
-/

namespace NaustJmap.Jsonscan

/-! ## Integer notation -/

def digitsValue (ds : Bytes) : ℕ := ds.foldl (fun v c => v * 10 + (c.toNat - 0x30)) 0

/-- `int` of RFC 8259: digits without a leading zero. -/
def IsDigits (ds : Bytes) : Prop :=
  ds ≠ [] ∧ (∀ c ∈ ds, isDigit c) ∧ (ds.head? = some 0x30 → ds.length = 1)

/-- A number of RFC 8259 without fraction and exponent. -/
def IsInteger (tok : Bytes) : Prop := IsDigits (skipSign tok)

def integerValue (tok : Bytes) : Int :=
  if tok.head? = some minus then -(digitsValue (skipSign tok) : Int) else digitsValue (skipSign tok)

def trimSpace (raw : Bytes) : Bytes := (skipSpace (skipSpace raw).reverse).reverse

/-! ## Overflow -/

theorem digit_le {c : UInt8} (hc : isDigit c) : 0x30 ≤ c.toNat ∧ c.toNat - 0x30 ≤ 9 := by
  simp [isDigit, UInt8.le_iff_toNat_le] at hc
  omega

/-- The check before a digit is added is exact. -/
theorem digitStep_eq (u : ℕ) {c : UInt8} (hc : isDigit c) :
    digitStep u c = if u * 10 + (c.toNat - 0x30) ≤ cutoff then some (u * 10 + (c.toNat - 0x30))
      else none := by
  have hd := digit_le hc
  have hcut : cutoff = 2 ^ 63 := rfl
  rw [digitStep, if_pos hc, ← ite_not]
  exact if_congr (by omega) rfl rfl

theorem le_foldl_digits (ds : Bytes) (v : ℕ) :
    v ≤ ds.foldl (fun v c => v * 10 + (c.toNat - 0x30)) v := by
  induction ds generalizing v with
  | nil => exact le_rfl
  | cons c ds ih => exact le_trans (show v ≤ v * 10 + (c.toNat - 0x30) by omega) (ih _)

theorem foldlM_digitStep_iff {ds : Bytes} {v u : ℕ} (hv : v ≤ cutoff) :
    ds.foldlM digitStep v = some u ↔ (∀ c ∈ ds, isDigit c) ∧
      ds.foldl (fun v c => v * 10 + (c.toNat - 0x30)) v = u ∧ u ≤ cutoff := by
  induction ds generalizing v with
  | nil =>
    simp only [List.foldlM_nil, List.foldl_nil, Option.pure_def, Option.some.injEq]
    exact ⟨fun h => ⟨by simp, h, h ▸ hv⟩, fun h => h.2.1⟩
  | cons c ds ih =>
    rw [List.foldlM_cons, List.forall_mem_cons]
    by_cases hc : isDigit c
    · rw [digitStep_eq v hc]
      simp only [hc, true_and]
      split_ifs with hle
      · exact ih hle
      · -- the value only grows from here
        have hgrow := le_foldl_digits ds (v * 10 + (c.toNat - 0x30))
        simp only [Option.bind_eq_bind, Option.bind_none, reduceCtorEq, false_iff]
        rintro ⟨-, rfl, hle'⟩
        exact hle (hgrow.trans hle')
    · simp [digitStep, hc]

theorem accumulate_iff {ds : Bytes} {u : ℕ} :
    accumulate ds = some u ↔ (∀ c ∈ ds, isDigit c) ∧ digitsValue ds = u ∧ u ≤ cutoff :=
  foldlM_digitStep_iff (Nat.zero_le _)

theorem skipSign_eq (tok : Bytes) :
    skipSign tok = if tok.head? = some minus then tok.tail else tok := by
  cases tok <;> simp [skipSign]

theorem intOfToken_iff {tok : Bytes} {n : Int} :
    intOfToken tok = some n ↔ (∀ c ∈ skipSign tok, isDigit c) ∧ integerValue tok = n ∧
      -2 ^ 63 ≤ n ∧ n < 2 ^ 63 := by
  have hcut : cutoff = 2 ^ 63 := rfl
  unfold intOfToken integerValue
  rw [skipSign_eq]
  split_ifs
  · constructor
    · intro h
      cases hacc : accumulate tok.tail with
      | none => simp [hacc] at h
      | some u =>
        obtain ⟨hdigits, rfl, hle⟩ := accumulate_iff.mp hacc
        have hn : -(digitsValue tok.tail : Int) = n := by simpa [hacc] using h
        exact ⟨hdigits, hn, by omega⟩
    · rintro ⟨hdigits, rfl, hlow, -⟩
      simp [accumulate_iff.mpr ⟨hdigits, rfl, by omega⟩]
  · constructor
    · intro h
      split at h
      · cases h
      · rename_i u hu
        obtain ⟨hdigits, rfl, -⟩ := accumulate_iff.mp hu
        split_ifs at h
        cases h
        exact ⟨hdigits, rfl, by omega⟩
    · rintro ⟨hdigits, rfl, -, hhigh⟩
      rw [accumulate_iff.mpr ⟨hdigits, rfl, by omega⟩]
      exact if_neg (by omega)

/-! ## The token -/

theorem skipInteger_iff {x y : Bytes} :
    skipInteger x = .ok y ↔ ∃ ds, x = ds ++ y ∧ IsDigits ds ∧
      (ds.head? ≠ some 0x30 → ∀ c ∈ y.head?, ¬ isDigit c) := by
  unfold skipInteger skipDigits
  constructor
  · intro h
    split at h
    · exact absurd h errAt_ne_ok
    · rename_i c x
      dsimp only at h
      split_ifs at h with hzero hc
      · cases h
        exact ⟨[c], rfl, ⟨by simp, by simp [hzero]; decide, by simp⟩, by simp [hzero]⟩
      · cases h
        refine ⟨c :: x.takeWhile isDigit, by simp, ⟨by simp, ?_, by simp [hzero]⟩, fun _ => ?_⟩
        · exact List.forall_mem_cons.mpr ⟨hc, fun _ => List.mem_takeWhile_imp⟩
        · intro d hd
          have := List.head?_dropWhile_not isDigit x
          rw [hd] at this
          simpa using this
      · exact absurd h errAt_ne_ok
  · rintro ⟨_ | ⟨c, ds⟩, rfl, ⟨hne, hds, hone⟩, hy⟩
    · exact absurd rfl hne
    obtain ⟨hc, hds⟩ := List.forall_mem_cons.mp hds
    by_cases hzero : c = 0x30
    · have hnil : ds = [] := by simpa using hone (by simp [hzero])
      simp [hzero, hnil]
    · have hdrop : (ds ++ y).dropWhile isDigit = y := by
        rw [List.dropWhile_append_of_pos hds]
        cases y with
        | nil => rfl
        | cons d y => exact List.dropWhile_cons_of_neg (hy (by simpa using hzero) d rfl)
      simp [hzero, hc, hdrop]

theorem skipTail_inv {y r : Bytes} (h : (skipFraction y >>= skipExponent) = .ok r) :
    r = y ∨ r.length < y.length ∧ ∃ c ∈ y.head?, ¬ isDigit c := by
  obtain ⟨z, hz, hr⟩ := bind_eq_ok h
  have hle := skipExponent_le hr
  cases y with
  | nil => cases hz; cases hr; exact .inl rfl
  | cons c y =>
    by_cases hdot : c = 0x2e
    · rw [skipFraction, if_pos hdot] at hz
      have hlt := skipDigits_lt hz
      exact .inr ⟨by simp; omega, c, rfl, by rw [hdot]; decide⟩
    · rw [skipFraction, if_neg hdot] at hz
      cases hz
      by_cases hexp : (c = 0x65 || c = 0x45) = true
      · refine .inr ⟨?_, c, rfl, ?_⟩
        · unfold skipExponent at hr
          simp only [hexp, if_true] at hr
          split at hr
          · exact absurd (skipDigits_lt hr) (by simp)
          · split_ifs at hr
            · have := skipDigits_lt hr
              simp; omega
            · have := skipDigits_lt hr
              simp at this ⊢; omega
        · simp only [Bool.or_eq_true, decide_eq_true_eq] at hexp
          rcases hexp with rfl | rfl <;> decide
      · unfold skipExponent at hr
        simp only [hexp] at hr
        cases hr
        exact .inl rfl

/-- White space starts neither a fraction nor an exponent. -/
theorem skipTail_space {r : Bytes} (hr : ∀ c ∈ r, isSpace c) :
    (skipFraction r >>= skipExponent) = .ok r := by
  cases r with
  | nil => rfl
  | cons c r =>
    have hc := hr c List.mem_cons_self
    have hdot : c ≠ 0x2e := by rintro rfl; revert hc; decide
    have hexp : ¬ (c = 0x65 || c = 0x45) = true := by
      simp only [Bool.or_eq_true, decide_eq_true_eq]
      rintro (rfl | rfl) <;> revert hc <;> decide
    rw [skipFraction, if_neg hdot, ok_bind]
    simp [skipExponent, hexp]

/-! ## White space -/

theorem not_isDigit_of_isSpace {c : UInt8} (h : isSpace c) : ¬ isDigit c := by
  simp only [isSpace, Bool.or_eq_true, beq_iff_eq] at h
  rcases h with ((rfl | rfl) | rfl) | rfl <;> decide

theorem endOfInput_iff {r : Bytes} : (endOfInput r).isOk ↔ ∀ c ∈ r, isSpace c := by
  rw [← List.dropWhile_eq_nil_iff, endOfInput]
  split <;> simp_all [skipSpace, errAt, Except.isOk, Except.toBool]

theorem skipSpace_eq_append (raw : Bytes) :
    ∃ r, skipSpace raw = trimSpace raw ++ r ∧ ∀ c ∈ r, isSpace c := by
  refine ⟨((skipSpace raw).reverse.takeWhile isSpace).reverse, ?_, fun c hc => ?_⟩
  · rw [trimSpace, ← List.reverse_append, skipSpace.eq_1 (List.reverse _),
      List.takeWhile_append_dropWhile, List.reverse_reverse]
  · exact List.mem_takeWhile_imp (List.mem_reverse.mp hc)

theorem trimSpace_eq {raw tok r : Bytes} (h : skipSpace raw = tok ++ r)
    (hr : ∀ c ∈ r, isSpace c) (htok : ∀ c ∈ tok, ¬ isSpace c) : trimSpace raw = tok := by
  have hdrop : tok.reverse.dropWhile isSpace = tok.reverse := by
    cases hrev : tok.reverse with
    | nil => rfl
    | cons c t => exact List.dropWhile_cons_of_neg (htok c (List.mem_reverse.mp (by simp [hrev])))
  rw [trimSpace, h, List.reverse_append, skipSpace,
    List.dropWhile_append_of_pos (by simpa using hr), hdrop, List.reverse_reverse]

theorem IsInteger.not_space {tok : Bytes} (h : IsInteger tok) : ∀ c ∈ tok, ¬ isSpace c := by
  intro c hc hspace
  have hmem : c ∉ skipSign tok := fun hmem => not_isDigit_of_isSpace hspace (h.2.1 c hmem)
  rw [skipSign_eq] at hmem
  cases tok with
  | nil => cases hc
  | cons d tok =>
    split_ifs at hmem with hsign
    · -- the sign is no white space either
      obtain rfl | hc := List.mem_cons.mp hc
      · cases hsign
        revert hspace
        decide
      · exact hmem hc
    · exact hmem hc

/-! ## What `Int` reads -/

theorem skipNumber_append {tok r : Bytes} (h : IsInteger tok) (hr : ∀ c ∈ r, isSpace c) :
    skipNumber (tok ++ r) = .ok r := by
  have hsign : skipSign (tok ++ r) = skipSign tok ++ r := by
    cases tok with
    | nil => exact absurd rfl h.1
    | cons c tok => simp only [skipSign, List.cons_append]; split_ifs <;> rfl
  have hinteger : skipInteger (skipSign (tok ++ r)) = .ok r := by
    refine skipInteger_iff.mpr ⟨_, hsign, h, fun _ c hc => ?_⟩
    exact not_isDigit_of_isSpace (hr c (List.mem_of_mem_head? hc))
  show (skipInteger _ >>= fun s => skipFraction s >>= skipExponent) = _
  rw [hinteger, ok_bind, skipTail_space hr]

/-- A number whose digits are all that was walked over is an integer. -/
theorem skipNumber_inv {s r : Bytes} (h : skipNumber s = .ok r)
    (hdigits : ∀ c ∈ skipSign (walked s r), isDigit c) :
    IsInteger (walked s r) ∧ s = walked s r ++ r := by
  obtain ⟨y, hy, htail⟩ := bind_eq_ok h
  obtain ⟨ds, hx, hds, -⟩ := skipInteger_iff.mp hy
  -- the sign, the digits, and what the fraction and the exponent were read from
  obtain ⟨sign, rfl, hsign⟩ :
      ∃ sign, s = sign ++ ds ++ y ∧ ∀ t, skipSign (sign ++ ds ++ t) = ds ++ t := by
    cases s with
    | nil => exact absurd (List.append_eq_nil_iff.mp hx.symm).1 hds.1
    | cons c s =>
      by_cases hc : c = minus
      · rw [skipSign, if_pos hc] at hx
        exact ⟨[minus], by simp [hc, hx], fun t => by simp [skipSign]⟩
      · rw [skipSign, if_neg hc] at hx
        refine ⟨[], hx, fun t => ?_⟩
        obtain ⟨d, ds, rfl⟩ := List.exists_cons_of_ne_nil hds.1
        obtain rfl := (List.cons.inj hx).1
        simp [skipSign, hc]
  have htake : r.length ≤ y.length → walked (sign ++ ds ++ y) r =
      sign ++ ds ++ y.take (y.length - r.length) := fun hle => by
    rw [walked, List.length_append, Nat.add_sub_assoc hle, List.take_length_add_append]
  obtain rfl | ⟨hshort, c, hc, hno⟩ := skipTail_inv htail
  · have hwalked := htake le_rfl
    rw [Nat.sub_self, List.take_zero] at hwalked
    rw [hwalked, IsInteger, hsign, List.append_nil]
    exact ⟨hds, by simp⟩
  · rw [htake hshort.le, hsign] at hdigits
    refine absurd (hdigits c (List.mem_append_right _ ?_)) hno
    obtain ⟨y, rfl⟩ := List.head?_eq_some_iff.mp hc
    obtain ⟨k, hk⟩ := Nat.exists_eq_succ_of_ne_zero (Nat.sub_ne_zero_of_lt hshort)
    rw [hk]
    exact List.mem_cons_self

theorem int_iff {raw : Bytes} {n : Int} :
    int raw = some n ↔ IsInteger (trimSpace raw) ∧ integerValue (trimSpace raw) = n ∧
      -2 ^ 63 ≤ n ∧ n < 2 ^ 63 := by
  constructor
  · intro h
    unfold int at h
    split at h
    · cases h
    · rename_i c t hs
      split_ifs at h
      split at h
      · cases h
      · rename_i r hr
        split_ifs at h with hend
        obtain ⟨hdigits, hvalue⟩ := intOfToken_iff.mp h
        obtain ⟨htok, happend⟩ := skipNumber_inv hr hdigits
        rw [trimSpace_eq (hs.trans happend) (endOfInput_iff.mp hend) htok.not_space]
        exact ⟨htok, hvalue⟩
  · rintro ⟨htok, hvalue⟩
    obtain ⟨r, hs, hr⟩ := skipSpace_eq_append raw
    generalize trimSpace raw = tok at *
    have hnumber := skipNumber_append htok hr
    have hint := intOfToken_iff.mpr ⟨htok.2.1, hvalue⟩
    have hwalked : walked (tok ++ r) r = tok := by simp [walked]
    cases tok with
    | nil => exact absurd rfl htok.1
    | cons c tok =>
      have hc : (c = minus || isDigit c) = true := by
        by_cases hminus : c = minus
        · simp [hminus]
        · have hmem : c ∈ skipSign (c :: tok) := by simp [skipSign, hminus]
          simp [htok.2.1 c hmem]
      simp only [int, hs, List.cons_append, hc, if_true]
      rw [← List.cons_append, hnumber]
      simp only [endOfInput_iff.mpr hr, if_true, hwalked, hint]

/-! ## Machine arithmetic -/

/-- `digitStep` on `uint64`. -/
def wrapStep (u : ℕ) (c : UInt8) : Option ℕ :=
  if isDigit c then
    let d := c.toNat - 0x30
    if (cutoff - d) / 10 < u then none else some ((u * 10 + d) % 2 ^ 64)
  else none

/-- `int64(u)`, in two's complement. -/
def asInt64 (u : ℕ) : Int := if u < 2 ^ 63 then u else u - 2 ^ 64

/-- `intOfToken` on `uint64`. -/
def intOfTokenWrapped (tok : Bytes) : Option Int :=
  if tok.head? = some minus then
    (tok.tail.foldlM wrapStep 0).map fun u => asInt64 ((2 ^ 64 - u) % 2 ^ 64)
  else
    match tok.foldlM wrapStep 0 with
    | none => none
    | some u => if cutoff - 1 < u then none else some (asInt64 u)

theorem wrapStep_eq (u : ℕ) (c : UInt8) : wrapStep u c = digitStep u c := by
  unfold wrapStep digitStep
  by_cases hc : isDigit c
  · have hd := digit_le hc
    have hcut : cutoff = 2 ^ 63 := rfl
    simp only [hc, if_true]
    split_ifs
    · rfl
    · -- the sum is at most the cutoff, far from the end of `uint64`
      rw [Nat.mod_eq_of_lt (by omega)]
  · simp [hc]

theorem intOfTokenWrapped_eq (tok : Bytes) : intOfTokenWrapped tok = intOfToken tok := by
  have hcut : cutoff = 2 ^ 63 := rfl
  have hfold : ∀ ds : Bytes, ds.foldlM wrapStep 0 = accumulate ds := fun ds => by
    rw [funext fun u => funext (wrapStep_eq u)]
    rfl
  unfold intOfTokenWrapped intOfToken
  rw [hfold, hfold]
  split_ifs
  · cases hacc : accumulate tok.tail with
    | none => rfl
    | some u =>
      have hle := (accumulate_iff.mp hacc).2.2
      have hneg : asInt64 ((2 ^ 64 - u) % 2 ^ 64) = -(u : Int) := by
        unfold asInt64
        split_ifs <;> omega
      exact congrArg some hneg
  · cases accumulate tok with
    | none => rfl
    | some u =>
      dsimp only
      split_ifs with hlarge
      · rfl
      · rw [asInt64, if_pos (by omega)]

/-- **`Int` reads the integers of `int64`**: a value comes out exactly if the bytes, trimmed of
    white space, are a number in integer notation of that value, and it is in range.  The
    arithmetic on `uint64` never wraps around. -/
theorem int_reads_int64 (raw : Bytes) (n : Int) :
    (int raw = some n ↔ IsInteger (trimSpace raw) ∧ integerValue (trimSpace raw) = n ∧
      -2 ^ 63 ≤ n ∧ n < 2 ^ 63) ∧ ∀ tok, intOfTokenWrapped tok = intOfToken tok :=
  ⟨int_iff, intOfTokenWrapped_eq⟩

end NaustJmap.Jsonscan
