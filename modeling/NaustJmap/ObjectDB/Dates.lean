import NaustJmap.ObjectDB.Keys

/-!
# Dates on the Fast Path

`utcDateMicros` reads the canonical UTC form of a date without `time.Parse`, and is there to answer
as `time.Parse` does.  It allows for a leap second, which `time.Parse` refuses: seconds of 60 are
carried into the next minute.
-/

namespace NaustJmap.ObjectDB

def parseUint (s : Bytes) (lo hi : ℕ) : Option ℕ := (digits s).filter fun x => lo ≤ x && x ≤ hi

/-- A fraction of a second in nanoseconds, cut off after nine digits, and what follows it. -/
def parseFraction (s : Bytes) : ℕ × Bytes :=
  let ds := s.tail.takeWhile fun c => '0'.toUInt8 ≤ c ∧ c ≤ '9'.toUInt8
  if s.head? = some '.'.toUInt8 ∧ ds ≠ [] then
    (((digits (ds.take 9)).getD 0) * 10 ^ (9 - ds.length), s.drop (ds.length + 1))
  else (0, s)

def parseZone (s : Bytes) : Option Int :=
  if s = ['Z'.toUInt8] then some 0
  else do
    guard (s.length = 6 ∧ s[3]? = some ':'.toUInt8)
    let hour ← parseUint ((s.drop 1).take 2) 0 23
    let minute ← parseUint ((s.drop 4).take 2) 0 59
    if s[0]? = some '+'.toUInt8 then some ((hour * 60 + minute) * 60 : ℕ)
    else if s[0]? = some '-'.toUInt8 then some (-((hour * 60 + minute) * 60 : ℕ))
    else none

/-- `time.parseRFC3339`, in nanoseconds since the Unix epoch. -/
def parseRFC3339 (s : Bytes) : Option Int := do
  guard (19 ≤ s.length)
  let num := fun (start width lo hi : ℕ) => parseUint ((s.drop start).take width) lo hi
  -- four digits are in the range of a year
  let year ← digits ((s.drop 0).take 4)
  let month ← num 5 2 1 12
  let day ← num 8 2 1 (daysInMonth year month)
  let hour ← num 11 2 0 23
  let minute ← num 14 2 0 59
  let second ← num 17 2 0 59
  guard (s[4]? = some '-'.toUInt8 ∧ s[7]? = some '-'.toUInt8 ∧ s[10]? = some 'T'.toUInt8 ∧
    s[13]? = some ':'.toUInt8 ∧ s[16]? = some ':'.toUInt8)
  let (nanos, zone) := parseFraction (s.drop 19)
  let offset ← parseZone zone
  let secs : ℕ := hour * 3600 + minute * 60 + second
  return (unixDays year month day * 86400 + secs - offset) * 1000000000 + nanos

/-- `time.Parse(time.RFC3339, s)`: what `parseRFC3339` does not read is left to the parser for any
    layout. -/
def timeParse (general : Bytes → Option Int) (s : Bytes) : Option Int :=
  (parseRFC3339 s).or (general s)

/-- The string between the quotes of 22 octets. -/
def dateOf (raw : Raw) : Bytes := ((bytesOf raw).drop 1).take 20

def secondsOf (s : Bytes) : Option ℕ := digits ((s.drop 17).take 2)

/-- The general parser has the range of seconds, too. -/
def RefusesSixty (general : Bytes → Option Int) : Prop :=
  ∀ s, s.length = 20 → secondsOf s = some 60 → general s = none

theorem parseUint_eq {s : Bytes} {x : ℕ} (h : digits s = some x) (lo hi : ℕ) :
    parseUint s lo hi = if lo ≤ x ∧ x ≤ hi then some x else none := by
  simp [parseUint, h, Option.filter]

theorem utcDateMicros_parse {raw : Raw} {m : Int} (h : utcDateMicros raw = some m) :
    (dateOf raw).length = 20 ∧ ∃ second ≤ 60, secondsOf (dateOf raw) = some second ∧
      parseRFC3339 (dateOf raw) = if second ≤ 59 then some (m * 1000) else none := by
  unfold utcDateMicros at h
  simp only [Option.bind_eq_bind, Option.bind_eq_some_iff, Option.guard_eq_some', exists_const] at h
  obtain ⟨⟨hlen, -, -⟩, ⟨h4, h7, h10, h13, h16, h19⟩, year, hyear, month, hmonth, day, hday, hour,
    hhour, minute, hminute, second, hsecond, hrange, ⟨hdays, -⟩, hm⟩ := h
  cases hm
  have hlen20 : (((bytesOf raw).drop 1).take 20).length = 20 := by simp [hlen]
  rw [dateOf]
  generalize ((bytesOf raw).drop 1).take 20 = s at *
  refine ⟨hlen20, second, hrange.2.2.2.2.2, hsecond, ?_⟩
  -- there is room for neither a fraction nor an offset
  have hz : s.drop 19 = ['Z'.toUInt8] := by
    rw [List.drop_eq_getElem_cons (by omega), List.drop_of_length_le (by omega)]
    rw [List.getElem?_eq_getElem (by omega)] at h19
    rw [Option.some.inj h19]
  have hfraction : parseFraction ['Z'.toUInt8] = (0, ['Z'.toUInt8]) := rfl
  have hzone : parseZone ['Z'.toUInt8] = some 0 := rfl
  unfold parseRFC3339
  simp only [hyear, parseUint_eq hmonth, parseUint_eq hday, parseUint_eq hhour,
    parseUint_eq hminute, parseUint_eq hsecond, hlen20, h4, h7, h10, h13, h16, hz, hrange,
    hfraction, hzone]
  by_cases hsec : second ≤ 59
  · simp [hsec]
    rw [if_pos hdays, Option.bind_some]
    congr 1
    ring
  · simp [hsec]

/-- **The fast path answers as `time.Parse` does**, except for seconds of 60. -/
theorem utcDateMicros_parses_iff {general : Bytes → Option Int} (hgeneral : RefusesSixty general)
    {raw : Raw} {m : Int} (h : utcDateMicros raw = some m) :
    (timeParse general (dateOf raw)).map (· / 1000) = some m ↔
      secondsOf (dateOf raw) ≠ some 60 := by
  obtain ⟨hlen, second, hle, hsecond, hparse⟩ := utcDateMicros_parse h
  rw [timeParse, hparse, hsecond]
  by_cases hsec : second ≤ 59
  · simp [hsec]
    omega
  · obtain rfl : second = 60 := by omega
    simp [hgeneral _ hlen hsecond]

theorem utcDateMicros_parses_noon :
    (timeParse (fun _ => none) (dateOf "\"2026-08-04T12:30:59Z\"")).map (· / 1000) =
      some 1785846659000000 :=
  (utcDateMicros_parses_iff (fun _ _ _ => rfl) (by decide +kernel)).mpr (by decide +kernel)

/-- A minute of 61 seconds is read as the next one, and `time.Parse` refuses it. -/
theorem leap_second_carried :
    utcDateMicros "\"2026-08-04T12:30:60Z\"" = utcDateMicros "\"2026-08-04T12:31:00Z\"" ∧
      (utcDateMicros "\"2026-08-04T12:30:60Z\"").isSome ∧
      timeParse (fun _ => none) (dateOf "\"2026-08-04T12:30:60Z\"") = none := by
  decide +kernel

end NaustJmap.ObjectDB
