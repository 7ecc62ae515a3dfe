import Mathlib.Data.List.Infix
import NaustJmap.Library.DotBlock

/-!
# The Header Block of a Returned Message

`report/headerblock.go`: a report returns the headers of the original message only, and
`headerBlockReader` cuts the message off while it is read.  It sees the message in chunks and gives
it on in pieces of the size its caller asks for; a source that fails is not an octet stream, and its
error is given on.
-/

namespace NaustJmap.Report

open Library

/-! ## The header block -/

def atLineStart (w : Octets) : Bool := w.getLast?.all (· = LF)

/-- A CR that is all there is of a line so far. -/
def afterCR (w : Octets) : Bool := w.getLast? = some CR && atLineStart w.dropLast

/-- The octets end in a blank line, ended by LF or CRLF. -/
def endsBlank (w : Octets) : Bool :=
  w.getLast? = some LF && (atLineStart w.dropLast || afterCR w.dropLast)

/-- Everything through the first blank line; a message without one is all header block. -/
def headerBlock (s : Octets) : Octets := (s.inits.find? endsBlank).getD s

/-! ## The reader -/

/-- `headerBlockReader`, apart from its source. -/
structure HeaderBlockReader where
  buf : Octets := []
  bol : Bool := true
  cr : Bool := false
  found : Bool := false
  eof : Bool := false

/-- `scan`: the octets of the block, whether it ended, and the line state `bol` and `cr`. -/
def scan (bol cr : Bool) : Octets → Octets × Bool × Bool × Bool
  | [] => ([], false, bol, cr)
  | c :: b =>
    if cr then
      if c = LF then ([c], true, bol, false)
      else (scan (c = LF) false b).map (c :: ·) id
    else if bol then
      if c = LF then ([c], true, false, cr)
      else (scan false (c = CR) b).map (c :: ·) id
    else (scan (c = LF) cr b).map (c :: ·) id

/-- The loop of `Read`, until there is something to return or the end.  The source returns one
    chunk for each call, and `io.EOF` after the last one or with it. -/
def fill (withLast : Bool) : List Octets → HeaderBlockReader → List Octets × HeaderBlockReader
  | chunks, h =>
    if h.buf ≠ [] || h.found || h.eof then (chunks, h)
    else
      match chunks with
      | [] => ([], { h with eof := true })
      | c :: chunks =>
        let (cut, found, bol, cr) := scan h.bol h.cr c
        fill withLast chunks ⟨cut, bol, cr, found, chunks.isEmpty && withLast⟩

/-- `Read` into a buffer of `n` octets; `none` is `io.EOF`. -/
def read (withLast : Bool) (n : ℕ) (chunks : List Octets) (h : HeaderBlockReader) :
    Option Octets × List Octets × HeaderBlockReader :=
  let (chunks, h) := fill withLast chunks h
  if h.buf = [] then (none, chunks, h)
  else (some (h.buf.take n), chunks, { h with buf := h.buf.drop n })

/-- All that reads with buffers of these sizes return, and whether the last one was `io.EOF`. -/
def reads (withLast : Bool) : List ℕ → List Octets → HeaderBlockReader → Octets × Bool
  | [], _, _ => ([], false)
  | n :: sizes, chunks, h =>
    match read withLast n chunks h with
    | (none, _, _) => ([], true)
    | (some d, chunks, h) => (reads withLast sizes chunks h).map (d ++ ·) id

/-! ## What is scanned -/

section Lines

variable (w : Octets) (c : UInt8)

theorem atLineStart_append : atLineStart (w ++ [c]) = decide (c = LF) := by simp [atLineStart]

theorem afterCR_append : afterCR (w ++ [c]) = (decide (c = CR) && atLineStart w) := by
  simp [afterCR]

theorem endsBlank_append :
    endsBlank (w ++ [c]) = (decide (c = LF) && (atLineStart w || afterCR w)) := by
  simp [endsBlank]

end Lines

theorem not_atLineStart_of_afterCR {w : Octets} (h : afterCR w) : atLineStart w = false := by
  simp only [afterCR, Bool.and_eq_true, decide_eq_true_eq] at h
  rw [atLineStart, h.1]
  rfl

/-- The line state after `w` is what `scan` has to know of it. -/
theorem scan_cons (w : Octets) (c : UInt8) (s : Octets) :
    (scan (atLineStart w) (afterCR w) (c :: s)).1 = c :: if endsBlank (w ++ [c]) then [] else
      (scan (atLineStart (w ++ [c])) (afterCR (w ++ [c])) s).1 := by
  rw [scan, endsBlank_append, atLineStart_append, afterCR_append]
  by_cases hcr : afterCR w
  · rw [not_atLineStart_of_afterCR hcr]
    by_cases hc : c = LF <;> simp [hcr, hc]
  · by_cases hbol : atLineStart w <;> by_cases hc : c = LF <;> simp [hcr, hbol, hc]

theorem scan_inits {w : Octets} (hw : endsBlank w = false) (s : Octets) :
    w ++ (scan (atLineStart w) (afterCR w) s).1 =
      ((s.inits.map (w ++ ·)).find? endsBlank).getD (w ++ s) := by
  induction s generalizing w with
  | nil => simp [scan, hw]
  | cons c s ih =>
    have hmap : (s.inits.map (c :: ·)).map (w ++ ·) = s.inits.map (w ++ [c] ++ ·) := by simp
    have hcons : ∀ t : Octets, w ++ c :: t = w ++ [c] ++ t := fun t => by simp
    rw [List.inits, List.map_cons, List.find?_cons_of_neg (by simp [hw]),
      hmap, scan_cons, hcons s, hcons (ite _ _ _)]
    by_cases hend : endsBlank (w ++ [c])
    · cases s <;> simp [hend]
    · rw [if_neg hend]
      exact ih (Bool.eq_false_iff.mpr hend)

theorem scan_eq_headerBlock (s : Octets) : (scan true false s).1 = headerBlock s := by
  have h := scan_inits (w := []) rfl s
  simpa [headerBlock, atLineStart, afterCR] using h

theorem scan_append (a b : Octets) (bol cr : Bool) :
    (scan bol cr (a ++ b)).1 = (scan bol cr a).1 ++ if (scan bol cr a).2.1 then [] else
      (scan (scan bol cr a).2.2.1 (scan bol cr a).2.2.2 b).1 := by
  induction a generalizing bol cr with
  | nil => rfl
  | cons c a ih =>
    rw [List.cons_append, scan, scan]
    cases cr <;> cases bol <;> by_cases hc : c = LF <;> simp [hc, ih]

/-! ## What is read -/

def left (chunks : List Octets) (h : HeaderBlockReader) : Octets :=
  h.buf ++ if h.found || h.eof then [] else (scan h.bol h.cr chunks.flatten).1

theorem fill_left (withLast : Bool) (chunks : List Octets) (h : HeaderBlockReader) :
    left (fill withLast chunks h).1 (fill withLast chunks h).2 = left chunks h ∧
      ((fill withLast chunks h).2.buf = [] → left chunks h = []) := by
  fun_induction fill withLast chunks h with
  | case1 chunks h hdone =>
    refine ⟨rfl, fun hbuf : h.buf = [] => ?_⟩
    have hend : (h.found || h.eof) = true := by simpa [hbuf] using hdone
    rw [left, hbuf, if_pos hend, List.append_nil]
  | case2 h hdone =>
    simp_all [left, scan]
  | case3 h hdone c chunks cut found bol cr hscan ih =>
    have hchunk : left chunks ⟨cut, bol, cr, found, chunks.isEmpty && withLast⟩ =
        left (c :: chunks) h := by
      simp only [Bool.or_eq_true, not_or, decide_eq_true_eq, not_not, Bool.not_eq_true] at hdone
      obtain ⟨⟨hbuf, hfound⟩, heof⟩ := hdone
      simp only [left, hbuf, hfound, heof, List.flatten_cons, scan_append, hscan]
      cases chunks <;> simp [scan]
    rw [← hchunk]
    exact ih

theorem read_left (withLast : Bool) (n : ℕ) (chunks : List Octets) (h : HeaderBlockReader) :
    match read withLast n chunks h with
    | (none, _, _) => left chunks h = []
    | (some d, chunks', h') => left chunks h = d ++ left chunks' h' ∧ (0 < n → d ≠ []) := by
  obtain ⟨hleft, hend⟩ := fill_left withLast chunks h
  rw [read]
  generalize fill withLast chunks h = r at *
  obtain ⟨chunks', h'⟩ := r
  by_cases hbuf : h'.buf = []
  · simp only [hbuf, if_true]
    exact hend hbuf
  · simp only [hbuf, if_false]
    refine ⟨?_, fun hn => ?_⟩
    · rw [← hleft, left, left, ← List.append_assoc, List.take_append_drop]
    · simpa [hbuf] using hn.ne'

theorem reads_left (withLast : Bool) (sizes : List ℕ) (chunks : List Octets)
    (h : HeaderBlockReader) :
    let r := reads withLast sizes chunks h
    r.1 <+: left chunks h ∧ (r.2 → r.1 = left chunks h) ∧
      ((∀ n ∈ sizes, 0 < n) → (left chunks h).length < sizes.length → r.2) := by
  induction sizes generalizing chunks h with
  | nil => exact ⟨List.nil_prefix, fun hr => (nomatch hr), fun _ hlen => absurd hlen (by simp)⟩
  | cons n sizes ih =>
    have hread := read_left withLast n chunks h
    rw [reads]
    generalize read withLast n chunks h = r at hread
    obtain ⟨_ | d, chunks', h'⟩ := r
    · simp [show left chunks h = [] from hread]
    · obtain ⟨hleft, hne⟩ := hread
      obtain ⟨hstart, heof, hmany⟩ := ih chunks' h'
      rw [hleft]
      refine ⟨(List.prefix_append_right_inj d).mpr hstart, fun hr => ?_, fun hpos hlen => ?_⟩
      · exact congrArg (d ++ ·) (heof hr)
      · obtain ⟨hn, hpos⟩ := List.forall_mem_cons.mp hpos
        have hd := List.length_pos_iff.mpr (hne hn)
        simp only [List.length_append, List.length_cons] at hlen
        exact hmany hpos (by omega)

/-- **The reader yields the header block**, for every way the source hands out the message and
    every buffer size of the caller: what it returns is a part of the block from its start, all of
    it when `io.EOF` is returned, and with buffers that hold something that comes. -/
theorem reads_headerBlock (withLast : Bool) (sizes : List ℕ) (chunks : List Octets) :
    let r := reads withLast sizes chunks {}
    let block := headerBlock chunks.flatten
    r.1 <+: block ∧ (r.2 → r.1 = block) ∧
      ((∀ n ∈ sizes, 0 < n) → block.length < sizes.length → r.2) := by
  have hleft : left chunks {} = headerBlock chunks.flatten := scan_eq_headerBlock _
  rw [← hleft]
  exact reads_left withLast sizes chunks {}

/-- The blank line is split between two chunks, and the caller takes two octets at a time. -/
theorem reads_headerBlock_split :
    let r := reads true [2, 2, 2, 2, 2, 2] [[88, 13], [10, 13], [], [10, 89]] {}
    r.2 ∧ r.1 = headerBlock [88, 13, 10, 13, 10, 89] := by
  have h := reads_headerBlock true [2, 2, 2, 2, 2, 2] [[88, 13], [10, 13], [], [10, 89]]
  have hend := h.2.2 (by decide) (by decide)
  exact ⟨hend, h.2.1 hend⟩

end NaustJmap.Report
