import Mathlib.Data.List.Basic
import Mathlib.Data.List.DropRight

/-!
# Dot-Encoded Blocks

The framing of message text in SMTP-like protocols.  `DotReader` is the decoder of Go's
`net/textproto`, a state machine that yields the text with its line endings rewritten to LF; `Block`
is the grammar of what it accepts, and `yields_iff_block` says that they agree.  A line ends at CRLF
or at a bare LF, except that a bare LF at the very start of a line is text of that line.
-/

namespace NaustJmap.Library

abbrev Octets := List UInt8

def LF : UInt8 := 10

def CR : UInt8 := 13

def DOT : UInt8 := 46

/-- `strings.ReplaceAll` of CRLF by LF. -/
def replaceCRLF : Octets → Octets
  | [] => []
  | c :: s => if c = CR ∧ s.head? = some LF then replaceCRLF s else c :: replaceCRLF s

/-! ## The decoder -/

inductive DotState where
  | beginLine
  /-- A dot at the beginning of a line. -/
  | dot
  /-- A dot and CR at the beginning of a line. -/
  | dotCR
  /-- A CR that may begin a line ending. -/
  | cr
  | data
  | eof
  deriving DecidableEq

structure DotReader where
  state : DotState := .beginLine
  input : Octets

/-- What the next octet of text is. -/
inductive DotStep where
  | octet (c : UInt8) (r : DotReader)
  | eof (r : DotReader)
  /-- The stream ends inside the block. -/
  | failed (r : DotReader)

def DotReader.step : DotState → Octets → DotStep
  | .eof, input => .eof ⟨.eof, input⟩
  | st, [] => .failed ⟨st, []⟩
  | .beginLine, c :: cs =>
    if c = DOT then step .dot cs
    else if c = CR then step .cr cs
    -- also when it is a line feed
    else .octet c ⟨.data, cs⟩
  | .dot, c :: cs =>
    if c = CR then step .dotCR cs
    else if c = LF then .eof ⟨.eof, cs⟩
    else .octet c ⟨.data, cs⟩
  | .dotCR, c :: cs =>
    if c = LF then .eof ⟨.eof, cs⟩
    -- the octet is unread; the CR it followed is text
    else .octet CR ⟨.data, c :: cs⟩
  | .cr, c :: cs =>
    if c = LF then .octet LF ⟨.beginLine, cs⟩
    else .octet CR ⟨.data, c :: cs⟩
  | .data, c :: cs =>
    if c = CR then step .cr cs
    else if c = LF then .octet LF ⟨.beginLine, cs⟩
    else .octet c ⟨.data, cs⟩

def DotReader.next (r : DotReader) : DotStep := step r.state r.input

inductive ReadEnd where
  | full | eof | failed
  deriving DecidableEq

def DotReader.read : ℕ → DotReader → Octets × ReadEnd × DotReader
  | 0, r => ([], .full, r)
  | n + 1, r =>
    match r.next with
    | .octet c r' =>
      let (cs, e, r'') := r'.read n
      (c :: cs, e, r'')
    | .eof r' => ([], .eof, r')
    | .failed r' => ([], .failed, r')

/-- The decoder yields these octets and is then in the second state. -/
inductive DotReader.Reads : DotReader → Octets → DotReader → Prop where
  | nil (r : DotReader) : Reads r [] r
  | cons {r r1 r2 : DotReader} {c : UInt8} {cs : Octets} (h : r.next = .octet c r1)
      (hr : Reads r1 cs r2) : Reads r (c :: cs) r2

/-- Read to its end, the decoder yields this text and leaves these octets of the stream. -/
def DotReader.Yields (r : DotReader) (text rest : Octets) : Prop :=
  ∃ r1, r.Reads text r1 ∧ r1.next = .eof ⟨.eof, rest⟩

variable {r r1 : DotReader} {cs rest stream : Octets} {crlf : Bool}

namespace DotReader

theorem Reads.trans {r2 : DotReader} {ds : Octets} (h : r.Reads cs r1) (h' : r1.Reads ds r2) :
    r.Reads (cs ++ ds) r2 := by
  induction h with
  | nil r => exact h'
  | cons hc _ ih => exact .cons hc (ih h')

theorem Yields.of_reads {text : Octets} (h : r.Reads cs r1) (hy : r1.Yields text rest) :
    r.Yields (cs ++ text) rest := by
  obtain ⟨r2, hr, hend⟩ := hy
  exact ⟨r2, h.trans hr, hend⟩

theorem Yields.of_reads_inv {text : Octets} (h : r.Reads cs r1) (hy : r.Yields text rest) :
    ∃ text', text = cs ++ text' ∧ r1.Yields text' rest := by
  induction h generalizing text with
  | nil r => exact ⟨text, rfl, hy⟩
  | cons hc _ ih =>
    obtain ⟨r2, hr, hend⟩ := hy
    cases hr with
    | nil =>
      rw [hc] at hend
      cases hend
    | cons hc' hr' =>
      rw [hc] at hc'
      cases hc'
      obtain ⟨text', rfl, hy'⟩ := ih ⟨r2, hr', hend⟩
      exact ⟨text', rfl, hy'⟩

theorem step_eof {st : DotState} {input : Octets} (h : step st input = .eof r) :
    r.state = .eof := by
  fun_induction step st input with
  | case1 | case7 | case9 =>
    cases h
    rfl
  | case3 _ ih | case4 _ _ ih | case6 _ ih | case13 _ ih => exact ih h
  | _ => cases h

theorem step_failed {st : DotState} {input : Octets} (h : step st input = .failed r) :
    r.next = .failed r := by
  fun_induction step st input with
  | case2 st hst =>
    cases h
    cases st with
    | eof => exact absurd rfl hst
    | beginLine | dot | dotCR | cr | data => rfl
  | case3 _ ih | case4 _ _ ih | case6 _ ih | case13 _ ih => exact ih h
  | _ => cases h

theorem read_of_eof (h : r.state = .eof) (n : ℕ) : r.read (n + 1) = ([], .eof, r) := by
  obtain ⟨st, input⟩ := r
  obtain rfl : st = .eof := h
  cases input <;> rfl

theorem yields_of_read {n : ℕ} {r' : DotReader} (h : r.read n = (cs, .eof, r')) :
    r.Yields cs r'.input := by
  induction n generalizing r cs with
  | zero => cases h
  | succ n ih =>
    unfold read at h
    split at h
    · next c r1 hstep =>
      obtain ⟨rfl, hrest⟩ : c :: (r1.read n).1 = cs ∧ (r1.read n).2 = (.eof, r') := by
        simpa [Prod.ext_iff] using h
      obtain ⟨r2, hr, hend⟩ := ih (Prod.ext rfl hrest)
      exact ⟨r2, .cons hstep hr, hend⟩
    · next r1 hstep =>
      cases h
      refine ⟨r, .nil r, ?_⟩
      rw [hstep]
      obtain ⟨st, input⟩ := r'
      obtain rfl : st = .eof := step_eof hstep
      rfl
    · cases h

theorem yields_of_read_read {n m : ℕ} {r2 : DotReader} {ds : Octets} {e : ReadEnd}
    (h : r.read n = (cs, e, r1)) (h' : r1.read m = (ds, .eof, r2)) :
    r.Yields (cs ++ ds) r2.input := by
  induction n generalizing r cs with
  | zero =>
    cases h
    exact yields_of_read h'
  | succ n ih =>
    unfold read at h
    split at h
    · next c r3 hstep =>
      obtain ⟨rfl, hrest⟩ : c :: (r3.read n).1 = cs ∧ (r3.read n).2 = (e, r1) := by
        simpa [Prod.ext_iff] using h
      obtain ⟨r4, hr, hend⟩ := ih (Prod.ext rfl hrest)
      exact ⟨r4, .cons hstep hr, hend⟩
    · next r3 hstep =>
      cases h
      cases m with
      | zero => cases h'
      | succ m =>
        rw [read_of_eof (step_eof hstep)] at h'
        cases h'
        exact yields_of_read (n := 1) (by simp [read, hstep])
    · next r3 hstep =>
      -- a decoder that failed does not come to its end
      cases h
      cases m with
      | zero => cases h'
      | succ m =>
        unfold read at h'
        rw [step_failed hstep] at h'
        cases h'

theorem Yields.read_eq {text : Octets} (h : r.Yields text rest) (n : ℕ) :
    (r.read n).1 = text.take n := by
  obtain ⟨r1, hr, hend⟩ := h
  induction hr generalizing n with
  | nil r =>
    cases n with
    | zero => rfl
    | succ n => simp [read, hend]
  | cons hc _ ih =>
    cases n with
    | zero => rfl
    | succ n => simp [read, hc, ih n hend]

end DotReader

/-! ## The grammar -/

def eol (crlf : Bool) : Octets := if crlf then [CR, LF] else [LF]

/-- A line of a block: what stands before its end, and which end it is. -/
structure Line where
  content : Octets
  crlf : Bool
  /-- Only a line feed at the very start is text. -/
  inner : LF ∉ content.drop 1
  /-- An empty line ends in CRLF. -/
  empty : content = [] → crlf = true
  /-- A CR before the end belongs to the end. -/
  last : crlf = false → content.getLast? ≠ some CR

def Line.raw (l : Line) : Octets := l.content ++ eol l.crlf

/-- The line without its leading dot, and with a plain line feed. -/
def Line.text (l : Line) : Octets :=
  (if l.content.head? = some DOT then l.content.drop 1 else l.content) ++ [LF]

def Line.Ends (l : Line) : Prop := l.content = [DOT]

/-- The stream begins with a block of this text, after which this rest follows. -/
inductive Block : Octets → Octets → Octets → Prop where
  | ends (crlf : Bool) (rest : Octets) : Block (DOT :: (eol crlf ++ rest)) [] rest
  | line (l : Line) (hl : ¬ l.Ends) {stream text rest : Octets} (h : Block stream text rest) :
      Block (l.raw ++ stream) (l.text ++ text) rest

/-! ## The decoder accepts the grammar -/

namespace DotReader

variable {c : UInt8} {w : Octets}

theorem CR_ne_LF : CR ≠ LF := by decide

theorem DOT_ne_CR : DOT ≠ CR := by decide

theorem reads_cr (h : cs.head? ≠ some LF) (hne : cs ≠ []) :
    step .cr cs = .octet CR ⟨.data, cs⟩ := by
  cases cs with
  | nil => exact absurd rfl hne
  | cons c cs => simp_all [step]

theorem reads_dotCR (h : cs.head? ≠ some LF) (hne : cs ≠ []) :
    step .dotCR cs = .octet CR ⟨.data, cs⟩ := by
  cases cs with
  | nil => exact absurd rfl hne
  | cons c cs => simp_all [step]

theorem head?_ne_LF (hw : LF ∉ w) (hlast : w = [] → crlf = true) :
    (w ++ eol crlf ++ cs).head? ≠ some LF := by
  cases w with
  | nil =>
    obtain rfl := hlast rfl
    simp [eol, CR_ne_LF]
  | cons d w =>
    have hd : d ≠ LF := fun h => hw (h ▸ List.mem_cons_self)
    simpa using hd

theorem last_tail (h : crlf = false → (c :: w).getLast? ≠ some CR) :
    crlf = false → w.getLast? ≠ some CR := by
  intro hcrlf hw
  refine h hcrlf ?_
  rw [List.getLast?_cons, hw]
  rfl

theorem crlf_of_last (h : crlf = false → (CR :: w).getLast? ≠ some CR) : w = [] → crlf = true := by
  rintro rfl
  by_contra hcrlf
  exact h (Bool.not_eq_true _ ▸ hcrlf) rfl

theorem reads_data (hw : LF ∉ w) (hlast : crlf = false → w.getLast? ≠ some CR) :
    (DotReader.mk .data (w ++ eol crlf ++ cs)).Reads (w ++ [LF]) ⟨.beginLine, cs⟩ := by
  induction w with
  | nil =>
    refine .cons ?_ (.nil _)
    cases crlf <;> simp [next, step, eol, CR_ne_LF.symm]
  | cons c w ih =>
    have hc : c ≠ LF := fun h => hw (h ▸ List.mem_cons_self)
    have hw' : LF ∉ w := fun h => hw (List.mem_cons_of_mem c h)
    refine .cons ?_ (ih hw' (last_tail hlast))
    by_cases hcr : c = CR
    · subst hcr
      exact reads_cr (head?_ne_LF hw' (crlf_of_last hlast)) (by cases crlf <;> simp [eol])
    · simp [next, step, hcr, hc]

theorem reads_line (l : Line) (hl : ¬ l.Ends) :
    (DotReader.mk .beginLine (l.raw ++ cs)).Reads l.text ⟨.beginLine, cs⟩ := by
  obtain ⟨content, crlf, hinner, hempty, hlast⟩ := l
  cases content with
  | nil =>
    obtain rfl := hempty rfl
    refine .cons ?_ (.nil _)
    simp [next, step, Line.raw, eol, DOT_ne_CR.symm]
  | cons c w =>
    have hw : LF ∉ w := hinner
    by_cases hdot : c = DOT
    · -- the dot is dropped; the line goes on after it
      subst hdot
      cases w with
      | nil => exact absurd rfl hl
      | cons d w =>
        have hd : d ≠ LF := fun h => hw (h ▸ List.mem_cons_self)
        have hw1 : LF ∉ w := fun h => hw (List.mem_cons_of_mem d h)
        have hlast1 := last_tail hlast
        refine .cons ?_ (reads_data hw1 (last_tail hlast1))
        by_cases hcr : d = CR
        · subst hcr
          exact reads_dotCR (head?_ne_LF hw1 (crlf_of_last hlast1))
            (by cases crlf <;> simp [eol])
        · simp [next, Line.raw, step, hcr, hd]
    · have htext : Line.text ⟨c :: w, crlf, hinner, hempty, hlast⟩ = c :: (w ++ [LF]) := by
        simp [Line.text, hdot]
      rw [htext]
      refine .cons ?_ (reads_data hw (last_tail hlast))
      by_cases hcr : c = CR
      · subst hcr
        exact reads_cr (head?_ne_LF hw (crlf_of_last hlast)) (by cases crlf <;> simp [eol])
      · simp [next, Line.raw, step, hdot, hcr]

theorem next_ends (crlf : Bool) :
    (DotReader.mk .beginLine (DOT :: (eol crlf ++ cs))).next = .eof ⟨.eof, cs⟩ := by
  cases crlf <;> simp [next, step, eol, CR_ne_LF.symm]

theorem yields_of_block {text : Octets} (h : Block stream text rest) :
    (DotReader.mk .beginLine stream).Yields text rest := by
  induction h with
  | ends crlf rest => exact ⟨_, .nil _, next_ends crlf⟩
  | line l hl _ ih => exact .of_reads (reads_line l hl) ih

/-! ## The decoder accepts nothing else -/

/-- No line ending is left that the decoder could meet. -/
def Endless (r : DotReader) : Prop :=
  r.state ≠ .eof ∧ LF ∉ (if r.state = .beginLine then r.input.drop 1 else r.input)

theorem Endless.next (h : r.Endless) :
    (∃ c r', r.next = .octet c r' ∧ r'.Endless) ∨ ∃ r', r.next = .failed r' := by
  obtain ⟨st, input⟩ := r
  -- the states inside a line, where no line feed may come at all
  have hcr : ∀ {cs}, LF ∉ cs → (∃ c r', step .cr cs = .octet c r' ∧ r'.Endless) ∨
      ∃ r', step .cr cs = .failed r' := by
    intro cs hcs
    cases cs with
    | nil => exact .inr ⟨_, rfl⟩
    | cons d ds =>
      have hd : d ≠ LF := fun h => hcs (h ▸ List.mem_cons_self)
      exact .inl ⟨_, _, reads_cr (by simpa using hd) (by simp), by simp, by simpa using hcs⟩
  have hdot : ∀ {cs}, LF ∉ cs → (∃ c r', step .dot cs = .octet c r' ∧ r'.Endless) ∨
      ∃ r', step .dot cs = .failed r' := by
    intro cs hcs
    cases cs with
    | nil => exact .inr ⟨_, rfl⟩
    | cons d ds =>
      have hd : d ≠ LF := fun h => hcs (h ▸ List.mem_cons_self)
      have hds : LF ∉ ds := fun h => hcs (List.mem_cons_of_mem d h)
      by_cases hdcr : d = CR
      · cases ds with
        | nil => exact .inr ⟨⟨.dotCR, []⟩, by simp [step, hdcr]⟩
        | cons e es =>
          refine .inl ⟨CR, ⟨.data, e :: es⟩, ?_, by simp, by simpa using hds⟩
          have he : e ≠ LF := fun h => hds (h ▸ List.mem_cons_self)
          simp [step, hdcr, he]
      · exact .inl ⟨d, ⟨.data, ds⟩, by simp [step, hdcr, hd], by simp, by simpa using hds⟩
  obtain ⟨hst, hlf⟩ := h
  match st, input with
  | .eof, _ => exact absurd rfl hst
  | .beginLine, [] | .dot, [] | .dotCR, [] | .cr, [] | .data, [] => exact .inr ⟨_, rfl⟩
  | .beginLine, c :: cs =>
    have hcs : LF ∉ cs := by simpa using hlf
    by_cases hc : c = DOT
    · simpa [DotReader.next, step, hc] using hdot hcs
    · by_cases hccr : c = CR
      · simpa [DotReader.next, step, hccr, DOT_ne_CR.symm] using hcr hcs
      · exact .inl ⟨c, ⟨.data, cs⟩, by simp [DotReader.next, step, hc, hccr], by simp,
          by simpa using hcs⟩
  | .dot, c :: cs => exact hdot (by simpa using hlf)
  | .cr, c :: cs => exact hcr (by simpa using hlf)
  | .dotCR, c :: cs =>
    have hlf' : LF ∉ c :: cs := by simpa using hlf
    have hc : c ≠ LF := fun h => hlf' (h ▸ List.mem_cons_self)
    exact .inl ⟨CR, ⟨.data, c :: cs⟩, reads_dotCR (by simpa using hc) (by simp), by simp,
      by simpa using hlf⟩
  | .data, c :: cs =>
    have hlf' : LF ∉ c :: cs := by simpa using hlf
    have hc : c ≠ LF := fun h => hlf' (h ▸ List.mem_cons_self)
    have hcs : LF ∉ cs := fun h => hlf' (List.mem_cons_of_mem c h)
    by_cases hccr : c = CR
    · simpa [DotReader.next, step, hccr] using hcr hcs
    · exact .inl ⟨c, ⟨.data, cs⟩, by simp [DotReader.next, step, hc, hccr], by simp,
        by simpa using hcs⟩

theorem Endless.not_yields (h : r.Endless) {text : Octets} : ¬ r.Yields text rest := by
  rintro ⟨r1, hr, hend⟩
  induction hr with
  | nil r =>
    rcases h.next with ⟨c, r', hnext, -⟩ | ⟨r', hnext⟩ <;> rw [hnext] at hend <;> cases hend
  | cons hc _ ih =>
    rcases h.next with ⟨c, r', hnext, h'⟩ | ⟨r', hnext⟩ <;> rw [hnext] at hc <;> cases hc
    exact ih h' hend

theorem line_cases (stream : Octets) :
    (∃ crlf cs, stream = DOT :: (eol crlf ++ cs)) ∨
      (∃ (l : Line) (cs : Octets), ¬ l.Ends ∧ stream = l.raw ++ cs) ∨
      (DotReader.mk .beginLine stream).Endless := by
  cases stream with
  | nil => exact .inr (.inr ⟨by simp, by simp⟩)
  | cons c cs =>
    by_cases hlf : LF ∈ cs
    · obtain ⟨w, tail, rfl, hw⟩ := List.eq_append_cons_of_mem hlf
      rcases List.eq_nil_or_concat (c :: w) with hnil | ⟨content, d, hcontent⟩
      · cases hnil
      have hinner : LF ∉ content.drop 1 := by
        intro hmem
        cases content with
        | nil => simp at hmem
        | cons e es =>
          obtain ⟨rfl, rfl⟩ : c = e ∧ w = es ++ [d] := by simpa using hcontent
          exact hw (List.mem_append_left _ hmem)
      -- a CR before the line feed belongs to the line's end
      by_cases hd : d = CR
      · subst hd
        by_cases hdot : content = [DOT]
        · refine .inl ⟨true, tail, ?_⟩
          rw [← List.cons_append, hcontent, hdot]
          simp [eol]
        · refine .inr (.inl ⟨⟨content, true, hinner, fun _ => rfl, by simp⟩, tail, hdot, ?_⟩)
          rw [← List.cons_append, hcontent]
          simp [Line.raw, eol]
      · by_cases hdot : c :: w = [DOT]
        · refine .inl ⟨false, tail, ?_⟩
          rw [← List.cons_append, hdot]
          simp [eol]
        · have hlast : (c :: w).getLast? ≠ some CR := by simpa [hcontent] using hd
          refine .inr (.inl ⟨⟨c :: w, false, hw, by simp, fun _ => hlast⟩, tail, hdot, ?_⟩)
          simp [Line.raw, eol]
    · exact .inr (.inr ⟨by simp, by simpa using hlf⟩)

theorem block_of_yields {text : Octets} (h : (DotReader.mk .beginLine stream).Yields text rest) :
    Block stream text rest := by
  induction hn : stream.length using Nat.strong_induction_on generalizing stream text with
  | _ n ih =>
    rcases line_cases stream with ⟨crlf, cs, rfl⟩ | ⟨l, cs, hl, rfl⟩ | hendless
    · -- the end line ends it at once
      obtain ⟨r1, hr, hend⟩ := h
      cases hr with
      | nil =>
        rw [next_ends] at hend
        cases hend
        exact .ends crlf _
      | cons hc _ =>
        rw [next_ends] at hc
        cases hc
    · obtain ⟨text', rfl, hy⟩ := h.of_reads_inv (reads_line l hl)
      refine .line l hl (ih cs.length ?_ hy rfl)
      rw [← hn, Line.raw]
      cases l.crlf <;> simp [eol] <;> omega
    · exact absurd h hendless.not_yields

theorem yields_iff_block {text : Octets} :
    (DotReader.mk .beginLine stream).Yields text rest ↔ Block stream text rest :=
  ⟨block_of_yields, yields_of_block⟩

end DotReader

end NaustJmap.Library
