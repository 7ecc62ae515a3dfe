import NaustJmap.Lmtp.Session

/-!
# Where a Message Ends

How the octets of an LMTP connection are divided into commands and messages (`Framing`): along every
session the stream is read as command lines and, after a DATA that goes through, one dot-encoded
block, whose text the reader handed to Deliver yields (`lmtp_framing`).
-/

namespace NaustJmap.Lmtp

open Library

/-- The stream consists of these items, and this rest. -/
inductive Framing : Octets → List Item → Octets → Prop where
  | nil (stream : Octets) : Framing stream [] stream
  /-- A command line: everything up to a line feed, without a CR before it. -/
  | command {raw stream rest : Octets} {items : List Item} (hraw : LF ∉ raw)
      (h : Framing stream items rest) :
      Framing (raw ++ LF :: stream) (.command (trimCR raw) :: items) rest
  | message {block stream text rest : Octets} {items : List Item} (hblock : Block block text stream)
      (h : Framing stream items rest) : Framing block (.message text :: items) rest

theorem Framing.append {s1 s2 s3 : Octets} {items items' : List Item}
    (h : Framing s1 items s2) (h' : Framing s2 items' s3) : Framing s1 (items ++ items') s3 := by
  induction h with
  | nil => exact h'
  | command hraw _ ih => exact .command hraw (ih h')
  | message hblock _ ih => exact .message hblock (ih h')

/-! ## Commands -/

theorem readLimitedLine_eq {max : ℕ} {collected input line rest : Octets}
    (h : readLimitedLine max collected input = .line line rest) (hc : LF ∉ collected) :
    ∃ raw, LF ∉ raw ∧ collected ++ input = raw ++ LF :: rest ∧ line = trimCR raw := by
  induction input generalizing collected with
  | nil => cases h
  | cons b bs ih =>
    unfold readLimitedLine at h
    split at h
    · next hb =>
      cases h
      exact ⟨collected, hc, by rw [hb], rfl⟩
    · next hb =>
      split at h
      · cases h
      · have hc' : LF ∉ collected ++ [b] := by
          simp only [List.mem_append, List.mem_singleton, not_or]
          exact ⟨hc, fun heq => hb heq.symm⟩
        obtain ⟨raw, hraw, heq, hline⟩ := ih h hc'
        exact ⟨raw, hraw, by simpa using heq, hline⟩

/-! ## Messages -/

theorem data_block {h : Host} {s s' : Session} {stream message rest : Octets}
    {replies : List String} (hdata : data h s stream = .done s' replies message rest) :
    Block stream message rest := by
  unfold data at hdata
  split at hdata
  · cases hdata
  split at hdata
  · cases hdata
  dsimp only at hdata
  split at hdata
  · next drained reader hdrain =>
    cases hdata
    exact DotReader.yields_iff_block.mp (DotReader.yields_of_read_read rfl hdrain)
  · cases hdata
  · cases hdata

/-! ## Sessions -/

/-- If the loop goes on after this round, it has read the round's items. -/
def Turn.Frames (stream : Octets) (t : Turn) : Prop :=
  t.stays → Framing stream t.items t.conn.input

theorem dispatch_frames (h : Host) (c : Conn) {raw : Octets} (hraw : LF ∉ raw) (rest : Octets) :
    (dispatch h c (trimCR raw) rest).Frames (raw ++ LF :: rest) := by
  -- a command without a body leaves the rest of the stream alone
  have hcommand : ∀ out : Session × List String,
      Turn.Frames (raw ++ LF :: rest) ⟨[.command (trimCR raw)], c.answer rest out, true⟩ :=
    fun _ _ => .command hraw (.nil rest)
  unfold dispatch
  dsimp only
  split
  · exact hcommand _
  split
  · exact hcommand _
  split
  · exact hcommand _
  split
  · exact hcommand _
  split
  · split
    · exact hcommand _
    · exact fun hstays => by cases hstays
    · next s' replies message rest' hdone =>
      exact fun _ => .command hraw (.message (data_block hdone) (.nil rest'))
  split
  · exact hcommand _
  split
  · exact hcommand _
  split
  · exact hcommand _
  split
  · exact fun hstays => by cases hstays
  · exact hcommand _

theorem turn_frames (h : Host) (c : Conn) : (turn h c).Frames c.input := by
  unfold turn
  split
  · exact fun hstays => by cases hstays
  · exact fun hstays => by cases hstays
  · next line rest hline =>
    obtain ⟨raw, hraw, hinput, rfl⟩ := readLimitedLine_eq hline (by simp)
    rw [List.nil_append] at hinput
    rw [hinput]
    exact dispatch_frames h c hraw rest

theorem serves_framing {h : Host} {c c' : Conn} {items : List Item} (hr : Serves h c items c') :
    Framing c.input items c'.input := by
  induction hr with
  | refl c => exact .nil c.input
  | turn hstays _ ih => exact (turn_frames h _ hstays).append ih

/-- For every octet stream that follows DATA, and every session:

    - if the stream begins with a block (lines, the first of which that is a single dot ends
      it), what Deliver can read of the message is the text of that block: the lines before
      the dot line with their leading dots removed and their ends rewritten to LF;
    - Deliver finds the end of the message only at the end of such a block;
    - the session goes on only after the whole block, with the octets that follow it;
    - so along every session the stream is read as command lines and the blocks of the messages,
      one after the other, and no octet of a message is read as part of a command. -/
theorem lmtp_framing (h : Host) (stream : Octets) :
    (∀ text rest, Block stream text rest →
      ∀ n, ((messageReader stream).read n).1 = text.take n) ∧
    (∀ n text reader, (messageReader stream).read n = (text, .eof, reader) →
      Block stream text reader.input) ∧
    (∀ s s' replies text rest, data h s stream = .done s' replies text rest →
      Block stream text rest) ∧
    (∀ items c, Serves h { input := stream } items c → Framing stream items c.input) := by
  refine ⟨fun text rest hblock n => ?_, fun n text reader hread => ?_,
    fun s s' replies text rest hdata => data_block hdata, fun items c hr => serves_framing hr⟩
  · exact (DotReader.yields_of_block hblock).read_eq n
  · exact DotReader.yields_iff_block.mp (DotReader.yields_of_read hread)

/-! ## A message that ends at a bare line feed -/

def plainHost : Host where
  texts :=
    { toUpper := fun s => s, trimSpace := fun s => s, fields := fun s => [s]
      equalFold := fun a b => a = b, parseInt := fun _ => none
      decodeRune := fun _ => (none, 1) }
  hostname := "mx"
  maxMessageSize := 1000
  resolve _ := true
  deliver _ stream := ⟨stream.length, [⟨.accepted, ""⟩]⟩

def oneRcpt : Session := { greeted := true, haveFrom := true, rcpts := [octets "a@x"] }

/-- `Hi` CRLF, a dot, a bare LF, and octets that follow. -/
def bareDotLine : Octets := [72, 105, CR, LF, DOT, LF, 78, 79, 79, 80, CR, LF]

/-- The stream holds no CRLF.CRLF; the message ends at the dot all the same, its CRLF has become
    LF, and what follows is left for the command loop. -/
theorem ended_by_bare_dot_line :
    data plainHost oneRcpt bareDotLine =
      .done oneRcpt.resetTxn ["250 2.1.5 OK"] [72, 105, LF] [78, 79, 79, 80, CR, LF] ∧
    ¬ [CR, LF, DOT, CR, LF] <:+: bareDotLine := by
  refine ⟨rfl, by decide⟩

end NaustJmap.Lmtp
