import NaustJmap.Library.DotBlock
import NaustJmap.Submit.Queue

/-!
# LMTP Sessions

The server side of LMTP (`deliver/lmtp.go`): the command loop over the octets of a connection and
DATA, which hands the rest of the stream to the Deliverer through a dot reader and then
resynchronises.  `turn` is one round; what it took the octets for is kept as `Item`s.  Deliver is a
parameter, as are functions of Go's `strings`, `strconv` and `utf8`.
-/

namespace NaustJmap.Lmtp

open Library
open Submit (Outcome)

/-! ## Texts -/

def octets (s : String) : Octets := ObjectDB.bytesOf s

/-- The text functions of the standard library that the session uses. -/
structure Texts where
  toUpper : Octets → Octets
  trimSpace : Octets → Octets
  fields : Octets → List Octets
  equalFold : Octets → Octets → Bool
  /-- `strconv.ParseInt` in base 10, 64 bits. -/
  parseInt : Octets → Option Int
  /-- `utf8.DecodeRuneInString`: the rune, or `none` for an invalid one, and its length. -/
  decodeRune : Octets → Option ℕ × ℕ

def maxCommandLine : ℕ := 1024

def maxRecipients : ℕ := 128

def maxRcptAttempts : ℕ := 1024

def maxDrain : ℕ := 65536

inductive LineRead where
  | line (content rest : Octets)
  | tooLong
  | failed

def trimCR (s : Octets) : Octets := if s.getLast? = some CR then s.dropLast else s

def readLimitedLine (max : ℕ) (collected : Octets) : Octets → LineRead
  | [] => .failed
  | b :: rest =>
    if b = LF then .line (trimCR collected) rest
    else if max ≤ collected.length then .tooLong
    else readLimitedLine max (collected ++ [b]) rest

def splitCommand (T : Texts) (line : Octets) : Octets × Octets :=
  let line := (line.reverse.dropWhile fun b => b = CR || b = LF).reverse
  let verb := line.takeWhile (· ≠ 32)
  if 32 ∈ line then (verb, T.trimSpace (line.drop (verb.length + 1))) else (line, [])

/-- `validEnvelopeAddr`, with a bound on the runes to come. -/
def validEnvelopeAddr (T : Texts) : ℕ → Octets → Bool
  | 0, _ => true
  | _, [] => true
  | n + 1, b :: rest =>
    if b < 0x20 ∨ b = 0x7f then false
    else if b < 0x80 then validEnvelopeAddr T n rest
    else
      match T.decodeRune (b :: rest) with
      -- opaque 8-bit
      | (none, _) => validEnvelopeAddr T n rest
      | (some r, size) =>
        if 0x80 ≤ r ∧ r ≤ 0x9f then false
        else validEnvelopeAddr T n (rest.drop (size - 1))

def param (T : Texts) (tok : Octets) : Octets × Octets :=
  let key := tok.takeWhile (· ≠ 61)
  (T.toUpper key, tok.drop (key.length + 1))

/-- `parsePath`: the address and the parameters, later ones last. -/
def parsePath (T : Texts) (arg keyword : Octets) : Option (Octets × List (Octets × Octets)) :=
  if arg.length < keyword.length ∨ !T.equalFold (arg.take keyword.length) keyword then none
  else
    let rest := T.trimSpace (arg.drop keyword.length)
    if rest.head? ≠ some 60 ∨ 62 ∉ rest then none
    else
      let addr := (rest.drop 1).takeWhile (· ≠ 62)
      if !validEnvelopeAddr T addr.length addr then none
      else some (addr, (T.fields (rest.drop (addr.length + 2))).map (param T))

/-! ## The transaction -/

/-- `lmtpSession`: the greeting and the transaction. -/
structure Session where
  greeted : Bool := false
  heloName : Octets := []
  haveFrom : Bool := false
  sender : Octets := []
  rcpts : List Octets := []
  rcptAttempts : ℕ := 0

def Session.resetTxn (s : Session) : Session :=
  { s with haveFrom := false, sender := [], rcpts := [], rcptAttempts := 0 }

structure Envelope where
  mailFrom : Octets
  recipients : List Octets
  heloName : Octets

/-- The Deliverer's verdict on a recipient. -/
structure Event where
  outcome : Outcome
  reason : String

/-- What Deliver does with a message: it reads so many octets of it and reports. -/
structure Delivery where
  reads : ℕ
  events : List Event

/-- The server around a session. -/
structure Host where
  texts : Texts
  hostname : String
  maxMessageSize : Int
  resolve : Octets → Bool
  deliver : Envelope → Octets → Delivery

def oneLine (s : String) : String :=
  String.ofList (s.toList.map fun c => if c = '\r' ∨ c = '\n' then ' ' else c)

def lmtpReply (ev : Event) : String :=
  match ev.outcome with
  | .accepted => "250 2.1.5 OK"
  | .tempFailed => "451 4.3.0 " ++ oneLine ev.reason
  | .rejected =>
    if ev.reason = "message too large" then "552 5.3.4 message too large"
    else if ev.reason = "no such recipient" then "550 5.1.1 " ++ oneLine ev.reason
    else "550 5.7.1 " ++ oneLine ev.reason

section

variable (h : Host)

def lhlo (arg : Octets) (s : Session) : Session × List String :=
  ({ s.resetTxn with greeted := true, heloName := arg },
    ["250-" ++ h.hostname, "250-PIPELINING", "250-ENHANCEDSTATUSCODES", "250-8BITMIME",
      "250 SIZE " ++ toString h.maxMessageSize])

def oversized (params : List (Octets × Octets)) : Bool :=
  match (params.reverse.find? (·.1 = octets "SIZE")).bind (h.texts.parseInt ·.2) with
  | none => false
  | some n => h.maxMessageSize < n

def mail (arg : Octets) (s : Session) : Session × List String :=
  if !s.greeted then (s, ["503 5.5.1 Send LHLO first"])
  else if s.haveFrom then (s, ["503 5.5.1 Sender already given"])
  else
    match parsePath h.texts arg (octets "FROM:") with
    | none => (s, ["501 5.5.4 Syntax: MAIL FROM:<address>"])
    | some (sender, params) =>
      if oversized h params then
        (s, ["552 5.3.4 Message size exceeds " ++ toString h.maxMessageSize])
      else ({ s with sender := sender, haveFrom := true }, ["250 2.1.0 OK"])

def rcpt (arg : Octets) (s : Session) : Session × List String :=
  if !s.haveFrom then (s, ["503 5.5.1 Need MAIL before RCPT"])
  else if maxRcptAttempts ≤ s.rcptAttempts then (s, ["452 4.5.3 Too many recipients"])
  else
    let s := { s with rcptAttempts := s.rcptAttempts + 1 }
    match parsePath h.texts arg (octets "TO:") with
    | none => (s, ["501 5.5.4 Syntax: RCPT TO:<address>"])
    | some (rcpt, _) =>
      if maxRecipients ≤ s.rcpts.length then (s, ["452 4.5.3 Too many recipients"])
      else if !h.resolve rcpt then (s, ["550 5.1.1 No such user here"])
      else ({ s with rcpts := s.rcpts ++ [rcpt] }, ["250 2.1.5 OK"])

/-! ## DATA -/

inductive DataResult where
  /-- No transaction to send a message in; nothing of the stream is read. -/
  | refused (reply : String)
  /-- The connection is closed. -/
  | closed
  /-- The message was read to its end; the session goes on with the rest of the stream. -/
  | done (s : Session) (replies : List String) (message rest : Octets)

/-- The reader of the message that DATA hands to Deliver. -/
def messageReader (stream : Octets) : DotReader := ⟨.beginLine, stream⟩

def data (s : Session) (stream : Octets) : DataResult :=
  if !s.haveFrom then .refused "503 5.5.1 Need MAIL before DATA"
  else if s.rcpts.isEmpty then .refused "503 5.5.1 No valid recipients"
  else
    let delivery := h.deliver ⟨s.sender, s.rcpts, s.heloName⟩ stream
    let (got, _, reader) := (messageReader stream).read delivery.reads
    -- Deliver may have stopped early: the rest is drained, within a bound
    match reader.read maxDrain with
    | (drained, .eof, reader) =>
      .done s.resetTxn (delivery.events.map lmtpReply) (got ++ drained) reader.input
    | (_, .full, _) => .closed
    | (_, .failed, _) => .closed

/-! ## The command loop -/

/-- What the loop took octets for. -/
inductive Item where
  | command (line : Octets)
  | message (text : Octets)

/-- A connection: the session, the octets to come and the replies sent. -/
structure Conn where
  session : Session := {}
  input : Octets
  replies : List String := []

def Conn.answer (c : Conn) (rest : Octets) (out : Session × List String) : Conn :=
  { session := out.1, input := rest, replies := c.replies ++ out.2 }

/-- A round of the loop: what it read, what it leaves, and whether the loop goes on. -/
structure Turn where
  items : List Item
  conn : Conn
  stays : Bool := true

def dispatch (c : Conn) (line rest : Octets) : Turn :=
  let (verb, arg) := splitCommand h.texts line
  let verb := h.texts.toUpper verb
  let answer (out : Session × List String) : Turn := ⟨[.command line], c.answer rest out, true⟩
  let simply (reply : String) : Turn := answer (c.session, [reply])
  if verb = octets "LHLO" then answer (lhlo h arg c.session)
  else if verb = octets "HELO" ∨ verb = octets "EHLO" then
    simply "500 5.5.1 Use LHLO, this is LMTP"
  else if verb = octets "MAIL" then answer (mail h arg c.session)
  else if verb = octets "RCPT" then answer (rcpt h arg c.session)
  else if verb = octets "DATA" then
    match data h c.session rest with
    | .refused reply => simply reply
    | .closed =>
      ⟨[.command line], c.answer [] (c.session, ["354 Start mail input; end with <CRLF>.<CRLF>"]),
        false⟩
    | .done s replies message rest =>
      ⟨[.command line, .message message],
        c.answer rest (s, "354 Start mail input; end with <CRLF>.<CRLF>" :: replies), true⟩
  else if verb = octets "RSET" then answer (c.session.resetTxn, ["250 2.0.0 OK"])
  else if verb = octets "NOOP" then simply "250 2.0.0 OK"
  else if verb = octets "VRFY" then simply "502 5.5.1 VRFY not supported"
  else if verb = octets "QUIT" then
    { simply ("221 2.0.0 " ++ h.hostname ++ " closing connection") with stays := false }
  else simply "500 5.5.1 Unrecognized command"

def turn (c : Conn) : Turn :=
  match readLimitedLine maxCommandLine [] c.input with
  | .failed => ⟨[], c, false⟩
  -- the stream can no longer be resynchronised
  | .tooLong => ⟨[], c.answer c.input (c.session, ["500 5.5.2 Command line too long"]), false⟩
  | .line line rest => dispatch h c line rest

/-- The rounds of a connection so far: the items, and where it stands. -/
inductive Serves : Conn → List Item → Conn → Prop where
  | refl (c : Conn) : Serves c [] c
  | turn {c c2 : Conn} {rest : List Item} (hstays : (turn h c).stays)
      (hrest : Serves (turn h c).conn rest c2) : Serves c ((turn h c).items ++ rest) c2

end

end NaustJmap.Lmtp
