import NaustJmap.Library.Threads
import NaustJmap.Submit.Queue

/-!
# SMTPRelay

The reference Submitter (`smtprelay.go`): one SMTP session that relays one message to a smarthost.
`SMTPRelay.submit` is a program over what the session does to the outside; its history is the list
of these operations with their answers, so that a result about every run is one about every script
of replies and failures.  How Go renders and folds texts is a parameter.
-/

namespace NaustJmap.Submit.Relay

open Library ObjectDB

/-! ## Commands -/

/-- The text functions of the standard library that the session uses. -/
structure Texts where
  toUpper : String → String
  /-- `%q`. -/
  quote : String → String
  /-- `strconv.ParseInt` in base 10, 64 bits. -/
  parseInt : String → Option Int
  base64 : String → String

def printable (c : Char) : Bool := ' ' < c && c ≤ '~'

def tokenSafe (s : String) : Bool := s.toList.all printable && s ≠ ""

def wireSafe (s : String) : Bool := tokenSafe s && !s.toList.any fun c => c = '<' || c = '>'

def paramValueWireSafe (s : String) : Bool := s.toList.all fun c => printable c && c ≠ '='

def hexDigit (n : ℕ) : Char := ("0123456789ABCDEF".toList).getD n '0'

/-- `xtextEncode`, octet by octet. -/
def xtextEncode (s : String) : String :=
  String.ofList (s.toUTF8.toList.flatMap fun b =>
    let c := Char.ofNat b.toNat
    if printable c && c ≠ '+' && c ≠ '=' then [c]
    else ['+', hexDigit (b.toNat / 16), hexDigit (b.toNat % 16)])

/-- `Envelope`; a recipient is its address and parameters. -/
structure Envelope where
  mailFrom : String
  mailParameters : Map String (Option String) := ∅
  recipients : List SubAddress
  size : Int := 0

/-- The extensions the smarthost announced: keyword to parameter text. -/
abbrev Ext := Map String String

section

variable (T : Texts)

def appendParam (key : String) : Option String → Except String String
  | none =>
    if paramValueWireSafe key then .ok (" " ++ key)
    else .error (badName key)
  | some val =>
    if !paramValueWireSafe key then .error (badName key)
    else if paramValueWireSafe val then .ok (" " ++ key ++ "=" ++ val)
    else .error ("parameter " ++ key ++ " has a value not expressible in an SMTP command")
where
  badName (key : String) : String :=
    "parameter name " ++ T.quote key ++ " has a value not expressible in an SMTP command"

/-- A DSN value that reaches the command line as it is, when DSN is announced. -/
def verbatim (dsnOK : Bool) (keyword : String) : Option String → Except String String
  | none => .ok ""
  | some v =>
    if !dsnOK then .ok ""
    else if paramValueWireSafe v then .ok (" " ++ keyword ++ "=" ++ v)
    else .error ("mail: unsafe " ++ keyword ++ " value " ++ T.quote v)

/-- One mail-parameter of `buildMailCmd`. -/
def mailParam (dsnOK : Bool) (key : String) (v : Option String) : Except String String :=
  match T.toUpper key with
  -- ours to declare
  | "SIZE" => .ok ""
  | "ENVID" => .ok (if dsnOK then (v.map fun v => " ENVID=" ++ xtextEncode v).getD "" else "")
  | "RET" => verbatim T dsnOK "RET" v
  | _ => appendParam T key v

/-- One rcpt-parameter of `buildRcptCmd`. -/
def rcptParam (dsnOK : Bool) (key : String) (v : Option String) : Except String String :=
  match T.toUpper key with
  | "NOTIFY" => verbatim T dsnOK "NOTIFY" v
  | "ORCPT" =>
    match v with
    | none => .ok ""
    | some v =>
      if !dsnOK then .ok ""
      else if ';' ∉ v.toList then .error ("ORCPT value " ++ T.quote v ++ " lacks an addr-type")
      else
        let typ := String.ofList (v.toList.takeWhile (· ≠ ';'))
        let address := String.ofList ((v.toList.dropWhile (· ≠ ';')).drop 1)
        if paramValueWireSafe typ then .ok (" ORCPT=" ++ typ ++ ";" ++ xtextEncode address)
        else .error ("mail: unsafe ORCPT addr-type " ++ T.quote typ)
  | _ => appendParam T key v

/-- The parameters in the order of `sortedParamKeys`, up to the first that cannot be sent. -/
def appendParams (param : String → Option String → Except String String) :
    List (String × Option String) → String → Except String String
  | [], cmd => .ok cmd
  | (key, v) :: rest, cmd =>
    match param key v with
    | .error e => .error e
    | .ok text => appendParams param rest (cmd ++ text)

def buildMailCmd (env : Envelope) (ext : Ext) (dsnOK : Bool) : Except String String :=
  if env.mailFrom ≠ "" ∧ !wireSafe env.mailFrom then
    .error ("mail: unsafe MAIL FROM address " ++ T.quote env.mailFrom)
  else
    let cmd := "MAIL FROM:<" ++ env.mailFrom ++ ">"
    let cmd := if "SIZE" ∈ ext ∧ 0 < env.size then cmd ++ " SIZE=" ++ toString env.size else cmd
    appendParams (mailParam T dsnOK) env.mailParameters.toList cmd

def buildRcptCmd (r : SubAddress) (dsnOK : Bool) : Except String String :=
  if !wireSafe r.email then .error ("mail: unsafe RCPT TO address " ++ T.quote r.email)
  else appendParams (rcptParam T dsnOK) r.parameters.toList ("RCPT TO:<" ++ r.email ++ ">")

end

/-! ## The session's operations -/

abbrev Bytes := List UInt8

structure Reply where
  code : ℕ
  msg : String

/-- What the message's reader returns, and whether it then fails or is at its end. -/
structure Message where
  chunks : List Bytes
  fails : Bool

inductive ReadOutcome where
  | chunk (b : Bytes)
  | eof
  | failed

inductive Op where
  | dial
  /-- A TLS handshake. -/
  | handshake
  /-- A command line, flushed. -/
  | send (line : String)
  /-- Waiting for a reply. -/
  | receive
  /-- A read of the message. -/
  | read (out : ReadOutcome)
  /-- `DotWriter.Write`. -/
  | data (b : Bytes)
  /-- `DotWriter.Close`. -/
  | close

def Ans : Op → Type
  | .receive => Option Reply
  | .read _ => Unit
  | _ => Bool

abbrev Event := (o : Op) × Ans o

/-- The connection and what was done with it. -/
structure Wire where
  /-- A write has failed; the writer's error is sticky. -/
  broken : Bool := false
  history : List Event := []

/-- A write: on a broken connection nothing is sent, and a failure breaks it. -/
def Wire.write (s : Wire) (o : Op) (r : Ans o) (ok : Bool) : Wire :=
  if s.broken then s else { broken := !ok, history := s.history ++ [⟨o, r⟩] }

/-- The operations: the smarthost and the network answer as they like. -/
def exec (_ : Unit) : (o : Op) → Wire → Ans o → Wire → Prop
  | .send line, s, ok, s' => (s.broken → ok = false) ∧ s' = s.write (.send line) ok ok
  | .data b, s, ok, s' => (s.broken → ok = false) ∧ s' = s.write (.data b) ok ok
  | .close, s, ok, s' => (s.broken → ok = false) ∧ s' = s.write .close ok ok
  | o, s, r, s' => s' = { s with history := s.history ++ [⟨o, r⟩] }

inductive Choice where
  | ok (b : Bool)
  | reply (r : Option Reply)
  | none

def eval (_ : Unit) : (o : Op) → Choice → Wire → Option (Ans o × Wire)
  | .send line, .ok b, s =>
    if s.broken ∧ b then none else some (b, s.write (.send line) b b)
  | .data d, .ok b, s => if s.broken ∧ b then none else some (b, s.write (.data d) b b)
  | .close, .ok b, s => if s.broken ∧ b then none else some (b, s.write .close b b)
  | .dial, .ok b, s => some (b, { s with history := s.history ++ [⟨.dial, b⟩] })
  | .handshake, .ok b, s => some (b, { s with history := s.history ++ [⟨.handshake, b⟩] })
  | .receive, .reply r, s => some (r, { s with history := s.history ++ [⟨.receive, r⟩] })
  | .read out, .none, s => some ((), { s with history := s.history ++ [⟨.read out, ()⟩] })
  | _, _, _ => none

theorem eval_exec (i : Unit) (o : Op) (ch : Choice) (s : Wire) (r : Ans o) (s' : Wire)
    (h : eval i o ch s = some (r, s')) : exec i o s r s' := by
  cases o with
  | send _ | data _ | close =>
    cases ch <;> simp only [eval] at h <;> try cases h
    split at h
    · cases h
    · next hb =>
      cases h
      exact ⟨fun hbroken => Bool.not_eq_true _ ▸ fun hr => hb ⟨hbroken, hr⟩, rfl⟩
  | dial | handshake | receive | read _ =>
    cases ch <;> simp only [eval] at h <;> cases h
    rfl

/-! ## The session -/

inductive Err where
  /-- The message could not be read. -/
  | message
  /-- The connection, TLS, or a reply that ends the attempt. -/
  | session

abbrev SessionProg := Prog Op Ans

abbrev RelayProg := ExceptT Err SessionProg

/-- `Dialer.DialContext`. -/
def dial : SessionProg Bool := Prog.op Op.dial

/-- `tls.Conn.HandshakeContext`. -/
def handshake : SessionProg Bool := Prog.op Op.handshake

/-- `textproto.Conn.Cmd`. -/
def send (line : String) : SessionProg Bool := Prog.op (Op.send line)

/-- `textproto.Reader.ReadResponse`. -/
def receive : SessionProg (Option Reply) := Prog.op Op.receive

def readMessage (out : ReadOutcome) : SessionProg Unit := Prog.op (Op.read out)

/-- `DotWriter.Write`. -/
def sendData (b : Bytes) : SessionProg Bool := Prog.op (Op.data b)

/-- `DotWriter.Close`. -/
def closeData : SessionProg Bool := Prog.op Op.close

def must (p : SessionProg Bool) : RelayProg Unit :=
  .mk (p >>= fun ok => pure (if ok then .ok () else .error .session))

def mustReceive : RelayProg Reply :=
  .mk (receive >>= fun r => pure (match r with
    | none => .error .session
    | some reply => .ok reply))

/-- `ReadResponse` with an expected code. -/
def expect (code : ℕ) : RelayProg Reply := do
  let reply ← mustReceive
  if reply.code = code then pure reply else throw .session

def relayCmd (code : ℕ) (line : String) : RelayProg Reply := do
  must (send line)
  expect code

/-- `relayReadReply`: the code, and the reply on one line. -/
def relayReadReply : RelayProg (ℕ × String) := do
  let reply ← mustReceive
  let flat := reply.msg.toList.map fun c => if c = '\n' then ' ' else c
  pure (reply.code, toString reply.code ++ " " ++ String.ofList flat)

def replyTo (command : String) : RelayProg (ℕ × String) := do
  must (send command)
  relayReadReply

/-- `relayQuit`, whatever comes of it. -/
def relayQuit : RelayProg Unit :=
  .mk (send "QUIT" >>= fun ok =>
    if ok then receive >>= fun _ => pure (.ok ()) else pure (.ok ()))

def outcomeFor (code : ℕ) : Outcome :=
  if code / 100 = 2 then .accepted else if code / 100 = 4 then .tempFailed else .rejected

def rejectAll (rcpts : List SubAddress) (reply : String) : List Result :=
  rcpts.map fun r => ⟨r.email, .rejected, reply⟩

inductive TLSMode where
  | requireSTARTTLS | implicitTLS | plaintext
  deriving DecidableEq

structure PlainAuth where
  username : String
  password : String

/-- `SMTPRelayConfig`; the address, TLS details and timeout are behind the operations. -/
structure SMTPRelayConfig where
  mode : TLSMode := .requireSTARTTLS
  auth : Option PlainAuth := none
  allowPlaintextAuth : Bool := false
  hello : String := "localhost"

section

variable (T : Texts) (cfg : SMTPRelayConfig)

/-- The extensions in the lines after the first of an EHLO reply. -/
def extensions (msg : String) : Ext :=
  ((msg.toList.splitOn '\n').drop 1).foldl (fun ext line =>
    ext.insert (T.toUpper (String.ofList (line.takeWhile (· ≠ ' '))))
      (String.ofList ((line.dropWhile (· ≠ ' ')).drop 1))) ∅

def relayEhlo : RelayProg Ext := do
  let reply ← relayCmd 250 ("EHLO " ++ cfg.hello)
  pure (extensions T reply.msg)

/-- The upgrade of `RequireSTARTTLS`; there is no plaintext fallback. -/
def startTLS (ext : Ext) : RelayProg Ext :=
  if "STARTTLS" ∉ ext then throw .session
  else do
    let _ ← relayCmd 220 "STARTTLS"
    must handshake
    relayEhlo T cfg

def implicitTLS : RelayProg Unit :=
  if cfg.mode = .implicitTLS then must handshake else pure ()

def connect : RelayProg Ext := do
  must dial
  implicitTLS cfg
  let _ ← expect 220
  let ext ← relayEhlo T cfg
  if cfg.mode = .requireSTARTTLS then startTLS T cfg ext else pure ext

def authenticate : RelayProg Unit :=
  match cfg.auth with
  | none => pure ()
  | some auth =>
    if cfg.mode = .plaintext ∧ !cfg.allowPlaintextAuth then throw .session
    else do
      let _ ← relayCmd 235 ("AUTH PLAIN " ++
        T.base64 ("\x00" ++ auth.username ++ "\x00" ++ auth.password))
      pure ()

def sizeExceeded (env : Envelope) (ext : Ext) : Option String :=
  match ext["SIZE"]?.bind T.parseInt with
  | none => none
  | some limit =>
    if 0 < env.size ∧ 0 < limit ∧ limit < env.size then
      some ("552 5.3.4 message size " ++ toString env.size ++ " exceeds smarthost limit " ++
        toString limit)
    else none

def recipients (dsnOK : Bool) : List SubAddress → RelayProg (List Result × ℕ)
  | [] => pure ([], 0)
  | r :: rest =>
    match buildRcptCmd T r dsnOK with
    | .error e => do
      let (results, accepted) ← recipients dsnOK rest
      pure (⟨r.email, .rejected, "501 5.5.4 " ++ e⟩ :: results, accepted)
    | .ok cmd => do
      let (code, reply) ← replyTo cmd
      let (results, accepted) ← recipients dsnOK rest
      pure (⟨r.email, outcomeFor code, reply⟩ :: results,
        if code / 100 = 2 then accepted + 1 else accepted)

/-- Submit from MAIL to the reply to DATA; `.inl` when there is nobody to send to. -/
def negotiate (env : Envelope) (mailCmd : String) (dsnOK : Bool) :
    RelayProg (List Result ⊕ List Result) := do
  let (code, reply) ← replyTo mailCmd
  if code / 100 ≠ 2 then
    -- the whole transaction is refused; every recipient shares it
    pure (.inl (env.recipients.map fun r => ⟨r.email, outcomeFor code, reply⟩))
  else do
    let (results, accepted) ← recipients T dsnOK env.recipients
    if accepted = 0 then do
      relayQuit
      pure (.inl results)
    else do
      let _ ← relayCmd 354 "DATA"
      pure (.inr results)

def beforeData (env : Envelope) : RelayProg (List Result ⊕ List Result) := do
  let ext ← connect T cfg
  authenticate T cfg
  match sizeExceeded T env ext with
  | some reply => pure (.inl (rejectAll env.recipients reply))
  | none =>
    match buildMailCmd T env ext ("DSN" ∈ ext) with
    | .error e => pure (.inl (rejectAll env.recipients ("501 5.5.4 " ++ e)))
    | .ok mailCmd => negotiate T env mailCmd ("DSN" ∈ ext)

/-- `io.Copy` from the message into the `DotWriter`: the error it stops at. -/
def copyMessage (fails : Bool) : List Bytes → SessionProg (Option Err)
  | [] =>
    if fails then readMessage .failed >>= fun _ => pure (some .message)
    else readMessage .eof >>= fun _ => pure none
  | b :: rest =>
    readMessage (.chunk b) >>= fun _ =>
      sendData b >>= fun ok => if ok then copyMessage fails rest else pure (some .session)

/-- What the reply to the message makes of an accepted recipient. -/
def afterData (code : ℕ) (reply : String) (r : Result) : Result :=
  if r.outcome = .accepted ∧ code / 100 ≠ 2 then
    { r with outcome := outcomeFor code, reply := reply }
  else r

def finish (results : List Result) : RelayProg (List Result) := do
  must closeData
  let (code, reply) ← relayReadReply
  relayQuit
  pure (results.map (afterData code reply))

def sendMessage (msg : Message) (results : List Result) : RelayProg (List Result) :=
  .mk (copyMessage msg.fails msg.chunks >>= fun
    | some err => closeData >>= fun _ => pure (.error err)
    | none => (finish results).run)

def submit (env : Envelope) (msg : Message) : RelayProg (List Result) := do
  match ← beforeData T cfg env with
  | .inl results => pure results
  | .inr results => sendMessage msg results

end

end NaustJmap.Submit.Relay
