import NaustJmap.Lmtp.Framing

/-!
# Keeping in Step

What a client of an LMTP session can rely on.  The session's state is compared with a
transaction that is read off the transcript alone (`Txn.hear`): the command lines and what was
answered to them.
-/

namespace NaustJmap.Lmtp

open Library

/-- `deliverDeferred`: an event for every recipient, in order, which `deliver` fills in. -/
def deliverDeferred (deliver : Envelope → Octets → ℕ × (ℕ → Event)) (env : Envelope)
    (stream : Octets) : Delivery :=
  ⟨(deliver env stream).1, (List.range env.recipients.length).map (deliver env stream).2⟩

/-- What the loop takes a command line for. -/
inductive Verb where
  | lhlo | helo | mail | rcpt | data | rset | noop | vrfy | quit | unknown

def verbOf (T : Texts) (line : Octets) : Verb :=
  let verb := T.toUpper (splitCommand T line).1
  if verb = octets "LHLO" then .lhlo
  else if verb = octets "HELO" ∨ verb = octets "EHLO" then .helo
  else if verb = octets "MAIL" then .mail
  else if verb = octets "RCPT" then .rcpt
  else if verb = octets "DATA" then .data
  else if verb = octets "RSET" then .rset
  else if verb = octets "NOOP" then .noop
  else if verb = octets "VRFY" then .vrfy
  else if verb = octets "QUIT" then .quit
  else .unknown

def startInput : String := "354 Start mail input; end with <CRLF>.<CRLF>"

/-- A command, its reply, the envelope handed to Deliver, and whether the connection closed. -/
structure Exchange where
  line : Octets
  replies : List String
  handed : Option Envelope
  closes : Bool

section

variable (h : Host)

/-- The session after a command, the lines sent for it, and whether the loop goes on. -/
def answerTo (s : Session) (line rest : Octets) : Session × List String × Bool :=
  let arg := (splitCommand h.texts line).2
  let stay (out : Session × List String) := (out.1, out.2, true)
  match verbOf h.texts line with
  | .lhlo => stay (lhlo h arg s)
  | .helo => (s, ["500 5.5.1 Use LHLO, this is LMTP"], true)
  | .mail => stay (mail h arg s)
  | .rcpt => stay (rcpt h arg s)
  | .data =>
    match data h s rest with
    | .refused reply => (s, [reply], true)
    | .closed => (s, [startInput], false)
    | .done s replies _ _ => (s, startInput :: replies, true)
  | .rset => (s.resetTxn, ["250 2.0.0 OK"], true)
  | .noop => (s, ["250 2.0.0 OK"], true)
  | .vrfy => (s, ["502 5.5.1 VRFY not supported"], true)
  | .quit => (s, ["221 2.0.0 " ++ h.hostname ++ " closing connection"], false)
  | .unknown => (s, ["500 5.5.1 Unrecognized command"], true)

theorem dispatch_answers (c : Conn) (line rest : Octets) :
    let t := dispatch h c line rest
    (t.conn.session, t.conn.replies, t.stays) =
      let a := answerTo h c.session line rest
      (a.1, c.replies ++ a.2.1, a.2.2) := by
  simp only [dispatch, answerTo, verbOf, startInput]
  split_ifs <;> first | rfl | (cases data h c.session rest <;> rfl)

def handed (s : Session) (line rest : Octets) : Option Envelope :=
  match verbOf h.texts line, data h s rest with
  | .data, .refused _ => none
  | .data, _ => some ⟨s.sender, s.rcpts, s.heloName⟩
  | _, _ => none

def exchange (s : Session) (line rest : Octets) : Exchange where
  line := line
  replies := (answerTo h s line rest).2.1
  handed := handed h s line rest
  closes := !(answerTo h s line rest).2.2

/-- The exchanges of a connection so far, and where it stands. -/
inductive Talk (stream : Octets) : List Exchange → Conn → Prop where
  | greeting : Talk stream [] { input := stream }
  | turn {xs : List Exchange} {c : Conn} {line rest : Octets} (htalk : Talk stream xs c)
      (hline : readLimitedLine maxCommandLine [] c.input = .line line rest)
      (hstays : (turn h c).stays) :
      Talk stream (xs ++ [exchange h c.session line rest]) (turn h c).conn

end

structure Txn where
  greeted : Bool := false
  mail : Option Octets := none
  rcpts : List Octets := []

/-- LHLO, RSET and a DATA that goes through reset it; an accepted MAIL or RCPT counts. -/
def Txn.hear (T : Texts) (t : Txn) (x : Exchange) : Txn :=
  let path (keyword : String) := (parsePath T (splitCommand T x.line).2 (octets keyword)).map (·.1)
  match verbOf T x.line with
  | .lhlo => { greeted := true }
  | .mail => if x.replies = ["250 2.1.0 OK"] then { t with mail := path "FROM:" } else t
  | .rcpt =>
    if x.replies = ["250 2.1.5 OK"] then { t with rcpts := t.rcpts ++ (path "TO:").toList } else t
  | .data => if x.handed.isSome then { greeted := t.greeted } else t
  | .rset => { greeted := t.greeted }
  | _ => t

/-- A reply: continued lines and a last one, none of which asks for a message. -/
structure OneReply (lines : List String) : Prop where
  shape : ∃ init last, lines = init ++ [last] ∧ (∀ l ∈ init, l.toList[3]? = some '-') ∧
    last.toList[3]? = some ' '
  other : startInput ∉ lines

theorem OneReply.single {l : String} (hlast : l.toList[3]? = some ' ') (hother : startInput ≠ l) :
    OneReply [l] := ⟨⟨[], l, rfl, by simp, hlast⟩, by simpa using hother⟩

section

variable {h : Host} {s : Session} {t : Txn} {line rest : Octets}

theorem mail_cases (arg : Octets) (s : Session) :
    (∃ r, mail h arg s = (s, [r]) ∧ r ≠ "250 2.1.0 OK" ∧ OneReply [r]) ∨
    ∃ p, parsePath h.texts arg (octets "FROM:") = some p ∧ s.greeted = true ∧
      mail h arg s = ({ s with sender := p.1, haveFrom := true }, ["250 2.1.0 OK"]) := by
  unfold mail
  split
  · exact .inl ⟨_, rfl, by decide, .single rfl (by decide)⟩
  split
  · exact .inl ⟨_, rfl, by decide, .single rfl (by decide)⟩
  split
  · exact .inl ⟨_, rfl, by decide, .single rfl (by decide)⟩
  split
  · refine .inl ⟨_, rfl, fun heq => ?_, .single (by simp) fun heq => ?_⟩ <;>
      simpa [startInput] using congrArg String.toList heq
  · next hgreeted _ _ p _ hp _ => exact .inr ⟨_, hp, by simpa using hgreeted, rfl⟩

theorem rcpt_cases (arg : Octets) (s : Session) :
    (∃ n r, rcpt h arg s = ({ s with rcptAttempts := n }, [r]) ∧ r ≠ "250 2.1.5 OK" ∧
      OneReply [r]) ∨
    ∃ n p, parsePath h.texts arg (octets "TO:") = some p ∧ rcpt h arg s =
      ({ s with rcptAttempts := n, rcpts := s.rcpts ++ [p.1] }, ["250 2.1.5 OK"]) := by
  unfold rcpt
  split
  · exact .inl ⟨_, _, rfl, by decide, .single rfl (by decide)⟩
  split
  · exact .inl ⟨_, _, rfl, by decide, .single rfl (by decide)⟩
  dsimp only
  split
  · exact .inl ⟨_, _, rfl, by decide, .single rfl (by decide)⟩
  next p _ hp =>
  split
  · exact .inl ⟨_, _, rfl, by decide, .single rfl (by decide)⟩
  split
  · exact .inl ⟨_, _, rfl, by decide, .single rfl (by decide)⟩
  · exact .inr ⟨_, _, hp, rfl⟩

theorem data_cases (s : Session) (stream : Octets) :
    (∃ r, data h s stream = .refused r ∧ OneReply [r]) ∨
    (s.haveFrom = true ∧ s.rcpts ≠ [] ∧ (data h s stream = .closed ∨
      ∃ text rest, data h s stream = .done s.resetTxn
        ((h.deliver ⟨s.sender, s.rcpts, s.heloName⟩ stream).events.map lmtpReply) text rest)) := by
  unfold data
  split
  · exact .inl ⟨_, rfl, .single rfl (by decide)⟩
  split
  · exact .inl ⟨_, rfl, .single rfl (by decide)⟩
  next hfrom hrcpts =>
  refine .inr ⟨by simpa using hfrom, by simpa using hrcpts, ?_⟩
  dsimp only
  split
  · exact .inr ⟨_, _, rfl⟩
  · exact .inl rfl
  · exact .inl rfl

/-- The session is where the transcript says. -/
structure Agrees (t : Txn) (s : Session) : Prop where
  greeted : t.greeted = s.greeted
  mail : t.mail = if s.haveFrom then some s.sender else none
  rcpts : t.rcpts = s.rcpts
  started : s.haveFrom = true → s.greeted = true

theorem Agrees.reset (ha : Agrees t s) : Agrees { greeted := t.greeted } s.resetTxn :=
  ⟨ha.greeted, rfl, rfl, fun hf => by cases hf⟩

theorem Agrees.hear (ha : Agrees t s) (hstays : (answerTo h s line rest).2.2 = true) :
    Agrees (t.hear h.texts (exchange h s line rest)) (answerTo h s line rest).1 := by
  unfold Txn.hear exchange handed answerTo at *
  cases hverb : verbOf h.texts line with
  | lhlo => exact ⟨rfl, rfl, rfl, fun _ => rfl⟩
  | mail =>
    obtain ⟨r, hm, hr, -⟩ | ⟨p, hp, hgreeted, hm⟩ :=
      mail_cases (h := h) (splitCommand h.texts line).2 s
    · simpa [hm, hr] using ha
    · simpa [hm, hp] using ⟨ha.greeted, rfl, ha.rcpts, fun _ => hgreeted⟩
  | rcpt =>
    obtain ⟨n, r, hm, hr, -⟩ | ⟨n, p, hp, hm⟩ :=
      rcpt_cases (h := h) (splitCommand h.texts line).2 s
    · simpa [hm, hr] using ⟨ha.greeted, ha.mail, ha.rcpts, ha.started⟩
    · simpa [hm, hp] using ⟨ha.greeted, ha.mail, by simp [ha.rcpts], ha.started⟩
  | data =>
    simp only [hverb] at hstays ⊢
    obtain ⟨r, hd, -⟩ | ⟨-, -, hd | ⟨text, rest', hd⟩⟩ := data_cases (h := h) s rest
    · simpa [hd] using ha
    · simp [hd] at hstays
    · simpa [hd] using ha.reset
  | rset => exact ha.reset
  | quit => simp [hverb] at hstays
  | helo => exact ha
  | noop => exact ha
  | vrfy => exact ha
  | unknown => exact ha

end

section

variable {h : Host} {stream line rest : Octets} {xs : List Exchange} {c : Conn}

theorem turn_answers (hline : readLimitedLine maxCommandLine [] c.input = .line line rest) :
    let x := exchange h c.session line rest
    (turn h c).conn.session = (answerTo h c.session line rest).1 ∧
      (turn h c).conn.replies = c.replies ++ x.replies ∧ (turn h c).stays = !x.closes := by
  have hd := dispatch_answers h c line rest
  simp only [Prod.mk.injEq] at hd
  rw [turn, hline]
  exact ⟨hd.1, hd.2.1, by simpa [exchange] using hd.2.2⟩

theorem Talk.agrees (htalk : Talk h stream xs c) :
    Agrees (xs.foldl (Txn.hear h.texts) {}) c.session ∧ c.replies = xs.flatMap (·.replies) := by
  induction htalk with
  | greeting => exact ⟨⟨rfl, rfl, rfl, fun hf => by cases hf⟩, rfl⟩
  | turn _ hline hstays ih =>
    obtain ⟨hsession, hreplies, hcloses⟩ := turn_answers hline
    rw [hcloses] at hstays
    rw [hsession, hreplies, ih.2, List.foldl_append]
    exact ⟨ih.1.hear (by simpa [exchange] using hstays), by simp⟩

theorem oneReply_of_handed (hnone : handed h c.session line rest = none) :
    OneReply (exchange h c.session line rest).replies := by
  unfold exchange answerTo
  unfold handed at hnone
  cases hverb : verbOf h.texts line with
  | lhlo =>
    refine ⟨⟨["250-" ++ h.hostname, "250-PIPELINING", "250-ENHANCEDSTATUSCODES", "250-8BITMIME"],
      _, rfl, by simp, by simp⟩, fun hmem => ?_⟩
    simp only [lhlo, List.mem_cons, List.not_mem_nil, or_false] at hmem
    obtain heq | heq | heq | heq | heq := hmem <;>
      simpa [startInput] using congrArg String.toList heq
  | mail =>
    obtain ⟨r, hm, -, hone⟩ | ⟨p, -, -, hm⟩ :=
      mail_cases (h := h) (splitCommand h.texts line).2 c.session
    · simpa [hm] using hone
    · simpa [hm] using OneReply.single rfl (by decide)
  | rcpt =>
    obtain ⟨n, r, hm, -, hone⟩ | ⟨n, p, -, hm⟩ :=
      rcpt_cases (h := h) (splitCommand h.texts line).2 c.session
    · simpa [hm] using hone
    · simpa [hm] using OneReply.single rfl (by decide)
  | data =>
    obtain ⟨r, hd, hone⟩ | ⟨-, -, hd | ⟨text, rest', hd⟩⟩ := data_cases (h := h) c.session rest
    · simpa [hd] using hone
    · simp [hverb, hd] at hnone
    · simp [hverb, hd] at hnone
  | quit =>
    refine .single (by simp) fun heq => ?_
    simpa [startInput] using congrArg String.toList heq
  | helo => exact .single rfl (by decide)
  | rset => exact .single rfl (by decide)
  | noop => exact .single rfl (by decide)
  | vrfy => exact .single rfl (by decide)
  | unknown => exact .single rfl (by decide)

end

/-- **Keeping in step**: what is answered to the next command line of a session.  A message is
    handed over only in a transaction the transcript shows, with that transaction's paths, and
    then every recipient has its reply or the connection is closed; any other command has one
    reply, and so has a line that is too long, which closes the connection. -/
theorem lmtp_in_step (h0 : Host) (deliver : Envelope → Octets → ℕ × (ℕ → Event))
    (stream : Octets) (xs : List Exchange) (c : Conn) :
    let h : Host := { h0 with deliver := deliverDeferred deliver }
    let t := xs.foldl (Txn.hear h.texts) {}
    Talk h stream xs c → c.replies = xs.flatMap (·.replies) ∧
      match readLimitedLine maxCommandLine [] c.input with
      | .failed => (turn h c).conn.replies = c.replies ∧ (turn h c).stays = false
      | .tooLong => (turn h c).stays = false ∧
          ∃ l, OneReply [l] ∧ (turn h c).conn.replies = c.replies ++ [l]
      | .line line rest =>
        let x := exchange h c.session line rest
        (turn h c).conn.replies = c.replies ++ x.replies ∧ (turn h c).stays = !x.closes ∧
          match x.handed with
          | none => OneReply x.replies
          | some env => t.greeted = true ∧ t.mail = some env.mailFrom ∧
              env.recipients = t.rcpts ∧ t.rcpts ≠ [] ∧
              x.replies = startInput :: if x.closes then [] else
                (List.range t.rcpts.length).map fun i => lmtpReply ((deliver env rest).2 i) := by
  intro h t htalk
  obtain ⟨hagrees, hreplies⟩ := htalk.agrees
  refine ⟨hreplies, ?_⟩
  split
  · next hread => exact ⟨by rw [turn, hread], by rw [turn, hread]⟩
  · next hread =>
    exact ⟨by rw [turn, hread], "500 5.5.2 Command line too long", .single rfl (by decide),
      by rw [turn, hread]; rfl⟩
  next line rest hread =>
  obtain ⟨-, hsent, hstays⟩ := turn_answers hread
  refine ⟨hsent, hstays, ?_⟩
  split
  · next hnone => exact oneReply_of_handed hnone
  next env hsome =>
  -- only a DATA that is not refused hands something over
  change handed h c.session line rest = some env at hsome
  have hverb : verbOf h.texts line = .data := by
    unfold handed at hsome
    split at hsome <;> first | assumption | cases hsome
  obtain ⟨r, hd, -⟩ | ⟨hfrom, hrcpts, hd⟩ := data_cases (h := h) c.session rest
  · simp [handed, hverb, hd] at hsome
  have henv : env = ⟨c.session.sender, c.session.rcpts, c.session.heloName⟩ := by
    obtain hd | ⟨text, rest', hd⟩ := hd <;> simpa [handed, hverb, hd] using hsome.symm
  subst henv
  refine ⟨hagrees.greeted.trans (hagrees.started hfrom), by rw [hagrees.mail, if_pos hfrom],
    hagrees.rcpts.symm, hagrees.rcpts ▸ hrcpts, ?_⟩
  rw [hagrees.rcpts]
  obtain hd | ⟨text, rest', hd⟩ := hd
  · simp [exchange, answerTo, hverb, hd]
  · simp [exchange, answerTo, hverb, hd, h, deliverDeferred, Function.comp_def]

/-- A transaction with two recipients, up to the end of its message. -/
def twoRecipients : Octets :=
  octets "LHLO c\r\nMAIL FROM:<s@x>\r\nRCPT TO:<a@x>\r\nRCPT TO:<b@x>\r\nDATA\r\nHi\r\n.\r\n"

/-- It takes the message for the first recipient only. -/
def firstOnly (_ : Envelope) (stream : Octets) : ℕ × (ℕ → Event) :=
  (stream.length, fun i => if i = 0 then ⟨.accepted, ""⟩ else ⟨.rejected, "no such recipient"⟩)

def firstOnlyHost : Host := { plainHost with deliver := deliverDeferred firstOnly }

/-- After LHLO, MAIL and two RCPTs, DATA is answered by 354 and a reply for each recipient. -/
theorem lmtp_in_step_two_recipients : ∃ xs c, Talk firstOnlyHost twoRecipients xs c ∧
    xs.foldl (Txn.hear plainHost.texts) {} =
      { greeted := true, mail := some (octets "s@x"), rcpts := [octets "a@x", octets "b@x"] } ∧
    (turn firstOnlyHost c).conn.replies =
      c.replies ++ [startInput, "250 2.1.5 OK", "550 5.1.1 no such recipient"] := by
  have hlhlo := @Talk.turn firstOnlyHost twoRecipients _ _ (octets "LHLO c") _ .greeting rfl rfl
  have hmail := @Talk.turn _ _ _ _ (octets "MAIL FROM:<s@x>") _ hlhlo rfl rfl
  have hrcpt := @Talk.turn _ _ _ _ (octets "RCPT TO:<a@x>") _ hmail rfl rfl
  have htalk := @Talk.turn _ _ _ _ (octets "RCPT TO:<b@x>") _ hrcpt rfl rfl
  refine ⟨_, _, htalk, rfl, ?_⟩
  obtain ⟨hreplies, -, -, -, -, -, hfinal⟩ :=
    (lmtp_in_step plainHost firstOnly twoRecipients _ _ htalk).2
  rw [hfinal] at hreplies
  exact hreplies

end NaustJmap.Lmtp
