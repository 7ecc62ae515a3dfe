import NaustJmap.Library.History
import NaustJmap.Submit.Relay

/-!
# When the End of Data Is Sent

When the copy of the message ends normally, Submit has read it to its end before.  When a read
fails, Submit closes the `DotWriter` on its way out, and the terminator goes out after a part of the
message.  `terminator_after_eof` says exactly when it comes after the end: in the runs in which no
read of the message fails.
-/

namespace NaustJmap.Submit.Relay

open Library

/-! ## Histories of a session -/

/-- The terminator is only sent after a read has found the end of the message. -/
def AfterEof : List Event → Prop :=
  Along fun past e => ∀ ok : Bool, e = ⟨.close, ok⟩ → ⟨.read .eof, ()⟩ ∈ past

/-- Operations that are no part of the message transfer. -/
def Op.Speaks : Op → Prop
  | .dial | .handshake | .send _ | .receive => True
  | .read _ | .data _ | .close => False

/-- No terminator was sent, and no read of the message has failed or found its end. -/
structure Quiet (h : List Event) : Prop where
  unclosed : ∀ ok : Bool, ⟨.close, ok⟩ ∉ h
  sound : ⟨.read .failed, ()⟩ ∉ h
  unread : ⟨.read .eof, ()⟩ ∉ h

/-- A terminator may have been sent, but after the end of the message. -/
structure Complete (h : List Event) : Prop where
  after : AfterEof h
  sound : ⟨.read .failed, ()⟩ ∉ h

theorem Quiet.nil : Quiet [] := ⟨by simp, by simp, by simp⟩

variable {h : List Event} {o : Op} {s s' : Wire} {ok : Bool}

theorem Quiet.append {e : Event} (hq : Quiet h) (hclose : e.1 ≠ .close)
    (hfailed : e.1 ≠ .read .failed) (heof : e.1 ≠ .read .eof) : Quiet (h ++ [e]) := by
  have hmem : ∀ e' : Event, e'.1 ≠ e.1 → e' ∉ h → e' ∉ h ++ [e] := by
    intro e' hne hold hnew
    rcases List.mem_append.mp hnew with hmem | hmem
    · exact hold hmem
    · exact hne (congrArg Sigma.fst (List.mem_singleton.mp hmem))
  exact ⟨fun ok => hmem _ hclose.symm (hq.unclosed ok), hmem _ hfailed.symm hq.sound,
    hmem _ heof.symm hq.unread⟩

theorem Quiet.speaks (hq : Quiet h) (ho : o.Speaks) (r : Ans o) : Quiet (h ++ [⟨o, r⟩]) := by
  refine hq.append ?_ ?_ ?_ <;>
  · rintro rfl
    exact ho

theorem Quiet.complete (hq : Quiet h) : Complete h := by
  refine ⟨fun past e rest heq ok he => absurd ?_ (hq.unclosed ok), hq.sound⟩
  rw [heq, he]
  exact List.mem_append_right _ List.mem_cons_self

theorem Complete.speaks (hc : Complete h) (ho : o.Speaks) (r : Ans o) :
    Complete (h ++ [⟨o, r⟩]) := by
  refine ⟨along_concat.mpr ⟨hc.after, fun ok he => ?_⟩, fun hmem => ?_⟩
  · obtain rfl := congrArg Sigma.fst he
    exact ho.elim
  · rcases List.mem_append.mp hmem with hmem | hmem
    · exact hc.sound hmem
    · obtain rfl := congrArg Sigma.fst (List.mem_singleton.mp hmem)
      exact ho.elim

/-! ## Verifying a session -/

/-- The weakest precondition of a program that runs alone. -/
abbrev pre {α : Type} (p : SessionProg α) (Q : α → Wire → Prop) : Wire → Prop :=
  wp exec (fun _ _ _ => True) () p Q

theorem pre_call {α : Type} {k : Ans o → SessionProg α} {Q : α → Wire → Prop}
    (h : ∀ r s', exec () o s r s' → pre (k r) Q s') : pre (Prog.op o >>= k) Q s :=
  wp_call (fun j hj => absurd rfl hj) rfl fun s1 r s2 hs hx => by
    subst hs
    exact ⟨trivial, h r s2 hx⟩

/-- The part keeps the message out of it, and goes on only if no write has failed. -/
def Keeps {α : Type} (alive : α → Prop) (p : RelayProg α) : Prop :=
  ∀ s : Wire, Quiet s.history → s.broken = false →
    pre p.run (fun r s' => Quiet s'.history ∧ ∀ a, r = .ok a → alive a → s'.broken = false) s

variable {α β : Type} {alive : β → Prop}

theorem Keeps.pure (b : β) : Keeps alive (Pure.pure b : RelayProg β) :=
  fun _ hq hb => ⟨hq, fun _ _ _ => hb⟩

theorem Keeps.throw (e : Err) : Keeps alive (throw e : RelayProg β) :=
  fun _ hq hb => ⟨hq, fun _ _ _ => hb⟩

theorem Keeps.bind {p : RelayProg α} {f : α → RelayProg β} (hp : Keeps (fun _ => True) p)
    (hf : ∀ a, Keeps alive (f a)) : Keeps alive (p >>= f) := by
  intro s hq hb
  change pre (p.run >>= _) _ s
  refine wp_bind_of (hp s hq hb) fun r s' h => ?_
  cases r with
  | error e => exact ⟨h.1, fun a ha => by cases ha⟩
  | ok a => exact hf a s' h.1 (h.2 a rfl trivial)

theorem Keeps.must_dial : Keeps (fun _ => True) (must dial) := by
  intro s hq hb
  refine pre_call fun ok s' hx => ?_
  obtain rfl : s' = { s with history := s.history ++ [⟨.dial, ok⟩] } := hx
  exact ⟨hq.speaks (o := .dial) trivial ok, fun _ _ _ => hb⟩

theorem Keeps.must_handshake : Keeps (fun _ => True) (must handshake) := by
  intro s hq hb
  refine pre_call fun ok s' hx => ?_
  obtain rfl : s' = { s with history := s.history ++ [⟨.handshake, ok⟩] } := hx
  exact ⟨hq.speaks (o := .handshake) trivial ok, fun _ _ _ => hb⟩

theorem Keeps.mustReceive : Keeps (fun _ => True) mustReceive := by
  intro s hq hb
  refine pre_call fun r s' hx => ?_
  obtain rfl : s' = { s with history := s.history ++ [⟨.receive, r⟩] } := hx
  exact ⟨hq.speaks (o := .receive) trivial r, fun _ _ _ => hb⟩

theorem Wire.write_of_standing (hb : s.broken = false) (o : Op) (r : Ans o) (ok : Bool) :
    s.write o r ok = { broken := !ok, history := s.history ++ [⟨o, r⟩] } := by
  simp [Wire.write, hb]

theorem exec_send {line : String} (hb : s.broken = false) (hx : exec () (.send line) s ok s') :
    s' = { broken := !ok, history := s.history ++ [⟨.send line, ok⟩] } :=
  hx.2.trans (Wire.write_of_standing hb _ _ _)

theorem exec_data {b : Bytes} (hb : s.broken = false) (hx : exec () (.data b) s ok s') :
    s' = { broken := !ok, history := s.history ++ [⟨.data b, ok⟩] } :=
  hx.2.trans (Wire.write_of_standing hb _ _ _)

theorem exec_close (hb : s.broken = false) (hx : exec () .close s ok s') :
    s' = { broken := !ok, history := s.history ++ [⟨.close, ok⟩] } :=
  hx.2.trans (Wire.write_of_standing hb _ _ _)

theorem Keeps.must_send (line : String) : Keeps (fun _ => True) (must (send line)) := by
  intro s hq hb
  refine pre_call fun (ok : Bool) s' hx => ?_
  obtain rfl := exec_send hb hx
  refine ⟨hq.speaks (o := .send line) trivial ok, fun a ha _ => ?_⟩
  cases ok with
  | true => rfl
  | false => cases ha

/-! ## Up to the reply to DATA -/

theorem expect_keeps (code : ℕ) : Keeps (fun _ => True) (expect code) := by
  refine Keeps.mustReceive.bind fun reply => ?_
  split
  · exact .pure reply
  · exact .throw .session

theorem relayCmd_keeps (code : ℕ) (line : String) : Keeps (fun _ => True) (relayCmd code line) :=
  (Keeps.must_send line).bind fun _ => expect_keeps code

theorem replyTo_keeps (command : String) : Keeps (fun _ => True) (replyTo command) :=
  (Keeps.must_send command).bind fun _ => Keeps.mustReceive.bind fun _ => .pure _

variable (T : Texts) (cfg : SMTPRelayConfig) (env : Envelope)

theorem relayEhlo_keeps : Keeps (fun _ => True) (relayEhlo T cfg) :=
  (relayCmd_keeps 250 _).bind fun _ => .pure _

theorem startTLS_keeps (ext : Ext) : Keeps (fun _ => True) (startTLS T cfg ext) := by
  unfold startTLS
  split
  · exact .throw .session
  · exact (relayCmd_keeps 220 _).bind fun _ =>
      Keeps.must_handshake.bind fun _ => relayEhlo_keeps T cfg

theorem connect_keeps : Keeps (fun _ => True) (connect T cfg) := by
  have htls : Keeps (fun _ => True) (implicitTLS cfg) := by
    unfold implicitTLS
    split
    · exact .must_handshake
    · exact .pure ()
  refine Keeps.must_dial.bind fun _ => htls.bind fun _ => (expect_keeps 220).bind fun _ =>
    (relayEhlo_keeps T cfg).bind fun ext => ?_
  split
  · exact startTLS_keeps T cfg ext
  · exact .pure ext

theorem authenticate_keeps : Keeps (fun _ => True) (authenticate T cfg) := by
  unfold authenticate
  split
  · exact .pure ()
  · split
    · exact .throw .session
    · exact (relayCmd_keeps 235 _).bind fun _ => .pure ()

theorem recipients_keeps (dsnOK : Bool) (rcpts : List SubAddress) :
    Keeps (fun _ => True) (recipients T dsnOK rcpts) := by
  induction rcpts with
  | nil => exact .pure _
  | cons r rest ih =>
    unfold recipients
    split
    · exact ih.bind fun _ => .pure _
    · exact (replyTo_keeps _).bind fun _ => ih.bind fun _ => .pure _

/-- There is somebody to send the message to. -/
def Goes : List Result ⊕ List Result → Prop
  | .inl _ => False
  | .inr _ => True

/-- QUIT is never followed by the message. -/
theorem quit_keeps (results : List Result) :
    Keeps Goes (do relayQuit; pure (.inl results)) := by
  intro s hq hb
  refine pre_call fun (ok : Bool) s' hx => ?_
  obtain rfl := exec_send hb hx
  have hq' := hq.speaks (o := .send "QUIT") trivial ok
  have hend : ∀ a, Except.ok (Sum.inl results) = (Except.ok a : Except Err _) → ¬ Goes a := by
    intro a ha hgoes
    cases ha
    exact hgoes
  cases ok with
  | false => exact ⟨hq', fun a ha hgoes => absurd hgoes (hend a ha)⟩
  | true =>
    refine pre_call fun r s' hx => ?_
    obtain rfl : s' = _ := hx
    exact ⟨hq'.speaks (o := .receive) trivial r, fun a ha hgoes => absurd hgoes (hend a ha)⟩

theorem negotiate_keeps (mailCmd : String) (dsnOK : Bool) :
    Keeps Goes (negotiate T env mailCmd dsnOK) := by
  refine (replyTo_keeps mailCmd).bind fun rep => ?_
  dsimp only
  split
  · exact .pure _
  · refine (recipients_keeps T dsnOK env.recipients).bind fun out => ?_
    split
    · exact quit_keeps _
    · exact (relayCmd_keeps 354 _).bind fun _ => .pure _

theorem beforeData_keeps : Keeps Goes (beforeData T cfg env) := by
  refine (connect_keeps T cfg).bind fun ext => (authenticate_keeps T cfg).bind fun _ => ?_
  split
  · exact .pure _
  · split
    · exact .pure _
    · exact negotiate_keeps T env _ _

/-! ## The message -/

def ReadFailed (h : List Event) : Prop := ⟨.read .failed, ()⟩ ∈ h

def Copied (fails : Bool) : Option Err → Wire → Prop
  | none, s => s.broken = false ∧ Complete s.history ∧ ⟨.read .eof, ()⟩ ∈ s.history
  | some .message, s => s.broken = false ∧ fails ∧ ReadFailed s.history ∧
      ⟨.read .eof, ()⟩ ∉ s.history
  | some .session, s => s.broken = true ∧ Quiet s.history

theorem copyMessage_spec (fails : Bool) (chunks : List Bytes) (hq : Quiet s.history)
    (hb : s.broken = false) : pre (copyMessage fails chunks) (Copied fails) s := by
  induction chunks generalizing s with
  | nil =>
    unfold copyMessage
    split
    · next hfails =>
      -- the read that fails
      refine pre_call fun r s' hx => ?_
      obtain rfl : s' = { s with history := s.history ++ [⟨.read .failed, r⟩] } := hx
      refine ⟨hb, hfails, List.mem_append_right _ (List.mem_singleton_self _), fun hmem => ?_⟩
      rcases List.mem_append.mp hmem with hmem | hmem
      · exact hq.unread hmem
      · cases congrArg Sigma.fst (List.mem_singleton.mp hmem)
    · -- the read that finds the end
      refine pre_call fun r s' hx => ?_
      obtain rfl : s' = { s with history := s.history ++ [⟨.read .eof, r⟩] } := hx
      refine ⟨hb, ⟨along_concat.mpr ⟨hq.complete.after, fun ok he => ?_⟩, fun hmem => ?_⟩,
        List.mem_append_right _ (List.mem_singleton_self _)⟩
      · cases congrArg Sigma.fst he
      · rcases List.mem_append.mp hmem with hmem | hmem
        · exact hq.sound hmem
        · cases congrArg Sigma.fst (List.mem_singleton.mp hmem)
  | cons b rest ih =>
    refine pre_call fun r s' hx => ?_
    obtain rfl : s' = { s with history := s.history ++ [⟨.read (.chunk b), r⟩] } := hx
    have hq1 : Quiet (s.history ++ [⟨.read (.chunk b), r⟩]) :=
      hq.append (by simp) (by simp) (by simp)
    have hb1 : ({ s with history := s.history ++ [⟨.read (.chunk b), r⟩] } : Wire).broken = false :=
      hb
    refine pre_call fun (ok : Bool) s2 hx2 => ?_
    obtain rfl := exec_data hb1 hx2
    have hq2 := hq1.append (e := ⟨.data b, ok⟩) (by simp) (by simp) (by simp)
    cases ok with
    | true => exact ih hq2 rfl
    | false => exact ⟨rfl, hq2⟩

/-- The terminator goes out only after the message was read to its end. -/
def Safe (res : Except Err (List Result)) (h : List Event) : Prop :=
  AfterEof h ∧ (res = .error .message → ∀ ok : Bool, ⟨.close, ok⟩ ∉ h)

structure Verdict (fails : Bool) (res : Except Err (List Result)) (s : Wire) : Prop where
  iff : Safe res s.history ↔ ¬ ReadFailed s.history
  fails : ReadFailed s.history → fails

variable {fails : Bool} {res : Except Err (List Result)}

theorem Verdict.of_quiet (hq : Quiet s.history) : Verdict fails res s :=
  ⟨iff_of_true ⟨hq.complete.after, fun _ => hq.unclosed⟩ hq.sound, fun h => absurd h hq.sound⟩

theorem Verdict.of_complete (hc : Complete s.history) (hres : res ≠ .error .message) :
    Verdict fails res s :=
  ⟨iff_of_true ⟨hc.after, fun h => absurd h hres⟩ hc.sound, fun h => absurd h hc.sound⟩

theorem Verdict.of_failed {broken : Bool} (hfails : fails) (hfailed : ReadFailed h)
    (heof : ⟨.read .eof, ()⟩ ∉ h) :
    Verdict fails res { broken := broken, history := h ++ [⟨.close, ok⟩] } := by
  refine ⟨iff_of_false (fun hsafe => ?_) (not_not.mpr (List.mem_append_left _ hfailed)),
    fun _ => hfails⟩
  exact heof ((along_concat.mp hsafe.1).2 ok rfl)

theorem finish_verdict (results : List Result) (hb : s.broken = false) (hc : Complete s.history)
    (heof : ⟨.read .eof, ()⟩ ∈ s.history) : pre (finish results).run (Verdict fails) s := by
  refine pre_call fun (ok : Bool) s1 hx => ?_
  obtain rfl := exec_close hb hx
  have hc1 : Complete (s.history ++ [⟨.close, ok⟩]) := by
    refine ⟨along_concat.mpr ⟨hc.after, fun _ _ => heof⟩, fun hmem => ?_⟩
    rcases List.mem_append.mp hmem with hmem | hmem
    · exact hc.sound hmem
    · cases congrArg Sigma.fst (List.mem_singleton.mp hmem)
  cases ok with
  | false => exact .of_complete hc1 (by simp)
  | true =>
    refine pre_call fun (r : Option Reply) s2 hx2 => ?_
    obtain rfl : s2 = _ := hx2
    have hc2 := hc1.speaks (o := .receive) trivial r
    cases r with
    | none => exact .of_complete hc2 (by simp)
    | some reply =>
      refine pre_call fun (ok : Bool) s3 hx3 => ?_
      obtain rfl := exec_send rfl hx3
      have hc3 := hc2.speaks (o := .send "QUIT") trivial ok
      cases ok with
      | false => exact .of_complete hc3 (by simp)
      | true =>
        refine pre_call fun r s4 hx4 => ?_
        obtain rfl : s4 = _ := hx4
        exact .of_complete (hc3.speaks (o := .receive) trivial r) (by simp)

theorem sendMessage_verdict (msg : Message) (results : List Result) (hq : Quiet s.history)
    (hb : s.broken = false) : pre (sendMessage msg results).run (Verdict msg.fails) s := by
  refine wp_bind_of (copyMessage_spec msg.fails msg.chunks hq hb) fun r s1 h => ?_
  match r, h with
  | none, ⟨hb1, hc, heof⟩ => exact finish_verdict results hb1 hc heof
  | some .message, ⟨hb1, hfails, hfailed, heof⟩ =>
    refine pre_call fun (ok : Bool) s2 hx => ?_
    obtain rfl := exec_close hb1 hx
    exact .of_failed hfails hfailed heof
  | some .session, ⟨hb1, hq1⟩ =>
    -- the writer's error is sticky: this close sends nothing
    refine pre_call fun (ok : Bool) s2 hx => ?_
    obtain rfl : s2 = s1 := hx.2.trans (if_pos hb1)
    exact .of_quiet hq1

theorem submit_verdict (msg : Message) : pre (submit T cfg env msg).run (Verdict msg.fails) {} := by
  refine wp_bind_of (beforeData_keeps T cfg env {} Quiet.nil rfl) fun r s h => ?_
  match r, h with
  | .error e, ⟨hq, _⟩ => exact .of_quiet hq
  | .ok (.inl results), ⟨hq, _⟩ => exact .of_quiet hq
  | .ok (.inr results), ⟨hq, hb⟩ => exact sendMessage_verdict msg results hq (hb _ rfl trivial)

/-! ## A smarthost that takes the message -/

def plainRelay : SMTPRelayConfig := { mode := .plaintext }

def oneRecipient : Envelope := { mailFrom := "s@x", recipients := [{ email := "a@x" }] }

def accepting : List Choice :=
  [.ok true, .reply (some ⟨220, "mx"⟩), .ok true, .reply (some ⟨250, "mx"⟩), .ok true,
    .reply (some ⟨250, "ok"⟩), .ok true, .reply (some ⟨250, "ok"⟩), .ok true,
    .reply (some ⟨354, "go"⟩)]

def awaitingMessage : Wire where
  history :=
    [⟨.dial, true⟩, ⟨.receive, some ⟨220, "mx"⟩⟩, ⟨.send "EHLO localhost", true⟩,
      ⟨.receive, some ⟨250, "mx"⟩⟩, ⟨.send "MAIL FROM:<s@x>", true⟩,
      ⟨.receive, some ⟨250, "ok"⟩⟩, ⟨.send "RCPT TO:<a@x>", true⟩,
      ⟨.receive, some ⟨250, "ok"⟩⟩, ⟨.send "DATA", true⟩, ⟨.receive, some ⟨354, "go"⟩⟩]

theorem beforeData_accepting :
    (beforeData T plainRelay oneRecipient).run.Runs exec () {}
      (.ok (.inr [⟨"a@x", .accepted, "250 ok"⟩])) awaitingMessage := by
  have hplay : (beforeData T plainRelay oneRecipient).run.play eval () accepting {} =
      some (.ok (.inr [⟨"a@x", .accepted, "250 ok"⟩]), awaitingMessage) := rfl
  exact Prog.play_runs eval_exec hplay

def afterFailedCopy (s : Wire) (chunks : List Bytes) : Wire where
  history := s.history ++
    chunks.flatMap (fun b => [⟨.read (.chunk b), ()⟩, ⟨.data b, true⟩]) ++ [⟨.read .failed, ()⟩]

theorem copyMessage_fails (chunks : List Bytes) (hb : s.broken = false) :
    (copyMessage true chunks).Runs exec () s (some .message) (afterFailedCopy s chunks) := by
  induction chunks generalizing s with
  | nil =>
    obtain ⟨broken, history⟩ := s
    obtain rfl : broken = false := hb
    exact .call (r := ()) (by simp [exec, afterFailedCopy]) (.ret _ _)
  | cons b rest ih =>
    obtain ⟨broken, history⟩ := s
    obtain rfl : broken = false := hb
    have hread : exec () (.read (.chunk b)) ⟨false, history⟩ ()
        ⟨false, history ++ [⟨.read (.chunk b), ()⟩]⟩ := rfl
    have hdata : exec () (.data b) ⟨false, history ++ [⟨.read (.chunk b), ()⟩]⟩ true
        ⟨false, history ++ [⟨.read (.chunk b), ()⟩] ++ [⟨.data b, true⟩]⟩ :=
      ⟨fun h => absurd h (by simp), rfl⟩
    have hrest := ih (s := ⟨false, history ++ [⟨.read (.chunk b), ()⟩] ++ [⟨.data b, true⟩]⟩) rfl
    have heq : afterFailedCopy ⟨false, history ++ [⟨.read (.chunk b), ()⟩] ++ [⟨.data b, true⟩]⟩
        rest = afterFailedCopy ⟨false, history⟩ (b :: rest) := by
      simp [afterFailedCopy]
    exact .call hread (.call hdata (heq ▸ hrest))

theorem submit_fails {msg : Message} (hfails : msg.fails = true) :
    (submit T plainRelay oneRecipient msg).run.Runs exec () {} (.error .message)
      { history := (afterFailedCopy awaitingMessage msg.chunks).history ++ [⟨.close, true⟩] } := by
  have hcopy := copyMessage_fails msg.chunks (s := awaitingMessage) rfl
  have hclose : exec () .close (afterFailedCopy awaitingMessage msg.chunks) true
      { history := (afterFailedCopy awaitingMessage msg.chunks).history ++ [⟨.close, true⟩] } :=
    ⟨fun h => absurd h (by simp [afterFailedCopy]), rfl⟩
  rw [← hfails] at hcopy
  exact (beforeData_accepting T).bind (hcopy.bind (.call hclose (.ret _ _)))

/-! ## The result -/

/-- In every session, whatever the smarthost answers and whenever the connection fails: the
    terminator is sent only after the message was read to its end, and not at all when Submit
    reports the message's failure, if and only if no read of the message fails in it.  So it is
    safe in every session exactly for the messages that do not fail. -/
theorem terminator_after_eof (T : Texts) (msg : Message) :
    (∀ (cfg : SMTPRelayConfig) (env : Envelope) (res : Except Err (List Result)) (s : Wire),
      (submit T cfg env msg).run.Runs exec () {} res s →
      (Safe res s.history ↔ ¬ ReadFailed s.history)) ∧
    ((∀ (cfg : SMTPRelayConfig) (env : Envelope) (res : Except Err (List Result)) (s : Wire),
      (submit T cfg env msg).run.Runs exec () {} res s → Safe res s.history) ↔
      msg.fails = false) := by
  have hverdict : ∀ (cfg : SMTPRelayConfig) (env : Envelope) (res : Except Err (List Result))
      (s : Wire), (submit T cfg env msg).run.Runs exec () {} res s → Verdict msg.fails res s :=
    fun cfg env res s hr => hr.post (submit_verdict T cfg env msg)
  refine ⟨fun cfg env res s hr => (hverdict cfg env res s hr).iff, fun hsafe => ?_,
    fun hfails cfg env res s hr => ?_⟩
  · by_contra hfails
    have hr := submit_fails T (Bool.not_eq_false _ ▸ hfails)
    refine (hverdict _ _ _ _ hr).iff.mp (hsafe _ _ _ _ hr) ?_
    exact List.mem_append_left _ (List.mem_append_right _ (List.mem_singleton_self _))
  · have hv := hverdict cfg env res s hr
    exact hv.iff.mpr fun hfailed => by simpa [hfails] using hv.fails hfailed

def halfMessage : Message := { chunks := [[72, 105]], fails := true }

def asciiTexts : Texts where
  toUpper := String.toUpper
  quote s := "\"" ++ s ++ "\""
  parseInt := String.toInt?
  base64 s := s

/-- The smarthost gets the half message with a terminator, Submit reports that the message
    could not be read, and the worker puts the recipient down for another attempt. -/
theorem half_message_terminated : ∃ s : Wire,
    (submit asciiTexts plainRelay oneRecipient halfMessage).run.Runs exec () {}
      (.error .message) s ∧
    ⟨.data [72, 105], true⟩ ∈ s.history ∧ ⟨.close, true⟩ ∈ s.history ∧
    ⟨.read .eof, ()⟩ ∉ s.history ∧
    (mergeResults oneRecipient.recipients []
      "451 4.4.1 could not transmit to smarthost").map (·.outcome) = [.tempFailed] := by
  refine ⟨_, submit_fails asciiTexts rfl, ?_, ?_, fun hmem => ?_, by decide⟩
  · simp [afterFailedCopy, halfMessage]
  · simp
  · have hop := List.mem_map_of_mem (f := Sigma.fst) hmem
    simp [afterFailedCopy, halfMessage, awaitingMessage] at hop

end NaustJmap.Submit.Relay
