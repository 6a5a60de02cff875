import Corebase.SmtpMessages

namespace Corebase.SmtpSend

open JsText SmtpReplies SmtpMessages

inductive Tls
  | require | starttls | off
deriving DecidableEq

structure SmtpConfig where
  tls : Tls
  user : Option Text
  password : Option Text
  clientName : Option Text

/-- What an await comes back with; connected stands for both handshakes. -/
inductive Answer
  | connected
  | reply (r : Reply)
  | lost (message : Text)

/-- What the sender is waiting for. -/
inductive Phase
  | connecting | greeting | hello | starttls | handshake | helloAgain | auth | mail | rcpt | data | message | quit
  | accepted
  | failed (message : Text) (retryable : Bool)
deriving DecidableEq

structure Write where
  secure : Bool
  text : Text
deriving DecidableEq

structure Session where
  phase : Phase
  secure : Bool
  trace : List Write

def fresh : Session := ⟨.connecting, false, []⟩

def Session.fail (s : Session) (message : Text) (retryable : Bool) : Session := { s with phase := .failed message retryable }

def Session.write (s : Session) (next : Phase) (text : Text) : Session :=
  { s with phase := next, trace := s.trace ++ [⟨s.secure, text⟩] }

def Session.say (s : Session) (next : Phase) (line : Text) : Session := s.write next (line ++ CRLF)

/-- The class of a reply. -/
def hundreds (r : Reply) : Option Nat := r.code.map (· / 100)

def codeText (r : Reply) : Text :=
  match r.code with
  | some code => Nat.toDigits 10 code
  | none => "NaN".toList

/-- A command is only answered well by the class that is expected. -/
def Session.expect (s : Session) (line : Text) (digit : Nat) (redact : Bool) (r : Reply) (next : Session) : Session :=
  if hundreds r = some digit then next
  else
    s.fail ("SMTP ".toList ++ codeText r ++ " in reply to ".toList
      ++ (if redact then "<credentials>".toList else line.takeWhile (· ≠ ' ')) ++ ": ".toList ++ r.text) (hundreds r = some 4)

/-- The pattern ignores case in ASCII only. -/
def offersStartTls (ehlo : Text) : Bool := (indexOf "STARTTLS".toList (ehlo.map Char.toUpper)).isSome

variable (config : SmtpConfig) (m : OutgoingMessage)

def ehlo : Text := "EHLO ".toList ++ config.clientName.getD "steadhold".toList

def authPlain (user : Text) : Text :=
  "AUTH PLAIN ".toList ++ base64 (utf8 ('\x00' :: (user ++ '\x00' :: config.password.getD [])))

def mailFrom : Text := "MAIL FROM:<".toList ++ headerSafe m.sender ++ ['>']

def rcptTo : Text := "RCPT TO:<".toList ++ headerSafe m.recipient ++ ['>']

/-- After the last greeting: credentials are refused to a channel in clear. -/
def Session.login (s : Session) : Session :=
  match present config.user with
  | none => s.say .mail (mailFrom m)
  | some user =>
      if config.tls = .off then s.fail "refusing to send SMTP credentials over an unencrypted connection".toList false
      else s.say .auth (authPlain config user)

def Session.connect (s : Session) : Session :=
  match s.phase with
  | .connecting => { s with phase := .greeting, secure := config.tls = .require }
  | .handshake => { s with secure := true }.say .helloAgain (ehlo config)
  | _ => s

variable (messageId date boundary : Text)

def Session.reply (s : Session) (r : Reply) : Session :=
  match s.phase with
  | .greeting =>
      if hundreds r = some 2 then s.say .hello (ehlo config)
      else s.fail ("SMTP greeting was ".toList ++ codeText r ++ ": ".toList ++ r.text) true
  | .hello => s.expect (ehlo config) 2 false r <|
      if config.tls = .starttls then
        if offersStartTls r.text then s.say .starttls "STARTTLS".toList
        else s.fail "the SMTP server does not offer STARTTLS, and downgrading is not an option".toList false
      else s.login config m
  | .starttls => s.expect "STARTTLS".toList 2 false r { s with phase := .handshake }
  | .helloAgain => s.expect (ehlo config) 2 false r (s.login config m)
  | .auth => s.expect (authPlain config (config.user.getD [])) 2 true r (s.say .mail (mailFrom m))
  | .mail => s.expect (mailFrom m) 2 false r (s.say .rcpt (rcptTo m))
  | .rcpt => s.expect (rcptTo m) 2 false r (s.say .data "DATA".toList)
  | .data => s.expect "DATA".toList 3 false r (s.write .message (transmitted m messageId date boundary))
  | .message =>
      if hundreds r = some 2 then s.say .quit "QUIT".toList
      else s.fail ("the SMTP server refused the message: ".toList ++ codeText r ++ [' '] ++ r.text) (hundreds r = some 4)
  | .quit => { s with phase := .accepted }
  | _ => s

def Session.lose (s : Session) (message : Text) : Session :=
  match s.phase with
  | .connecting => s.fail ("cannot reach the SMTP server: ".toList ++ message) true
  -- the message has been accepted, so that the answer to QUIT does not matter
  | .quit => { s with phase := .accepted }
  | .accepted | .failed _ _ => s
  | _ => s.fail message true

def step (s : Session) : Answer → Session
  | .connected => s.connect config
  | .reply r => s.reply config m messageId date boundary r
  | .lost message => s.lose message

def send (answers : List Answer) : Session := answers.foldl (step config m messageId date boundary) fresh

/-! What may be written -/

def encrypted : Bool := config.tls ≠ .off

def opening : List Write :=
  match config.tls with
  | .require => [⟨true, ehlo config ++ CRLF⟩]
  | .off => [⟨false, ehlo config ++ CRLF⟩]
  | .starttls => [⟨false, ehlo config ++ CRLF⟩, ⟨false, "STARTTLS\r\n".toList⟩, ⟨true, ehlo config ++ CRLF⟩]

def credentials : List Write := ((present config.user).map fun user => ⟨true, authPlain config user ++ CRLF⟩).toList

def envelope : List Write :=
  [mailFrom m ++ CRLF, rcptTo m ++ CRLF, "DATA\r\n".toList, transmitted m messageId date boundary, "QUIT\r\n".toList].map
    fun text => ⟨encrypted config, text⟩

/-- The whole conversation, if nothing goes wrong. -/
def script : List Write :=
  opening config ++ if config.tls = .off ∧ present config.user ≠ none then [] else
    credentials config ++ envelope config m messageId date boundary

/-- What has been written when a phase is reached. -/
def said : Phase → List Write
  | .connecting | .greeting => []
  | .hello => (opening config).take 1
  | .starttls | .handshake => (opening config).take 2
  | .helloAgain => opening config
  | .auth => opening config ++ credentials config
  | .mail => opening config ++ credentials config ++ (envelope config m messageId date boundary).take 1
  | .rcpt => opening config ++ credentials config ++ (envelope config m messageId date boundary).take 2
  | .data => opening config ++ credentials config ++ (envelope config m messageId date boundary).take 3
  | .message => opening config ++ credentials config ++ (envelope config m messageId date boundary).take 4
  | .quit | .accepted => opening config ++ credentials config ++ envelope config m messageId date boundary
  | .failed _ _ => []

/-- Whether the channel is encrypted in a phase. -/
def channel : Phase → Bool
  | .connecting => false
  | .greeting | .hello | .starttls | .handshake => config.tls = .require
  | _ => encrypted config

/-- Which phases there are for the configuration. -/
def Possible : Phase → Prop
  | .starttls | .handshake | .helloAgain => config.tls = .starttls
  | .auth => config.tls ≠ .off ∧ present config.user ≠ none
  | .mail | .rcpt | .data | .message | .quit | .accepted => config.tls = .off → present config.user = none
  | _ => True

inductive Inv (s : Session) : Prop
  | failed {message : Text} {retryable : Bool} (phase : s.phase = .failed message retryable)
      (trace : s.trace <+: script config m messageId date boundary)
  | on (possible : Possible config s.phase) (secure : s.secure = channel config s.phase)
      (trace : s.trace = said config m messageId date boundary s.phase)

variable {config m messageId date boundary} {s : Session} {p next : Phase} {line : Text}

theorem said_prefix (h : Possible config p) :
    said config m messageId date boundary p <+: script config m messageId date boundary := by
  have hopening : ∀ n, (opening config).take n <+: script config m messageId date boundary :=
    fun n => (List.take_prefix n _).trans (List.prefix_append ..)
  have henvelope : (config.tls = .off → present config.user = none) → ∀ n, opening config ++ credentials config ++
      (envelope config m messageId date boundary).take n <+: script config m messageId date boundary := by
    intro hoff n
    have hlogin : ¬ (config.tls = .off ∧ present config.user ≠ none) := fun h => h.2 (hoff h.1)
    rw [script, if_neg hlogin, List.append_assoc, List.prefix_append_right_inj, List.prefix_append_right_inj]
    exact List.take_prefix n _
  cases p with
  | connecting | greeting | failed => exact List.nil_prefix
  | hello => exact hopening 1
  | starttls | handshake => exact hopening 2
  | helloAgain => exact List.prefix_append ..
  | auth =>
      have hlogin : ¬ (config.tls = .off ∧ present config.user ≠ none) := fun hoff => h.1 hoff.1
      have hall := henvelope (fun hoff => absurd hoff h.1) 0
      rwa [List.take_zero, List.append_nil] at hall
  | mail => exact henvelope h 1
  | rcpt => exact henvelope h 2
  | data => exact henvelope h 3
  | message => exact henvelope h 4
  | quit | accepted => exact henvelope h 5

theorem Inv.fail (h : Inv config m messageId date boundary s) (message : Text) (retryable : Bool) :
    Inv config m messageId date boundary (s.fail message retryable) := by
  cases h with
  | failed _ htrace => exact .failed rfl htrace
  | on hpossible _ htrace =>
      refine .failed rfl ?_
      change s.trace <+: _
      rw [htrace]
      exact said_prefix hpossible

/-- One more line of the conversation. -/
theorem Inv.write {text : Text} (hpossible : Possible config next) (hsecure : s.secure = channel config next)
    (htrace : s.trace ++ [⟨channel config next, text⟩] = said config m messageId date boundary next) :
    Inv config m messageId date boundary (s.write next text) :=
  .on hpossible hsecure (by
    rw [← hsecure] at htrace
    exact htrace)

theorem Inv.expect (h : Inv config m messageId date boundary s) {digit : Nat} {redact : Bool} {r : Reply} {s' : Session}
    (h' : Inv config m messageId date boundary s') :
    Inv config m messageId date boundary (s.expect line digit redact r s') := by
  rw [Session.expect]
  split
  · exact h'
  · exact h.fail _ _

theorem Inv.login (hsecure : s.secure = encrypted config) (htrace : s.trace = opening config) :
    Inv config m messageId date boundary (s.login config m) := by
  rw [Session.login]
  split
  · rename_i huser
    refine .write (fun _ => huser) hsecure ?_
    rw [htrace]
    simp [said, credentials, huser, envelope, channel]
  · rename_i user huser
    split
    · refine .failed rfl ?_
      change s.trace <+: _
      rw [htrace]
      exact List.prefix_append ..
    · rename_i htls
      refine .write ⟨htls, by simp [huser]⟩ hsecure ?_
      rw [htrace]
      simp [said, credentials, huser, channel, encrypted, htls]

theorem inv_connect (h : Inv config m messageId date boundary s) :
    Inv config m messageId date boundary (s.connect config) := by
  cases h with
  | failed hp htrace => rw [Session.connect, hp]; exact .failed hp htrace
  | on hpossible hsecure htrace =>
      rw [Session.connect]
      split
      · rename_i hp
        rw [hp] at htrace
        exact .on trivial rfl htrace
      · rename_i hp
        rw [hp] at htrace hpossible
        have htls : config.tls = .starttls := hpossible
        refine .write htls (by simp [channel, encrypted, htls]) ?_
        change s.trace ++ _ = _
        rw [htrace]
        simp [said, opening, htls, channel, encrypted]
      · exact .on hpossible hsecure htrace

theorem inv_reply (h : Inv config m messageId date boundary s) (r : Reply) :
    Inv config m messageId date boundary (s.reply config m messageId date boundary r) := by
  have hself := h
  cases h with
  | failed hp htrace => rw [Session.reply, hp]; exact hself
  | on hpossible hsecure htrace =>
      rw [Session.reply]
      cases hp : s.phase <;> rw [hp] at htrace hpossible hsecure
      case greeting =>
        dsimp only
        split
        · refine .write trivial hsecure ?_
          rw [htrace]
          cases htls : config.tls <;> simp [said, opening, htls, channel]
        · exact hself.fail _ _
      case hello =>
        refine hself.expect ?_
        split
        · rename_i htls
          split
          · refine .write htls hsecure ?_
            rw [htrace]
            simp [said, opening, htls, channel, CRLF]
          · exact hself.fail _ _
        · rename_i hstarttls
          cases htls : config.tls with
          | starttls => exact absurd htls hstarttls
          | require => exact .login (by simp [hsecure, channel, encrypted, htls]) (by simp [htrace, said, opening, htls])
          | off => exact .login (by simp [hsecure, channel, encrypted, htls]) (by simp [htrace, said, opening, htls])
      case starttls => exact hself.expect (.on hpossible hsecure htrace)
      case helloAgain => exact hself.expect (.login hsecure htrace)
      case auth =>
        refine hself.expect (.write (fun hoff => absurd hoff hpossible.1) hsecure ?_)
        rw [htrace]
        simp [said, envelope, channel]
      case mail =>
        refine hself.expect (.write hpossible hsecure ?_)
        rw [htrace]
        simp [said, envelope, channel]
      case rcpt =>
        refine hself.expect (.write hpossible hsecure ?_)
        rw [htrace]
        simp [said, envelope, channel, CRLF]
      case data =>
        refine hself.expect (.write hpossible hsecure ?_)
        rw [htrace]
        simp [said, envelope, channel]
      case message =>
        dsimp only
        split
        · refine .write hpossible hsecure ?_
          rw [htrace]
          simp [said, envelope, channel, CRLF]
        · exact hself.fail _ _
      case quit => exact .on hpossible hsecure htrace
      all_goals exact hself

theorem inv_lose (h : Inv config m messageId date boundary s) (message : Text) :
    Inv config m messageId date boundary (s.lose message) := by
  rw [Session.lose]
  cases hp : s.phase
  case quit =>
    cases h with
    | failed hfailed _ => rw [hp] at hfailed; cases hfailed
    | on hpossible hsecure htrace =>
        rw [hp] at hpossible hsecure htrace
        exact .on hpossible hsecure htrace
  case accepted => exact h
  case failed => exact h
  all_goals exact h.fail _ _

theorem inv_send (answers : List Answer) :
    Inv config m messageId date boundary (send config m messageId date boundary answers) := by
  induction answers using List.reverseRecOn with
  | nil => exact .on trivial rfl rfl
  | append_singleton answers a ih =>
      rw [send, List.foldl_concat]
      cases a with
      | connected => exact inv_connect ih
      | reply r => exact inv_reply ih r
      | lost message => exact inv_lose ih message

/-! Acceptance -/

def Phase.delivered : Phase → Bool
  | .quit | .accepted => true
  | _ => false

theorem expect_delivered {digit : Nat} {redact : Bool} {r : Reply} {s' : Session} (h : s'.phase.delivered = false) :
    (s.expect line digit redact r s').phase.delivered = false := by
  rw [Session.expect]
  split
  · exact h
  · rfl

theorem login_delivered : (s.login config m).phase.delivered = false := by
  rw [Session.login]
  split
  · rfl
  · split <;> rfl

theorem delivered_connect (h : s.phase.delivered = false) : (s.connect config).phase.delivered = false := by
  rw [Session.connect]
  split
  · rfl
  · rfl
  · exact h

theorem delivered_lose (h : s.phase.delivered = false) (message : Text) : (s.lose message).phase.delivered = false := by
  rw [Session.lose]
  cases hp : s.phase
  case quit => rw [hp] at h; cases h
  case accepted => rw [hp] at h; cases h
  case failed => exact h
  all_goals rfl

/-- Only the reply to the message itself makes it delivered. -/
theorem delivered_reply (h : s.phase.delivered = false) (r : Reply) :
    (s.reply config m messageId date boundary r).phase.delivered = true ↔ s.phase = .message ∧ hundreds r = some 2 := by
  rw [Session.reply]
  cases hp : s.phase
  case message =>
    dsimp only
    split
    · rename_i hclass
      exact ⟨fun _ => ⟨rfl, hclass⟩, fun _ => rfl⟩
    · rename_i hclass
      exact ⟨fun h => absurd h Bool.false_ne_true, fun h => absurd h.2 hclass⟩
  case quit => rw [hp] at h; cases h
  case accepted => rw [hp] at h; cases h
  all_goals
    refine iff_of_false (Bool.not_eq_true _ ▸ ?_) (fun h => by cases h.1)
  case greeting =>
    dsimp only
    split <;> rfl
  case hello =>
    refine expect_delivered ?_
    split
    · split <;> rfl
    · exact login_delivered
  case helloAgain => exact expect_delivered login_delivered
  case connecting => exact h
  case handshake => exact h
  case failed => exact h
  all_goals exact expect_delivered rfl

/-- What has been delivered stays so. -/
theorem delivered_step (h : s.phase.delivered = true) (a : Answer) :
    (step config m messageId date boundary s a).phase.delivered = true := by
  cases hp : s.phase <;> rw [hp] at h
  case quit => cases a <;> simp [step, Session.connect, Session.reply, Session.lose, hp, Phase.delivered]
  case accepted => cases a <;> simp [step, Session.connect, Session.reply, Session.lose, hp, Phase.delivered]
  all_goals cases h

theorem send_concat (answers : List Answer) (a : Answer) : send config m messageId date boundary (answers ++ [a]) =
    step config m messageId date boundary (send config m messageId date boundary answers) a :=
  List.foldl_concat ..

theorem delivered_send (answers : List Answer) : (send config m messageId date boundary answers).phase.delivered = true ↔
    ∃ before r after, answers = before ++ .reply r :: after ∧ hundreds r = some 2 ∧
      (send config m messageId date boundary before).phase = .message := by
  induction answers using List.reverseRecOn with
  | nil =>
      refine iff_of_false Bool.false_ne_true ?_
      rintro ⟨before, r, after, h, -⟩
      cases before <;> cases h
  | append_singleton answers a ih =>
      rw [send_concat]
      cases hd : (send config m messageId date boundary answers).phase.delivered with
      | true =>
          obtain ⟨before, r, after, rfl, hr, hphase⟩ := ih.mp hd
          exact iff_of_true (delivered_step hd a) ⟨before, r, after ++ [a], by simp, hr, hphase⟩
      | false =>
          have hnot := fun h => Bool.false_ne_true (hd.symm.trans (ih.mpr h))
          constructor
          · intro h
            cases a with
            | connected => exact absurd h (by rw [step, delivered_connect hd]; exact Bool.false_ne_true)
            | lost message => exact absurd h (by rw [step, delivered_lose hd]; exact Bool.false_ne_true)
            | reply r =>
                obtain ⟨hphase, hr⟩ := (delivered_reply hd r).mp h
                exact ⟨answers, r, [], rfl, hr, hphase⟩
          · rintro ⟨before, r, after, h, hr, hphase⟩
            rcases List.eq_nil_or_concat after with rfl | ⟨init, last, rfl⟩
            · obtain ⟨rfl, ha⟩ := List.append_inj' h rfl
              obtain rfl := (List.cons.inj ha).1
              exact (delivered_reply hd r).mpr ⟨hphase, hr⟩
            · rw [List.concat_eq_append, ← List.cons_append, ← List.append_assoc] at h
              exact absurd ⟨before, r, init, (List.append_inj' h rfl).1, hr, hphase⟩ hnot

/-! The password -/

theorem login_password (config : SmtpConfig) (password : Option Text) (s s' : Session) :
    (s.login { config with password } m).phase = (s'.login config m).phase := by
  rw [Session.login, Session.login]
  dsimp only
  split
  · rfl
  · split <;> rfl

theorem expect_password {line' : Text} {digit : Nat} {redact : Bool} {r : Reply} {s' t t' : Session}
    (h : t.phase = t'.phase) (hline : redact = true ∨ line = line') :
    (s.expect line digit redact r t).phase = (s'.expect line' digit redact r t').phase := by
  rw [Session.expect, Session.expect]
  split
  · exact h
  · rcases hline with rfl | rfl <;> rfl

theorem step_password (config : SmtpConfig) (password : Option Text) {s s' : Session} (h : s.phase = s'.phase) (a : Answer) :
    (step { config with password } m messageId date boundary s a).phase =
      (step config m messageId date boundary s' a).phase := by
  cases a with
  | connected =>
      rw [step, step, Session.connect, Session.connect, h]
      cases hp : s'.phase <;> first | rfl | exact h
  | lost message =>
      rw [step, step, Session.lose, Session.lose, h]
      cases hp : s'.phase <;> first | rfl | exact h
  | reply r =>
      rw [step, step, Session.reply, Session.reply, h]
      cases hp : s'.phase
      case greeting => dsimp only; split <;> rfl
      case hello =>
        refine expect_password ?_ (.inr rfl)
        dsimp only
        split
        · split <;> rfl
        · exact login_password config password s s'
      case helloAgain => exact expect_password (login_password config password s s') (.inr rfl)
      case auth => exact expect_password rfl (.inl rfl)
      case message => dsimp only; split <;> rfl
      case quit => rfl
      case starttls => exact expect_password rfl (.inr rfl)
      case mail => exact expect_password rfl (.inr rfl)
      case rcpt => exact expect_password rfl (.inr rfl)
      case data => exact expect_password rfl (.inr rfl)
      all_goals exact h

theorem send_password (password : Option Text) (answers : List Answer) :
    (send { config with password } m messageId date boundary answers).phase =
      (send config m messageId date boundary answers).phase := by
  induction answers using List.reverseRecOn with
  | nil => rfl
  | append_singleton answers a ih =>
      rw [send_concat, send_concat]
      exact step_password config password ih a

/-- Whatever the server answers, in whatever order and wherever it breaks off: what is written is a beginning of the one
conversation; nothing but a greeting and STARTTLS goes over a clear channel where encryption is configured, and nothing
but a greeting where it is off and credentials are given; a message counts as delivered exactly when the reply to it was
positive; and no outcome depends on the password. -/
theorem send_safe (config : SmtpConfig) (m : OutgoingMessage) (messageId date boundary : Text) (answers : List Answer) :
    (send config m messageId date boundary answers).trace <+: script config m messageId date boundary ∧
    (config.tls ≠ .off → ∀ w ∈ (send config m messageId date boundary answers).trace, w.secure = false →
      w.text = ehlo config ++ CRLF ∨ w.text = "STARTTLS\r\n".toList) ∧
    (config.tls = .off → present config.user ≠ none →
      (send config m messageId date boundary answers).trace <+: [⟨false, ehlo config ++ CRLF⟩]) ∧
    ((send config m messageId date boundary answers).phase.delivered = true ↔
      ∃ before r after, answers = before ++ .reply r :: after ∧ hundreds r = some 2 ∧
        (send config m messageId date boundary before).phase = .message) ∧
    ∀ password, (send { config with password } m messageId date boundary answers).phase =
      (send config m messageId date boundary answers).phase := by
  have hbegins : (send config m messageId date boundary answers).trace <+: script config m messageId date boundary := by
    have hinv : Inv config m messageId date boundary (send config m messageId date boundary answers) := inv_send answers
    cases hinv with
    | failed _ htrace => exact htrace
    | on hpossible _ htrace =>
        rw [htrace]
        exact said_prefix hpossible
  refine ⟨hbegins, ?_, ?_, delivered_send answers, fun password => send_password password answers⟩
  · intro htls w hw hclear
    have hw := hbegins.subset hw
    have hlogin : ¬ (config.tls = .off ∧ present config.user ≠ none) := fun h => htls h.1
    rw [script, if_neg hlogin] at hw
    rcases List.mem_append.mp hw with hw | hw
    · cases hmode : config.tls <;> simp only [opening, hmode, List.mem_cons, List.not_mem_nil, or_false] at hw
      · rw [hw] at hclear
        cases hclear
      · rcases hw with rfl | rfl | rfl
        · exact .inl rfl
        · exact .inr rfl
        · cases hclear
      · exact absurd hmode htls
    · rcases List.mem_append.mp hw with hw | hw
      · obtain ⟨user, -, rfl⟩ := Option.map_eq_some_iff.mp (Option.mem_toList.mp hw)
        cases hclear
      · obtain ⟨text, -, rfl⟩ := List.mem_map.mp hw
        simp [encrypted, htls] at hclear
  · intro htls huser
    have hscript : script config m messageId date boundary = [⟨false, ehlo config ++ CRLF⟩] := by
      rw [script, if_pos ⟨htls, huser⟩, opening, htls]
      rfl
    rwa [hscript] at hbegins

end Corebase.SmtpSend
