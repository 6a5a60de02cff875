import Corebase.MailQueue

namespace Corebase.LinkMails

open Interleaving AccountStore AccountFlows TokenLedger MailQueue

/-- A mail with the link has been handed over after the token was issued. -/
def Mailed (x : Secret) (past : List Event) : Prop :=
  ∃ later earlier recipient current, past = later ++ .mailed x recipient current :: earlier ∧ ∃ o, origin x earlier = some o

/-- The mail is not held back, and no job has its delivery id. -/
def mailable (_ : Client) : MailQueue.Op → World → Bool
  | .account (.mail u x recipient), w => w.verdict recipient = .allowed && (w.deliveryId u x).all fun id => !w.knows id
  | _, _ => true

structure Inv (w : World) : Prop where
  ledger : Ledger w.accounts
  mailed : ∀ u type t, w.accounts.tokens u type = some t →
    Mailed t.secret w.accounts.history ∨ ∃ c, w.drafting c = some t.secret

structure Guar (c : Client) (w w' : World) : Prop where
  drafting : ∀ d, d ≠ c → w'.drafting d = w.drafting d
  origin : ∀ x o, origin x w.accounts.history = some o → origin x w'.accounts.history = some o

def owing : Discipline Client World MailQueue.Op where
  Inv := Inv
  Guar := Guar
  Idle c w := w.drafting c = none
  Allowed c op w := mailable c op w = true
  Mortal c w := w.drafting c = none

variable {config : AccountFlows.Config} {c : Client} {w w' : World} {s s' : AccountStore.Store} {u : UserId}
  {type : TokenType} {t : OneTimeToken} {x : Secret} {op : AccountStore.Op} {chance : Chance} {Q : World → Prop}

section Statements

theorem Mailed.append {past : List Event} (h : Mailed x past) (es : List Event) : Mailed x (es ++ past) := by
  obtain ⟨later, earlier, recipient, current, rfl, ho⟩ := h
  exact ⟨es ++ later, earlier, recipient, current, (List.append_assoc ..).symm, ho⟩

/-- The event is a mail with the link. -/
def carries (x : Secret) : Event → Bool
  | .mailed y .. => y = x
  | _ => false

theorem Mailed.any {past : List Event} (h : Mailed x past) : past.any (carries x) = true := by
  obtain ⟨later, earlier, recipient, current, rfl, _⟩ := h
  simp [carries]

/-- A statement adds to the history, and its tokens were there before or are newly issued. -/
theorem grows (h : Effect c op s s') : (∃ es, s'.history = es ++ s.history) ∧
    ∀ u type t, s'.tokens u type = some t → (∃ t₀, s.tokens u type = some t₀ ∧ t₀.secret = t.secret) ∨
      (∃ v type' relatesTo partner, op = .issueOneTimeToken v type' relatesTo partner) ∧ t.secret = s.nextSecret := by
  cases h with
  | calm hcalm =>
      obtain ⟨es, hes, -⟩ := hcalm.history
      exact ⟨⟨es, hes⟩, fun u type t ht => .inl ⟨t, hcalm.tokens ht, rfl⟩⟩
  | mail v x recipient hop hs =>
      subst hs
      exact ⟨⟨[_], rfl⟩, fun u type t ht => .inl ⟨t, ht, rfl⟩⟩
  | apply v email hop hs =>
      subst hs
      exact ⟨⟨[_], rfl⟩, fun u type t ht => .inl ⟨t, ht, rfl⟩⟩
  | issue v type' relatesTo partner hop hs =>
      subst hs
      refine ⟨⟨[_], rfl⟩, fun u type t ht => ?_⟩
      rw [issue_tokens] at ht
      split at ht
      next =>
        cases ht
        exact .inr ⟨⟨v, type', relatesTo, partner, hop⟩, rfl⟩
      next => exact .inl ⟨t, ht, rfl⟩
  | spend v type' t₀ ht₀ _ hs =>
      have hspend : ∀ u type t, (s.spend c v type' t₀.secret).tokens u type = some t →
          ∃ t₁, s.tokens u type = some t₁ ∧ t₁.secret = t.secret := by
        intro u type t ht
        rw [spend_tokens] at ht
        split at ht
        next heq =>
          obtain ⟨rfl, rfl⟩ := heq
          obtain ⟨t₁, ht₁, rfl⟩ := Option.map_eq_some_iff.mp ht
          exact ⟨t₁, ht₁, rfl⟩
        next => exact ⟨t, ht, rfl⟩
      rcases hs with rfl | rfl
      · exact ⟨⟨[_], rfl⟩, fun u type t ht => .inl (hspend u type t ht)⟩
      · exact ⟨⟨[_], rfl⟩, fun u type t ht => .inl (hspend u type t ht)⟩

/-- The statements that neither issue a token nor hand one over. -/
def calm : AccountStore.Op → Bool
  | .issueOneTimeToken .. | .mail .. => false
  | _ => true

theorem guar_of (es : List Event) (hI : Inv w') (hes : w'.accounts.history = es ++ w.accounts.history)
    (hdrafting : ∀ d, d ≠ c → w'.drafting d = w.drafting d) : Guar c w w' := by
  refine ⟨hdrafting, fun x o ho => ?_⟩
  have hlawful := hI.ledger.lawful
  rw [hes] at hlawful ⊢
  exact hlawful.origin_append ho

theorem keeps_account (chance : Chance) (op : AccountStore.Op) {r : AccountStore.Reply op} (hop : calm op = true) (hI : Inv w)
    (hexec : MailQueue.exec c chance (.account op) w = some (r, w')) :
    Inv w' ∧ Guar c w w' ∧ w'.drafting = w.drafting := by
  have hcalm : MailQueue.exec c chance (.account op) w = execAccount c chance op w := by
    cases op <;> first | rfl | cases hop
  rw [hcalm, execAccount, Option.map_eq_some_iff] at hexec
  obtain ⟨⟨r', s'⟩, hrun, heq⟩ := hexec
  cases heq
  obtain ⟨⟨es, hes⟩, htokens⟩ := grows (exec_effect hrun)
  have hinv : Inv { w with accounts := s' } := by
    refine ⟨hI.ledger.exec hrun, fun u type t ht => ?_⟩
    obtain ⟨t₀, ht₀, hsecret⟩ | ⟨⟨v, type', relatesTo, partner, rfl⟩, -⟩ := htokens u type t ht
    · rw [← hsecret]
      refine (hI.mailed u type t₀ ht₀).imp_left fun h => ?_
      rw [hes]
      exact h.append es
    · cases hop
  exact ⟨hinv, guar_of _ hinv hes fun _ _ => rfl, rfl⟩

theorem keeps_issue (chance : Chance) {relatesTo : Option Address} {partner : Option Secret} {r : Secret} (hI : Inv w)
    (hidle : w.drafting c = none)
    (hexec : MailQueue.exec c chance (.account (.issueOneTimeToken u type relatesTo partner)) w = some (r, w')) :
    Inv w' ∧ Guar c w w' ∧ w'.drafting c = some r ∧ ∃ o, origin r w'.accounts.history = some o := by
  cases hexec
  have hinv : Inv (World.draft { w with accounts := w.accounts.issueOneTimeToken u type relatesTo partner } c
      (some w.accounts.nextSecret)) := by
    refine ⟨hI.ledger.issue u type relatesTo partner, fun v type' t ht => ?_⟩
    simp only [World.draft] at ht ⊢
    rw [issue_tokens] at ht
    split at ht
    next =>
      cases ht
      exact .inr ⟨c, Function.update_self ..⟩
    next =>
      refine (hI.mailed v type' t ht).imp (fun h => h.append [_]) fun ⟨d, hd⟩ => ⟨d, ?_⟩
      have hdc : d ≠ c := by
        rintro rfl
        cases hidle.symm.trans hd
      rw [Function.update_of_ne hdc, hd]
  exact ⟨hinv, guar_of [_] hinv rfl fun d hd => Function.update_of_ne hd .., Function.update_self ..,
    _, origin_issued.trans (if_pos rfl)⟩

/-- A mail that is not held back and finds its delivery id free is enqueued. -/
theorem mail_added {recipient : Address} {o : Origin} (ho : origin x w.accounts.history = some o)
    (hok : mailable c (.account (.mail u x recipient)) w = true) :
    (w.mail u x recipient).1 = true ∧ (w.mail u x recipient).2.accounts = w.accounts ∧
      (w.mail u x recipient).2.drafting = w.drafting := by
  simp only [mailable, World.deliveryId, ho, Option.map_some, Option.all_some, Bool.and_eq_true, decide_eq_true_eq,
    Bool.not_eq_true'] at hok
  have hfree : (w.record (o.type, u) .queued).knows (o.type, u) = false := hok.2
  simp only [World.mail, World.deliveryId, ho, Option.map_some, World.handle, hok.1, World.enqueueAuthEmail, hfree]
  exact ⟨rfl, rfl, rfl⟩

theorem keeps_mail (chance : Chance) {recipient : Address} {r : Unit} {o : Origin} (hI : Inv w) (hdraft : w.drafting c = some x)
    (ho : origin x w.accounts.history = some o) (hok : mailable c (.account (.mail u x recipient)) w = true)
    (hexec : MailQueue.exec c chance (.account (.mail u x recipient)) w = some (r, w')) :
    Inv w' ∧ Guar c w w' ∧ w'.drafting c = none := by
  obtain ⟨hadded, haccounts, hdrafting⟩ := mail_added ho hok
  simp only [MailQueue.exec, execAccount, hadded, if_true, AccountStore.exec, Option.map_some, haccounts] at hexec
  cases hexec
  have hinv : Inv (World.draft { (w.mail u x recipient).2 with
      accounts := w.accounts.log (.mailed x recipient (w.accounts.email u)) } c none) := by
    refine ⟨hI.ledger.log rfl, fun v type t ht => ?_⟩
    rcases hI.mailed v type t ht with h | ⟨d, hd⟩
    · exact .inl (h.append [_])
    · by_cases hdc : d = c
      · subst hdc
        obtain rfl : x = t.secret := Option.some.inj (hdraft.symm.trans hd)
        exact .inl ⟨[], w.accounts.history, recipient, _, rfl, o, ho⟩
      · refine .inr ⟨d, ?_⟩
        simp only [World.draft]
        rw [Function.update_of_ne hdc, hdrafting, hd]
  refine ⟨hinv, guar_of [_] hinv rfl fun d hd => ?_, Function.update_self ..⟩
  simp only [World.draft]
  rw [Function.update_of_ne hd, hdrafting]

end Statements

section Programs

def Idle (c : Client) (w : World) : Prop := w.drafting c = none

/-- The client has a token to hand over. -/
def Owes (c : Client) (x : Secret) (w : World) : Prop :=
  w.drafting c = some x ∧ ∃ o, origin x w.accounts.history = some o

theorem stable_idle : owing.Stable c (Idle c) := fun _ hd _ _ _ hG h => (hG.drafting c hd.symm).trans h

theorem stable_owes : owing.Stable c (Owes c x) :=
  fun _ hd _ _ _ hG ⟨h, o, ho⟩ => ⟨(hG.drafting c hd.symm).trans h, o, hG.origin x o ho⟩

theorem meets_account {next : AccountStore.Reply op → Program AccountStore.Op AccountStore.Reply}
    (hop : calm op = true) (hnext : ∀ r, owing.Meets (mailing config) c (lift (next r)) (Idle c)) :
    owing.Meets (mailing config) c (lift (.step op next)) (Idle c) := by
  intro w chance r w' hI hidle _ hexec
  obtain ⟨hinv, hG, hdrafting⟩ := keeps_account chance _ hop hI hexec
  exact ⟨hinv, hG, _, stable_idle, (congrFun hdrafting c).trans hidle, hnext r⟩

theorem meets_calm {p : Program AccountStore.Op AccountStore.Reply} (hp : p.Only fun op => calm op = true) :
    owing.Meets (mailing config) c (lift p) (Idle c) := by
  induction p with
  | done => exact fun _ _ h => h
  | step op next ih => exact meets_account hp.1 fun r => ih r (hp.2 r)

theorem meets_answer (a : Answer) : owing.Meets (mailing config) c (lift (answer a)) (Idle c) :=
  meets_calm ⟨rfl, fun _ => trivial⟩

/-- A token that is issued for a link is handed over with the next statement. -/
theorem meets_issue {relatesTo : Option Address} {partner : Option Secret} {email : Option Address}
    {next : Secret → Program AccountStore.Op AccountStore.Reply} (hemail : email.isSome = true)
    (hnext : ∀ x, owing.Meets (mailing config) c (lift (next x)) (Idle c)) :
    owing.Meets (mailing config) c
      (lift (.step (.issueOneTimeToken u type relatesTo partner) fun x => sendMail u x email (next x))) (Idle c) := by
  obtain ⟨recipient, rfl⟩ := Option.isSome_iff_exists.mp hemail
  intro w chance x w' hI hidle _ hexec
  obtain ⟨hinv, hG, hdraft, horigin⟩ := keeps_issue chance hI hidle hexec
  refine ⟨hinv, hG, _, stable_owes, ⟨hdraft, horigin⟩, ?_⟩
  intro w chance r w' hI ⟨hdraft, o, ho⟩ hok hexec
  obtain ⟨hinv, hG, hdone⟩ := keeps_mail chance hI hdraft ho hok hexec
  exact ⟨hinv, hG, _, stable_idle, hdone, hnext x⟩

theorem meets_findUserByEmail {email : Address}
    {next : Option (UserId × User) → Program AccountStore.Op AccountStore.Reply}
    (hnone : owing.Meets (mailing config) c (lift (next none)) (Idle c))
    (hsome : ∀ v y, y.email = some email → owing.Meets (mailing config) c (lift (next (some (v, y)))) (Idle c)) :
    owing.Meets (mailing config) c (lift (.step (.findUserByEmail email) next)) (Idle c) := by
  intro w chance r w' hI hidle _ hexec
  obtain ⟨hinv, hG, hdrafting⟩ := keeps_account chance (.findUserByEmail email) rfl hI hexec
  refine ⟨hinv, hG, _, stable_idle, (congrFun hdrafting c).trans hidle, ?_⟩
  cases hexec
  cases hfound : w.accounts.findUserByEmail email with
  | none => exact hnone
  | some found => exact hsome found.1 found.2 (findUserByEmail_some hfound).2.2

theorem meets_signup (email : Address) (password : Password) :
    owing.Meets (mailing config) c (lift (signup config email password)) (Idle c) := by
  refine meets_account rfl fun created => ?_
  cases created with
  | none =>
      refine meets_findUserByEmail (meets_answer _) fun v y hy => ?_
      dsimp only
      split
      · exact meets_issue (by rw [hy]; rfl) fun _ => meets_answer _
      · exact meets_answer _
  | some v =>
      dsimp only
      split
      · exact meets_calm ⟨rfl, fun _ => ⟨rfl, fun _ => trivial⟩⟩
      · exact meets_issue rfl fun _ => meets_answer _

theorem meets_recover (email : Address) : owing.Meets (mailing config) c (lift (recover email)) (Idle c) :=
  meets_findUserByEmail (meets_answer _) fun _ _ _ => meets_issue rfl fun _ => meets_answer _

theorem meets_resend (email : Address) : owing.Meets (mailing config) c (lift (resend email)) (Idle c) := by
  refine meets_findUserByEmail (meets_answer _) fun v y hy => ?_
  dsimp only
  split
  · exact meets_answer _
  · exact meets_issue (by rw [hy]; rfl) fun _ => meets_answer _

theorem meets_putEmail (bearer : Bearer) (user : User) (email : Option Address) (a : Answer) :
    owing.Meets (mailing config) c (lift (putEmail config bearer user email a)) (Idle c) := by
  unfold putEmail
  split
  · exact meets_answer _
  split
  · exact meets_answer _
  · refine meets_issue rfl fun new => ?_
    split
    next hdouble => exact meets_issue ((Bool.and_eq_true _ _).mp hdouble).2 fun _ => meets_answer _
    next => exact meets_account rfl fun _ => meets_answer _

theorem meets_putUser (bearer : Bearer) (body : UserBody) :
    owing.Meets (mailing config) c (lift (putUser config bearer body)) (Idle c) := by
  refine meets_account rfl ?_
  rintro (_ | _)
  · exact meets_answer _
  refine meets_account rfl ?_
  rintro (_ | user)
  · exact meets_answer _
  dsimp only
  split
  · exact meets_putEmail _ _ _ _
  split
  · exact meets_answer _
  refine meets_account rfl fun old => ?_
  exact meets_account rfl fun _ => meets_putEmail _ _ _ _

theorem meets_single {op : MailQueue.Op} (hop : ∀ chance w r w', MailQueue.exec c chance op w = some (r, w') →
    w'.accounts = w.accounts ∧ w'.drafting = w.drafting) :
    owing.Meets (mailing config) c (.step op fun _ => .done) (Idle c) := by
  intro w chance r w' hI hidle _ hexec
  obtain ⟨haccounts, hdrafting⟩ := hop chance w r w' hexec
  have hinv : Inv w' := by
    refine ⟨haccounts ▸ hI.ledger, ?_⟩
    rw [haccounts, hdrafting]
    exact hI.mailed
  refine ⟨hinv, guar_of [] hinv (by rw [haccounts]; rfl) fun _ _ => by rw [hdrafting], _, stable_idle,
    (congrFun hdrafting c).trans hidle, fun _ _ h => h⟩

theorem sound : owing.Sound (mailing config) where
  idle _ := stable_idle
  abort c w hI hidle := by
    have hnone : w.drafting c = none := hidle
    have hsame : w.draft c none = w := by
      rw [World.draft, ← hnone, Function.update_eq_self]
    change Inv (w.draft c none) ∧ Guar c w (w.draft c none) ∧ (w.draft c none).drafting c = none
    rw [hsame]
    exact ⟨hI, ⟨fun _ _ => rfl, fun _ _ => id⟩, hidle⟩
  program c q := by
    cases q with
    | rule | settle | evict =>
        refine meets_single fun chance w r w' h => ?_
        cases h
        exact ⟨rfl, rfl⟩
    | account q =>
        cases q with
        | signup email password => exact meets_signup email password
        | recover email => exact meets_recover email
        | resend email => exact meets_resend email
        | putUser bearer body => exact meets_putUser bearer body
        | passwordGrant | verify | verifyEmailChange | refresh | logout | deleteSession | adminCreate | adminUpdate
        | adminDelete | tick =>
            refine meets_calm ((program_uses config _).mono fun op hop => ?_)
            cases op <;> first | rfl | exact hop.elim

end Programs

section Runs

variable {rows : List User} {g : Interleaving.Config Client World MailQueue.Op MailQueue.Reply}

/-- A project before its first request, with nothing suppressed or over its caps. -/
def opened (rows : List User) : World where
  accounts := .opened rows
  verdict _ := .allowed
  sends _ := none
  queue := []
  drafting _ := none

/-- The moves of runs in which every mail is allowed and finds its delivery id free, and no client dies with a
link that it has not handed over. -/
def Mailable (g : Interleaving.Config Client World MailQueue.Op MailQueue.Reply)
    (m : Move Client Chance MailQueue.Request) : Prop :=
  Protocol.Statements (fun c op w => mailable c op w = true) g m ∧ Protocol.Deaths Idle g m

theorem grants_mailable : owing.Grants Mailable where
  allowed _ c choice op next hr hok := hok.1 c choice op next rfl hr
  mortal _ c hok := hok.2 c rfl

theorem inv_opened : Inv (opened rows) := ⟨ledger_opened rows, nofun⟩

end Runs

section Examples

def mailableMove (g : Interleaving.Config Client World MailQueue.Op MailQueue.Reply) (m : Move Client Chance MailQueue.Request) :
    Bool := Protocol.watch mailable g m && match m with
  | .crash _ => false
  | _ => true

theorem mailable_watch (g : Interleaving.Config Client World MailQueue.Op MailQueue.Reply)
    (m : Move Client Chance MailQueue.Request) (hm : mailableMove g m = true) : Mailable g m := by
  obtain ⟨hwatch, hcrash⟩ := (Bool.and_eq_true _ _).mp hm
  refine ⟨Protocol.statements_watch (fun _ _ _ => id) g m hwatch, ?_⟩
  rintro c rfl
  cases hcrash

def recovery : List (Move Client Chance MailQueue.Request) :=
  .arrive 0 (.account (.recover (.mailbox 0))) :: List.replicate 4 (.run 0 .usual)

def worker (q : MailQueue.Request) : List (Move Client Chance MailQueue.Request) := [.arrive 1 q, .run 1 .usual]

/-- A second recovery once the queue has forgotten the mail of the first one. -/
def forgotten : List (Move Client Chance MailQueue.Request) :=
  recovery ++ worker (.settle (.recovery, 0) .completed) ++ worker (.evict (.recovery, 0)) ++ recovery

/-- The mail of the first recovery has gone out, and the queue still remembers it. -/
def remembered : List (Move Client Chance MailQueue.Request) :=
  recovery ++ worker (.settle (.recovery, 0) .completed) ++ recovery

end Examples

end Corebase.LinkMails
