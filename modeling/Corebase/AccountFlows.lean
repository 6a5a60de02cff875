import Corebase.AccountStore
import Corebase.Interleaving

namespace Corebase.AccountFlows

open Interleaving AccountStore

structure Config where
  autoconfirm : Bool
  /-- An email change is confirmed from both addresses. -/
  double : Bool
deriving DecidableEq

def answer (a : Answer) : Program Op Reply := .step (.answer a) fun _ => .done

/-- An answer that nothing follows from. -/
def plain : Program Op Reply := answer ⟨none, none⟩

def sendMail (userId : UserId) (secret : Secret) (recipient : Option Address) (next : Program Op Reply) :
    Program Op Reply :=
  match recipient with
  | none => next
  | some recipient => .step (.mail userId secret recipient) fun _ => next

def sendConfirmation (userId : UserId) (email : Option Address) : Program Op Reply :=
  .step (.issueOneTimeToken userId .confirmation none none) fun secret => sendMail userId secret email plain

def issueSession (userId : UserId) (via : Via) : Program Op Reply := .step (.openSession userId via) fun _ => plain

variable (config : Config)

def signup (email : Address) (password : Password) : Program Op Reply :=
  .step (.createUser email (some password) config.autoconfirm) fun
    | none => .step (.findUserByEmail email) fun
      | none => plain
      | some (userId, user) => if user.emailConfirmedAt.isNone then sendConfirmation userId user.email else plain
    | some userId =>
      if config.autoconfirm then issueSession userId (.password password) else sendConfirmation userId (some email)

def passwordGrant (email : Address) (password : Password) : Program Op Reply :=
  .step (.findUserByEmail email) fun
    | none => plain
    | some (userId, user) => match user.encryptedPassword with
      | none => plain
      | some hash =>
        if hash.password ≠ password then plain
        else .step .clock fun now =>
          if user.banned now then plain
          else if user.emailConfirmedAt.isNone && !config.autoconfirm then plain
          else if hash.weak then
            .step (.updatePasswordHash userId password false) fun _ => issueSession userId (.password password)
          else issueSession userId (.password password)

def doVerify (type : TokenType) (secret : Secret) : Program Op Reply :=
  .step (.consumeOneTimeToken type secret) fun
    | none => plain
    | some userId => .step (.findUserById userId) fun
      | none => plain
      | some _ => .step (.markEmailConfirmed userId secret) fun _ => issueSession userId (.link secret)

/-- The end of verifyEmailChange, when all that has to confirm has done so. -/
def completeEmailChange (userId : UserId) (newEmail : Address) : Program Op Reply :=
  .step (.applyEmailChange userId newEmail) fun
    | false => .step (.clearEmailChangeTokens userId) fun _ => plain
    | true => .step (.clearEmailChangeTokens userId) fun _ => .step (.revokeUserSessions userId .global 0) fun _ => plain

def sibling : TokenType → TokenType
  | .emailChangeNew => .emailChangeCurrent
  | _ => .emailChangeNew

def verifyEmailChange (secret : Secret) : Program Op Reply :=
  .step (.consumeEitherToken secret) fun
    | none => plain
    | some (_, none, _) => plain
    | some (userId, some newEmail, type) =>
      if config.double then
        .step (.siblingConsumed userId (sibling type) secret) fun
          | false => plain
          | true => completeEmailChange userId newEmail
      else completeEmailChange userId newEmail

def recover (email : Address) : Program Op Reply :=
  .step (.findUserByEmail email) fun
    | none => plain
    | some (userId, _) =>
      .step (.issueOneTimeToken userId .recovery none none) fun secret => sendMail userId secret (some email) plain

def resend (email : Address) : Program Op Reply :=
  .step (.findUserByEmail email) fun
    | none => plain
    | some (userId, user) => if user.emailConfirmedAt.isSome then plain else sendConfirmation userId user.email

def refreshGrant (sessionId : SessionId) : Program Op Reply :=
  .step (.findRefreshToken sessionId) fun
    | none => plain
    | some userId => .step (.idleExpired sessionId) fun
      | true => .step (.revokeSessionFamily sessionId) fun _ => plain
      | false => .step (.findUserById userId) fun
        | none => .step (.revokeSessionFamily sessionId) fun _ => plain
        | some user => .step .clock fun now =>
          if user.banned now then .step (.revokeSessionFamily sessionId) fun _ => plain
          else .step (.rotateRefreshToken userId sessionId) fun
            | .issued => plain
            | .theft => .step (.revokeSessionFamily sessionId) fun _ => plain
            | .refused => plain

def proposeEmailChange (userId : UserId) (user : User) (newEmail : Address) (next : Program Op Reply) :
    Program Op Reply :=
  .step (.issueOneTimeToken userId .emailChangeNew (some newEmail) none) fun new =>
    sendMail userId new (some newEmail) <|
      if config.double && user.email.isSome then
        .step (.issueOneTimeToken userId .emailChangeCurrent (some newEmail) (some new)) fun current =>
          sendMail userId current user.email next
      else .step (.clearCurrentToken userId) fun _ => next

/-- The bearer of an access token. -/
structure Bearer where
  userId : UserId
  sessionId : SessionId
  /-- The token comes from a recovery link. -/
  viaRecovery : Bool
deriving DecidableEq

structure UserBody where
  password : Option Password
  currentPassword : Option Password
  email : Option Address
deriving DecidableEq

/-- The part of PUT /user about the address. -/
def putEmail (bearer : Bearer) (user : User) (email : Option Address) (a : Answer) : Program Op Reply :=
  match email with
  | none => answer a
  | some newEmail =>
    if user.email = some newEmail then plain else proposeEmailChange config bearer.userId user newEmail (answer a)

def putUser (bearer : Bearer) (body : UserBody) : Program Op Reply :=
  .step (.liveSession bearer.sessionId bearer.userId) fun
    | false => plain
    | true => .step (.findUserById bearer.userId) fun
      | none => plain
      | some user => match body.password with
        | none => putEmail config bearer user body.email ⟨none, none⟩
        | some password =>
          if !bearer.viaRecovery && !(body.currentPassword.isSome &&
              user.encryptedPassword.map (·.password) = body.currentPassword) then plain
          else .step (.updatePasswordHash bearer.userId password true) fun old =>
            .step (.revokeUserSessions bearer.userId .others bearer.sessionId) fun _ =>
              putEmail config bearer user body.email ⟨none, some (bearer.userId, old, some bearer.sessionId)⟩

def logout (bearer : Bearer) (scope : Scope) : Program Op Reply :=
  .step (.revokeUserSessions bearer.userId scope bearer.sessionId) fun _ => plain

def deleteSession (bearer : Bearer) (sessionId : SessionId) : Program Op Reply :=
  .step (.liveSession bearer.sessionId bearer.userId) fun
    | false => plain
    | true => .step (.revokeOwnSession sessionId bearer.userId) fun _ => plain

def adminCreateUser (email : Address) (password : Option Password) (emailConfirm : Bool) : Program Op Reply :=
  .step (.createUser email password emailConfirm) fun _ => plain

/-- A ban that is in force at the time. -/
def AdminUpdate.bans (update : AdminUpdate) (now : Time) : Bool := (update.banUntil.bind id).any (now < ·)

/-- What the answer to an update vouches for. -/
def adminAnswer (userId : UserId) (update : AdminUpdate) (old : Option Password) (ban : Nat) (now : Time) : Answer where
  barred := if AdminUpdate.bans update now then some (userId, ban) else none
  changed := if update.password.isSome then some (userId, old, none) else none

def adminUpdate (userId : UserId) (update : AdminUpdate) : Program Op Reply :=
  .step (.adminUpdateUser userId update) fun
    | none => plain
    | some (old, ban) => .step .clock fun now =>
      if update.signOut || update.password.isSome || AdminUpdate.bans update now then
        .step (.revokeUserSessions userId .global 0) fun _ => answer (adminAnswer userId update old ban now)
      else answer (adminAnswer userId update old ban now)

def adminDelete (userId : UserId) : Program Op Reply :=
  .step (.softDeleteUser userId) fun
    | none => plain
    | some ban => answer ⟨some (userId, ban), none⟩

inductive Request
  | signup (email : Address) (password : Password)
  | passwordGrant (email : Address) (password : Password)
  | verify (type : TokenType) (secret : Secret)
  | verifyEmailChange (secret : Secret)
  | recover (email : Address)
  | resend (email : Address)
  | refresh (sessionId : SessionId)
  | putUser (bearer : Bearer) (body : UserBody)
  | logout (bearer : Bearer) (scope : Scope)
  | deleteSession (bearer : Bearer) (sessionId : SessionId)
  | adminCreate (email : Address) (password : Option Password) (emailConfirm : Bool)
  | adminUpdate (userId : UserId) (update : AdminUpdate)
  | adminDelete (userId : UserId)
  | tick (ms : Time)
deriving DecidableEq

/-- The types that verifyTypes knows. -/
def verifiable : TokenType → Bool
  | .confirmation | .recovery | .magicLink => true
  | _ => false

def program : Request → Program Op Reply
  | .signup email password => signup config email password
  | .passwordGrant email password => passwordGrant config email password
  | .verify type secret => if verifiable type then doVerify type secret else plain
  | .verifyEmailChange secret => verifyEmailChange config secret
  | .recover email => recover email
  | .resend email => resend email
  | .refresh sessionId => refreshGrant sessionId
  | .putUser bearer body => putUser config bearer body
  | .logout bearer scope => logout bearer scope
  | .deleteSession bearer sessionId => deleteSession bearer sessionId
  | .adminCreate email password emailConfirm => adminCreateUser email password emailConfirm
  | .adminUpdate userId update => adminUpdate userId update
  | .adminDelete userId => adminDelete userId
  | .tick ms => .step (.tick ms) fun _ => .done

/-- The statements that each request is made of. -/
def uses (q : Request) : Op → Prop
  | .findUserByEmail _ | .findUserById _ | .liveSession .. | .findRefreshToken _ | .idleExpired _ | .siblingConsumed ..
  | .clock => True
  | .answer a => match q with
    | .putUser .. => a.barred = none
    | .adminUpdate .. => True
    | .adminDelete _ => a.changed = none
    | _ => a = ⟨none, none⟩
  | .createUser .. => match q with
    | .signup .. | .adminCreate .. => True
    | _ => False
  | .updatePasswordHash _ _ change => match q with
    | .passwordGrant .. => change = false
    | .putUser .. => change = true
    | _ => False
  | .markEmailConfirmed .. => match q with
    | .verify .. => True
    | _ => False
  | .openSession _ via => match q with
    | .signup .. | .passwordGrant .. => ∃ p, via = .password p
    | .verify .. => ∃ secret, via = .link secret
    | _ => False
  | .revokeUserSessions .. => match q with
    | .verifyEmailChange _ | .putUser .. | .logout .. | .adminUpdate .. => True
    | _ => False
  | .revokeOwnSession .. => match q with
    | .deleteSession .. => True
    | _ => False
  | .rotateRefreshToken .. | .revokeSessionFamily _ => match q with
    | .refresh _ => True
    | _ => False
  | .issueOneTimeToken _ type .. => match q with
    | .signup .. | .resend _ => type = .confirmation
    | .recover _ => type = .recovery
    | .putUser .. => type.isEmailChange = true
    | _ => False
  | .mail .. => match q with
    | .signup .. | .resend _ | .recover _ | .putUser .. => True
    | _ => False
  | .consumeOneTimeToken type _ => match q with
    | .verify .. => verifiable type = true
    | _ => False
  | .consumeEitherToken _ | .applyEmailChange .. | .clearEmailChangeTokens _ => match q with
    | .verifyEmailChange _ => True
    | _ => False
  | .clearCurrentToken _ => match q with
    | .putUser .. => True
    | _ => False
  | .adminUpdateUser .. => match q with
    | .adminUpdate .. => True
    | _ => False
  | .softDeleteUser _ => match q with
    | .adminDelete _ => True
    | _ => False
  | .tick _ => match q with
    | .tick _ => True
    | _ => False

/-- The requests of a project, statement by statement. -/
def accounts : Protocol Client Store Op Chance Request Reply where
  exec := exec
  abort _ s := s
  program := program config

section Uses

variable {kind : Op → Prop}

theorem only_answer {a : Answer} (h : kind (.answer a)) : (answer a).Only kind := ⟨h, fun _ => trivial⟩

theorem only_sendMail {userId : UserId} {secret : Secret} {recipient : Option Address} {next : Program Op Reply}
    (h : ∀ recipient, kind (.mail userId secret recipient)) (hnext : next.Only kind) :
    (sendMail userId secret recipient next).Only kind := by
  cases recipient with
  | none => exact hnext
  | some recipient => exact ⟨h recipient, fun _ => hnext⟩

theorem only_propose {userId : UserId} {user : User} {newEmail : Address} {next : Program Op Reply} {q : Request}
    {bearer : Bearer} {body : UserBody} (hq : q = .putUser bearer body) (hnext : next.Only (uses q)) :
    (proposeEmailChange config userId user newEmail next).Only (uses q) := by
  subst hq
  refine ⟨rfl, fun new => only_sendMail (fun _ => trivial) ?_⟩
  split
  · exact ⟨rfl, fun current => only_sendMail (fun _ => trivial) hnext⟩
  · exact ⟨trivial, fun _ => hnext⟩

theorem only_putEmail {user : User} {email : Option Address} {a : Answer} (bearer : Bearer) (body : UserBody)
    (ha : a.barred = none) : (putEmail config bearer user email a).Only (uses (.putUser bearer body)) := by
  unfold putEmail
  split
  · exact only_answer ha
  split
  · exact only_answer rfl
  · exact only_propose config rfl (only_answer ha)

theorem only_putUser (bearer : Bearer) (body : UserBody) :
    (putUser config bearer body).Only (uses (.putUser bearer body)) := by
  refine ⟨trivial, ?_⟩
  rintro (_ | _)
  · exact only_answer rfl
  refine ⟨trivial, ?_⟩
  rintro (_ | user)
  · exact only_answer rfl
  dsimp only
  split
  · exact only_putEmail config bearer body rfl
  split
  · exact only_answer rfl
  · exact ⟨rfl, fun old => ⟨trivial, fun _ => only_putEmail config bearer body rfl⟩⟩

theorem only_completeEmailChange {userId : UserId} {newEmail : Address} (secret : Secret) :
    (completeEmailChange userId newEmail).Only (uses (.verifyEmailChange secret)) := by
  refine ⟨trivial, ?_⟩
  rintro (_ | _)
  · exact ⟨trivial, fun _ => only_answer rfl⟩
  · exact ⟨trivial, fun _ => ⟨trivial, fun _ => only_answer rfl⟩⟩

theorem only_refreshGrant (sessionId : SessionId) : (refreshGrant sessionId).Only (uses (.refresh sessionId)) := by
  have hfamily : (.step (.revokeSessionFamily sessionId) fun _ => plain : Program Op Reply).Only
      (uses (.refresh sessionId)) := ⟨trivial, fun _ => only_answer rfl⟩
  refine ⟨trivial, ?_⟩
  rintro (_ | userId)
  · exact only_answer rfl
  refine ⟨trivial, ?_⟩
  rintro (_ | _)
  · refine ⟨trivial, ?_⟩
    rintro (_ | user)
    · exact hfamily
    refine ⟨trivial, fun now => ?_⟩
    dsimp only
    split
    · exact hfamily
    refine ⟨trivial, ?_⟩
    rintro (_ | _ | _)
    · exact only_answer rfl
    · exact hfamily
    · exact only_answer rfl
  · exact hfamily

theorem only_passwordGrant (email : Address) (password : Password) :
    (passwordGrant config email password).Only (uses (.passwordGrant email password)) := by
  have hissue : ∀ userId, (issueSession userId (.password password)).Only (uses (.passwordGrant email password)) :=
    fun userId => ⟨⟨password, rfl⟩, fun _ => only_answer rfl⟩
  refine ⟨trivial, ?_⟩
  rintro (_ | ⟨userId, user⟩)
  · exact only_answer rfl
  dsimp only
  split
  · exact only_answer rfl
  split
  · exact only_answer rfl
  refine ⟨trivial, fun now => ?_⟩
  dsimp only
  split
  · exact only_answer rfl
  split
  · exact only_answer rfl
  split
  · exact ⟨rfl, fun _ => hissue userId⟩
  · exact hissue userId

theorem only_signup (email : Address) (password : Password) :
    (signup config email password).Only (uses (.signup email password)) := by
  have hsend : ∀ userId recipient, (sendConfirmation userId recipient).Only (uses (.signup email password)) :=
    fun userId recipient => ⟨rfl, fun _ => only_sendMail (fun _ => trivial) (only_answer rfl)⟩
  refine ⟨trivial, ?_⟩
  rintro (_ | userId)
  · refine ⟨trivial, ?_⟩
    rintro (_ | ⟨userId, user⟩)
    · exact only_answer rfl
    dsimp only
    split
    · exact hsend userId user.email
    · exact only_answer rfl
  dsimp only
  split
  · exact ⟨⟨password, rfl⟩, fun _ => only_answer rfl⟩
  · exact hsend userId (some email)

theorem program_uses (q : Request) : (program config q).Only (uses q) := by
  cases q with
  | signup email password => exact only_signup config email password
  | passwordGrant email password => exact only_passwordGrant config email password
  | refresh sessionId => exact only_refreshGrant sessionId
  | putUser bearer body => exact only_putUser config bearer body
  | logout bearer scope => exact ⟨trivial, fun _ => only_answer rfl⟩
  | adminCreate email password emailConfirm => exact ⟨trivial, fun _ => only_answer rfl⟩
  | tick ms => exact ⟨trivial, fun _ => trivial⟩
  | verify type secret =>
      change (if verifiable type then doVerify type secret else plain).Only _
      split
      next htype =>
        refine ⟨htype, ?_⟩
        rintro (_ | userId)
        · exact only_answer rfl
        refine ⟨trivial, ?_⟩
        rintro (_ | user)
        · exact only_answer rfl
        · exact ⟨trivial, fun _ => ⟨⟨secret, rfl⟩, fun _ => only_answer rfl⟩⟩
      next => exact only_answer rfl
  | verifyEmailChange secret =>
      refine ⟨trivial, ?_⟩
      rintro (_ | ⟨userId, _ | newEmail, type⟩)
      · exact only_answer rfl
      · exact only_answer rfl
      dsimp only
      split
      · refine ⟨trivial, ?_⟩
        rintro (_ | _)
        · exact only_answer rfl
        · exact only_completeEmailChange secret
      · exact only_completeEmailChange secret
  | recover email =>
      refine ⟨trivial, ?_⟩
      rintro (_ | ⟨userId, user⟩)
      · exact only_answer rfl
      · exact ⟨rfl, fun _ => only_sendMail (fun _ => trivial) (only_answer rfl)⟩
  | resend email =>
      refine ⟨trivial, ?_⟩
      rintro (_ | ⟨userId, user⟩)
      · exact only_answer rfl
      dsimp only
      split
      · exact only_answer rfl
      · exact ⟨rfl, fun _ => only_sendMail (fun _ => trivial) (only_answer rfl)⟩
  | deleteSession bearer sessionId =>
      refine ⟨trivial, ?_⟩
      rintro (_ | _)
      · exact only_answer rfl
      · exact ⟨trivial, fun _ => only_answer rfl⟩
  | adminUpdate userId update =>
      refine ⟨trivial, ?_⟩
      rintro (_ | ⟨old, ban⟩)
      · exact only_answer trivial
      refine ⟨trivial, fun now => ?_⟩
      dsimp only
      split
      · exact ⟨trivial, fun _ => only_answer trivial⟩
      · exact only_answer trivial
  | adminDelete userId =>
      refine ⟨trivial, ?_⟩
      rintro (_ | _)
      · exact only_answer rfl
      · exact only_answer rfl

end Uses

section Examples

/-- A project with a user of password 1, hashed long ago. -/
def alice : User := ⟨some (.mailbox 0), some ⟨1, true⟩, some 0, none, none⟩

def strict : Config := ⟨false, true⟩

end Examples

end Corebase.AccountFlows
