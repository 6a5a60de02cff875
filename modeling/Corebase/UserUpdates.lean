import Corebase.Attempts
import Corebase.AccountStore
import Corebase.Passwords
import Corebase.RateLimits

namespace Corebase.UserUpdates

open Json (Str str)
open Passwords Attempts Attempt
open RateLimits (toLowerCase)
open AccountStore (TokenType ttlSeconds Time)

abbrev UserId := Str
abbrev SessionId := Str

/-- An address that emailSchema lets through. -/
abbrev Email := { e : Str // 3 ≤ e.length ∧ e.length ≤ 320 }

structure AuthUser (Meta : Type) where
  id : UserId
  email : Option Str
  encryptedPassword : Option Str
  emailConfirmedAt : Option Time
  bannedUntil : Option Time
  rawUserMetaData : Meta
  rawAppMetaData : Meta
  createdAt : Time
  lastSignInAt : Option Time
  updatedAt : Time
  deletedAt : Option Time

structure Session where
  id : SessionId
  userId : UserId
  revokedAt : Option Time

structure RefreshToken where
  id : Nat
  sessionId : SessionId
  revoked : Bool

structure OneTimeToken where
  userId : UserId
  tokenType : TokenType
  tokenHash : List Nat
  relatesTo : Option Str
  createdAt : Time
  expiresAt : Time
  usedAt : Option Time

/-- A mail in the queue: its template, and the token and the address that its text shows. -/
structure Mail where
  deliveryId : Str
  email : String
  recipient : Str
  actionToken : Option Str
  newEmail : Option Str

structure Store (Meta : Type) where
  users : List (AuthUser Meta)
  sessions : List Session
  refreshTokens : List RefreshToken
  oneTimeTokens : List OneTimeToken
  mails : List Mail

structure ApiError where
  status : Nat
  code : String
  message : String
deriving DecidableEq

/-- The statements of the three routes. -/
inductive Query
  | connect | liveSession | findUser | updatePasswordHash | start | revokeSessions | revokeTokens | commit
  | issueNew | issueCurrent | deleteCurrent | updateMetadata | findFresh | pendingChange
  | createUser | adminUpdateUser | findUnchanged
deriving DecidableEq

structure NewToken where
  token : Str
  hash : List Nat

/-- What a request meets: the statements that fail, the clock, what is drawn at random, the configuration of the
project, what the queue of mails accepts, and what the libraries compute. -/
structure Env (Meta : Type) where
  fails : Query → Bool
  now : Time
  salt : List Nat
  toNew : NewToken
  toOld : NewToken
  newId : UserId
  passwordMinLength : Nat
  /-- The configured confirmation of an email change is 'double'. -/
  double : Bool
  serviceRole : Bool
  accepts : Mail → Bool
  scrypt : List Nat → List Nat → Nat → ScryptOptions → Option (List Nat)
  nfkc : Str → Str
  /-- The function lower of the database. -/
  lower : Str → Str
  /-- The operator || of the database, on objects. -/
  merge : Meta → Meta → Meta
  /-- The object without members. -/
  empty : Meta

def MIN_END_USER_PASSWORD_LENGTH : Nat := 8

/-- A text that is there and is not the empty one. -/
def given (s : Option Str) : Option Str := s.filter fun s => !s.isEmpty

/-- What the client is told of an error of any other kind. -/
def internal : ApiError :=
  ⟨500, "INTERNAL", "Something went wrong on our side. Quote the request id if you contact support."⟩

def badCredentials : ApiError := ⟨400, "invalid_credentials", "Invalid login credentials."⟩

def unauthenticated : ApiError := ⟨401, "unauthorized", "That access token is not valid."⟩

def notSuchUser : ApiError := ⟨404, "validation_failed", "No such user."⟩

section Statements

variable {Meta : Type} (now : Time)

def findUserById (id : UserId) (s : Store Meta) : Option (AuthUser Meta) :=
  s.users.find? fun u => u.id = id && u.deletedAt.isNone

def liveSession (sessionId : SessionId) (userId : UserId) (s : Store Meta) : Bool :=
  s.sessions.any fun x => x.id = sessionId && x.userId = userId && x.revokedAt.isNone &&
    (findUserById userId s).isSome

def Store.updateUsers (s : Store Meta) (p : AuthUser Meta → Bool) (f : AuthUser Meta → AuthUser Meta) : Store Meta :=
  { s with users := s.users.map fun u => if p u then f u else u }

def updatePasswordHash (userId : UserId) (hash : Str) (s : Store Meta) : Store Meta :=
  s.updateUsers (·.id = userId) fun u => { u with encryptedPassword := some hash, updatedAt := now }

def updateUserMetadata (merge : Meta → Meta → Meta) (userId : UserId) (patch : Meta) (s : Store Meta) : Store Meta :=
  s.updateUsers (·.id = userId) fun u => { u with rawUserMetaData := merge u.rawUserMetaData patch, updatedAt := now }

/-- The sessions that the update of revokeUserSessions is about, except a given one. -/
def revocable (userId : UserId) (kept : Option SessionId) (x : Session) : Bool :=
  x.userId = userId && x.revokedAt.isNone && kept ≠ some x.id

def revokeSessions (userId : UserId) (kept : Option SessionId) (s : Store Meta) : List SessionId × Store Meta :=
  ((s.sessions.filter (revocable userId kept)).map (·.id),
    { s with sessions := s.sessions.map fun x => if revocable userId kept x then { x with revokedAt := some now } else x })

def revokeTokens (ids : List SessionId) (s : Store Meta) : Store Meta :=
  { s with refreshTokens := s.refreshTokens.map fun t => if ids.contains t.sessionId then { t with revoked := true } else t }

def issueOneTimeToken (userId : UserId) (type : TokenType) (hash : List Nat) (relatesTo : Option Str) (s : Store Meta) :
    Store Meta :=
  let t : OneTimeToken := ⟨userId, type, hash, relatesTo, now, now + 1000 * ttlSeconds type, none⟩
  if s.oneTimeTokens.any fun t => t.userId = userId && t.tokenType = type then
    { s with oneTimeTokens := s.oneTimeTokens.map fun x => if x.userId = userId && x.tokenType = type then t else x }
  else { s with oneTimeTokens := s.oneTimeTokens ++ [t] }

def deleteCurrent (userId : UserId) (s : Store Meta) : Store Meta :=
  { s with oneTimeTokens := s.oneTimeTokens.filter fun t => !(t.userId = userId && t.tokenType = .emailChangeCurrent) }

/-- The address of the newest of the two tokens. -/
def pendingEmailChange (userId : UserId) (s : Store Meta) : Option Str :=
  (s.oneTimeTokens.filter fun t => t.userId = userId && t.tokenType.isEmailChange && t.relatesTo.isSome).foldl
    (fun best t => match best with
      | none => some t
      | some b => if b.createdAt < t.createdAt then some t else some b) none
    |>.bind (·.relatesTo)

end Statements

structure AdminUpdate (Meta : Type) where
  bannedUntil : Option (Option Time)
  emailConfirm : Option Bool
  passwordHash : Option Str
  appMetadata : Option Meta
  userMetadata : Option Meta
  email : Option Email

structure Bearer where
  userId : UserId
  sessionId : SessionId
  /-- The token comes from a recovery link. -/
  viaRecovery : Bool

structure UserBody (Meta : Type) where
  password : Option Str
  currentPassword : Option Str
  email : Option Email
  data : Option Meta

structure CreateBody (Meta : Type) where
  email : Email
  password : Option Str
  emailConfirm : Option Bool
  userMetadata : Option Meta
  appMetadata : Option Meta

structure UpdateBody (Meta : Type) where
  email : Option Email
  password : Option Str
  emailConfirm : Option Bool
  /-- Null lifts a ban. -/
  banUntil : Option (Option Time)
  userMetadata : Option Meta
  appMetadata : Option Meta
  signOut : Option Bool

structure Reply (Meta : Type) where
  status : Nat
  user : AuthUser Meta
  newEmail : Option Str

section Routes

variable {Meta : Type} (env : Env Meta)

abbrev Run (Meta α : Type) := Attempt (Store Meta) ApiError α

def query {α : Type} (q : Query) (f : Store Meta → α × Store Meta) : Run Meta α :=
  statement (fun _ => env.fails q) internal f

def read {α : Type} (q : Query) (f : Store Meta → α) : Run Meta α := query env q fun s => (f s, s)

def write (q : Query) (f : Store Meta → Store Meta) : Run Meta Unit := query env q fun s => ((), f s)

/-- The mailer reports a mail that it does not take, and the routes go on. -/
def enqueue (mail : Mail) : Run Meta Unit :=
  statement (fun _ => false) internal fun s => ((), if env.accepts mail then { s with mails := s.mails ++ [mail] } else s)

def validatePassword (password : Str) (min : Nat) : Except ApiError Unit :=
  if password.length < min then .error ⟨422, "weak_password", s!"Password must be at least {min} characters."⟩
  else if MAX_PASSWORD_LENGTH < password.length then
    .error ⟨422, "weak_password", s!"Password must be at most {MAX_PASSWORD_LENGTH} characters."⟩
  else .ok ()

def newHash (password : Str) : Except ApiError Str := do
  let min := max MIN_END_USER_PASSWORD_LENGTH env.passwordMinLength
  validatePassword password min
  (hashPassword env.scrypt env.nfkc password env.salt min).elim (.error internal) .ok

def revokeUserSessions (userId : UserId) (kept : Option SessionId) : Run Meta Nat := do
  read env .start fun _ => ()
  transaction do
    let ids ← query env .revokeSessions (revokeSessions env.now userId kept)
    let _ ← (if ids ≠ [] then write env .revokeTokens (revokeTokens ids) else pure ())
    read env .commit fun _ => ()
    pure ids.length

/-- The holder of a recovery link need not know the password. -/
def confirmCurrent (bearer : Bearer) (user : AuthUser Meta) (currentPassword : Option Str) : Except ApiError Unit :=
  if bearer.viaRecovery then .ok ()
  else
    match given currentPassword with
    | none => .error ⟨400, "validation_failed", "Send `current_password` to change your password."⟩
    | some current =>
        match given user.encryptedPassword with
        | none => .error badCredentials
        | some stored =>
            match verifyPassword env.scrypt env.nfkc current stored with
            | none => .error internal
            | some r => if r.ok then .ok () else .error badCredentials

/-- The number that the queue knows a mail by. -/
def mailId (kind : String) (parts : List Str) : Str := ['_'.toNat].intercalate (str kind.toList :: parts)

def changePassword (bearer : Bearer) (user : AuthUser Meta) (password : Str) (currentPassword : Option Str) :
    Run Meta Unit := do
  lift (confirmCurrent env bearer user currentPassword)
  let hash ← lift (newHash env password)
  write env .updatePasswordHash (updatePasswordHash env.now user.id hash)
  let _ ← revokeUserSessions env user.id (some bearer.sessionId)
  match given user.email with
  | none => pure ()
  | some email =>
      enqueue env ⟨mailId "pwchanged" [user.id, str (Nat.toDigits 10 env.now)], "password_changed_notice", email, none, none⟩

/-- The new address gets a token, and in 'double' mode the old one gets another. -/
def proposeEmailChange (user : AuthUser Meta) (newEmail : Email) : Run Meta Unit := do
  write env .issueNew (issueOneTimeToken env.now user.id .emailChangeNew env.toNew.hash (some newEmail.val))
  enqueue env ⟨mailId "emailchange_new" [user.id], "email_change_new", newEmail.val, some env.toNew.token, some newEmail.val⟩
  match if env.double then given user.email else none with
  | some email =>
      write env .issueCurrent (issueOneTimeToken env.now user.id .emailChangeCurrent env.toOld.hash (some newEmail.val))
      enqueue env ⟨mailId "emailchange_current" [user.id], "email_change_current", email, some env.toOld.token, some newEmail.val⟩
  | none => write env .deleteCurrent (deleteCurrent user.id)

def isOwn (user : AuthUser Meta) (email : Email) : Bool :=
  (given user.email).any fun e => toLowerCase email.val = toLowerCase e

def changeEmail (user : AuthUser Meta) (email : Email) : Run Meta Unit := do
  refuseIf (isOwn user email) ⟨422, "validation_failed", "That is already your email address."⟩
  proposeEmailChange env user email

/-- The step that a field of the body asks for. -/
def ask {α : Type} (field : Option α) (f : α → Run Meta Unit) : Run Meta Unit := field.elim (pure ()) f

/-- PUT /auth/v1/user. -/
def putUser (bearer : Option Bearer) (body : Option (UserBody Meta)) : Run Meta (Reply Meta) := do
  let bearer ← orThrow unauthenticated bearer
  let body ← orThrow ⟨400, "validation_failed", "Send some of `password`, `email` or `data`."⟩ body
  refuseIf ((given body.password).isNone && body.email.isNone && body.data.isNone)
    ⟨400, "validation_failed", "Nothing to change: send `password`, `email` or `data`."⟩
  read env .connect fun _ => ()
  let live ← read env .liveSession (liveSession bearer.sessionId bearer.userId)
  refuseIf (!live) unauthenticated
  let found ← read env .findUser (findUserById bearer.userId)
  let user ← orThrow unauthenticated found
  ask (given body.password) fun password => changePassword env bearer user password body.currentPassword
  ask body.email (changeEmail env user)
  ask body.data fun data => write env .updateMetadata (updateUserMetadata env.now env.merge user.id data)
  let fresh ← read env .findFresh (findUserById user.id)
  let pending ← read env .pendingChange (pendingEmailChange user.id)
  pure ⟨if body.email.isSome && (given body.password).isNone && body.data.isNone then 202 else 200, fresh.getD user, pending⟩

/-- The unique index has a row with the address. -/
def taken (email : Email) (s : Store Meta) : Bool :=
  s.users.any fun u => u.deletedAt.isNone && u.email.any (env.lower · = env.lower email.val)

/-- The row that is inserted. -/
def newUser (email : Email) (passwordHash : Option Str) (emailConfirmed : Bool) (userMetadata : Option Meta) :
    AuthUser Meta :=
  ⟨env.newId, some email.val, passwordHash, if emailConfirmed then some env.now else none, none, userMetadata.getD env.empty,
    env.empty, env.now, none, env.now, none⟩

def createUser (email : Email) (passwordHash : Option Str) (emailConfirmed : Bool) (userMetadata : Option Meta) :
    Run Meta (Option (AuthUser Meta)) :=
  statement (fun s => env.fails .createUser || s.users.any (·.id = env.newId)) internal fun s =>
    if taken env email s then (none, s)
    else
      let user := newUser env email passwordHash emailConfirmed userMetadata
      (some user, { s with users := s.users ++ [user] })

def AdminUpdate.isEmpty (u : AdminUpdate Meta) : Bool :=
  u.bannedUntil.isNone && u.emailConfirm.isNone && u.passwordHash.isNone && u.appMetadata.isNone &&
    u.userMetadata.isNone && u.email.isNone

def AdminUpdate.set (u : AdminUpdate Meta) (row : AuthUser Meta) : AuthUser Meta :=
  { row with
    bannedUntil := u.bannedUntil.getD row.bannedUntil
    emailConfirmedAt := match u.emailConfirm with
      | none => row.emailConfirmedAt
      | some true => some (row.emailConfirmedAt.getD env.now)
      | some false => none
    encryptedPassword := u.passwordHash.or row.encryptedPassword
    rawAppMetaData := u.appMetadata.elim row.rawAppMetaData (env.merge row.rawAppMetaData)
    rawUserMetaData := u.userMetadata.elim row.rawUserMetaData (env.merge row.rawUserMetaData)
    email := (u.email.map (·.val)).or row.email
    updatedAt := env.now }

/-- The update gives the user an address that the unique index has for another one. -/
def collides (userId : UserId) (email : Option Email) (s : Store Meta) : Bool :=
  (findUserById userId s).isSome && email.any fun e =>
    s.users.any fun u => u.id ≠ userId && u.deletedAt.isNone && u.email.any (env.lower · = env.lower e.val)

/-- One statement for all the fields. -/
def adminUpdateUser (userId : UserId) (u : AdminUpdate Meta) : Run Meta (Option (AuthUser Meta)) :=
  if u.isEmpty then read env .findUnchanged (findUserById userId)
  else
    statement (fun s => env.fails .adminUpdateUser || collides env userId u.email s) internal fun s =>
      let s' := s.updateUsers (fun row => row.id = userId && row.deletedAt.isNone) (u.set env)
      (findUserById userId s', s')

def requireServiceRole : Run Meta Unit :=
  refuseIf (!env.serviceRole)
    ⟨403, "unauthorized", "This endpoint needs the project's service_role key, not the anon key."⟩

def hashOf (password : Option Str) : Except ApiError (Option Str) :=
  password.elim (.ok none) fun p => (newHash env p).map some

/-- POST /auth/v1/admin/users. -/
def postAdminUser (body : Option (CreateBody Meta)) : Run Meta (Reply Meta) := do
  requireServiceRole env
  let b ← orThrow ⟨400, "validation_failed", "Provide a valid `email`, and optionally `password`, `email_confirm`, " ++
    "`user_metadata`, `app_metadata`."⟩ body
  let hash ← lift (hashOf env b.password)
  read env .connect fun _ => ()
  let row ← createUser env b.email hash (b.emailConfirm.getD false) b.userMetadata
  let created ← orThrow ⟨422, "validation_failed", "A user with that email address already exists."⟩ row
  let withApp ← b.appMetadata.elim (pure (some created)) fun m =>
    adminUpdateUser env created.id ⟨none, none, none, some m, none, none⟩
  pure ⟨201, withApp.getD created, none⟩

/-- An administrator can say that a ban is over by setting it to a time that has passed. -/
def UpdateBody.signsOut (b : UpdateBody Meta) : Bool :=
  b.signOut = some true || b.password.isSome || b.banUntil.any fun t => t.any (env.now < ·)

/-- There is no field to write. -/
def UpdateBody.fieldless (b : UpdateBody Meta) : Bool :=
  b.email.isNone && b.password.isNone && b.emailConfirm.isNone && b.banUntil.isNone && b.userMetadata.isNone &&
    b.appMetadata.isNone

def UpdateBody.isEmpty (b : UpdateBody Meta) : Bool := b.fieldless && b.signOut.isNone

def UpdateBody.update (b : UpdateBody Meta) (hash : Option Str) : AdminUpdate Meta :=
  ⟨b.banUntil, b.emailConfirm, hash, b.appMetadata, b.userMetadata, b.email⟩

/-- PUT /auth/v1/admin/users/:id. -/
def putAdminUser (id : Option UserId) (body : Option (UpdateBody Meta)) : Run Meta (Reply Meta) := do
  requireServiceRole env
  let id ← orThrow ⟨400, "validation_failed", "That is not a user id."⟩ id
  let b ← orThrow ⟨400, "validation_failed", "Send some of `email`, `password`, `email_confirm`, `ban_until`, " ++
    "`user_metadata`, `app_metadata`, `sign_out`."⟩ body
  refuseIf b.isEmpty ⟨400, "validation_failed", "Nothing to change."⟩
  let hash ← lift (hashOf env b.password)
  read env .connect fun _ => ()
  let row ← adminUpdateUser env id (b.update hash)
  let updated ← orThrow notSuchUser row
  let _ ← (if b.signsOut env then revokeUserSessions env id none else pure 0)
  let fresh ← read env .findFresh (findUserById id)
  pure ⟨200, fresh.getD updated, none⟩

inductive Request (Meta : Type)
  | putUser (bearer : Option Bearer) (body : Option (UserBody Meta))
  | postAdminUser (body : Option (CreateBody Meta))
  | putAdminUser (id : Option UserId) (body : Option (UpdateBody Meta))

def respond : Request Meta → Run Meta (Reply Meta)
  | .putUser bearer body => putUser env bearer body
  | .postAdminUser body => postAdminUser env body
  | .putAdminUser id body => putAdminUser env id body

end Routes

section Conditions

variable {Meta : Type} (env : Env Meta) (s : Store Meta)

/-- The tokens of the change are issued. -/
def Proposed (user : AuthUser Meta) (email : Email) (s : Store Meta) : Prop :=
  (∃ t ∈ s.oneTimeTokens, t.userId = user.id ∧ t.tokenType = .emailChangeNew ∧ t.tokenHash = env.toNew.hash ∧
    t.relatesTo = some email.val ∧ t.usedAt = none) ∧
  ∀ old, (if env.double then given user.email else none) = some old → ∃ t ∈ s.oneTimeTokens, t.userId = user.id ∧
    t.tokenType = .emailChangeCurrent ∧ t.tokenHash = env.toOld.hash ∧ t.relatesTo = some email.val ∧ t.usedAt = none

def HasPassword (row : AuthUser Meta) (password : Option Str) : Prop :=
  ∀ p, password = some p → ∃ hash, newHash env p = .ok hash ∧ row.encryptedPassword = some hash

def SignedOut (id : UserId) (s' : Store Meta) : Prop :=
  (∀ x ∈ s'.sessions, x.userId = id → x.revokedAt ≠ none) ∧
    ∀ x ∈ s.sessions, revocable id none x = true → ∀ t ∈ s'.refreshTokens, t.sessionId = x.id → t.revoked = true

/-- The row of the user has what the administrator has asked for. -/
structure Updated (b : UpdateBody Meta) (user row : AuthUser Meta) : Prop where
  email : ∀ email, b.email = some email → row.email = some email.val
  password : HasPassword env row b.password
  confirm : ∀ c, b.emailConfirm = some c → row.emailConfirmedAt.isSome = c
  ban : ∀ t, b.banUntil = some t → row.bannedUntil = t
  userMetadata : ∀ m, b.userMetadata = some m → row.rawUserMetaData = env.merge user.rawUserMetaData m
  appMetadata : ∀ m, b.appMetadata = some m → row.rawAppMetaData = env.merge user.rawAppMetaData m

/-- Every change that the request asks for has been made. An email change by the user is a proposal. -/
def Made (s' : Store Meta) : Request Meta → Prop
  | .putUser (some bearer) (some body) => ∃ user row, findUserById bearer.userId s = some user ∧
      findUserById bearer.userId s' = some row ∧ HasPassword env row body.password ∧
      (∀ email, body.email = some email → Proposed env user email s') ∧
      ∀ data, body.data = some data → row.rawUserMetaData = env.merge user.rawUserMetaData data
  | .postAdminUser (some b) => ∃ row, findUserById env.newId s' = some row ∧ row.email = some b.email.val ∧
      HasPassword env row b.password ∧ (b.emailConfirm = some true → row.emailConfirmedAt ≠ none) ∧
      (∀ m, b.userMetadata = some m → row.rawUserMetaData = m) ∧
      ∀ m, b.appMetadata = some m → row.rawAppMetaData = env.merge env.empty m
  | .putAdminUser (some id) (some b) => ∃ user row, findUserById id s = some user ∧ findUserById id s' = some row ∧
      Updated env b user row ∧ (b.signsOut env = true → SignedOut s id s')
  | _ => False

def check (c : Prop) : Stage := ⟨c, False⟩

def reading (q : Query) : Stage := ⟨env.fails q = true, False⟩

def writing (q : Query) : Stage := ⟨env.fails q = true, True⟩

/-- The sessions to revoke are one transaction. -/
def revokeStages (userId : UserId) (kept : Option SessionId) : List Stage :=
  let anyLive := s.sessions.any (revocable userId kept)
  [reading env .start, ⟨env.fails .revokeSessions = true ∨ anyLive = true ∧ env.fails .revokeTokens = true ∨
    env.fails .commit = true, anyLive = true⟩]

def passwordStages (bearer : Bearer) (user : AuthUser Meta) (currentPassword : Option Str) (password : Str) : List Stage :=
  check (∀ a, confirmCurrent env bearer user currentPassword ≠ .ok a) :: check (∀ hash, newHash env password ≠ .ok hash) ::
    writing env .updatePasswordHash :: revokeStages env s user.id (some bearer.sessionId)

def emailStages (user : AuthUser Meta) (email : Email) : List Stage :=
  [check (isOwn user email = true), writing env .issueNew,
    if (if env.double then given user.email else none).isSome then writing env .issueCurrent else writing env .deleteCurrent]

/-- The update of an administrator, which may have no field but the sign-out. -/
def updateStage (id : UserId) (b : UpdateBody Meta) : Stage :=
  if b.fieldless then reading env .findUnchanged
  else ⟨(env.fails .adminUpdateUser || collides env id b.email s) = true, (findUserById id s).isSome = true⟩

/-- What the request does in turn, with what makes it fail. -/
def stages : Request Meta → List Stage
  | .putUser bearer body =>
      check (bearer = none) :: bearer.elim [] fun bearer => check (body = none) :: body.elim [] fun body =>
        check (((given body.password).isNone && body.email.isNone && body.data.isNone) = true) :: reading env .connect ::
        reading env .liveSession :: check ((!liveSession bearer.sessionId bearer.userId s) = true) :: reading env .findUser ::
        check (findUserById bearer.userId s = none) :: (findUserById bearer.userId s).elim [] fun user =>
          (given body.password).elim [] (passwordStages env s bearer user body.currentPassword) ++
          (body.email.elim [] (emailStages env user) ++
          (body.data.elim [] (fun _ => [writing env .updateMetadata]) ++
          [reading env .findFresh, reading env .pendingChange]))
  | .postAdminUser body =>
      check ((!env.serviceRole) = true) :: check (body = none) :: body.elim [] fun b =>
        check (∀ hash, hashOf env b.password ≠ .ok hash) :: reading env .connect ::
        ⟨(env.fails .createUser || s.users.any (·.id = env.newId)) = true, taken env b.email s = false⟩ ::
        check (taken env b.email s = true) :: b.appMetadata.elim [] fun _ => [writing env .adminUpdateUser]
  | .putAdminUser id body =>
      check ((!env.serviceRole) = true) :: check (id = none) :: id.elim [] fun id => check (body = none) :: body.elim [] fun b =>
        check (b.isEmpty = true) :: check (∀ hash, hashOf env b.password ≠ .ok hash) :: reading env .connect ::
        updateStage env s id b :: check (findUserById id s = none) ::
        ((if b.signsOut env then revokeStages env s id none else []) ++ [reading env .findFresh])

end Conditions

/-- Something in the store has been written at the time. -/
def Bears {Meta : Type} (now : Time) (s : Store Meta) : Prop :=
  (∃ u ∈ s.users, u.updatedAt = now) ∨ (∃ x ∈ s.sessions, x.revokedAt = some now) ∨
    ∃ t ∈ s.oneTimeTokens, t.tokenType = .emailChangeNew ∧ t.createdAt = now

/-- All that is in the store has been written before the time. -/
structure Past {Meta : Type} (now : Time) (s : Store Meta) : Prop where
  users : ∀ u ∈ s.users, u.updatedAt < now
  sessions : ∀ x ∈ s.sessions, ∀ t, x.revokedAt = some t → t < now
  tokens : ∀ t ∈ s.oneTimeTokens, t.createdAt < now

section Writes

variable {Meta : Type} {now : Time} {s : Store Meta}

theorem Past.not_bears (h : Past now s) : ¬ Bears now s := by
  rintro (⟨u, hu, heq⟩ | ⟨x, hx, heq⟩ | ⟨t, ht, -, heq⟩)
  · exact absurd heq (h.users u hu).ne
  · exact absurd rfl (h.sessions x hx now heq).ne
  · exact absurd heq (h.tokens t ht).ne

theorem bears_updateUsers {p : AuthUser Meta → Bool} {f : AuthUser Meta → AuthUser Meta} (hf : ∀ u, (f u).updatedAt = now)
    {u : AuthUser Meta} (hu : u ∈ s.users) (hp : p u = true) : Bears now (s.updateUsers p f) := by
  refine .inl ⟨_, List.mem_map_of_mem hu, ?_⟩
  rw [if_pos hp]
  exact hf u

theorem updateUsers_of_none {p : AuthUser Meta → Bool} {f : AuthUser Meta → AuthUser Meta} (h : ∀ u ∈ s.users, p u = false) :
    s.updateUsers p f = s := by
  have hmap : s.users.map (fun u => if p u then f u else u) = s.users := by
    conv_rhs => rw [← List.map_id s.users]
    exact List.map_congr_left fun u hu => by simp [h u hu]
  rw [Store.updateUsers, hmap]

theorem Bears.revokeSessions {id : UserId} {kept : Option SessionId} (h : Bears now s) :
    Bears now (revokeSessions now id kept s).2 := by
  rcases h with h | ⟨x, hx, heq⟩ | h
  · exact .inl h
  · refine .inr (.inl ⟨_, List.mem_map_of_mem hx, ?_⟩)
    split
    · rfl
    · exact heq
  · exact .inr (.inr h)

theorem bears_revokeSessions {id : UserId} {kept : Option SessionId} (h : s.sessions.any (revocable id kept) = true) :
    Bears now (revokeSessions now id kept s).2 := by
  obtain ⟨x, hx, hr⟩ := List.any_eq_true.mp h
  refine .inr (.inl ⟨_, List.mem_map_of_mem hx, ?_⟩)
  rw [if_pos hr]

theorem revokeSessions_of_none {id : UserId} {kept : Option SessionId} (h : ¬ s.sessions.any (revocable id kept) = true) :
    (revokeSessions now id kept s).2 = s := by
  have hmap : s.sessions.map (fun x => if revocable id kept x then { x with revokedAt := some now } else x) = s.sessions := by
    conv_rhs => rw [← List.map_id s.sessions]
    refine List.map_congr_left fun x hx => if_neg fun hr => h ?_
    exact List.any_eq_true.mpr ⟨x, hx, hr⟩
  simp only [revokeSessions, hmap]

theorem revokeSessions_ids {id : UserId} {kept : Option SessionId} :
    (revokeSessions now id kept s).1 ≠ [] ↔ s.sessions.any (revocable id kept) = true := by
  rw [revokeSessions, ne_eq, List.map_eq_nil_iff, List.filter_eq_nil_iff, List.any_eq_true]
  simp only [not_forall, not_not, exists_prop]

theorem Bears.issueOneTimeToken {id : UserId} {type : TokenType} {hash : List Nat} {relatesTo : Option Str} (h : Bears now s) :
    Bears now (issueOneTimeToken now id type hash relatesTo s) := by
  rcases h with h | h | ⟨t, ht, hnew, heq⟩
  · refine .inl ?_
    rw [UserUpdates.issueOneTimeToken]
    split <;> exact h
  · refine .inr (.inl ?_)
    rw [UserUpdates.issueOneTimeToken]
    split <;> exact h
  · refine .inr (.inr ?_)
    rw [UserUpdates.issueOneTimeToken]
    split
    · refine ⟨_, List.mem_map_of_mem ht, ?_⟩
      split
      · rename_i h
        rw [Bool.and_eq_true, decide_eq_true_eq, decide_eq_true_eq] at h
        exact ⟨h.2.symm.trans hnew, rfl⟩
      · exact ⟨hnew, heq⟩
    · exact ⟨t, List.mem_append_left _ ht, hnew, heq⟩

theorem issued {id : UserId} {type : TokenType} {hash : List Nat} {relatesTo : Option Str} :
    ∃ t ∈ (issueOneTimeToken now id type hash relatesTo s).oneTimeTokens, t.userId = id ∧ t.tokenType = type ∧
      t.tokenHash = hash ∧ t.relatesTo = relatesTo ∧ t.usedAt = none ∧ t.createdAt = now := by
  rw [issueOneTimeToken]
  split
  · rename_i h
    obtain ⟨x, hx, hkey⟩ := List.any_eq_true.mp h
    refine ⟨_, List.mem_map_of_mem hx, ?_⟩
    rw [if_pos hkey]
    exact ⟨rfl, rfl, rfl, rfl, rfl, rfl⟩
  · exact ⟨_, List.mem_append_right _ (List.mem_singleton_self _), rfl, rfl, rfl, rfl, rfl, rfl⟩

@[simp] theorem users_issueOneTimeToken {id : UserId} {type : TokenType} {hash : List Nat} {relatesTo : Option Str} :
    (issueOneTimeToken now id type hash relatesTo s).users = s.users := by
  rw [issueOneTimeToken]
  split <;> rfl

/-- A token of another type stays. -/
theorem mem_issueOneTimeToken {id : UserId} {type : TokenType} {hash : List Nat} {relatesTo : Option Str} {t : OneTimeToken}
    (ht : t ∈ s.oneTimeTokens) (htype : t.tokenType ≠ type) :
    t ∈ (issueOneTimeToken now id type hash relatesTo s).oneTimeTokens := by
  rw [issueOneTimeToken]
  split
  · refine List.mem_map.mpr ⟨t, ht, if_neg fun h => htype ?_⟩
    rw [Bool.and_eq_true, decide_eq_true_eq, decide_eq_true_eq] at h
    exact h.2
  · exact List.mem_append_left _ ht

theorem mem_deleteCurrent {id : UserId} {t : OneTimeToken} (ht : t ∈ s.oneTimeTokens) (htype : t.tokenType = .emailChangeNew) :
    t ∈ (deleteCurrent id s).oneTimeTokens := by
  refine List.mem_filter.mpr ⟨ht, ?_⟩
  simp [htype]

theorem Bears.deleteCurrent {id : UserId} (h : Bears now s) : Bears now (deleteCurrent id s) := by
  rcases h with h | h | ⟨t, ht, hnew, heq⟩
  · exact .inl h
  · exact .inr (.inl h)
  · exact .inr (.inr ⟨t, mem_deleteCurrent ht hnew, hnew, heq⟩)

theorem findUserById_updateUsers {id : UserId} {p : AuthUser Meta → Bool} {f : AuthUser Meta → AuthUser Meta}
    (hid : ∀ u, (f u).id = u.id) (hdeleted : ∀ u, (f u).deletedAt = u.deletedAt) :
    findUserById id (s.updateUsers p f) = (findUserById id s).map fun u => if p u then f u else u := by
  rw [findUserById, Store.updateUsers, List.find?_map, findUserById]
  congr 2
  funext u
  by_cases hp : p u = true
  · simp [hp, hid, hdeleted]
  · simp [hp]

theorem mem_of_findUserById {id : UserId} {u : AuthUser Meta} (h : findUserById id s = some u) :
    u ∈ s.users ∧ u.id = id ∧ u.deletedAt.isNone = true := by
  have hp := List.find?_some h
  rw [Bool.and_eq_true, decide_eq_true_eq] at hp
  exact ⟨List.mem_of_find?_eq_some h, hp⟩

end Writes

section Steps

variable {Meta : Type} {env : Env Meta} {s : Store Meta}

theorem ends_read {α : Type} (q : Query) (f : Store Meta → α) :
    Ends (Bears env.now) (read env q f) s [reading env q] fun a s' => a = f s ∧ s' = s :=
  .of_read f

/-- A statement that writes. -/
theorem ends_write (q : Query) {f : Store Meta → Store Meta} (hwrote : Bears env.now (f s)) :
    Ends (Bears env.now) (write env q f) s [writing env q] fun _ s' => s' = f s := by
  have h : Ends (Bears env.now) (write env q f) s [writing env q] _ :=
    .of_statement (fun _ => hwrote) (fun _ => hwrote) fun h => absurd trivial h
  exact h.mono fun _ _ _ h => h.2.2

theorem ends_enqueue (mail : Mail) (h : Bears env.now s) : Ends (Bears env.now) (enqueue env mail) s []
    fun _ s' => s'.users = s.users ∧ s'.oneTimeTokens = s.oneTimeTokens := by
  refine (Ends.of_sure h fun h => ?_).mono fun _ _ _ h => ?_
  · dsimp only
    split <;> exact h
  · rw [h.2]
    dsimp only
    split <;> exact ⟨rfl, rfl⟩

theorem ends_ask {α : Type} {field : Option α} {f : α → Run Meta Unit} {l : α → List Stage} {D : α → Store Meta → Prop}
    (h : ∀ a, field = some a → Ends (Bears env.now) (f a) s (l a) fun _ s' => D a s') :
    Ends (Bears env.now) (ask field f) s (field.elim [] l)
      fun _ s' => (field = none → s' = s) ∧ ∀ a, field = some a → D a s' := by
  cases field with
  | none =>
      refine (Ends.of_pure ()).mono fun _ _ _ h => ⟨fun _ => h.2, fun a ha => ?_⟩
      cases ha
  | some a =>
      refine (h a rfl).mono fun _ _ _ h => ⟨fun ha => ?_, fun b hb => ?_⟩
      · cases ha
      · cases hb
        exact h

theorem ends_revoke (id : UserId) (kept : Option SessionId) :
    Ends (Bears env.now) (revokeUserSessions env id kept) s (revokeStages env s id kept) fun _ s' =>
      s'.users = s.users ∧ s'.oneTimeTokens = s.oneTimeTokens ∧ s'.sessions = (revokeSessions env.now id kept s).2.sessions ∧
        ∀ x ∈ s.sessions, revocable id kept x = true → ∀ t ∈ s'.refreshTokens, t.sessionId = x.id → t.revoked = true := by
  have hsessions : Ends (Bears env.now) (query env .revokeSessions (revokeSessions env.now id kept)) s
      [⟨env.fails .revokeSessions = true, s.sessions.any (revocable id kept) = true⟩] _ :=
    .of_statement Bears.revokeSessions bears_revokeSessions fun h => .inl (revokeSessions_of_none h)
  have htokens : ∀ s₁ : Store Meta, s₁ = (revokeSessions env.now id kept s).2 →
      Ends (Bears env.now) (if (revokeSessions env.now id kept s).1 ≠ [] then
          write env .revokeTokens (revokeTokens (revokeSessions env.now id kept s).1) else pure ()) s₁
        (if s.sessions.any (revocable id kept) then [writing env .revokeTokens] else []) fun _ s' =>
          s' = revokeTokens (revokeSessions env.now id kept s).1 s₁ := by
    rintro _ rfl
    by_cases hany : s.sessions.any (revocable id kept) = true
    · rw [if_pos (revokeSessions_ids.mpr hany), if_pos hany]
      exact ends_write _ (bears_revokeSessions hany)
    · rw [if_neg (mt revokeSessions_ids.mp hany), if_neg hany]
      refine (Ends.of_pure ()).mono fun _ s' _ h => h.2.trans ?_
      have hnil : (revokeSessions env.now id kept s).1 = [] := not_not.mp (mt revokeSessions_ids.mp hany)
      simp [revokeTokens, hnil]
  refine (ends_read .start _).seq fun _ s₀ _ h₀ => ?_
  rw [h₀.2]
  refine Ends.of_stages (Ends.of_transaction (l := [⟨env.fails .revokeSessions = true, s.sessions.any (revocable id kept) = true⟩] ++
    ((if s.sessions.any (revocable id kept) then [writing env .revokeTokens] else []) ++ ([reading env .commit] ++ []))) ?_) ?_
  · refine hsessions.seq fun ids s₁ _ h₁ => ?_
    obtain ⟨-, rfl, h₁⟩ := h₁
    refine (htokens s₁ h₁).seq fun _ s₂ _ h₂ => (ends_read .commit _).seq fun _ s₃ _ h₃ => (Ends.of_pure _).mono fun _ s₄ _ h₄ => ?_
    obtain ⟨-, rfl⟩ := h₃
    obtain ⟨-, rfl⟩ := h₄
    rw [h₂, h₁]
    refine ⟨rfl, rfl, rfl, fun x hx hr t ht htx => ?_⟩
    obtain ⟨t', -, rfl⟩ := List.mem_map.mp ht
    have hmem : x.id ∈ (revokeSessions env.now id kept s).1 :=
      List.mem_map_of_mem (List.mem_filter.mpr ⟨hx, hr⟩)
    by_cases hin : ((revokeSessions env.now id kept s).1.contains t'.sessionId) = true
    · rw [if_pos hin]
    · rw [if_neg hin] at htx
      rw [List.contains_iff_mem, htx] at hin
      exact absurd hmem hin
  · by_cases hany : s.sessions.any (revocable id kept) = true
    · simp [hany, reading, writing]
    · simp [hany, reading]

theorem findUserById_of_users {s s' : Store Meta} (h : s'.users = s.users) (id : UserId) :
    findUserById id s' = findUserById id s := by
  rw [findUserById, h, findUserById]

theorem findUserById_updated {id : UserId} {row : AuthUser Meta} {p : AuthUser Meta → Bool}
    {f : AuthUser Meta → AuthUser Meta} (h : findUserById id s = some row) (hp : p row = true) (hid : ∀ u, (f u).id = u.id)
    (hdeleted : ∀ u, (f u).deletedAt = u.deletedAt) : findUserById id (s.updateUsers p f) = some (f row) := by
  rw [findUserById_updateUsers hid hdeleted, h, Option.map_some, if_pos hp]

theorem id_eq_of_findUserById {id : UserId} {row : AuthUser Meta} (h : findUserById id s = some row) :
    decide (row.id = id) = true :=
  decide_eq_true (mem_of_findUserById h).2.1

theorem bears_updated {id : UserId} {row : AuthUser Meta} {f : AuthUser Meta → AuthUser Meta}
    (h : findUserById id s = some row) (hf : ∀ u, (f u).updatedAt = env.now) :
    Bears env.now (s.updateUsers (·.id = id) f) :=
  bears_updateUsers hf (mem_of_findUserById h).1 (id_eq_of_findUserById h)

/-- The notice of the new password, if the user has an address. -/
theorem ends_notice {user : AuthUser Meta} {mail : Str → Mail} (h : Bears env.now s) :
    Ends (Bears env.now) (match given user.email with
      | none => pure ()
      | some email => enqueue env (mail email)) s [] fun _ s' => s'.users = s.users := by
  cases given user.email with
  | none => exact (Ends.of_pure ()).mono fun _ _ _ h => by rw [h.2]
  | some email => exact (ends_enqueue _ h).mono fun _ _ _ h => h.1

theorem ends_changePassword {bearer : Bearer} {user : AuthUser Meta} {password : Str} {current : Option Str}
    (hu : findUserById user.id s = some user) :
    Ends (Bears env.now) (changePassword env bearer user password current) s (passwordStages env s bearer user current password)
      fun _ s' => ∃ hash, newHash env password = .ok hash ∧
        findUserById user.id s' = some { user with encryptedPassword := some hash, updatedAt := env.now } := by
  refine (Ends.of_lift _).step fun _ s₁ _ h₁ => ?_
  rw [h₁.2]
  refine (Ends.of_lift _).step fun hash s₂ _ h₂ => ?_
  rw [h₂.2]
  have hmark : Bears env.now (updatePasswordHash env.now user.id hash s) := bears_updated hu fun _ => rfl
  refine (ends_write _ hmark).step fun _ s₃ _ h₃ => ?_
  rw [h₃]
  refine ((@ends_revoke _ env (updatePasswordHash env.now user.id hash s) user.id (some bearer.sessionId)).marked hmark).seq_nil
    fun _ s₄ _ h₄ => (ends_notice h₄.2).mono fun _ s₅ _ h₅ => ⟨hash, h₂.1, ?_⟩
  rw [findUserById_of_users (h₅.trans h₄.1.1)]
  exact findUserById_updated hu (id_eq_of_findUserById hu) (fun _ => rfl) fun _ => rfl

theorem ends_changeEmail {user : AuthUser Meta} {email : Email} :
    Ends (Bears env.now) (changeEmail env user email) s (emailStages env user email) fun _ s' =>
      s'.users = s.users ∧ Proposed env user email s' := by
  refine (Ends.of_refuseIf _ _).step fun _ s₁ _ h₁ => ?_
  rw [h₁.2]
  obtain ⟨t, ht, hid, hnew, hhash, hrelates, hused, hat⟩ :=
    @issued _ env.now s user.id .emailChangeNew env.toNew.hash (some email.val)
  have hmark : Bears env.now (issueOneTimeToken env.now user.id .emailChangeNew env.toNew.hash (some email.val) s) :=
    .inr (.inr ⟨t, ht, hnew, hat⟩)
  refine (ends_write .issueNew hmark).step fun _ s₂ _ h₂ => ?_
  rw [h₂]
  refine (((ends_enqueue _ hmark).marked hmark)).nil_seq fun _ s₃ h₃ => ?_
  obtain ⟨⟨husers, htokens⟩, hmark₃⟩ := h₃
  rw [users_issueOneTimeToken] at husers
  rw [← htokens] at ht
  cases hold : if env.double then given user.email else none with
  | none =>
      refine (ends_write .deleteCurrent (Bears.deleteCurrent hmark₃)).mono fun _ s₄ _ h₄ => ?_
      rw [h₄]
      refine ⟨husers, ⟨t, mem_deleteCurrent ht hnew, hid, hnew, hhash, hrelates, hused⟩, fun old h => ?_⟩
      rw [hold] at h
      cases h
  | some old =>
      have hmark₄ : Bears env.now (issueOneTimeToken env.now user.id .emailChangeCurrent env.toOld.hash (some email.val) s₃) :=
        Bears.issueOneTimeToken hmark₃
      refine (ends_write .issueCurrent hmark₄).seq_nil fun _ s₄ _ h₄ => ?_
      rw [h₄]
      refine (ends_enqueue _ hmark₄).mono fun _ s₅ _ h₅ => ?_
      rw [users_issueOneTimeToken] at h₅
      refine ⟨h₅.1.trans husers, ?_⟩
      rw [Proposed, h₅.2]
      refine ⟨⟨t, mem_issueOneTimeToken ht ?_, hid, hnew, hhash, hrelates, hused⟩, fun _ _ => ?_⟩
      · rw [hnew]
        decide
      · obtain ⟨t', ht', hid', htype, hhash', hrelates', hused', -⟩ :=
          @issued _ env.now s₃ user.id .emailChangeCurrent env.toOld.hash (some email.val)
        exact ⟨t', ht', hid', htype, hhash', hrelates', hused'⟩

theorem ends_changeData {user row : AuthUser Meta} {data : Meta} (hrow : findUserById user.id s = some row) :
    Ends (Bears env.now) (write env .updateMetadata (updateUserMetadata env.now env.merge user.id data)) s
      [writing env .updateMetadata] fun _ s' => s'.oneTimeTokens = s.oneTimeTokens ∧ findUserById user.id s' =
        some { row with rawUserMetaData := env.merge row.rawUserMetaData data, updatedAt := env.now } := by
  refine (ends_write _ (bears_updated hrow fun _ => rfl)).mono fun _ s' _ h => ?_
  rw [h]
  exact ⟨rfl, findUserById_updated hrow (id_eq_of_findUserById hrow) (fun _ => rfl) fun _ => rfl⟩

/-- The request with an empty password left out. -/
def UserBody.filled (b : UserBody Meta) : UserBody Meta := { b with password := given b.password }

theorem ends_putUser (bearer : Option Bearer) (body : Option (UserBody Meta)) :
    Ends (Bears env.now) (putUser env bearer body) s (stages env s (.putUser bearer body)) fun _ s' =>
      Made env s s' (.putUser bearer (body.map UserBody.filled)) := by
  refine (Ends.of_orThrow _ _).step fun b s₁ _ h₁ => ?_
  obtain ⟨rfl, h₁⟩ := h₁
  rw [h₁]
  refine (Ends.of_orThrow _ _).step fun body s₁ _ h₁ => ?_
  obtain ⟨rfl, h₁⟩ := h₁
  rw [h₁]
  refine (Ends.of_refuseIf _ _).step fun _ s₁ _ h₁ => ?_
  rw [h₁.2]
  refine (ends_read .connect _).step fun _ s₁ _ h₁ => ?_
  rw [h₁.2]
  refine (ends_read .liveSession _).step fun _ s₁ _ h₁ => ?_
  rw [h₁.1, h₁.2]
  refine (Ends.of_refuseIf _ _).step fun _ s₁ _ h₁ => ?_
  rw [h₁.2]
  refine (ends_read .findUser _).step fun _ s₁ _ h₁ => ?_
  rw [h₁.1, h₁.2]
  refine (Ends.of_orThrow _ _).step fun user s₁ _ h₁ => ?_
  rw [h₁.1, h₁.2]
  have hid := (mem_of_findUserById h₁.1).2.1
  have hu : findUserById user.id s = some user := by
    rw [hid]
    exact h₁.1
  refine (ends_ask fun password _ => ends_changePassword hu).seq fun _ s₂ _ h₂ => ?_
  have hrow : ∃ row, findUserById user.id s₂ = some row ∧ row.rawUserMetaData = user.rawUserMetaData ∧
      HasPassword env row (given body.password) := by
    cases hp : given body.password with
    | none =>
        rw [h₂.1 hp]
        refine ⟨user, hu, rfl, fun p h => ?_⟩
        cases h
    | some p =>
        obtain ⟨hash, hhash, hfind⟩ := h₂.2 p hp
        refine ⟨_, hfind, rfl, fun p' h => ?_⟩
        cases h
        exact ⟨hash, hhash, rfl⟩
  obtain ⟨row, hrow, hmeta, hpassword⟩ := hrow
  refine (ends_ask fun email _ => ends_changeEmail).seq fun _ s₃ _ h₃ => ?_
  have hrow₃ : findUserById user.id s₃ = some row := by
    cases he : body.email with
    | none => rw [h₃.1 he, hrow]
    | some email => rw [findUserById_of_users (h₃.2 email he).1, hrow]
  refine (ends_ask fun data _ => ends_changeData hrow₃).seq fun _ s₄ _ h₄ => ?_
  refine (ends_read .findFresh _).step fun _ s₅ _ h₅ => (ends_read .pendingChange _).step fun _ s₆ _ h₆ =>
    (Ends.of_pure _).mono fun _ s₇ _ h₇ => ?_
  have hs : s₇ = s₄ := h₇.2.trans (h₆.2.trans h₅.2)
  rw [hs, Option.map_some]
  cases hd : body.data with
  | none =>
      rw [h₄.1 hd]
      refine ⟨user, row, h₁.1, hid ▸ hrow₃, hpassword, fun email he => (h₃.2 email he).2, fun data h => ?_⟩
      rw [UserBody.filled, hd] at h
      cases h
  | some data =>
      obtain ⟨htokens, hfind⟩ := h₄.2 data hd
      refine ⟨user, _, h₁.1, (congrArg (findUserById · s₄) hid.symm).trans hfind, hpassword, fun email he => ?_, fun data' h => ?_⟩
      · rw [Proposed, htokens]
        exact (h₃.2 email he).2
      · rw [UserBody.filled, hd] at h
        cases h
        exact congrArg (env.merge · data) hmeta

theorem hashOf_ok {password hash : Option Str} (h : hashOf env password = .ok hash) :
    hash.isNone = password.isNone ∧ ∀ row : AuthUser Meta, (∀ p, hash = some p → row.encryptedPassword = some p) →
      HasPassword env row password := by
  cases password with
  | none =>
      cases h
      refine ⟨rfl, fun row _ p hp => ?_⟩
      cases hp
  | some p =>
      simp only [hashOf, Option.elim_some] at h
      cases hnew : newHash env p with
      | error e =>
          rw [hnew] at h
          cases h
      | ok x =>
          rw [hnew] at h
          cases h
          refine ⟨rfl, fun row hrow p' hp => ?_⟩
          cases hp
          exact ⟨x, hnew, hrow x rfl⟩

/-- The update by an administrator, with the row of the user after it. -/
theorem ends_adminUpdateUser {id : UserId} {u : AdminUpdate Meta} {row : AuthUser Meta} (hrow : findUserById id s = some row)
    (hu : u.isEmpty = false) :
    Ends (Bears env.now) (adminUpdateUser env id u) s [⟨(env.fails .adminUpdateUser || collides env id u.email s) = true, True⟩]
      fun a s' => a = some (u.set env row) ∧ findUserById id s' = some (u.set env row) ∧ s'.sessions = s.sessions ∧
        s'.refreshTokens = s.refreshTokens := by
  have hp : (decide (row.id = id) && row.deletedAt.isNone) = true := by
    rw [Bool.and_eq_true, decide_eq_true_eq]
    exact (mem_of_findUserById hrow).2
  have hmark : Bears env.now (s.updateUsers (fun row => row.id = id && row.deletedAt.isNone) (u.set env)) :=
    bears_updateUsers (fun _ => rfl) (mem_of_findUserById hrow).1 hp
  have hfind : findUserById id (s.updateUsers (fun row => row.id = id && row.deletedAt.isNone) (u.set env)) =
      some (u.set env row) :=
    findUserById_updated hrow hp (fun _ => rfl) fun _ => rfl
  rw [adminUpdateUser, if_neg (by rw [hu]; exact Bool.false_ne_true)]
  refine (Ends.of_statement (fun _ => hmark) (fun _ => hmark) fun h => absurd trivial h).mono fun a s' _ h => ?_
  rw [h.2.1, h.2.2]
  exact ⟨hfind, hfind, rfl, rfl⟩

theorem update_isEmpty {b : UpdateBody Meta} {hash : Option Str} (h : hash.isNone = b.password.isNone) :
    (b.update hash).isEmpty = b.fieldless := by
  simp only [AdminUpdate.isEmpty, UpdateBody.update, UpdateBody.fieldless, h]
  grind

theorem updated_set {b : UpdateBody Meta} {hash : Option Str} (hhash : hashOf env b.password = .ok hash)
    (user : AuthUser Meta) : Updated env b user ((b.update hash).set env user) where
  email email h := by simp [AdminUpdate.set, UpdateBody.update, h]
  password := (hashOf_ok hhash).2 _ fun p hp => by simp [AdminUpdate.set, UpdateBody.update, hp]
  confirm c h := by cases c <;> simp [AdminUpdate.set, UpdateBody.update, h]
  ban t h := by simp [AdminUpdate.set, UpdateBody.update, h]
  userMetadata m h := by simp [AdminUpdate.set, UpdateBody.update, h]
  appMetadata m h := by simp [AdminUpdate.set, UpdateBody.update, h]

theorem updated_of_fieldless {b : UpdateBody Meta} (h : b.fieldless = true) (user : AuthUser Meta) : Updated env b user user := by
  simp only [UpdateBody.fieldless, Bool.and_eq_true, Option.isNone_iff_eq_none] at h
  obtain ⟨⟨⟨⟨⟨hemail, hpassword⟩, hconfirm⟩, hban⟩, huser⟩, happ⟩ := h
  constructor <;> simp [HasPassword, *]

theorem ends_update {id : UserId} {b : UpdateBody Meta} {hash : Option Str} (hhash : hashOf env b.password = .ok hash) :
    Ends (Bears env.now) (adminUpdateUser env id (b.update hash)) s [updateStage env s id b] fun a s' =>
      (a = none ↔ findUserById id s = none) ∧ s'.sessions = s.sessions ∧ s'.refreshTokens = s.refreshTokens ∧
        ∀ user, findUserById id s = some user → ∃ row, findUserById id s' = some row ∧ Updated env b user row := by
  have hempty := update_isEmpty (hashOf_ok hhash).1
  cases hb : b.fieldless with
  | true =>
      rw [hb] at hempty
      rw [adminUpdateUser, if_pos hempty, updateStage, if_pos hb]
      refine (ends_read .findUnchanged _).mono fun a s' _ h => ?_
      rw [h.1, h.2]
      exact ⟨Iff.rfl, rfl, rfl, fun user hu => ⟨user, hu, updated_of_fieldless hb user⟩⟩
  | false =>
      rw [hb] at hempty
      rw [updateStage, if_neg (by rw [hb]; exact Bool.false_ne_true)]
      cases hrow : findUserById id s with
      | none =>
          have hsame : s.updateUsers (fun row => row.id = id && row.deletedAt.isNone) ((b.update hash).set env) = s :=
            updateUsers_of_none fun u hu => Bool.eq_false_iff.mpr (List.find?_eq_none.mp hrow u hu)
          rw [adminUpdateUser, if_neg (by rw [hempty]; exact Bool.false_ne_true)]
          refine (Ends.of_statement (fun h => ?_) (fun h => ?_) fun _ => .inl hsame).mono fun a s' _ h => ?_
          · dsimp only
            rw [hsame]
            exact h
          · cases h
          · rw [h.2.1, h.2.2]
            dsimp only
            rw [hsame, hrow]
            exact ⟨Iff.rfl, rfl, rfl, fun user hu => by cases hu⟩
      | some user =>
          refine ((ends_adminUpdateUser hrow hempty).of_stages ?_).mono fun a s' _ h => ?_
          · simp [UpdateBody.update]
          · rw [h.1]
            refine ⟨by simp, h.2.2.1, h.2.2.2, fun user' hu => ⟨_, h.2.1, ?_⟩⟩
            cases hu
            exact updated_set hhash user

theorem ends_signOut (b : UpdateBody Meta) (id : UserId) :
    Ends (Bears env.now) (if b.signsOut env then revokeUserSessions env id none else pure 0) s
      (if b.signsOut env then revokeStages env s id none else []) fun _ s' =>
        s'.users = s.users ∧ (b.signsOut env = true → SignedOut s id s') := by
  by_cases hb : b.signsOut env = true
  · rw [if_pos hb, if_pos hb]
    refine (ends_revoke id none).mono fun _ s' _ h => ⟨h.1, fun _ => ⟨fun x hx hid => ?_, h.2.2.2⟩⟩
    rw [h.2.2.1] at hx
    obtain ⟨y, -, rfl⟩ := List.mem_map.mp hx
    by_cases hy : revocable id none y = true
    · rw [if_pos hy]
      exact Option.some_ne_none _
    · rw [if_neg hy] at hid ⊢
      intro hnone
      simp [revocable, hid, hnone] at hy
  · rw [if_neg hb, if_neg hb]
    exact (Ends.of_pure 0).mono fun _ s' _ h => ⟨congrArg Store.users h.2, fun h => absurd h hb⟩

theorem ends_putAdminUser (id : Option UserId) (body : Option (UpdateBody Meta)) :
    Ends (Bears env.now) (putAdminUser env id body) s (stages env s (.putAdminUser id body)) fun _ s' =>
      Made env s s' (.putAdminUser id body) := by
  refine (Ends.of_refuseIf _ _).step fun _ s₁ _ h₁ => ?_
  rw [h₁.2]
  refine (Ends.of_orThrow _ _).step fun id s₁ _ h₁ => ?_
  obtain ⟨rfl, h₁⟩ := h₁
  rw [h₁]
  refine (Ends.of_orThrow _ _).step fun b s₁ _ h₁ => ?_
  obtain ⟨rfl, h₁⟩ := h₁
  rw [h₁]
  refine (Ends.of_refuseIf _ _).step fun _ s₁ _ h₁ => ?_
  rw [h₁.2]
  refine (Ends.of_lift _).step fun hash s₁ _ h₁ => ?_
  obtain ⟨hhash, h₁⟩ := h₁
  rw [h₁]
  refine (ends_read .connect _).step fun _ s₁ _ h₁ => ?_
  rw [h₁.2]
  refine (ends_update hhash).step fun a s₂ _ h₂ => ?_
  obtain ⟨hnone, hsessions, htokens, hrow⟩ := h₂
  have hcheck : check (findUserById id s = none) = ⟨a = none, False⟩ := by rw [check, hnone]
  rw [hcheck]
  refine (Ends.of_orThrow _ _).step fun updated s₃ hsome h₃ => ?_
  obtain ⟨user, hu⟩ := Option.ne_none_iff_exists'.mp (mt hnone.mpr hsome)
  obtain ⟨row, hrow, hupdated⟩ := hrow user hu
  rw [h₃.2]
  have hstages : revokeStages env s id none = revokeStages env s₂ id none := by rw [revokeStages, revokeStages, hsessions]
  rw [hstages]
  refine (ends_signOut b id).seq fun _ s₄ _ h₄ => (ends_read .findFresh _).step fun _ s₅ _ h₅ =>
    (Ends.of_pure _).mono fun _ s₆ _ h₆ => ?_
  rw [h₆.2, h₅.2]
  refine ⟨user, row, hu, ?_, hupdated, fun h => ?_⟩
  · rw [findUserById_of_users h₄.1]
    exact hrow
  · obtain ⟨hall, hrevoked⟩ := h₄.2 h
    refine ⟨hall, ?_⟩
    rw [← hsessions]
    exact hrevoked

theorem ends_createUser {email : Email} {hash : Option Str} {confirmed : Bool} {userMetadata : Option Meta} :
    Ends (Bears env.now) (createUser env email hash confirmed userMetadata) s
      [⟨(env.fails .createUser || s.users.any (·.id = env.newId)) = true, taken env email s = false⟩] fun a s' =>
        (a = none ↔ taken env email s = true) ∧ ∀ user, a = some user → user = newUser env email hash confirmed userMetadata ∧
          findUserById env.newId s' = some user := by
  by_cases htaken : taken env email s = true
  · refine (Ends.of_statement (fun h => ?_) (fun h => ?_) fun _ => .inl ?_).mono fun a s' _ h => ?_
    · simpa only [if_pos htaken] using h
    · simp [htaken] at h
    · simp only [if_pos htaken]
    · simp only [if_pos htaken] at h
      rw [h.2.1]
      exact ⟨iff_of_true rfl htaken, fun user hu => by cases hu⟩
  · have hmark : Bears env.now { s with users := s.users ++ [newUser env email hash confirmed userMetadata] } :=
      .inl ⟨_, List.mem_append_right _ (List.mem_singleton_self _), rfl⟩
    refine (Ends.of_statement (fun _ => ?_) (fun _ => ?_) fun h => absurd (Bool.eq_false_iff.mpr htaken) h).mono
      fun a s' _ h => ?_
    · simpa only [if_neg htaken] using hmark
    · simpa only [if_neg htaken] using hmark
    · simp only [if_neg htaken] at h
      obtain ⟨hfails, ha, hs'⟩ := h
      rw [Bool.or_eq_false_iff, List.any_eq_false] at hfails
      refine ⟨iff_of_false (by simp [ha]) htaken, fun user hu => ?_⟩
      obtain rfl : newUser env email hash confirmed userMetadata = user := Option.some.inj (ha.symm.trans hu)
      refine ⟨rfl, ?_⟩
      rw [hs', findUserById, List.find?_append, List.find?_eq_none.mpr fun u hu => ?_]
      · simp [newUser]
      · rw [Bool.and_eq_true]
        exact fun h => hfails.2 u hu h.1

theorem ends_postAdminUser (body : Option (CreateBody Meta)) :
    Ends (Bears env.now) (postAdminUser env body) s (stages env s (.postAdminUser body)) fun _ s' =>
      Made env s s' (.postAdminUser body) := by
  refine (Ends.of_refuseIf _ _).step fun _ s₁ _ h₁ => ?_
  rw [h₁.2]
  refine (Ends.of_orThrow _ _).step fun b s₁ _ h₁ => ?_
  obtain ⟨rfl, h₁⟩ := h₁
  rw [h₁]
  refine (Ends.of_lift _).step fun hash s₁ _ h₁ => ?_
  obtain ⟨hhash, h₁⟩ := h₁
  rw [h₁]
  refine (ends_read .connect _).step fun _ s₁ _ h₁ => ?_
  rw [h₁.2]
  refine ends_createUser.step fun a s₂ _ h₂ => ?_
  have hcheck : check (taken env b.email s = true) = ⟨a = none, False⟩ := by rw [check, h₂.1]
  rw [hcheck]
  refine (Ends.of_orThrow _ _).step fun created s₃ _ h₃ => ?_
  obtain ⟨hcreated, hfind⟩ := h₂.2 created h₃.1
  rw [h₃.2]
  have hid : created.id = env.newId := (mem_of_findUserById hfind).2.1
  have hpassword := (hashOf_ok hhash).2 created fun p hp => by rw [hcreated, newUser, hp]
  have hconfirm : b.emailConfirm = some true → created.emailConfirmedAt ≠ none := by
    intro h
    simp [hcreated, newUser, h]
  have hmeta : ∀ m, b.userMetadata = some m → created.rawUserMetaData = m := by
    intro m h
    simp [hcreated, newUser, h]
  have hemail : created.email = some b.email.val := by rw [hcreated, newUser]
  refine Ends.seq_nil ?_ fun _ _ _ h => (Ends.of_pure _).mono fun _ s' _ h' => h'.2.symm ▸ h
  cases happ : b.appMetadata with
  | none =>
      refine (Ends.of_pure _).mono fun _ s' _ h => ?_
      rw [h.2]
      refine ⟨created, hfind, hemail, hpassword, hconfirm, hmeta, fun m hm => ?_⟩
      rw [happ] at hm
      cases hm
  | some m =>
      rw [← hid] at hfind
      refine ((ends_adminUpdateUser hfind rfl).of_stages ?_).mono fun _ s' _ h => ?_
      · simp [collides, writing]
      · rw [hid] at h
        refine ⟨_, h.2.1, hemail, hpassword, hconfirm, hmeta, fun m' hm => ?_⟩
        rw [happ] at hm
        cases hm
        have hempty : created.rawAppMetaData = env.empty := by rw [hcreated, newUser]
        exact congrArg (env.merge · m) hempty

end Steps

/-- The user has sent an empty password with the rest. -/
def Request.blank {Meta : Type} : Request Meta → Prop
  | .putUser _ (some body) => body.password = some []
  | _ => False

section Results

variable {Meta : Type} (env : Env Meta) (s : Store Meta)

theorem newHash_nil (hash : Str) : newHash env [] ≠ .ok hash := by
  have hmin : ([] : Str).length < max MIN_END_USER_PASSWORD_LENGTH env.passwordMinLength :=
    lt_of_lt_of_le (by decide) (le_max_left _ _)
  rw [newHash, validatePassword, if_pos hmin]
  intro h
  cases h

theorem given_eq {p : Option Str} (h : p ≠ some []) : given p = p := by
  cases p with
  | none => rfl
  | some p =>
      cases p with
      | nil => exact absurd rfl h
      | cons c p => rfl

/-- An empty password is never set. -/
theorem made_filled {s' : Store Meta} {bearer : Option Bearer} {body : Option (UserBody Meta)}
    (h : Made env s s' (.putUser bearer (body.map UserBody.filled))) :
    Made env s s' (.putUser bearer body) ↔ ¬ (Request.putUser bearer body).blank := by
  cases bearer with
  | none => exact h.elim
  | some bearer =>
      cases body with
      | none => exact h.elim
      | some body =>
          obtain ⟨user, row, hu, hrow, hpassword, hemail, hdata⟩ := h
          constructor
          · rintro ⟨-, row', -, -, hpassword', -⟩ hblank
            obtain ⟨hash, hhash, -⟩ := hpassword' [] hblank
            exact newHash_nil env hash hhash
          · intro hblank
            refine ⟨user, row, hu, hrow, ?_, hemail, hdata⟩
            rw [← given_eq hblank]
            exact hpassword

/-- A request is all or nothing exactly when nothing that it does fails after something that it has written, and, if it
succeeds, when it does not ask a user to set the empty password. -/
theorem updates_whole (hpast : Past env.now s) (q : Request Meta) :
    ((∀ e s', respond env q s = (.error e, s') → s' = s) ∧ ∀ r s', respond env q s = (.ok r, s') → Made env s s' q) ↔
      ¬ Torn (stages env s q) ∧ (Fails (stages env s q) ∨ ¬ q.blank) := by
  cases q with
  | putUser bearer body =>
      exact (ends_putUser bearer body).all_or_nothing hpast.not_bears fun _ s' _ h => made_filled env s h
  | postAdminUser body =>
      exact (ends_postAdminUser body).all_or_nothing hpast.not_bears fun _ s' _ h => iff_of_true h id
  | putAdminUser id body =>
      exact (ends_putAdminUser id body).all_or_nothing hpast.not_bears fun _ s' _ h => iff_of_true h False.elim

end Results

def ana : Email := ⟨str "ana@x.io".toList, by decide⟩

/-- Everything works. -/
def calm : Env Unit where
  fails _ := false
  now := 9
  salt := []
  toNew := ⟨[1], [1]⟩
  toOld := ⟨[2], [2]⟩
  newId := str "u2".toList
  passwordMinLength := 8
  double := true
  serviceRole := false
  accepts _ := true
  scrypt _ _ n _ := some (List.replicate n 7)
  nfkc := id
  lower := toLowerCase
  merge _ _ := ()
  empty := ()

def anas : Store Unit where
  users := [⟨str "u1".toList, some ana.val, none, none, none, (), (), 1, none, 1, none⟩]
  sessions := [⟨str "s1".toList, str "u1".toList, none⟩, ⟨str "s2".toList, str "u1".toList, none⟩]
  refreshTokens := [⟨1, str "s2".toList, false⟩]
  oneTimeTokens := []
  mails := []

theorem anas_past : Past calm.now anas := ⟨by decide, by decide, by decide⟩

/-- The address of the body is refused after the password has been set and the other session has been ended. -/
def both : Request Unit :=
  .putUser (some ⟨str "u1".toList, str "s1".toList, true⟩) (some ⟨some (str "new password".toList), none, some ana, none⟩)

theorem own_address_late : ¬ ∀ (env : Env Unit) (s : Store Unit) (q : Request Unit), Past env.now s →
    (∀ e s', respond env q s = (.error e, s') → s' = s) ∧ ∀ r s', respond env q s = (.ok r, s') → Made env s s' q := by
  intro h
  have hrefused : ((respond calm both anas).1.toOption.isNone) = true := by decide
  have hchanged : (respond calm both anas).2.sessions.map (·.revokedAt) = [none, some 9] := by decide
  cases hrun : respond calm both anas with
  | mk out s' =>
      cases out with
      | ok r =>
          rw [hrun] at hrefused
          cases hrefused
      | error e =>
          have hsame := (h calm anas both anas_past).1 e s' hrun
          rw [hrun, hsame] at hchanged
          change anas.sessions.map (·.revokedAt) = _ at hchanged
          exact absurd hchanged (by decide)

/-- A change of the metadata alone. -/
def profile : Request Unit := .putUser (some ⟨str "u1".toList, str "s1".toList, false⟩) (some ⟨none, none, none, some ()⟩)

theorem updates_whole_profile :
    (∀ e s', respond calm profile anas = (.error e, s') → s' = anas) ∧
      ∀ r s', respond calm profile anas = (.ok r, s') → Made calm anas s' profile := by
  refine (updates_whole calm anas anas_past profile).mpr ⟨?_, .inr ?_⟩
  · simp [stages, profile, Torn, check, reading, writing, calm, anas, findUserById, given]
  · intro h
    cases h

end Corebase.UserUpdates
