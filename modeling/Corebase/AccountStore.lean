import Mathlib.Logic.Function.Basic

namespace Corebase.AccountStore

abbrev UserId := Nat
abbrev SessionId := Nat
/-- An address as the unique index sees it, without its case. -/
inductive Address
  | mailbox (n : Nat)
  /-- What a deleted user is left with. -/
  | tombstone (userId : UserId)
deriving DecidableEq

abbrev Password := Nat
/-- The token in a link, of which the store has the hash. -/
abbrev Secret := Nat
/-- Milliseconds. -/
abbrev Time := Nat
abbrev Client := Nat

/-- An encrypted password. A weak one is to be hashed again at the next login. -/
structure Hash where
  password : Password
  weak : Bool
deriving DecidableEq

structure User where
  email : Option Address
  encryptedPassword : Option Hash
  emailConfirmedAt : Option Time
  bannedUntil : Option Time
  deletedAt : Option Time
deriving DecidableEq

def User.withPassword (u : User) (p : Password) : User := { u with encryptedPassword := some ⟨p, false⟩ }

def User.banned (u : User) (now : Time) : Bool := u.bannedUntil.any (now < ·)

/-- The user is deleted, or a ban is in force. -/
def User.barred (u : User) (now : Time) : Bool := u.deletedAt.isSome || u.banned now

inductive TokenType
  | confirmation | recovery | emailChangeCurrent | emailChangeNew | magicLink
deriving DecidableEq

def TokenType.isEmailChange : TokenType → Bool
  | .emailChangeCurrent | .emailChangeNew => true
  | _ => false

def ttlSeconds : TokenType → Nat
  | .confirmation | .emailChangeCurrent | .emailChangeNew => 24 * 3600
  | .recovery => 3600
  | .magicLink => 900

structure OneTimeToken where
  secret : Secret
  relatesTo : Option Address
  expiresAt : Time
  usedAt : Option Time
  /-- The new side of the same proposal, for the current side of an email change. -/
  partner : Option Secret
deriving DecidableEq

/-- What a session has been opened with. -/
inductive Via
  | password (p : Password)
  | link (secret : Secret)
deriving DecidableEq

structure Session where
  userId : UserId
  revoked : Bool
  via : Via
deriving DecidableEq

/-- What a request has done that its answer vouches for. -/
structure Answer where
  /-- A user who is banned or deleted, and which of the user's bans it is. -/
  barred : Option (UserId × Nat)
  /-- A password of a user that has been replaced, and the session that stays. -/
  changed : Option (UserId × Option Password × Option SessionId)
deriving DecidableEq

/-- What has happened, with the address that the user has at the time. -/
inductive Event
  | issued (userId : UserId) (type : TokenType) (secret : Secret) (relatesTo : Option Address) (partner : Option Secret)
      (current : Option Address)
  | mailed (secret : Secret) (recipient : Address) (current : Option Address)
  | consumed (c : Client) (userId : UserId) (type : TokenType) (secret : Secret) (current pending : Option Address)
  | confirmed (userId : UserId) (secret : Secret) (current : Option Address)
  | opened (userId : UserId) (sessionId : SessionId) (via : Via) (current : Option Address)
  | refreshed (userId : UserId) (sessionId : SessionId)
  | stored (userId : UserId) (p : Password)
  | replaced (userId : UserId) (p : Password)
  | signedOut (userId : UserId)
  | applied (userId : UserId) (email : Address)
  /-- A user who was not banned or deleted is so now. -/
  | barred (userId : UserId)
  | answered (a : Answer)
deriving DecidableEq

structure Store where
  now : Time
  users : UserId → Option User
  sessions : SessionId → Option Session
  tokens : UserId → TokenType → Option OneTimeToken
  nextUser : UserId
  nextSession : SessionId
  nextSecret : Secret
  /-- The row of a user as a client has looked it up, created it or spent its link. -/
  seen : Client → Option (UserId × User)
  /-- What has happened, the newest first. -/
  history : List Event

/-- The store of a project with some users. -/
def Store.opened (rows : List User) : Store where
  now := 0
  users id := rows[id]?
  sessions _ := none
  tokens _ _ := none
  nextUser := rows.length
  nextSession := 0
  nextSecret := 0
  seen _ := none
  history := rows.zipIdx.filterMap fun (u, id) => u.encryptedPassword.map fun hash => .stored id hash.password

inductive Scope
  | «local» | global | others
deriving DecidableEq

structure AdminUpdate where
  email : Option Address
  password : Option Password
  emailConfirm : Option Bool
  banUntil : Option (Option Time)
  signOut : Bool
deriving DecidableEq

def AdminUpdate.setsNothing (u : AdminUpdate) : Bool :=
  u.email.isNone && u.password.isNone && u.emailConfirm.isNone && u.banUntil.isNone

def AdminUpdate.apply (a : AdminUpdate) (now : Time) (u : User) : User where
  email := a.email.orElse fun _ => u.email
  encryptedPassword := (a.password.map (⟨·, false⟩)).orElse fun _ => u.encryptedPassword
  emailConfirmedAt := match a.emailConfirm with
    | none => u.emailConfirmedAt
    | some true => some (u.emailConfirmedAt.getD now)
    | some false => none
  bannedUntil := a.banUntil.getD u.bannedUntil
  deletedAt := u.deletedAt

inductive Rotation
  | issued | theft | refused
deriving DecidableEq

inductive Op
  | findUserByEmail (email : Address)
  | findUserById (userId : UserId)
  | createUser (email : Address) (password : Option Password) (confirmed : Bool)
  /-- The hash of a password that has been verified, or of a new one. -/
  | updatePasswordHash (userId : UserId) (p : Password) (change : Bool)
  | markEmailConfirmed (userId : UserId) (secret : Secret)
  | openSession (userId : UserId) (via : Via)
  | liveSession (sessionId : SessionId) (userId : UserId)
  | revokeUserSessions (userId : UserId) (scope : Scope) (current : SessionId)
  | revokeOwnSession (sessionId : SessionId) (userId : UserId)
  | findRefreshToken (sessionId : SessionId)
  | idleExpired (sessionId : SessionId)
  | rotateRefreshToken (userId : UserId) (sessionId : SessionId)
  | revokeSessionFamily (sessionId : SessionId)
  | issueOneTimeToken (userId : UserId) (type : TokenType) (relatesTo : Option Address) (partner : Option Secret)
  | mail (userId : UserId) (secret : Secret) (recipient : Address)
  | consumeOneTimeToken (type : TokenType) (secret : Secret)
  | consumeEitherToken (secret : Secret)
  /-- The sibling of the token that has been consumed. -/
  | siblingConsumed (userId : UserId) (type : TokenType) (consumed : Secret)
  | applyEmailChange (userId : UserId) (newEmail : Address)
  | clearEmailChangeTokens (userId : UserId)
  | clearCurrentToken (userId : UserId)
  | adminUpdateUser (userId : UserId) (update : AdminUpdate)
  | softDeleteUser (userId : UserId)
  | clock
  | answer (a : Answer)
  | tick (ms : Time)
deriving DecidableEq

abbrev Reply : Op → Type
  | .findUserByEmail _ => Option (UserId × User)
  | .findUserById _ => Option User
  | .createUser .. => Option UserId
  /- the password that it replaces -/
  | .updatePasswordHash .. => Option Password
  | .openSession .. => SessionId
  | .liveSession .. | .idleExpired _ | .siblingConsumed .. | .applyEmailChange .. => Bool
  | .findRefreshToken _ | .consumeOneTimeToken .. => Option UserId
  | .rotateRefreshToken .. => Rotation
  | .issueOneTimeToken .. => Secret
  | .consumeEitherToken _ => Option (UserId × Option Address × TokenType)
  /- the password that it replaces, and the number of the ban -/
  | .adminUpdateUser .. => Option (Option Password × Nat)
  | .softDeleteUser _ => Option Nat
  | .clock => Time
  | .markEmailConfirmed .. | .revokeUserSessions .. | .revokeOwnSession .. | .revokeSessionFamily _ | .mail ..
  | .clearEmailChangeTokens _ | .clearCurrentToken _ | .answer _ | .tick _ => Unit

/-- What is left to chance: whether a mail goes out, a session is idle, or a refresh token is good. -/
inductive Chance
  | usual | other | third
deriving DecidableEq

namespace Store

variable (s : Store)

def log (e : Event) : Store := { s with history := e :: s.history }

def meet (c : Client) (userId : UserId) : Store :=
  { s with seen := Function.update s.seen c ((s.users userId).map (userId, ·)) }

def setUser (id : UserId) (u : User) : Store := { s with users := Function.update s.users id (some u) }

def updateUser (id : UserId) (f : User → User) : Store :=
  { s with users := Function.update s.users id ((s.users id).map f) }

def setToken (id : UserId) (type : TokenType) (t : Option OneTimeToken) : Store :=
  { s with tokens := Function.update s.tokens id (Function.update (s.tokens id) type t) }

def email (id : UserId) : Option Address := (s.users id).bind (·.email)

def password (id : UserId) : Option Password := ((s.users id).bind (·.encryptedPassword)).map (·.password)

def barred (id : UserId) : Bool := (s.users id).any (·.barred s.now)

/-- How many times the user has become barred. -/
def bans (id : UserId) : Nat := s.history.countP (· = .barred id)

/-- A row of the user that is not a tombstone. -/
def present (id : UserId) : Bool := (s.users id).any (·.deletedAt.isNone)

def findUserByEmail (email : Address) : Option (UserId × User) := do
  let id ← (List.range s.nextUser).find? fun id => (s.users id).any fun u => u.email = some email && u.deletedAt.isNone
  let u ← s.users id
  return (id, u)

def findUserById (id : UserId) : Option User := (s.users id).filter (·.deletedAt.isNone)

/-- The address belongs to a user other than this one. -/
def taken (id : UserId) (email : Address) : Bool := (s.findUserByEmail email).any (·.1 ≠ id)

def createUser (email : Address) (password : Option Password) (confirmed : Bool) : Store :=
  let created := { s.setUser s.nextUser
      ⟨some email, password.map (⟨·, false⟩), if confirmed then some s.now else none, none, none⟩ with
    nextUser := s.nextUser + 1 }
  match password with
  | none => created
  | some p => created.log (.stored s.nextUser p)

/-- The log of a password that takes the place of another. -/
def logPassword (userId : UserId) (old : Option Password) (new : Password) : Store :=
  match old with
  | none => s.log (.stored userId new)
  | some old => (s.log (.stored userId new)).log (.replaced userId old)

def updatePasswordHash (userId : UserId) (p : Password) (change : Bool) : Store :=
  match s.users userId with
  | none => s
  | some u =>
    let updated := s.setUser userId (u.withPassword p)
    if change then updated.logPassword userId (s.password userId) p else updated

def markEmailConfirmed (userId : UserId) (secret : Secret) : Store :=
  (s.updateUser userId fun u => { u with emailConfirmedAt := some (u.emailConfirmedAt.getD s.now) }).log
    (.confirmed userId secret (s.email userId))

def openSession (userId : UserId) (via : Via) : Store :=
  ({ s with
    sessions := Function.update s.sessions s.nextSession (some ⟨userId, false, via⟩)
    nextSession := s.nextSession + 1 } : Store).log (.opened userId s.nextSession via (s.email userId))

/-- The session is the user's, and not revoked; its refresh tokens are revoked with it. -/
def live (sessionId : SessionId) (userId : UserId) : Bool :=
  (s.sessions sessionId).any fun x => x.userId = userId && !x.revoked

def revokeSessions (hit : SessionId → Session → Bool) : Store :=
  { s with sessions := fun id => (s.sessions id).map fun x => if hit id x then { x with revoked := true } else x }

def wanted (userId : UserId) (scope : Scope) (current : SessionId) (id : SessionId) (x : Session) : Bool :=
  x.userId = userId && match scope with
    | .local => id = current
    | .others => id ≠ current
    | .global => true

def revokeUserSessions (userId : UserId) (scope : Scope) (current : SessionId) : Store :=
  let revoked := s.revokeSessions (wanted userId scope current)
  if scope = .local then revoked else revoked.log (.signedOut userId)

def issueOneTimeToken (userId : UserId) (type : TokenType) (relatesTo : Option Address) (partner : Option Secret) :
    Store :=
  ({ s.setToken userId type (some ⟨s.nextSecret, relatesTo, s.now + ttlSeconds type * 1000, none, partner⟩) with
    nextSecret := s.nextSecret + 1 } : Store).log (.issued userId type s.nextSecret relatesTo partner (s.email userId))

/-- The token can be spent with this secret. -/
def spendable (userId : UserId) (type : TokenType) (secret : Secret) : Bool :=
  s.present userId && (s.tokens userId type).any fun t => t.secret = secret && t.usedAt.isNone && s.now < t.expiresAt

/-- The address that the later one of the tokens relates to. -/
def pendingEmailChange (userId : UserId) : Option Address :=
  match s.tokens userId .emailChangeCurrent, s.tokens userId .emailChangeNew with
  | some current, some new => if current.secret < new.secret then new.relatesTo else current.relatesTo
  | some current, none => current.relatesTo
  | none, new => new.bind (·.relatesTo)

def spend (c : Client) (userId : UserId) (type : TokenType) (secret : Secret) : Store :=
  (s.setToken userId type ((s.tokens userId type).map fun t => { t with usedAt := some s.now })).log
    (.consumed c userId type secret (s.email userId) (s.pendingEmailChange userId))

def consumeOneTimeToken (type : TokenType) (secret : Secret) : Option UserId :=
  (List.range s.nextUser).find? fun id => s.spendable id type secret

def siblingConsumed (userId : UserId) (type : TokenType) : Bool :=
  (s.tokens userId type).any (·.usedAt.isSome)

def applyEmailChange (userId : UserId) (newEmail : Address) : Store :=
  (s.updateUser userId fun u => { u with email := some newEmail, emailConfirmedAt := some s.now }).log
    (.applied userId newEmail)

def clearCurrentToken (userId : UserId) : Store := s.setToken userId .emailChangeCurrent none

def clearEmailChangeTokens (userId : UserId) : Store :=
  (s.clearCurrentToken userId).setToken userId .emailChangeNew none

/-- The log of a user who has become barred. -/
def logBar (userId : UserId) (before : Bool) : Store :=
  if !before && s.barred userId then s.log (.barred userId) else s

def adminUpdateUser (userId : UserId) (a : AdminUpdate) : Store :=
  let updated := s.updateUser userId (a.apply s.now)
  let logged := match a.password with
    | none => updated
    | some p => updated.logPassword userId (s.password userId) p
  logged.logBar userId (s.barred userId)

/-- The row is a tombstone, and sessions and links are no more. -/
def scrub (userId : UserId) : Store :=
  { (s.updateUser userId fun u => ⟨some (.tombstone userId), none, none, u.bannedUntil, some s.now⟩).revokeSessions
      fun _ x => x.userId = userId with
    tokens := Function.update s.tokens userId fun _ => none }

def softDeleteUser (userId : UserId) : Store :=
  ((s.scrub userId).logBar userId (s.barred userId)).log (.signedOut userId)

end Store

open Store in
def exec (c : Client) (chance : Chance) : (op : Op) → Store → Option (Reply op × Store)
  | .findUserByEmail email, s => some (s.findUserByEmail email, match s.findUserByEmail email with
      | none => s
      | some (id, _) => s.meet c id)
  | .findUserById id, s => some (s.findUserById id, s)
  | .createUser email password confirmed, s =>
      some (if (s.findUserByEmail email).isSome then (none, s)
        else (some s.nextUser, (s.createUser email password confirmed).meet c s.nextUser))
  | .updatePasswordHash id p change, s => some (s.password id, s.updatePasswordHash id p change)
  | .markEmailConfirmed id secret, s => some ((), s.markEmailConfirmed id secret)
  | .openSession id via, s => some (s.nextSession, s.openSession id via)
  | .liveSession sessionId id, s =>
      some (s.present id && s.live sessionId id, s)
  | .revokeUserSessions id scope current, s => some ((), s.revokeUserSessions id scope current)
  | .revokeOwnSession sessionId id, s => some ((), s.revokeSessions fun j x => j = sessionId && x.userId = id)
  | .findRefreshToken sessionId, s =>
      some (match (s.sessions sessionId).filter (!·.revoked), chance with
        | some x, .usual => (some x.userId, s)
        | _, _ => (none, s))
  | .idleExpired _, s => some (chance ≠ .usual, s)
  | .rotateRefreshToken id sessionId, s => some (match chance with
      | .usual => if s.live sessionId id then (.issued, s.log (.refreshed id sessionId)) else (.refused, s)
      | .other => (.theft, s)
      | .third => (.refused, s))
  | .revokeSessionFamily sessionId, s => some ((), s.revokeSessions fun j _ => j = sessionId)
  | .issueOneTimeToken id type relatesTo partner, s =>
      some (s.nextSecret, s.issueOneTimeToken id type relatesTo partner)
  | .mail id secret recipient, s => some ((), match chance with
      | .usual => s.log (.mailed secret recipient (s.email id))
      | _ => s)
  | .consumeOneTimeToken type secret, s => some (match s.consumeOneTimeToken type secret with
      | none => (none, s)
      | some id => (some id, (s.spend c id type secret).meet c id))
  | .consumeEitherToken secret, s => some
      (match s.consumeOneTimeToken .emailChangeCurrent secret, s.consumeOneTimeToken .emailChangeNew secret with
        | some id, _ => (some (id, (s.tokens id .emailChangeCurrent).bind (·.relatesTo), .emailChangeCurrent),
            s.spend c id .emailChangeCurrent secret)
        | none, some id => (some (id, (s.tokens id .emailChangeNew).bind (·.relatesTo), .emailChangeNew),
            s.spend c id .emailChangeNew secret)
        | none, none => (none, s))
  | .siblingConsumed id type _, s => some (s.siblingConsumed id type, s)
  | .applyEmailChange id newEmail, s =>
      some (if s.present id && !s.taken id newEmail then (true, s.applyEmailChange id newEmail) else (false, s))
  | .clearEmailChangeTokens id, s => some ((), s.clearEmailChangeTokens id)
  | .clearCurrentToken id, s => some ((), s.clearCurrentToken id)
  /- a taken address is an error, which ends the request as a missing user does -/
  | .adminUpdateUser id a, s =>
      some (if s.present id && !a.email.any (s.taken id) then
        let updated := if a.setsNothing then s else s.adminUpdateUser id a
        (some (s.password id, updated.bans id), updated)
      else (none, s))
  | .softDeleteUser id, s => some
      (if s.present id then (some ((s.softDeleteUser id).bans id), s.softDeleteUser id) else (none, s))
  | .clock, s => some (s.now, s)
  | .answer a, s => some ((), s.log (.answered a))
  | .tick ms, s => some ((), { s with now := s.now + ms })

section Lemmas

variable (s : Store) (c : Client) (u v : UserId) (e : Event)

@[simp] theorem log_history : (s.log e).history = e :: s.history := rfl

@[simp] theorem log_users : (s.log e).users = s.users := rfl

@[simp] theorem log_sessions : (s.log e).sessions = s.sessions := rfl

@[simp] theorem log_password : (s.log e).password u = s.password u := rfl

@[simp] theorem log_email : (s.log e).email u = s.email u := rfl

@[simp] theorem meet_password : (s.meet c v).password u = s.password u := rfl

@[simp] theorem meet_email : (s.meet c v).email u = s.email u := rfl

theorem meet_other {d : Client} (h : d ≠ c) : (s.meet c v).seen d = s.seen d := Function.update_of_ne h ..

@[simp] theorem updateUser_self (f : User → User) : (s.updateUser u f).users u = (s.users u).map f :=
  Function.update_self ..

theorem updateUser_other {f : User → User} (h : v ≠ u) : (s.updateUser u f).users v = s.users v :=
  Function.update_of_ne h ..

@[simp] theorem setUser_self (x : User) : (s.setUser u x).users u = some x := Function.update_self ..

theorem setUser_other {x : User} (h : v ≠ u) : (s.setUser u x).users v = s.users v := Function.update_of_ne h ..

theorem updateUser_none {f : User → User} (h : s.users v = none) : (s.updateUser u f).users v = none := by
  by_cases hv : v = u
  · subst hv
    simp [h]
  · rw [updateUser_other s u v hv, h]

theorem logPassword_users (old : Option Password) (new : Password) : (s.logPassword u old new).users = s.users := by
  cases old <;> rfl

theorem logPassword_nextUser (old : Option Password) (new : Password) :
    (s.logPassword u old new).nextUser = s.nextUser := by
  cases old <;> rfl

theorem logPassword_sessions (old : Option Password) (new : Password) :
    (s.logPassword u old new).sessions = s.sessions := by
  cases old <;> rfl

theorem logBar_cases (before : Bool) : s.logBar u before = s ∨ s.logBar u before = s.log (.barred u) := by
  unfold Store.logBar
  split
  · exact .inr rfl
  · exact .inl rfl

@[simp] theorem logBar_users (before : Bool) : (s.logBar u before).users = s.users := by
  rcases logBar_cases s u before with h | h <;> rw [h] <;> rfl

@[simp] theorem logBar_nextUser (before : Bool) : (s.logBar u before).nextUser = s.nextUser := by
  rcases logBar_cases s u before with h | h <;> rw [h] <;> rfl

@[simp] theorem logBar_sessions (before : Bool) : (s.logBar u before).sessions = s.sessions := by
  rcases logBar_cases s u before with h | h <;> rw [h] <;> rfl

theorem findUserByEmail_some {s : Store} {email : Address} {v : UserId} {x : User}
    (h : s.findUserByEmail email = some (v, x)) : s.users v = some x ∧ x.deletedAt = none ∧ x.email = some email := by
  obtain ⟨v', hfind, h⟩ := Option.bind_eq_some_iff.mp h
  obtain ⟨x', hx, h⟩ := Option.bind_eq_some_iff.mp h
  cases h
  have hrow := List.find?_some hfind
  simp only [hx, Option.any_some, Bool.and_eq_true, decide_eq_true_eq, Option.isNone_iff_eq_none] at hrow
  exact ⟨hx, hrow.2, hrow.1⟩

theorem findUserByEmail_lt {s : Store} {email : Address} {v : UserId} {x : User}
    (h : s.findUserByEmail email = some (v, x)) : v < s.nextUser := by
  obtain ⟨v', hfind, h⟩ := Option.bind_eq_some_iff.mp h
  obtain ⟨x', -, h⟩ := Option.bind_eq_some_iff.mp h
  cases h
  exact List.mem_range.mp (List.mem_of_find?_eq_some hfind)

theorem stored_opened {rows : List User} {e : Event} (h : e ∈ (Store.opened rows).history) :
    ∃ u p, e = .stored u p ∧ u < rows.length := by
  obtain ⟨⟨x, u⟩, hx, he⟩ := List.mem_filterMap.mp h
  obtain ⟨hash, -, rfl⟩ := Option.map_eq_some_iff.mp he
  exact ⟨u, hash.password, rfl, by simpa using (List.mem_zipIdx hx).2.1⟩

theorem consumeOneTimeToken_some {s : Store} {type : TokenType} {secret : Secret} {v : UserId}
    (h : s.consumeOneTimeToken type secret = some v) : s.present v = true ∧
      ∃ t, s.tokens v type = some t ∧ t.secret = secret ∧ t.usedAt = none ∧ s.now < t.expiresAt := by
  have hspend := List.find?_some h
  obtain ⟨hpresent, htoken⟩ := Bool.and_eq_true _ _ |>.mp hspend
  obtain ⟨t, ht, hgood⟩ := Option.any_eq_true _ _ |>.mp htoken
  simp only [Bool.and_eq_true, decide_eq_true_eq, Option.isNone_iff_eq_none] at hgood
  exact ⟨hpresent, t, ht, hgood.1.1, hgood.1.2, hgood.2⟩

theorem consumeOneTimeToken_lt {s : Store} {type : TokenType} {secret : Secret} {v : UserId}
    (h : s.consumeOneTimeToken type secret = some v) : v < s.nextUser :=
  List.mem_range.mp (List.mem_of_find?_eq_some h)

/-- A revocation leaves the other sessions as they are. -/
theorem revokeSessions_live {s : Store} {hit : SessionId → Session → Bool} {id : SessionId} {x : Session}
    (h : (s.revokeSessions hit).sessions id = some x) (hlive : x.revoked = false) :
    s.sessions id = some x ∧ hit id x = false := by
  obtain ⟨x', hx', rfl⟩ := Option.map_eq_some_iff.mp h
  by_cases hh : hit id x' = true
  · simp [hh] at hlive
  · simp only [hh] at hlive ⊢
    exact ⟨hx', by simpa using hh⟩

end Lemmas

end Corebase.AccountStore
