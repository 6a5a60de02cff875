import Corebase.ReadCommitted

namespace Corebase.RefreshStore

open ReadCommitted

abbrev SessionId := Nat
abbrev TokenId := Nat
abbrev UserId := Nat
abbrev Hash := Nat
/-- Milliseconds. -/
abbrev Time := Nat

structure Session where
  userId : UserId
  createdAt : Time
  lastRefreshedAt : Option Time
  revokedAt : Option Time
deriving DecidableEq

structure Token where
  hash : Hash
  userId : UserId
  sessionId : SessionId
  parentId : Option TokenId
  usedAt : Option Time
  revoked : Bool
deriving DecidableEq

/-- Neither spent nor revoked. -/
def Token.live (t : Token) : Bool := t.usedAt = none && !t.revoked

def Token.spend (now : Time) (t : Token) : Token := { t with usedAt := some now }

def Token.revoke (t : Token) : Token := { t with revoked := true }

def Session.touch (now : Time) (s : Session) : Session := { s with lastRefreshedAt := some now }

def Session.revoke (now : Time) (s : Session) : Session := { s with revokedAt := some (s.revokedAt.getD now) }

def REFRESH_GRACE_MS : Time := 10000

structure RefreshRow where
  id : TokenId
  userId : UserId
  sessionId : SessionId
  usedAt : Option Time
  revoked : Bool
  sessionRevokedAt : Option Time
  lastRefreshedAt : Option Time
  sessionCreatedAt : Time
deriving DecidableEq

/-- The join of a token with its session. -/
def refreshRow (id : TokenId) (t : Token) (s : Session) : RefreshRow where
  id := id
  userId := t.userId
  sessionId := t.sessionId
  usedAt := t.usedAt
  revoked := t.revoked
  sessionRevokedAt := s.revokedAt
  lastRefreshedAt := s.lastRefreshedAt
  sessionCreatedAt := s.createdAt

/-- The early refusal of a token that is revoked, or whose session is. -/
def RefreshRow.dead (row : RefreshRow) : Bool := row.revoked || row.sessionRevokedAt.isSome

def RefreshRow.idleExpired (idleSeconds : Nat) (now : Time) (row : RefreshRow) : Bool :=
  row.lastRefreshedAt.getD row.sessionCreatedAt + idleSeconds * 1000 < now

/-- A transaction that kills one token of a session and inserts another. -/
structure Replacement where
  presented : Hash
  row : RefreshRow
  victim : TokenId
  /-- The victim is marked as used, not as revoked. -/
  spends : Bool
  childHash : Hash
deriving DecidableEq

def rotateRefreshToken (presented : Hash) (row : RefreshRow) (childHash : Hash) : Replacement :=
  ⟨presented, row, row.id, true, childHash⟩

def graceRotate (presented : Hash) (row : RefreshRow) (oldChildId : TokenId) (childHash : Hash) : Replacement :=
  ⟨presented, row, oldChildId, false, childHash⟩

def Replacement.kill (r : Replacement) (now : Time) (t : Token) : Token := if r.spends then t.spend now else t.revoke

def Replacement.child (r : Replacement) : Token where
  hash := r.childHash
  userId := r.row.userId
  sessionId := r.row.sessionId
  parentId := some r.row.id
  usedAt := none
  revoked := false

inductive Scope
  | «local» | global | others
deriving DecidableEq

inductive Revocation
  /-- revokeSessionFamily. -/
  | family (sessionId : SessionId)
  /-- revokeUserSessions. -/
  | user (userId : UserId) (scope : Scope) (currentSessionId : SessionId)
deriving DecidableEq

/-- The sessions that the first UPDATE of revokeUserSessions is after. -/
def wanted (userId : UserId) (scope : Scope) (current : SessionId) (id : SessionId) (s : Session) : Prop :=
  s.userId = userId ∧ s.revokedAt = none ∧
    match scope with
    | .local => id = current
    | .others => id ≠ current
    | .global => True

/-- The next statement of a replacement. -/
inductive ReplaceStage
  | kill | insert | touch (child : TokenId) | commit (child : TokenId)
deriving DecidableEq

/-- The statement of a revocation that is under way, with the rows still to visit. -/
inductive RevokeStage
  | start
  | sessions (todo hit : List SessionId)
  | between (hit : List SessionId)
  | tokens (hit : List SessionId) (todo : List TokenId)
deriving DecidableEq

/-- The same for revokeOwnSession, whose statements commit one by one. -/
inductive OwnStage
  | start
  | written
  | between
  | tokens (todo : List TokenId)
  /-- The second statement has failed. -/
  | stranded
deriving DecidableEq

inductive OpenStage
  | start | session (sessionId : SessionId) | token (sessionId : SessionId) (id : TokenId)
deriving DecidableEq

/-- Where a client is in its request. -/
inductive Phase
  | idle
  | lookup (presented : Hash)
  | gates (presented : Hash) (row : RefreshRow)
  | granted (presented : Hash) (row : RefreshRow)
  | replacing (r : Replacement) (stage : ReplaceStage)
  | reread (presented : Hash) (row : RefreshRow)
  | spent (presented : Hash) (row : RefreshRow) (usedAt : Time)
  | revoking (v : Revocation) (stage : RevokeStage)
  | own (sessionId : SessionId) (userId : UserId) (stage : OwnStage)
  | opening (userId : UserId) (refreshHash : Hash) (stage : OpenStage)
deriving DecidableEq

abbrev Client := Nat

structure State where
  sessions : Table Client SessionId Session
  tokens : Table Client TokenId Token
  phase : Client → Phase

namespace State

def initial : State := ⟨.empty, .empty, fun _ => .idle⟩

def enter (st : State) (c : Client) (p : Phase) : State := { st with phase := Function.update st.phase c p }

def writeSession (st : State) (c : Client) (id : SessionId) (s : Session) : State :=
  { st with sessions := st.sessions.write c id s }

def writeToken (st : State) (c : Client) (id : TokenId) (t : Token) : State :=
  { st with tokens := st.tokens.write c id t }

def commit (st : State) (c : Client) : State :=
  { st with sessions := st.sessions.commit c, tokens := st.tokens.commit c }

def rollback (st : State) (c : Client) : State :=
  { st with sessions := st.sessions.rollback c, tokens := st.tokens.rollback c }

end State

/-- What findRefreshToken returns for a hash. -/
def Found (st : State) (hash : Hash) (row : RefreshRow) : Prop :=
  ∃ t s, st.tokens.committed row.id = some t ∧ t.hash = hash ∧ st.sessions.committed t.sessionId = some s ∧
    row = refreshRow row.id t s

/-- What findChildToken returns for a parent, the child with the least id. -/
def FirstChild (st : State) (parentId id : TokenId) (t : Token) : Prop :=
  st.tokens.committed id = some t ∧ t.parentId = some parentId ∧
    ∀ j u, st.tokens.committed j = some u → u.parentId = some parentId → id ≤ j

/-- A statement or a decision of a client that writes no row. -/
inductive Reads (idleSeconds : Nat) (st : State) (c : Client) : Phase → Phase → Prop
  | present (hash : Hash) : Reads idleSeconds st c .idle (.lookup hash)
  | logout (userId : UserId) (scope : Scope) (current : SessionId) :
      Reads idleSeconds st c .idle (.revoking (.user userId scope current) .start)
  | revokeOwn (id : SessionId) (userId : UserId) : Reads idleSeconds st c .idle (.own id userId .start)
  | signIn (userId : UserId) (hash : Hash) : Reads idleSeconds st c .idle (.opening userId hash .start)
  | find {hash : Hash} {row : RefreshRow} : Found st hash row → row.dead = false →
      Reads idleSeconds st c (.lookup hash) (.gates hash row)
  | refuse {hash : Hash} : (∀ row, Found st hash row → row.dead = true) → Reads idleSeconds st c (.lookup hash) .idle
  | expire {hash : Hash} {row : RefreshRow} (now : Time) : row.idleExpired idleSeconds now = true →
      Reads idleSeconds st c (.gates hash row) (.revoking (.family row.sessionId) .start)
  /-- The user is deleted or banned. -/
  | barred {hash : Hash} {row : RefreshRow} :
      Reads idleSeconds st c (.gates hash row) (.revoking (.family row.sessionId) .start)
  | pass {hash : Hash} {row : RefreshRow} (now : Time) : row.idleExpired idleSeconds now = false →
      Reads idleSeconds st c (.gates hash row) (.granted hash row)
  | rotate {hash : Hash} {row : RefreshRow} (childHash : Hash) : row.usedAt = none →
      Reads idleSeconds st c (.granted hash row) (.replacing (rotateRefreshToken hash row childHash) .kill)
  | alreadySpent {hash : Hash} {row : RefreshRow} {usedAt : Time} : row.usedAt = some usedAt →
      Reads idleSeconds st c (.granted hash row) (.spent hash row usedAt)
  | lostRotation {r : Replacement} : (∀ t, st.tokens.sees c r.victim = some t → t.live = false) → r.spends = true →
      Reads idleSeconds st c (.replacing r .kill) (.reread r.presented r.row)
  | lostGrace {r : Replacement} : (∀ t, st.tokens.sees c r.victim = some t → t.live = false) → r.spends = false →
      Reads idleSeconds st c (.replacing r .kill) (.revoking (.family r.row.sessionId) .start)
  | untouched {r : Replacement} {child : TokenId} : st.sessions.sees c r.row.sessionId = none →
      Reads idleSeconds st c (.replacing r (.touch child)) (.replacing r (.commit child))
  | again {hash : Hash} {row row' : RefreshRow} {usedAt : Time} : Found st hash row' → row'.usedAt = some usedAt →
      Reads idleSeconds st c (.reread hash row) (.spent hash row usedAt)
  | unspent {hash : Hash} {row : RefreshRow} : (∀ row', Found st hash row' → row'.usedAt = none) →
      Reads idleSeconds st c (.reread hash row) .idle
  | replay {hash : Hash} {row : RefreshRow} {usedAt : Time} {child : TokenId} {t : Token} (now : Time)
      (childHash : Hash) : now ≤ usedAt + REFRESH_GRACE_MS → FirstChild st row.id child t → t.live = true →
      Reads idleSeconds st c (.spent hash row usedAt) (.replacing (graceRotate hash row child childHash) .kill)
  | theft {hash : Hash} {row : RefreshRow} {usedAt : Time} (now : Time) :
      usedAt + REFRESH_GRACE_MS < now ∨ (∀ child t, FirstChild st row.id child t → t.live = false) →
      Reads idleSeconds st c (.spent hash row usedAt) (.revoking (.family row.sessionId) .start)
  | noFamily {id : SessionId} : st.sessions.sees c id = none →
      Reads idleSeconds st c (.revoking (.family id) .start) (.revoking (.family id) (.between [id]))
  | selectSessions {userId : UserId} {scope : Scope} {current : SessionId} {todo : List SessionId} :
      st.sessions.Selects c (wanted userId scope current) todo →
      Reads idleSeconds st c (.revoking (.user userId scope current) .start)
        (.revoking (.user userId scope current) (.sessions todo []))
  | skipSession {userId : UserId} {scope : Scope} {current id : SessionId} {todo hit : List SessionId} :
      (∀ s, st.sessions.sees c id = some s → ¬ wanted userId scope current id s) →
      Reads idleSeconds st c (.revoking (.user userId scope current) (.sessions (id :: todo) hit))
        (.revoking (.user userId scope current) (.sessions todo hit))
  | hitSessions {v : Revocation} {hit : List SessionId} : hit ≠ [] →
      Reads idleSeconds st c (.revoking v (.sessions [] hit)) (.revoking v (.between hit))
  | selectTokens {v : Revocation} {hit : List SessionId} {todo : List TokenId} :
      st.tokens.Selects c (fun _ t => t.sessionId ∈ hit ∧ t.revoked = false) todo →
      Reads idleSeconds st c (.revoking v (.between hit)) (.revoking v (.tokens hit todo))
  | skipToken {v : Revocation} {hit : List SessionId} {id : TokenId} {todo : List TokenId} :
      (∀ t, st.tokens.sees c id = some t → ¬ (t.sessionId ∈ hit ∧ t.revoked = false)) →
      Reads idleSeconds st c (.revoking v (.tokens hit (id :: todo))) (.revoking v (.tokens hit todo))
  | notOwn {id : SessionId} {userId : UserId} :
      (∀ s, st.sessions.sees c id = some s → ¬ (s.userId = userId ∧ s.revokedAt = none)) →
      Reads idleSeconds st c (.own id userId .start) .idle
  | selectOwn {id : SessionId} {userId : UserId} {todo : List TokenId} :
      st.tokens.Selects c (fun _ t => t.sessionId = id) todo →
      Reads idleSeconds st c (.own id userId .between) (.own id userId (.tokens todo))

/-- A write of a session row. -/
inductive SessionWrites (st : State) (c : Client) : Phase → SessionId → Session → Phase → Prop
  | touch {r : Replacement} {child : TokenId} {s : Session} (now : Time) :
      st.sessions.sees c r.row.sessionId = some s →
      SessionWrites st c (.replacing r (.touch child)) r.row.sessionId (s.touch now) (.replacing r (.commit child))
  | family {id : SessionId} {s : Session} (now : Time) : st.sessions.sees c id = some s →
      SessionWrites st c (.revoking (.family id) .start) id (s.revoke now) (.revoking (.family id) (.between [id]))
  | user {userId : UserId} {scope : Scope} {current id : SessionId} {todo hit : List SessionId} {s : Session}
      (now : Time) : st.sessions.sees c id = some s → wanted userId scope current id s →
      SessionWrites st c (.revoking (.user userId scope current) (.sessions (id :: todo) hit)) id (s.revoke now)
        (.revoking (.user userId scope current) (.sessions todo (hit ++ [id])))
  | own {id : SessionId} {userId : UserId} {s : Session} (now : Time) : st.sessions.sees c id = some s →
      s.userId = userId → s.revokedAt = none →
      SessionWrites st c (.own id userId .start) id (s.revoke now) (.own id userId .written)
  | «open» {userId : UserId} {hash : Hash} {id : SessionId} (now : Time) : st.sessions.Unused id →
      SessionWrites st c (.opening userId hash .start) id ⟨userId, now, some now, none⟩
        (.opening userId hash (.session id))

/-- A write of a token row. -/
inductive TokenWrites (st : State) (c : Client) : Phase → TokenId → Token → Phase → Prop
  | kill {r : Replacement} {t : Token} (now : Time) : st.tokens.sees c r.victim = some t → t.live = true →
      TokenWrites st c (.replacing r .kill) r.victim (r.kill now t) (.replacing r .insert)
  | insert {r : Replacement} {id : TokenId} : st.tokens.Newest id →
      TokenWrites st c (.replacing r .insert) id r.child (.replacing r (.touch id))
  | revoke {v : Revocation} {hit : List SessionId} {id : TokenId} {todo : List TokenId} {t : Token} :
      st.tokens.sees c id = some t → t.sessionId ∈ hit → t.revoked = false →
      TokenWrites st c (.revoking v (.tokens hit (id :: todo))) id t.revoke (.revoking v (.tokens hit todo))
  | own {sessionId : SessionId} {userId : UserId} {id : TokenId} {todo : List TokenId} {t : Token} :
      st.tokens.sees c id = some t → t.sessionId = sessionId →
      TokenWrites st c (.own sessionId userId (.tokens (id :: todo))) id t.revoke (.own sessionId userId (.tokens todo))
  | «open» {userId : UserId} {hash : Hash} {sessionId : SessionId} {id : TokenId} : st.tokens.Newest id →
      TokenWrites st c (.opening userId hash (.session sessionId)) id ⟨hash, userId, sessionId, none, none, false⟩
        (.opening userId hash (.token sessionId id))

inductive Commits : Phase → Phase → Prop
  | replace (r : Replacement) (child : TokenId) : Commits (.replacing r (.commit child)) .idle
  | revoke (v : Revocation) (hit : List SessionId) : Commits (.revoking v (.tokens hit [])) .idle
  | none (v : Revocation) : Commits (.revoking v (.sessions [] [])) .idle
  | ownSession (id : SessionId) (userId : UserId) : Commits (.own id userId .written) (.own id userId .between)
  | ownTokens (id : SessionId) (userId : UserId) : Commits (.own id userId (.tokens [])) .idle
  | «open» (userId : UserId) (hash : Hash) (sessionId : SessionId) (id : TokenId) :
      Commits (.opening userId hash (.token sessionId id)) .idle

/-- An error, a lost connection or a deadlock, which the server answers with a rollback. -/
inductive Aborts : Phase → Phase → Prop
  | replace (r : Replacement) (stage : ReplaceStage) : Aborts (.replacing r stage) .idle
  | revoke (v : Revocation) (stage : RevokeStage) : Aborts (.revoking v stage) .idle
  | ownStart (id : SessionId) (userId : UserId) : Aborts (.own id userId .start) .idle
  | ownSession (id : SessionId) (userId : UserId) : Aborts (.own id userId .written) .idle
  | ownBetween (id : SessionId) (userId : UserId) : Aborts (.own id userId .between) (.own id userId .stranded)
  | ownTokens (id : SessionId) (userId : UserId) (todo : List TokenId) :
      Aborts (.own id userId (.tokens todo)) (.own id userId .stranded)
  | «open» (userId : UserId) (hash : Hash) (stage : OpenStage) : Aborts (.opening userId hash stage) .idle

inductive Step (idleSeconds : Nat) (st : State) : State → Prop
  | read {c : Client} {p : Phase} : Reads idleSeconds st c (st.phase c) p → Step idleSeconds st (st.enter c p)
  | session {c : Client} {id : SessionId} {s : Session} {p : Phase} : SessionWrites st c (st.phase c) id s p →
      st.sessions.Free c id → Step idleSeconds st ((st.writeSession c id s).enter c p)
  | token {c : Client} {id : TokenId} {t : Token} {p : Phase} : TokenWrites st c (st.phase c) id t p →
      st.tokens.Free c id → Step idleSeconds st ((st.writeToken c id t).enter c p)
  | commit {c : Client} {p : Phase} : Commits (st.phase c) p → Step idleSeconds st ((st.commit c).enter c p)
  | abort {c : Client} {p : Phase} : Aborts (st.phase c) p → Step idleSeconds st ((st.rollback c).enter c p)

/-- The states of the runs whose states are all as required. -/
inductive Reachable (idleSeconds : Nat) (ok : State → Prop) : State → Prop
  | initial : ok .initial → Reachable idleSeconds ok .initial
  | step {st st' : State} : Reachable idleSeconds ok st → Step idleSeconds st st' → ok st' →
      Reachable idleSeconds ok st'

theorem Reachable.mono {idleSeconds : Nat} {ok ok' : State → Prop} {st : State} (h : Reachable idleSeconds ok st)
    (hok : ∀ st, ok st → ok' st) : Reachable idleSeconds ok' st := by
  induction h with
  | initial h => exact .initial (hok _ h)
  | step _ hstep h ih => exact .step ih hstep (hok _ h)

end Corebase.RefreshStore
