import Corebase.Organizations

namespace Corebase.Memberships

open Interleaving RowLocks
open Organizations (Client OrgId UserId Role Slug TokenHash Address)

inductive Capability
  | orgRead | orgUpdate | orgDelete | orgBilling
  | memberRead | memberInvite | memberRemove | memberRoleChange | memberRoleGrantOwner
  | projectRead | projectCreate | projectDelete | projectLifecycle
  | keyManage | secretManage | dbQuery | authuserRead | authuserManage
deriving DecidableEq

def memberCapabilities : List Capability :=
  [.orgRead, .memberRead, .projectRead, .projectCreate, .projectLifecycle, .dbQuery]

def adminCapabilities : List Capability := memberCapabilities ++
  [.orgUpdate, .memberInvite, .memberRoleChange, .memberRemove, .projectDelete, .keyManage, .secretManage,
    .authuserRead, .authuserManage]

def ownerCapabilities : List Capability := adminCapabilities ++ [.orgDelete, .orgBilling, .memberRoleGrantOwner]

def roleCapabilities : Role → List Capability
  | .member => memberCapabilities
  | .admin => adminCapabilities
  | .owner => ownerCapabilities

def can (role : Role) (capability : Capability) : Bool := capability ∈ roleCapabilities role

def canAssignRole (actor target : Role) : Bool :=
  if !can actor .memberRoleChange then false
  else if target = .owner then can actor .memberRoleGrantOwner
  else true

def rank : Role → Nat
  | .member => 1
  | .admin => 2
  | .owner => 3

def canActOn (actor subject : Role) : Bool := rank subject ≤ rank actor

/-- A change of the role of a member, or a removal. -/
structure Deed where
  org : OrgId
  actor : UserId
  target : UserId
  role : Option Role
deriving DecidableEq

/-- The roles that a route has read. -/
structure Seen where
  org : OrgId
  actor : UserId
  role : Role
  target : Option (UserId × Role)
deriving DecidableEq

/-- A deed that has been committed, with the roles that its route had read and the ones at that moment. -/
structure Committed where
  deed : Deed
  seen : Option Seen
  actor : Option Role
  target : Option Role
deriving DecidableEq

structure Store where
  db : Organizations.Store
  seen : Client → Option Seen
  log : List Committed

inductive Refusal
  | notMember
  | cannot (capability : Capability)
  | cannotGrant
  | noTarget
  | cannotActOn
deriving DecidableEq

inductive Op
  | roleOf (org : OrgId) (user : UserId)
  /-- The members, for the one of them that is looked for. -/
  | members (org : OrgId) (target : UserId)
  /-- A statement of a transaction, and what it is for. -/
  | store (deed : Option Deed) (op : Organizations.Op)
  | refuse (refusal : Refusal)
deriving DecidableEq

@[reducible] def Reply : Op → Type
  | .roleOf .. => Option Role
  | .members .. => List (UserId × Role)
  | .store _ op => Organizations.Reply op
  | .refuse _ => Unit

/-- The last statement of a transaction. -/
def closes : Organizations.Op → Bool
  | .commit | .rollback => true
  | _ => false

def membersOf (c : Client) (s : Store) (org : OrgId) : List (UserId × Role) :=
  ((s.db.members.rows c).filter fun row => row.1.1 = org).map fun row => (row.1.2, row.2)

def find (target : UserId) (members : List (UserId × Role)) : Option (UserId × Role) := members.find? fun m => m.1 = target

def note (c : Client) (s : Store) (deed : Deed) : Committed :=
  ⟨deed, s.seen c, s.db.members.committed (deed.org, deed.actor), s.db.members.committed (deed.org, deed.target)⟩

def exec (c : Client) (chance : Organizations.Chance) : (op : Op) → Store → Option (Reply op × Store)
  | .roleOf org user, s =>
      let role := s.db.members.view c (org, user)
      some (role, { s with seen := Function.update s.seen c (role.map fun role => ⟨org, user, role, none⟩) })
  | .members org target, s =>
      let members := membersOf c s org
      some (members, { s with
        seen := Function.update s.seen c ((s.seen c).map fun seen => { seen with target := find target members }) })
  | .store deed op, s => (Organizations.exec c chance op s.db).map fun (r, db) => (r, {
      db
      seen := if closes op then Function.update s.seen c none else s.seen
      log := if op = .commit then (deed.map (note c s)).toList ++ s.log else s.log })
  | .refuse _, s => some ((), { s with seen := Function.update s.seen c none })

def abort (c : Client) (s : Store) : Store :=
  { s with db := Organizations.abort c s.db, seen := Function.update s.seen c none }

def refuse (refusal : Refusal) : Program Op Reply := .step (.refuse refusal) fun _ => .done

def transaction (deed : Option Deed) : Program Organizations.Op Organizations.Reply → Program Op Reply
  | .done => .done
  | .step op next => .step (.store deed op) fun r => transaction deed (next r)

def requireMembership (org : OrgId) (actor : UserId) (next : Role → Program Op Reply) : Program Op Reply :=
  .step (.roleOf org actor) fun
    | none => refuse .notMember
    | some role => next role

def require (role : Role) (capability : Capability) (next : Program Op Reply) : Program Op Reply :=
  if can role capability then next else refuse (.cannot capability)

/-- The one that is acted on must be there, and not above the actor. -/
def requireTarget (org : OrgId) (role : Role) (target : UserId) (next : Program Op Reply) : Program Op Reply :=
  .step (.members org target) fun members => match find target members with
    | none => refuse .noTarget
    | some (_, subject) => if canActOn role subject then next else refuse .cannotActOn

def setRole (org : OrgId) (actor target : UserId) (new : Role) : Program Op Reply :=
  requireMembership org actor fun role =>
    require role .memberRoleChange <|
      if canAssignRole role new then
        requireTarget org role target <|
          transaction (some ⟨org, actor, target, some new⟩) (Organizations.setRole org target new)
      else refuse .cannotGrant

/-- One who removes himself leaves. -/
def removeMember (org : OrgId) (actor target : UserId) : Program Op Reply :=
  let remove := transaction (some ⟨org, actor, target, none⟩) (Organizations.removeMember org target)
  requireMembership org actor fun role =>
    if target ≠ actor then require role .memberRemove <| requireTarget org role target remove else remove

inductive Request
  | create (slug : Slug) (user : UserId)
  | setRole (org : OrgId) (actor target : UserId) (new : Role)
  | removeMember (org : OrgId) (actor target : UserId)
  | acceptInvite (token : TokenHash) (user : UserId) (userEmail : Address)

def Request.program : Request → Program Op Reply
  | .create slug user => transaction none (Organizations.create slug user)
  | .setRole org actor target new => Memberships.setRole org actor target new
  | .removeMember org actor target => Memberships.removeMember org actor target
  | .acceptInvite token user userEmail => transaction none (Organizations.acceptInvite token user userEmail)

def memberships : Protocol Client Store Op Organizations.Chance Request Reply := ⟨exec, abort, Request.program⟩

end Corebase.Memberships
