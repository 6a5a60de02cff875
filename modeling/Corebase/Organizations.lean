import Corebase.Interleaving
import Corebase.RowLocks

namespace Corebase.Organizations

open Interleaving RowLocks

abbrev Client := Nat
abbrev OrgId := Nat
abbrev UserId := Nat
abbrev InviteId := Nat
abbrev Slug := Nat
abbrev Time := Nat
/-- Two spellings that differ in case are one address. -/
abbrev Address := Nat
abbrev TokenHash := Nat

inductive Role
  | owner | admin | member
deriving DecidableEq

structure Invite where
  organizationId : OrgId
  email : Address
  role : Role
  tokenHash : TokenHash
  expiresAt : Time
  acceptedAt : Option Time
deriving DecidableEq

structure Store where
  organizations : Table Client OrgId Slug
  members : Table Client (OrgId × UserId) Role
  invites : Table Client InviteId Invite

inductive Op
  | insertOrg (slug : Slug)
  | insertOwner (org : OrgId) (user : UserId)
  | lockMember (org : OrgId) (user : UserId)
  /-- The owners in the snapshot of the statement that goes on to lock them one by one. -/
  | owners (org : OrgId)
  | lockOwner (org : OrgId) (user : UserId)
  | updateRole (org : OrgId) (user : UserId) (role : Role)
  | deleteMember (org : OrgId) (user : UserId)
  | lockInvite (token : TokenHash)
  | addMember (org : OrgId) (user : UserId) (role : Role)
  | markAccepted (id : InviteId)
  | commit
  | rollback
deriving DecidableEq

@[reducible] def Reply : Op → Type
  | .insertOrg _ => Option OrgId
  | .lockMember .. => Option Role
  | .owners _ => List UserId
  | .insertOwner .. | .lockOwner .. | .addMember .. => Bool
  | .lockInvite _ => Option (InviteId × Invite)
  | .updateRole .. | .deleteMember .. | .markAccepted _ | .commit | .rollback => Unit

/-- What the store does not decide: the id that is drawn, the invite that an index scan comes to, the
time, and whether the row that a statement is after is one that its snapshot does not have. -/
structure Chance where
  id : OrgId
  invite : InviteId
  now : Time
  missed : Bool

/-- Another client has an organization of the slug that is not yet committed. -/
def pendingSlug (c : Client) (slug : Slug) (s : Store) : Bool :=
  s.organizations.keys.any fun k => match s.organizations.lock k with
    | some (d, some other) => d ≠ c && other = slug
    | _ => false

def Invite.acceptable (i : Invite) (token : TokenHash) (now : Time) : Bool :=
  i.tokenHash = token && i.acceptedAt.isNone && now < i.expiresAt

def exec (c : Client) (chance : Chance) : (op : Op) → Store → Option (Reply op × Store)
  | .insertOrg slug, s =>
      if (s.organizations.committed chance.id).isSome || (s.organizations.lock chance.id).isSome ||
          pendingSlug c slug s then none
      else if (s.organizations.rows c).any fun row => row.2 = slug then some (none, s)
      else some (some chance.id, { s with organizations := s.organizations.write c chance.id (some slug) })
  | .insertOwner org user, s =>
      if s.members.free c (org, user) then
        if (s.members.view c (org, user)).isNone then
          some (true, { s with members := s.members.write c (org, user) (some .owner) })
        else some (false, s)
      else none
  | .lockMember org user, s =>
      if chance.missed then some (none, s)
      else if s.members.free c (org, user) then
        match s.members.view c (org, user) with
        | some role => some (some role, { s with members := s.members.write c (org, user) (some role) })
        | none => some (none, s)
      else none
  | .owners org, s =>
      some (((s.members.rows c).filter fun row => row.1.1 = org && row.2 = .owner).map fun row => row.1.2, s)
  | .lockOwner org user, s =>
      if chance.missed then some (false, s)
      else if s.members.free c (org, user) then
        if s.members.view c (org, user) = some .owner then
          some (true, { s with members := s.members.write c (org, user) (some .owner) })
        else some (false, s)
      else none
  | .updateRole org user role, s =>
      if s.members.free c (org, user) then
        some ((), { s with members := match s.members.view c (org, user) with
          | some _ => s.members.write c (org, user) (some role)
          | none => s.members })
      else none
  | .deleteMember org user, s =>
      if s.members.free c (org, user) then
        some ((), { s with members := match s.members.view c (org, user) with
          | some _ => s.members.write c (org, user) none
          | none => s.members })
      else none
  | .lockInvite token, s =>
      if s.invites.free c chance.invite then
        match s.invites.view c chance.invite with
        | some i => if i.acceptable token chance.now then
              some (some (chance.invite, i), { s with invites := s.invites.write c chance.invite (some i) })
            else some (none, s)
        | none => some (none, s)
      else none
  | .addMember org user role, s =>
      -- a member that is there is left alone, also under the lock of another client that keeps it
      if (s.organizations.view c org).isNone then some (false, s)
      else match s.members.lock (org, user) with
        | some (d, v) =>
            if d = c then
              if v.isNone then some (true, { s with members := s.members.write c (org, user) (some role) })
              else some (true, s)
            else if v.isSome && (s.members.committed (org, user)).isSome then some (true, s) else none
        | none =>
            if (s.members.committed (org, user)).isNone then
              some (true, { s with members := s.members.write c (org, user) (some role) })
            else some (true, s)
  | .markAccepted id, s =>
      if s.invites.free c id then
        some ((), { s with invites := match s.invites.view c id with
          | some i => s.invites.write c id (some { i with acceptedAt := some chance.now })
          | none => s.invites })
      else none
  | .commit, s => some ((), ⟨s.organizations.commit c, s.members.commit c, s.invites.commit c⟩)
  | .rollback, s => some ((), ⟨s.organizations.rollback c, s.members.rollback c, s.invites.rollback c⟩)

def abort (c : Client) (s : Store) : Store :=
  ⟨s.organizations.rollback c, s.members.rollback c, s.invites.rollback c⟩

def committed : Program Op Reply := .step .commit fun _ => .done

def rolledBack : Program Op Reply := .step .rollback fun _ => .done

def create (slug : Slug) (user : UserId) : Program Op Reply :=
  .step (.insertOrg slug) fun
    | none => rolledBack
    | some org => .step (.insertOwner org user) fun ok => if ok then committed else rolledBack

/-- The owners of the snapshot, each locked and looked at again, and how many of them still are. -/
def lockOwners (org : OrgId) (next : Nat → Program Op Reply) : List UserId → Nat → Program Op Reply
  | [], count => next count
  | user :: users, count => .step (.lockOwner org user) fun locked =>
      lockOwners org next users (if locked then count + 1 else count)

def assertNotLastOwner (org : OrgId) (next : Program Op Reply) : Program Op Reply :=
  .step (.owners org) fun users => lockOwners org (fun count => if count ≤ 1 then rolledBack else next) users 0

def setRole (org : OrgId) (user : UserId) (role : Role) : Program Op Reply :=
  .step (.lockMember org user) fun
    | none => rolledBack
    | some previous =>
        let change := .step (.updateRole org user role) fun _ => committed
        if previous = .owner ∧ role ≠ .owner then assertNotLastOwner org change else change

/-- The same for a member that leaves. -/
def removeMember (org : OrgId) (user : UserId) : Program Op Reply :=
  .step (.lockMember org user) fun
    | none => rolledBack
    | some role =>
        let remove := .step (.deleteMember org user) fun _ => committed
        if role = .owner then assertNotLastOwner org remove else remove

def acceptInvite (token : TokenHash) (user : UserId) (userEmail : Address) : Program Op Reply :=
  .step (.lockInvite token) fun
    | none => rolledBack
    | some (id, invite) =>
        if invite.email ≠ userEmail then rolledBack
        else .step (.addMember invite.organizationId user invite.role) fun ok =>
          if ok then .step (.markAccepted id) fun _ => committed else rolledBack

inductive Request
  | create (slug : Slug) (user : UserId)
  | setRole (org : OrgId) (user : UserId) (role : Role)
  | removeMember (org : OrgId) (user : UserId)
  | acceptInvite (token : TokenHash) (user : UserId) (userEmail : Address)

def Request.program : Request → Program Op Reply
  | .create slug user => Organizations.create slug user
  | .setRole org user role => Organizations.setRole org user role
  | .removeMember org user => Organizations.removeMember org user
  | .acceptInvite token user userEmail => Organizations.acceptInvite token user userEmail

def members : Protocol Client Store Op Chance Request Reply := ⟨exec, abort, Request.program⟩

/-- Every organization has an owner. -/
def Owned (s : Store) : Prop :=
  ∀ org, s.organizations.committed org ≠ none → ∃ user, s.members.committed (org, user) = some .owner

/-- A store between all transactions. -/
def Store.still (s : Store) : Prop :=
  (∀ k, s.organizations.lock k = none) ∧ (∀ k, s.members.lock k = none) ∧ ∀ k, s.invites.lock k = none

end Corebase.Organizations
