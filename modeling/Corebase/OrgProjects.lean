import Corebase.Organizations
import Corebase.ProvisioningJobs

namespace Corebase.OrgProjects

open Interleaving RowLocks
open Organizations (OrgId UserId InviteId Slug Role Invite)
open ProvisioningJobs (ProjectStatus)

abbrev Client := Nat
abbrev ProjectId := Nat

structure Project where
  organization : OrgId
  status : ProjectStatus
deriving DecidableEq

inductive Outcome
  | removed
  /-- `OrgNotEmptyError`, with the number of projects. -/
  | notEmpty (n : Nat)
  /-- The error of a foreign key. -/
  | restricted
deriving DecidableEq

structure Rows where
  organizations : OrgId → Option Slug
  members : OrgId × UserId → Option Role
  invites : InviteId → Option Invite
  projects : ProjectId → Option Project

/-- A removal that has come to its end, with the statuses of the projects that it has counted, and the rows before and
after its last statement. -/
structure Removal where
  org : OrgId
  counted : List ProjectStatus
  outcome : Outcome
  before : Rows
  after : Rows

structure Store where
  organizations : Table Client OrgId Slug
  members : Table Client (OrgId × UserId) Role
  invites : Table Client InviteId Invite
  projects : Table Client ProjectId Project
  /-- Those who hold an organization for a row that refers to it. -/
  shares : OrgId → List Client
  counted : Client → List ProjectStatus
  log : List Removal

def Store.rows (s : Store) : Rows :=
  ⟨s.organizations.committed, s.members.committed, s.invites.committed, s.projects.committed⟩

inductive Op
  | lockOrg (org : OrgId)
  | countLive (org : OrgId)
  | deleteOrg (org : OrgId)
  | insertProject (org : OrgId) (status : ProjectStatus)
  | lockProject (p : ProjectId)
  | updateStatus (p : ProjectId) (froms : List ProjectStatus) (status : ProjectStatus)
  | commit (removal : Option OrgId)
  | rollback (removal : Option (OrgId × Outcome))
deriving DecidableEq

@[reducible] def Reply : Op → Type
  | .lockOrg _ | .deleteOrg _ | .insertProject .. => Bool
  | .countLive _ => Nat
  | .lockProject _ => Option Project
  | .updateStatus .. | .commit _ | .rollback _ => Unit

/-- The id that a project is given. -/
abbrev Chance := ProjectId

def statuses (c : Client) (s : Store) (org : OrgId) : List ProjectStatus :=
  ((s.projects.rows c).filter fun row => row.2.organization = org).map fun row => row.2.status

def live (statuses : List ProjectStatus) : Nat := (statuses.filter (· ≠ .deleted)).length

def ofMember (org : OrgId) (k : OrgId × UserId) (_ : Role) : Bool := k.1 = org

def ofInvite (org : OrgId) (_ : InviteId) (invite : Invite) : Bool := invite.organizationId = org

/-- Nobody else holds a row of the kind. -/
def clearable {Key Row : Type} (t : Table Client Key Row) (c : Client) (p : Key → Row → Bool) : Bool :=
  t.keys.all fun k => !(t.view c k).any (p k) || t.free c k

def exec (c : Client) (chance : Chance) : (op : Op) → Store → Option (Reply op × Store)
  | .lockOrg org, s =>
      if s.organizations.free c org && (s.shares org).all (· = c) then
        match s.organizations.view c org with
        | some slug => some (true, { s with organizations := s.organizations.write c org (some slug) })
        | none => some (false, s)
      else none
  | .countLive org, s =>
      some (live (statuses c s org), { s with counted := Function.update s.counted c (statuses c s org) })
  | .deleteOrg org, s =>
      match s.organizations.view c org with
      | none => some (true, s)
      | some _ =>
          if s.organizations.free c org && clearable s.members c (ofMember org) && clearable s.invites c (ofInvite org) then
            -- ON DELETE RESTRICT, whatever the status
            if statuses c s org ≠ [] then some (false, s)
            else some (true, { s with
              organizations := s.organizations.write c org none
              members := s.members.clear c (ofMember org)
              invites := s.invites.clear c (ofInvite org) })
          else none
  | .insertProject org status, s =>
      if (s.projects.committed chance).isSome || (s.projects.lock chance).isSome then none
      -- the foreign key takes a share of the organization, for which it waits
      else if s.organizations.free c org then
        match s.organizations.view c org with
        | none => some (false, s)
        | some _ => some (true, { s with
            projects := s.projects.write c chance (some ⟨org, status⟩)
            shares := Function.update s.shares org (c :: s.shares org) })
      else none
  | .lockProject p, s =>
      if s.projects.free c p then
        match s.projects.view c p with
        | some row => some (some row, { s with projects := s.projects.write c p (some row) })
        | none => some (none, s)
      else none
  | .updateStatus p froms status, s =>
      if s.projects.free c p then
        some ((), { s with projects := match s.projects.view c p with
          | some row => if row.status ∈ froms then s.projects.write c p (some { row with status := status }) else s.projects
          | none => s.projects })
      else none
  | .commit removal, s =>
      let s' := { s with
        organizations := s.organizations.commit c
        members := s.members.commit c
        invites := s.invites.commit c
        projects := s.projects.commit c
        shares := fun org => (s.shares org).filter (· ≠ c) }
      some ((), { s' with
        log := (removal.map fun org => ⟨org, s.counted c, .removed, s.rows, s'.rows⟩).toList ++ s.log })
  | .rollback removal, s =>
      let s' := { s with
        organizations := s.organizations.rollback c
        members := s.members.rollback c
        invites := s.invites.rollback c
        projects := s.projects.rollback c
        shares := fun org => (s.shares org).filter (· ≠ c) }
      some ((), { s' with
        log := (removal.map fun (org, outcome) => ⟨org, s.counted c, outcome, s.rows, s'.rows⟩).toList ++ s.log })

def abort (c : Client) (s : Store) : Store :=
  { s with
    organizations := s.organizations.rollback c
    members := s.members.rollback c
    invites := s.invites.rollback c
    projects := s.projects.rollback c
    shares := fun org => (s.shares org).filter (· ≠ c) }

def committed (removal : Option OrgId) : Program Op Reply := .step (.commit removal) fun _ => .done

def rolledBack (removal : Option (OrgId × Outcome)) : Program Op Reply := .step (.rollback removal) fun _ => .done

def remove (org : OrgId) : Program Op Reply :=
  .step (.lockOrg org) fun _ => .step (.countLive org) fun n =>
    if 0 < n then rolledBack (some (org, .notEmpty n))
    else .step (.deleteOrg org) fun deleted =>
      if deleted then committed (some org) else rolledBack (some (org, .restricted))

def insertProject (org : OrgId) (status : ProjectStatus) : Program Op Reply :=
  .step (.insertProject org status) fun inserted => if inserted then committed none else rolledBack none

def createProject (org : OrgId) : Program Op Reply := insertProject org .creating

/-- The limit on the projects of an organization, where there is one. -/
def requestRestore (source : ProjectId) (limit : Option Nat) : Program Op Reply :=
  .step (.lockProject source) fun
    | none => rolledBack none
    | some row =>
        if row.status ∉ [.ready, .paused, .restored] then rolledBack none
        else match limit with
          | none => insertProject row.organization .restoring
          | some limit => .step (.countLive row.organization) fun n =>
              if limit ≤ n then rolledBack none else insertProject row.organization .restoring

/-- Each of the statements that move a project from one status to another: of its build, a pause or a resume, its
deletion, its purge and the repairs. -/
def setStatus (p : ProjectId) (froms : List ProjectStatus) (status : ProjectStatus) : Program Op Reply :=
  .step (.updateStatus p froms status) fun _ => committed none

inductive Request
  | remove (org : OrgId)
  | createProject (org : OrgId)
  | requestRestore (source : ProjectId) (limit : Option Nat)
  | setStatus (p : ProjectId) (froms : List ProjectStatus) (status : ProjectStatus)

def Request.program : Request → Program Op Reply
  | .remove org => OrgProjects.remove org
  | .createProject org => OrgProjects.createProject org
  | .requestRestore source limit => OrgProjects.requestRestore source limit
  | .setStatus p froms status => OrgProjects.setStatus p froms status

def organizations : Protocol Client Store Op Chance Request Reply := ⟨exec, abort, Request.program⟩

/-- Every project, member and invite is of an organization that is there. -/
structure Referring (rows : Rows) : Prop where
  members : ∀ k role, rows.members k = some role → rows.organizations k.1 ≠ none
  invites : ∀ i invite, rows.invites i = some invite → rows.organizations invite.organizationId ≠ none
  projects : ∀ p row, rows.projects p = some row → rows.organizations row.organization ≠ none

/-- A store between all transactions. -/
structure Store.Still (s : Store) : Prop where
  organizations : ∀ k, s.organizations.lock k = none
  members : ∀ k, s.members.lock k = none
  invites : ∀ k, s.invites.lock k = none
  projects : ∀ k, s.projects.lock k = none
  shares : ∀ k, s.shares k = []

end Corebase.OrgProjects
