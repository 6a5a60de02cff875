import Corebase.Interleaving
import Corebase.Organizations
import Corebase.ProvisioningJobs

namespace Corebase.ProjectCreation

open Interleaving ProvisioningJobs
open JsText (Text)
open Organizations (Role OrgId UserId)

abbrev Client := Nat
/-- A uuid as text. -/
abbrev ProjectId := Text

structure Project where
  id : ProjectId
  org : OrgId
  name : Text
  region : Text
  plan : Text
  status : ProjectStatus
deriving DecidableEq

structure Job where
  key : Text
  kind : JobType
  project : ProjectId
deriving DecidableEq

structure Membership where
  user : UserId
  org : OrgId
  role : Role
deriving DecidableEq

inductive Code
  | validationFailed | unauthorized | projectNotFound | projectNameTaken | idempotencyKeyRequired | internal
deriving DecidableEq

structure ApiError where
  status : Nat
  code : Code
  message : String
deriving DecidableEq

inductive Response
  | ok (status : Nat) (project : ProjectId)
  | refused (e : ApiError)
deriving DecidableEq

def Response.project : Response → Option ProjectId
  | .ok _ p => some p
  | .refused _ => none

/-- A create request that has been taken up. -/
structure Created where
  org : OrgId
  key : Text
  project : ProjectId
deriving DecidableEq

/-- An answer to a create request, with the organizations to which the caller has belonged since it came and
the creates that had been taken up before. -/
structure Answer where
  client : Client
  key : Option Text
  response : Response
  belonged : List OrgId
  created : List Created
deriving DecidableEq

structure Store where
  projects : List Project
  jobs : List Job
  members : List Membership
  /-- The projects that a transaction has locked. -/
  locks : List (ProjectId × Client)
  callers : Client → Option UserId
  belonged : Client → List OrgId
  /-- The keys that requests in flight have looked up and not found. -/
  missed : List (Client × Text)
  created : List Created
  answers : List Answer

inductive Op
  | requireAuth (caller : Option UserId)
  | findByIdempotencyKey (key : Text)
  | listForUser (user : UserId)
  | roleOf (user : UserId) (org : OrgId)
  | countProjectsInOrg (org : OrgId)
  | findByName (name : Text) (org : OrgId)
  | uuid
  /-- The project and its job are inserted in one transaction. -/
  | createProject (id : ProjectId) (key : Text) (org : OrgId) (name region plan : Text)
  /-- SELECT … FOR UPDATE of a project that is not deleted. -/
  | lockProject (p : ProjectId)
  /-- A restored copy and its job are inserted, and the transaction ends. -/
  | restoreProject (id : ProjectId) (org : OrgId) (name region plan : Text)
  | rollback
  /-- Another program inserts a job. -/
  | insertJob (key : Text) (kind : JobType) (p : ProjectId)
  | setStatus (p : ProjectId) (status : ProjectStatus)
  | setMember (user : UserId) (org : OrgId) (role : Option Role)
  | respond (key : Option Text) (r : Response)
deriving DecidableEq

@[reducible] def Reply : Op → Type
  | .findByIdempotencyKey _ => Option ProjectId
  | .listForUser _ => List OrgId
  | .roleOf .. => Option Role
  | .countProjectsInOrg _ => Nat
  | .findByName .. | .createProject .. | .restoreProject .. | .insertJob .. => Bool
  | .uuid => ProjectId
  | .lockProject _ => Option Project
  | .requireAuth _ | .rollback | .setStatus .. | .setMember .. | .respond .. => Unit

namespace Store

variable (s : Store)

def orgsOf (user : UserId) : List OrgId := (s.members.filter fun m => m.user = user).map Membership.org

def roleOf (user : UserId) (org : OrgId) : Option Role :=
  (s.members.find? fun m => m.user = user && m.org = org).map Membership.role

def live (org : OrgId) : List Project := s.projects.filter fun p => p.org = org && p.status ≠ .deleted

def named (name : Text) (org : OrgId) : Bool := (s.live org).any fun p => p.name = name

def job (key : Text) : Option Job := s.jobs.find? fun j => j.key = key

/-- The project that the lookup of a key joins to its job. -/
def projectOf (key : Text) : Option ProjectId :=
  (s.job key).bind fun j => if s.projects.any fun p => p.id = j.project then some j.project else none

def addProject (p : Project) (job : Job) : Store := { s with projects := p :: s.projects, jobs := job :: s.jobs }

def unlock (c : Client) : Store := { s with locks := s.locks.filter fun lock => lock.2 ≠ c }

end Store

/-- The uuid or the key is there. -/
def Store.conflicts (s : Store) (id : ProjectId) (key : Text) : Bool :=
  (s.projects.any fun p => p.id = id) || (s.job key).isSome

def restoreKey (id : ProjectId) : Text := "restore_".toList ++ id

def exec (c : Client) (uuid : ProjectId) : (op : Op) → Store → Option (Reply op × Store)
  | .requireAuth caller, s =>
      some ((), { s with
        callers := Function.update s.callers c caller
        belonged := Function.update s.belonged c ((caller.map s.orgsOf).getD []) })
  | .findByIdempotencyKey key, s => match s.projectOf key with
      | some p => some (some p, s)
      | none => some (none, { s with missed := (c, key) :: s.missed })
  | .listForUser user, s => some (s.orgsOf user, s)
  | .roleOf user org, s => some (s.roleOf user org, s)
  | .countProjectsInOrg org, s => some ((s.live org).length, s)
  | .findByName name org, s => some (s.named name org, s)
  | .uuid, s => some (uuid, s)
  | .createProject id key org name region plan, s =>
      if s.conflicts id key then some (false, s)
      else some (true, { s.addProject ⟨id, org, name, region, plan, .creating⟩ ⟨key, .provisionProject, id⟩ with
        created := ⟨org, key, id⟩ :: s.created })
  | .lockProject p, s =>
      if s.locks.any fun lock => lock.1 = p && lock.2 ≠ c then none
      else match s.projects.find? fun project => project.id = p && project.status ≠ .deleted with
        | none => some (none, s)
        | some project => some (some project, { s with locks := (p, c) :: s.locks })
  | .restoreProject id org name region plan, s =>
      if s.conflicts id (restoreKey id) then some (false, s.unlock c)
      else some (true, (s.addProject ⟨id, org, name, region, plan, .restoring⟩ ⟨restoreKey id, .restoreProject, id⟩).unlock c)
  | .rollback, s => some ((), s.unlock c)
  | .insertJob key kind p, s =>
      if (s.job key).isSome || !(s.projects.any fun project => project.id = p) then some (false, s)
      else some (true, { s with jobs := ⟨key, kind, p⟩ :: s.jobs })
  | .setStatus p status, s =>
      if s.locks.any fun lock => lock.1 = p && lock.2 ≠ c then none
      else some ((), { s with
        projects := s.projects.map fun project => if project.id = p then { project with status := status } else project })
  | .setMember user org role, s =>
      let others := s.members.filter fun m => m.user ≠ user || m.org ≠ org
      match role with
      | none => some ((), { s with members := others })
      | some role => some ((), { s with
          members := ⟨user, org, role⟩ :: others
          belonged := fun d => if s.callers d = some user then org :: s.belonged d else s.belonged d })
  | .respond key r, s =>
      some ((), { s with
        missed := s.missed.filter fun m => m.1 ≠ c
        answers := ⟨c, key, r, s.belonged c, s.created⟩ :: s.answers })

/-- The transaction of a request that dies is rolled back. -/
def abort (c : Client) (s : Store) : Store := { s.unlock c with missed := s.missed.filter fun m => m.1 ≠ c }

def respond (key : Option Text) (r : Response) : Program Op Reply := .step (.respond key r) fun _ => .done

def refuse (key : Option Text) (status : Nat) (code : Code) (message : String) : Program Op Reply :=
  respond key (.refused ⟨status, code, message⟩)

def deliveryChar (c : Char) : Bool := JsText.isLetter c || JsText.isDigit c || c ∈ ['_', '.', '=', '#', '@', '-']

/-- DELIVERY_ID_PATTERN -/
def deliveryId (key : Text) : Bool := key.all deliveryChar && 8 ≤ key.length && key.length ≤ 255

/-- The capability project.create. -/
def mayCreate : Role → Bool
  | .owner | .admin | .member => true

def roleText : Role → String
  | .owner => "owner"
  | .admin => "admin"
  | .member => "member"

structure NewProject where
  name : Text
  region : Text
  plan : Text

structure Create where
  /-- The static token is no user. -/
  caller : Option UserId
  key : Option Text
  /-- The body, or what the schema has against it. -/
  body : Except (List Text) NewProject
  /-- The organization that the body names, or what is wrong with its id. -/
  org : Option (Except String OrgId)

def memberOf (key : Text) (user : UserId) (org : OrgId) (next : OrgId → Role → Program Op Reply) : Program Op Reply :=
  .step (.roleOf user org) fun
    | none => refuse key 404 .projectNotFound "No such organization, or you are not a member of it."
    | some role => next org role

/-- The organization that the request acts in, and the caller's role in it. -/
def scope (key : Text) (q : Create) (next : OrgId → Role → Program Op Reply) : Program Op Reply :=
  match q.caller, q.org with
  | none, _ =>
      refuse key 403 .unauthorized "This endpoint acts within an organization and the static token is not a user."
  | some _, some (.error message) => refuse key 400 .validationFailed message
  | some user, some (.ok org) => memberOf key user org next
  | some user, none => .step (.listForUser user) fun
      | [] =>
          refuse key 403 .unauthorized "You do not belong to an organization yet. Create one with POST /v1/orgs."
      | [org] => memberOf key user org next
      | _ => refuse key 400 .validationFailed "You belong to more than one organization; name it with org_id."

/-- The rest of a create request whose body is well formed and whose caller may create a project. -/
def place (limit : Nat) (key : Text) (body : NewProject) (org : OrgId) : Program Op Reply :=
  .step (.countProjectsInOrg org) fun live =>
    if limit ≤ live then
      refuse key 409 .validationFailed (s!"This organization already has {live} projects, which is the limit of " ++
        s!"{limit}. Delete and purge one to make room, or contact support to raise the limit.")
    else .step (.findByName body.name org) fun taken =>
      if taken then
        refuse key 409 .projectNameTaken
          ("A project named \"" ++ String.ofList body.name ++ "\" already exists in this organization.")
      else .step .uuid fun id => .step (.createProject id key org body.name body.region body.plan) fun created =>
        if created then respond key (.ok 202 id)
        else refuse key 500 .internal "Something went wrong on our side. Quote the request id if you contact support."

def keyRequired : String :=
  "Provide an Idempotency-Key header (min 8 chars) so retries cannot create duplicate projects."

/-- POST /v1/projects -/
def createProject (limit : Nat) (q : Create) : Program Op Reply :=
  .step (.requireAuth q.caller) fun _ => match q.key with
    | none => refuse none 400 .idempotencyKeyRequired keyRequired
    | some key =>
        if JsText.length key < 8 then refuse none 400 .idempotencyKeyRequired keyRequired
        else if !deliveryId key then
          refuse none 400 .idempotencyKeyRequired ("Idempotency-Key must be 8-255 characters of [A-Za-z0-9_.=#@-] — " ++
            "it is used as the job delivery id, which cannot contain \":\".")
        else .step (.findByIdempotencyKey key) fun
          | some p => respond key (.ok 200 p)
          | none => match q.body with
              | .error issues => refuse key 400 .validationFailed (String.ofList (JsText.join "; ".toList issues))
              | .ok body => scope key q fun org role =>
                  if !mayCreate role then
                    refuse key 403 .unauthorized ("A " ++ roleText role ++ " cannot do this (project.create).")
                  else place limit key body org

/-- The name of a copy says what it is and of when. -/
def restoreName (source : Text) (target : Option Text) : Text :=
  source ++ " — restore ".toList ++ target.getD "latest".toList

/-- The transaction of a restore into a new project. -/
def requestRestore (limit : Nat) (source : ProjectId) (target : Option Text) : Program Op Reply :=
  .step (.lockProject source) fun
    | none => .step .rollback fun _ => .done
    | some project =>
        if project.status ∉ [ProjectStatus.ready, .paused, .restored] then .step .rollback fun _ => .done
        else .step (.countProjectsInOrg project.org) fun live =>
          if limit ≤ live then .step .rollback fun _ => .done
          else .step .uuid fun id =>
            .step (.restoreProject id project.org (restoreName project.name target) project.region project.plan) fun _ => .done

inductive Request
  | create (q : Create)
  | restore (source : ProjectId) (target : Option Text)
  | schedule (key : Text) (kind : JobType) (p : ProjectId)
  | setStatus (p : ProjectId) (status : ProjectStatus)
  | setMember (user : UserId) (org : OrgId) (role : Option Role)

def Request.program (limit : Nat) : Request → Program Op Reply
  | .create q => createProject limit q
  | .restore source target => requestRestore limit source target
  | .schedule key kind p => .step (.insertJob key kind p) fun _ => .done
  | .setStatus p status => .step (.setStatus p status) fun _ => .done
  | .setMember user org role => .step (.setMember user org role) fun _ => .done

def creation (limit : Nat) : Protocol Client Store Op ProjectId Request Reply := ⟨exec, abort, Request.program limit⟩

end Corebase.ProjectCreation
