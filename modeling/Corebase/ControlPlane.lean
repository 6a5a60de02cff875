import Corebase.JobRunner
import Corebase.Keyset
import Corebase.ProvisioningJobs
import Mathlib.Data.List.Nodup
import Mathlib.Algebra.Ring.Int.Defs

namespace Corebase.ControlPlane

open JsText (Text)
open JobRunner (JobState)
open ProvisioningJobs (JobType ProjectStatus)

/-- A generated id with its created_at, as the number of rows that were created before. -/
abbrev Number := Nat

/-- An organization; `home` is the one that a store defaults to. -/
inductive Org
  | home | other (id : Nat)
deriving DecidableEq

/-- The text of an organization's id. -/
inductive OrgText
  | id (org : Org) | blank | malformed
deriving DecidableEq

inductive Key
  | text (text : Text)
  | delete (project : Number)
  | numbered (kind : JobType) (project : Number) (n : Nat)
deriving DecidableEq

structure Project where
  number : Number
  ref : Text
  name : Text
  region : Text
  plan : Text
  organization : Org
  environment : Text
  status : ProjectStatus
deriving DecidableEq

inductive RowState
  | queued | running | done | failed
deriving DecidableEq

structure JobRow where
  number : Number
  kind : JobType
  project : Number
  key : Key
  state : RowState
deriving DecidableEq

structure Creation where
  ref : Text
  name : Text
  region : Text
  plan : Text
  key : Key
  organization : Option OrgText
deriving DecidableEq

/-- The place after which a page starts: the projects whose created_at and id sort before it, as texts and as values of the
columns. No values stand for texts that are no timestamp or no id. -/
structure Cursor where
  texts : Number → Bool
  values : Option (Number → Bool)

inductive Lifecycle
  | pause | resume
deriving DecidableEq

inductive Call
  | createProject (c : Creation)
  | findByIdempotencyKey (key : Key)
  | getProject (ref : Text)
  | getProjectDetail (ref : Text)
  | listProjects
  | listProjectsPage (limit : Int) (cursor : Option Cursor) (organization : Option OrgText)
  | requestDelete (ref : Text)
  | markStatus (ref : Text) (status : ProjectStatus)
  | findByName (name : Text) (organization : Option OrgText)
  | jobs
  | requestLifecycle (ref : Text) (kind : Lifecycle)
  | requestRotation (ref : Text)
  | requestRetry (ref : Text)
  | countProjectsInOrg (organization : OrgText)

inductive Answer
  | created (project : Project) (job : Option JobRow) (replayed : Bool)
  | found (project : Option Project)
  | listed (projects : List Project)
  | requested (outcome : Option (Project × JobRow × Bool))
  | conflict (status : ProjectStatus) (project : Project)
  | refused (reason : Text)
  | retried (project : Project) (job : JobRow) (retryCount : Nat)
  | jobs (rows : List JobRow)
  | count (n : Nat)
  /-- The store has no such method. -/
  | unsupported
  /-- The promise is rejected. -/
  | thrown
deriving DecidableEq

def production : Text := "production".toList

/-- The two stores' test of an optional organization, when it can be made. -/
def admits : Option OrgText → Org → Bool
  | none, _ | some .blank, _ => true
  | some (.id org), o => o = org
  | some .malformed, _ => false

section Memory

structure Memory where
  /-- In the order of the map, each under its ref. -/
  projects : List Project
  jobs : List JobRow
  byIdempotency : Key → Option Text
  next : Number

namespace Memory

def empty : Memory := ⟨[], [], fun _ => none, 0⟩

variable (m : Memory)

def get (ref : Text) : Option Project := m.projects.find? (·.ref = ref)

/-- A key that the map has keeps its place. -/
def set (p : Project) : List Project :=
  if m.projects.any (·.ref = p.ref) then m.projects.map fun q => if q.ref = p.ref then p else q
  else m.projects ++ [p]

/-- An empty ref is not truthy. -/
def seen (key : Key) : Option Text := (m.byIdempotency key).filter (· ≠ [])

def createProject (c : Creation) : Answer × Memory :=
  match m.seen c.key with
  | some ref => match m.get ref with
      | some project => (.created project (m.jobs.find? (·.project = project.number)) true, m)
      | none => (.thrown, m)
  | none =>
      let project : Project := ⟨m.next, c.ref, c.name, c.region, c.plan, .home, production, .creating⟩
      let job : JobRow := ⟨m.jobs.length, .provisionProject, m.next, c.key, .queued⟩
      (.created project (some job) false,
        { projects := m.set project
          jobs := m.jobs ++ [job]
          byIdempotency := Function.update m.byIdempotency c.key (some c.ref)
          next := m.next + 1 })

def findByIdempotencyKey (key : Key) : Option Project := (m.seen key).bind m.get

/-- As slice cuts: an end below zero counts from the back. -/
def slice (projects : List Project) (stop : Int) : List Project :=
  if 0 ≤ stop then projects.take stop.toNat else projects.take (projects.length - stop.natAbs)

def sorted (organization : Option OrgText) : List Project := Keyset.sorted Project.number
  ((m.projects.filter (·.status ≠ .deleted)).filter fun p => admits organization p.organization)

def listProjectsPage (limit : Int) (cursor : Option Cursor) (organization : Option OrgText) : List Project :=
  let after := match cursor with
    | some cursor => (m.sorted organization).filter fun p => cursor.texts p.number
    | none => m.sorted organization
  slice after (limit + 1)

def requestDelete (ref : Text) : Answer × Memory :=
  match m.get ref with
  | none => (.requested none, m)
  | some project => match m.jobs.find? (·.key = .delete project.number) with
      | some existing => (.requested (some (project, existing, true)), m)
      | none =>
          let next := { project with status := .deleting }
          let job : JobRow := ⟨m.jobs.length, .deleteProject, project.number, .delete project.number, .queued⟩
          (.requested (some (next, job, false)), { m with projects := m.set next, jobs := m.jobs ++ [job] })

def markStatus (ref : Text) (status : ProjectStatus) : Answer × Memory :=
  match m.get ref with
  | none => (.found none, m)
  | some p => (.found (some { p with status := status }), { m with projects := m.set { p with status := status } })

def findByName (name : Text) (organization : Option OrgText) : Option Project :=
  m.projects.find? fun p => p.name = name && admits organization p.organization

def serve : Call → Answer × Memory
  | .createProject c => m.createProject c
  | .findByIdempotencyKey key => (.found (m.findByIdempotencyKey key), m)
  | .getProject ref | .getProjectDetail ref => (.found (m.get ref), m)
  | .listProjects => (.listed m.projects, m)
  | .listProjectsPage limit cursor organization => (.listed (m.listProjectsPage limit cursor organization), m)
  | .requestDelete ref => m.requestDelete ref
  | .markStatus ref status => m.markStatus ref status
  | .findByName name organization => (.found (m.findByName name organization), m)
  | .jobs => (.jobs m.jobs, m)
  | .requestLifecycle .. | .requestRotation _ | .requestRetry _ | .countProjectsInOrg _ => (.unsupported, m)

end Memory

end Memory

section Postgres

/-- What the database brings: how citext folds a text, which texts fit into an index entry, and which organizations there are
besides the one that the store defaults to. -/
structure Database where
  lower : Text → Text
  indexes : Text → Bool
  organizations : List Nat

structure Job where
  number : Number
  kind : JobType
  project : Number
  key : Key
  state : JobState
deriving DecidableEq

def jobFromDb (job : Job) : JobRow where
  number := job.number
  kind := job.kind
  project := job.project
  key := job.key
  state := match job.state with
    | .pending | .enqueued => .queued
    | .running => .running
    | .succeeded => .done
    | .failed | .deadLetter => .failed

/-- Rows in the order of their creation. No operation here sets deleted_at, so it is null in every project. -/
structure Store where
  projects : List Project
  jobs : List Job
  /-- The audit rows of retries. -/
  retries : List Number
  next : Number

/-- A parameter of the protocol has no NUL. -/
def storable (text : Text) : Bool := '\x00' ∉ text

def Key.storable : Key → Bool
  | .text key => ControlPlane.storable key
  | _ => true

def Key.indexes (d : Database) : Key → Bool
  | .text key => d.indexes key
  | _ => true

/-- The ids that a cast to uuid takes. -/
def OrgText.casts : OrgText → Bool
  | .id _ => true
  | .blank | .malformed => false

def castable (organization : Option OrgText) : Bool := organization.all OrgText.casts

/-- The pattern ^[a-z][a-z0-9]{15,19}$, as citext matches it: in either case. -/
def validRef (ref : Text) : Bool :=
  16 ≤ ref.length && ref.length ≤ 20 && ref.head?.any JsText.isLetter && ref.all fun c => JsText.isLetter c || JsText.isDigit c

def plans : List Text := ["free", "pro", "team", "enterprise"].map String.toList

/-- The constraint on status and deleted_at, for a row without deleted_at. -/
def statusHolds (status : ProjectStatus) : Bool := status ∉ [.softDeleted, .deleted]

namespace Store

def empty : Store := ⟨[], [], [], 0⟩

variable (d : Database) (s : Store)

def visible : List Project := s.projects.filter (·.status ≠ .deleted)

/-- The row of a ref. -/
def get (ref : Text) : Option Project := s.visible.find? fun p => d.lower p.ref = d.lower ref

def update (number : Number) (f : Project → Project) : List Project :=
  s.projects.map fun p => if p.number = number then f p else p

def organizationOf (organization : Option OrgText) : Option Org :=
  match organization with
  | none => some .home
  | some (.id .home) => some .home
  | some (.id (.other id)) => if id ∈ d.organizations then some (.other id) else none
  | some .blank | some .malformed => none

/-- The casts, the constraints and the unique indexes let the two rows of a creation in. -/
def takes (c : Creation) : Bool :=
  storable c.name && storable c.region && c.plan ∈ plans && validRef c.ref &&
    s.projects.all (fun p => d.lower p.ref ≠ d.lower c.ref) &&
    c.key.storable && c.key.indexes d && s.jobs.all (·.key ≠ c.key)

def createProject (c : Creation) : Answer × Store :=
  match organizationOf d c.organization with
  | none => (.thrown, s)
  | some organization =>
      if s.takes d c then
        let project : Project := ⟨s.next, c.ref, c.name, c.region, c.plan, organization, production, .creating⟩
        let job : Job := ⟨s.jobs.length, .provisionProject, s.next, c.key, .pending⟩
        (.created project (some (jobFromDb job)) false,
          { s with projects := s.projects ++ [project], jobs := s.jobs ++ [job], next := s.next + 1 })
      else (.thrown, s)

def findByIdempotencyKey (key : Key) : Option Project :=
  (s.jobs.find? (·.key = key)).bind fun job => s.projects.find? (·.number = job.project)

def listProjectsPage (limit : Int) (cursor : Option Cursor) (organization : Option OrgText) : Answer :=
  if castable organization && 0 ≤ limit + 1 && limit + 1 < 2 ^ 63 then
    match cursor with
    | none => .listed ((Keyset.sorted Project.number
        (s.visible.filter fun p => admits organization p.organization)).take (limit + 1).toNat)
    | some cursor => match cursor.values with
        | none => .thrown
        | some values => .listed ((Keyset.sorted Project.number
            (s.visible.filter fun p => admits organization p.organization && values p.number)).take (limit + 1).toNat)
  else .thrown

def requestDelete (ref : Text) : Answer × Store :=
  match s.get d ref with
  | none => (.requested none, s)
  | some project => match s.jobs.find? (·.key = .delete project.number) with
      | some existing => (.requested (some (project, jobFromDb existing, true)), s)
      | none =>
          let job : Job := ⟨s.jobs.length, .deleteProject, project.number, .delete project.number, .pending⟩
          (.requested (some ({ project with status := .deleting }, jobFromDb job, false)),
            { s with projects := s.update project.number ({ · with status := .deleting }), jobs := s.jobs ++ [job] })

def markStatus (ref : Text) (status : ProjectStatus) : Answer × Store :=
  match s.get d ref with
  | none => (.found none, s)
  | some p =>
      if statusHolds status then
        (.found (some { p with status := status }), { s with projects := s.update p.number ({ · with status := status }) })
      else (.thrown, s)

/-- The statement has no order: any row that matches may come first. -/
def findByName (name : Text) (organization : Option OrgText) : List (Option Project) :=
  match s.visible.filter fun p => p.name = name && admits organization p.organization with
  | [] => [none]
  | rows => rows.map some

/-- The latest job of the project that the condition selects. -/
def latest (number : Number) (p : Job → Bool) : Option Job := (s.jobs.filter fun job => job.project = number && p job).getLast?

def unfinished (job : Job) : Bool := job.state ∈ [.pending, .enqueued, .running]

def countJobs (number : Number) (kind : JobType) : Nat := s.jobs.countP fun job => job.project = number && job.kind = kind

/-- The job under its number, with the project in the status. A key that another job has is refused. -/
def request (project : Project) (kind : JobType) (status : ProjectStatus) : Answer × Store :=
  let job : Job := ⟨s.jobs.length, kind, project.number,
    .numbered kind project.number (s.countJobs project.number kind + 1), .pending⟩
  if s.jobs.any (·.key = job.key) then (.thrown, s)
  else (.requested (some ({ project with status := status }, jobFromDb job, false)),
    { s with projects := s.update project.number ({ · with status := status }), jobs := s.jobs ++ [job] })

/-- What pause, resume and rotate share: an unfinished job is returned, and another status refuses. -/
def requestFrom (ref : Text) (kind : JobType) (before after : ProjectStatus) : Answer × Store :=
  match s.get d ref with
  | none => (.requested none, s)
  | some project => match s.latest project.number fun job => job.kind = kind && unfinished job with
      | some inflight => (.requested (some (project, jobFromDb inflight, true)), s)
      | none =>
          if project.status ≠ before then (.conflict project.status project, s)
          else s.request project kind after

def requestLifecycle (ref : Text) : Lifecycle → Answer × Store
  | .pause => s.requestFrom d ref .pauseProject .ready .pausing
  | .resume => s.requestFrom d ref .resumeProject .paused .resuming

def requestRotation (ref : Text) : Answer × Store := s.requestFrom d ref .rotateCredentials .ready .ready

def requestRetry (ref : Text) : Answer × Store :=
  match s.get d ref with
  | none => (.requested none, s)
  | some project =>
      if project.status ≠ .failed then (.conflict project.status project, s)
      else match s.latest project.number fun job =>
          job.kind ∈ [.provisionProject, .restoreProject] && job.state = .deadLetter with
        | none => (.refused "This project has no failed build to retry.".toList, s)
        | some job =>
            (.retried { project with status := .creating } (jobFromDb job) (s.retries.count project.number + 1),
              { s with
                projects := s.update project.number ({ · with status := .creating })
                jobs := s.jobs.map fun j => if j.number = job.number then { j with state := .pending } else j
                retries := project.number :: s.retries })

/-- What the call may answer, and what it leaves. -/
def serve : Call → List (Answer × Store)
  | .createProject c => [s.createProject d c]
  | .findByIdempotencyKey key => if key.storable then [(.found (s.findByIdempotencyKey key), s)] else [(.thrown, s)]
  | .getProject ref | .getProjectDetail ref => if storable ref then [(.found (s.get d ref), s)] else [(.thrown, s)]
  | .listProjects => [(.listed (Keyset.sorted Project.number s.visible), s)]
  | .listProjectsPage limit cursor organization => [(s.listProjectsPage limit cursor organization, s)]
  | .requestDelete ref => if storable ref then [s.requestDelete d ref] else [(.thrown, s)]
  | .markStatus ref status => if storable ref then [s.markStatus d ref status] else [(.thrown, s)]
  | .findByName name organization =>
      if storable name && castable organization then (s.findByName name organization).map fun p => (.found p, s)
      else [(.thrown, s)]
  | .jobs => [(.jobs (s.jobs.map jobFromDb), s)]
  | .requestLifecycle ref kind => if storable ref then [s.requestLifecycle d ref kind] else [(.thrown, s)]
  | .requestRotation ref => if storable ref then [s.requestRotation d ref] else [(.thrown, s)]
  | .requestRetry ref => if storable ref then [s.requestRetry d ref] else [(.thrown, s)]
  | .countProjectsInOrg organization =>
      if organization.casts then [(.count (s.visible.countP fun p => admits (some organization) p.organization), s)]
      else [(.thrown, s)]

end Store

end Postgres

end Corebase.ControlPlane
