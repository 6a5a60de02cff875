import Corebase.Interleaving
import Corebase.RowLocks
import Corebase.ProvisioningJobs
import Mathlib.Data.List.Sort

namespace Corebase.ProjectRequests

open Interleaving RowLocks ProvisioningJobs
open JobRunner (Time JobState)

abbrev Client := Nat

/-- What the owner of a project asks for. -/
inductive Kind
  | create | pause | resume | retry | rotate | restore | delete
deriving DecidableEq

namespace Kind

def jobTypes : Kind → List JobType
  | create => [.provisionProject]
  | pause => [.pauseProject]
  | resume => [.resumeProject]
  | retry => [.provisionProject, .restoreProject]
  | rotate => [.rotateCredentials]
  | restore => [.restoreProject]
  | delete => [.deleteProject]

/-- The change of status that a request makes when it is taken up. -/
def moves : Kind → Option ProjectStatus → Option ProjectStatus → Bool
  | create, before, after => before = none && after = some .creating
  | pause, before, after => before = some .ready && after = some .pausing
  | resume, before, after => before = some .paused && after = some .resuming
  | retry, before, after => before = some .failed && after = some .creating
  | rotate, before, after => before = some .ready && after = some .ready
  | restore, before, after => before = none && after = some .restoring
  | delete, before, after => before ≠ none && before ≠ some .deleted && after = some .deleting

end Kind

/-- The key is one under which a request for the project inserts a job of the type. -/
def requested (p : ProjectId) : JobType → Key → Bool
  | .provisionProject, .other _ => true
  | .restoreProject, .restore q => q = p
  | .deleteProject, .delete q => q = p
  | kind, .numbered kind' q _ => kind = kind' && q = p && kind ∈ [.pauseProject, .resumeProject, .rotateCredentials]
  | _, _ => false

def building : JobType → Bool
  | .provisionProject | .restoreProject => true
  | _ => false

/-- An unfinished job of the project that a request of the kind has asked for. -/
def active (k : Kind) (p : ProjectId) (row : Key × Job) : Bool :=
  row.2.project = p && row.2.kind ∈ k.jobTypes && row.2.unfinished && requested p row.2.kind row.1

/-- What a request that commits has done to the status of its project and to the table of jobs. -/
structure Outcome where
  kind : Kind
  project : ProjectId
  taken : Bool
  before : Option ProjectStatus
  after : Option ProjectStatus
  jobsBefore : List (Key × Job)
  jobsAfter : List (Key × Job)

structure Store where
  projects : Table Client ProjectId ProjectStatus
  jobs : Table Client Key Job
  /-- The newest first. -/
  outcomes : List Outcome

inductive Op
  | insertProject (status : ProjectStatus)
  /-- SELECT … FOR UPDATE of a project that is not deleted. -/
  | lockProject (p : ProjectId)
  | inflight (p : ProjectId) (kind : JobType)
  | count (p : ProjectId) (kind : JobType)
  | findJob (key : Key)
  /-- The latest build of the project that was given up, locked. -/
  | deadBuild (p : ProjectId)
  | belowLimit
  | setProject (p : ProjectId) (status : ProjectStatus)
  | insertJob (key : Key) (p : ProjectId) (kind : JobType)
  | resetJob (key : Key)
  | commit (kind : Kind) (p : ProjectId) (taken : Bool)
  | rollback
  /-- A worker changes the state of a job. -/
  | work (key : Key) (state : JobState)
  /-- A saga, a hook or a sweep writes a project's status. -/
  | setStatus (p : ProjectId) (status : ProjectStatus)
  /-- A sweep inserts a job, unless its key is there. -/
  | schedule (key : Key) (p : ProjectId) (kind : JobType)
deriving DecidableEq

@[reducible] def Reply : Op → Type
  | .insertProject _ => ProjectId
  | .lockProject _ => Option ProjectStatus
  | .inflight .. | .findJob _ | .belowLimit | .insertJob .. => Bool
  | .count .. => Nat
  | .deadBuild _ => Option Key
  | _ => Unit

/-- The id that is drawn for a project, the time, and whether the organization is at its limit. -/
structure Chance where
  id : ProjectId
  now : Time
  full : Bool

def committedRows (t : Table Client Key Job) : List (Key × Job) :=
  t.keys.dedup.filterMap fun k => (t.committed k).map fun job => (k, job)

/-- The dead-lettered builds of the project, the latest first. -/
def deadBuilds (c : Client) (p : ProjectId) (s : Store) : List (Key × Job) :=
  ((s.jobs.rows c).filter fun row => row.2.project = p && building row.2.kind && row.2.state = .deadLetter).insertionSort
    fun a b => b.2.createdAt ≤ a.2.createdAt

def exec (c : Client) (chance : Chance) : (op : Op) → Store → Option (Reply op × Store)
  | .insertProject status, s =>
      if (s.projects.committed chance.id).isSome || (s.projects.lock chance.id).isSome then none
      else some (chance.id, { s with projects := s.projects.write c chance.id (some status) })
  | .lockProject p, s => match s.projects.view c p with
      | none => some (none, s)
      | some status =>
          if s.projects.free c p then
            if status = .deleted then some (none, s)
            else some (some status, { s with projects := s.projects.write c p (some status) })
          else none
  | .inflight p kind, s =>
      some ((s.jobs.rows c).any fun row => row.2.project = p && row.2.kind = kind && row.2.unfinished, s)
  | .count p kind, s => some ((s.jobs.rows c).countP fun row => row.2.project = p && row.2.kind = kind, s)
  | .findJob key, s => some ((s.jobs.view c key).isSome, s)
  | .deadBuild p, s => match deadBuilds c p s with
      | [] => some (none, s)
      | row :: _ =>
          if s.jobs.free c row.1 then some (some row.1, { s with jobs := s.jobs.write c row.1 (some row.2) }) else none
  | .belowLimit, s => some (!chance.full, s)
  | .setProject p status, s => some ((), { s with projects := s.projects.write c p (some status) })
  | .insertJob key p kind, s =>
      if (s.jobs.view c key).isSome then some (false, s)
      else if s.jobs.free c key then
        some (true, { s with jobs := s.jobs.write c key (some ⟨p, kind, .pending, chance.now⟩) })
      else none
  | .resetJob key, s =>
      if s.jobs.free c key then
        some ((), { s with jobs := match s.jobs.view c key with
          | some job => s.jobs.write c key (some { job with state := .pending })
          | none => s.jobs })
      else none
  | .commit kind p taken, s =>
      let projects := s.projects.commit c
      let jobs := s.jobs.commit c
      some ((), ⟨projects, jobs, ⟨kind, p, taken, s.projects.committed p, projects.committed p, committedRows s.jobs,
        committedRows jobs⟩ :: s.outcomes⟩)
  | .rollback, s => some ((), { s with projects := s.projects.rollback c, jobs := s.jobs.rollback c })
  | .work key state, s =>
      if s.jobs.free c key then
        some ((), { s with jobs := match s.jobs.committed key with
          | some job => (s.jobs.write c key (some { job with state := state })).commit c
          | none => s.jobs })
      else none
  | .setStatus p status, s =>
      if s.projects.free c p then
        some ((), { s with projects := match s.projects.committed p with
          | some _ => (s.projects.write c p (some status)).commit c
          | none => s.projects })
      else none
  | .schedule key p kind, s =>
      if (s.projects.committed p).isNone || (s.jobs.committed key).isSome then some ((), s)
      else if s.jobs.free c key then
        some ((), { s with jobs := (s.jobs.write c key (some ⟨p, kind, .pending, chance.now⟩)).commit c })
      else none

def abort (c : Client) (s : Store) : Store :=
  { s with projects := s.projects.rollback c, jobs := s.jobs.rollback c }

def rolledBack : Program Op Reply := .step .rollback fun _ => .done

def committed (kind : Kind) (p : ProjectId) (taken : Bool) : Program Op Reply :=
  .step (.commit kind p taken) fun _ => .done

/-- A job is inserted, and the transaction ends. -/
def insertAndCommit (kind : Kind) (p : ProjectId) (key : Key) (jobType : JobType) : Program Op Reply :=
  .step (.insertJob key p jobType) fun inserted => if inserted then committed kind p true else rolledBack

/-- POST /v1/projects: a seen key is answered without a transaction. -/
def createProject (key : Key) : Program Op Reply :=
  .step (.findJob key) fun seen =>
    if seen then .done
    else .step (.insertProject .creating) fun p => insertAndCommit .create p key .provisionProject

def requestRotation (p : ProjectId) : Program Op Reply :=
  .step (.lockProject p) fun
    | none => rolledBack
    | some status => .step (.inflight p .rotateCredentials) fun found =>
        if found then committed .rotate p false
        else if status ≠ .ready then rolledBack
        else .step (.count p .rotateCredentials) fun n =>
          insertAndCommit .rotate p (.numbered .rotateCredentials p (n + 1)) .rotateCredentials

/-- The pause of a running project, and the resume of a paused one. -/
def requestLifecycle (p : ProjectId) (kind : Kind) (jobType : JobType) (start to' : ProjectStatus) : Program Op Reply :=
  .step (.lockProject p) fun
    | none => rolledBack
    | some status => .step (.inflight p jobType) fun found =>
        if found then committed kind p false
        else if status ≠ start then rolledBack
        else .step (.count p jobType) fun n =>
          .step (.setProject p to') fun _ => insertAndCommit kind p (.numbered jobType p (n + 1)) jobType

def requestPause (p : ProjectId) : Program Op Reply := requestLifecycle p .pause .pauseProject .ready .pausing

def requestResume (p : ProjectId) : Program Op Reply := requestLifecycle p .resume .resumeProject .paused .resuming

def requestRetry (p : ProjectId) : Program Op Reply :=
  .step (.lockProject p) fun
    | none => rolledBack
    | some status =>
        if status ≠ .failed then rolledBack
        else .step (.deadBuild p) fun
          | none => rolledBack
          | some key => .step (.resetJob key) fun _ =>
              .step (.setProject p .creating) fun _ => committed .retry p true

def requestRestore (source : ProjectId) : Program Op Reply :=
  .step (.lockProject source) fun
    | none => rolledBack
    | some status =>
        if status ∉ [ProjectStatus.ready, .paused, .restored] then rolledBack
        else .step .belowLimit fun below =>
          if below then .step (.insertProject .restoring) fun p => insertAndCommit .restore p (.restore p) .restoreProject
          else rolledBack

def requestDelete (p : ProjectId) : Program Op Reply :=
  .step (.lockProject p) fun
    | none => rolledBack
    | some _ => .step (.findJob (.delete p)) fun found =>
        if found then committed .delete p false
        else .step (.setProject p .deleting) fun _ => insertAndCommit .delete p (.delete p) .deleteProject

inductive Request
  | create (text : JsText.Text)
  | pause (p : ProjectId)
  | resume (p : ProjectId)
  | retry (p : ProjectId)
  | rotate (p : ProjectId)
  | restore (source : ProjectId)
  | delete (p : ProjectId)
  | work (key : Key) (state : JobState)
  | setStatus (p : ProjectId) (status : ProjectStatus)
  | schedule (key : Key) (p : ProjectId) (kind : JobType)

def Request.program : Request → Program Op Reply
  | .create text => createProject (.other text)
  | .pause p => requestPause p
  | .resume p => requestResume p
  | .retry p => requestRetry p
  | .rotate p => requestRotation p
  | .restore source => requestRestore source
  | .delete p => requestDelete p
  | .work key state => .step (.work key state) fun _ => .done
  | .setStatus p status => .step (.setStatus p status) fun _ => .done
  | .schedule key p kind =>
      if requested p kind key || building kind then .done else .step (.schedule key p kind) fun _ => .done

def requests : Protocol Client Store Op Chance Request Reply := ⟨exec, abort, Request.program⟩

end Corebase.ProjectRequests
