import Corebase.Interleaving
import Corebase.ProvisioningJobs
import Mathlib.Data.List.Sort

namespace Corebase.IdleScan

open Interleaving JobRunner ProvisioningJobs

abbrev Client := Nat

/-- An API process, with a memo of its own. -/
abbrev Process := Nat

/-- A project with its database, the connections that its customers have open and the last request they made. -/
structure Project where
  status : ProjectStatus
  running : Bool
  createdAt : Time
  lastActiveAt : Option Time
  direct : Nat
  clients : Nat
  trafficAt : Option Time
deriving DecidableEq

def Project.idleSince (p : Project) : Time := p.lastActiveAt.getD p.createdAt

/-- Where a sweep is with a project: it has selected it, counted its connections, inserted its job. -/
structure Watch where
  listed : Bool
  direct : Bool
  clients : Bool
  won : Bool
deriving DecidableEq

def Watch.away : Watch := ⟨false, false, false, false⟩

def Watch.selected : Watch := ⟨true, false, false, false⟩

inductive Report
  /-- A sweep has found the project idle, and whether a pause of it was under way after its insert. -/
  | found (p : ProjectId) (backed : Bool)
  /-- A sweep has set the project to pausing, and whether it was ready and quiet until then. -/
  | paused (p : ProjectId) (quiet : Bool)
deriving DecidableEq

def Report.fair : Report → Bool
  | .found _ backed => backed
  | .paused _ quiet => quiet

structure Store where
  now : Time
  ids : List ProjectId
  projects : ProjectId → Project
  jobs : Jobs
  memo : Process → ProjectId → Option Time
  watch : Client → ProjectId → Watch
  sweepers : List Client
  /-- The newest first. -/
  reports : List Report

structure Options where
  /-- The idle days, on the clock. -/
  window : Time
  batchSize : Nat
  /-- How often the traffic meter of a process writes, at most. -/
  writeInterval : Time

namespace Store

variable (s : Store)

def setProject (p : ProjectId) (x : Project) : Store := { s with projects := Function.update s.projects p x }

def setWatch (c : Client) (p : ProjectId) (w : Watch) : Store :=
  { s with watch := Function.update s.watch c (Function.update (s.watch c) p w) }

/-- The client sweeps these projects. -/
def beginSweep (c : Client) (ps : List ProjectId) : Store :=
  { s with
    watch := Function.update s.watch c fun p => if p ∈ ps then .selected else .away
    sweepers := c :: s.sweepers }

def report (r : Report) : Store := { s with reports := r :: s.reports }

/-- A request of the data plane came within the window. -/
def recent (opts : Options) (p : ProjectId) : Bool :=
  (s.projects p).trafficAt.any fun t => decide (s.now ≤ t + opts.window)

def candidate (opts : Options) (p : ProjectId) : Bool :=
  (s.projects p).status = .ready && (s.projects p).running && decide ((s.projects p).idleSince + opts.window < s.now)

/-- The ready projects that are idle past the window, the longest idle first. -/
def candidates (opts : Options) : List ProjectId :=
  ((s.ids.filter (s.candidate opts)).insertionSort fun p q =>
    (s.projects p).idleSince ≤ (s.projects q).idleSince).take opts.batchSize

def pauseUnderWay (p : ProjectId) : Bool :=
  s.jobs.any fun row => row.2.project = p && row.2.kind = .pauseProject && row.2.unfinished

/-- The project is ready, has no connection and had no request within the window. -/
def quiet (opts : Options) (p : ProjectId) : Bool :=
  (s.projects p).status = .ready && (s.projects p).direct + (s.projects p).clients = 0 && !s.recent opts p

end Store

inductive LifecycleKind
  | pause | resume
deriving DecidableEq

namespace LifecycleKind

def jobType : LifecycleKind → JobType
  | pause => .pauseProject
  | resume => .resumeProject

def fromStatus : LifecycleKind → ProjectStatus
  | pause => .ready
  | resume => .paused

def toStatus : LifecycleKind → ProjectStatus
  | pause => .pausing
  | resume => .resuming

end LifecycleKind

/-- A request is taken up: no job of its kind is unfinished, and the project is where it starts from. -/
def accepted (s : Store) (p : ProjectId) (kind : LifecycleKind) : Bool :=
  !(s.jobs.any fun row => row.2.project = p && row.2.kind = kind.jobType && row.2.unfinished) &&
    (s.projects p).status = kind.fromStatus

/-- The transaction of a pause or a resume, under the lock of the project's row. -/
def requestLifecycle (s : Store) (p : ProjectId) (kind : LifecycleKind) : Store :=
  if accepted s p kind then
    let n := s.jobs.countP fun row => row.2.project = p && row.2.kind = kind.jobType
    match s.jobs.insert (.numbered kind.jobType p (n + 1)) ⟨p, kind.jobType, .pending, s.now⟩ with
    | (true, jobs) => { s.setProject p { s.projects p with status := kind.toStatus } with jobs := jobs }
    | (false, _) => s
  else s

inductive Op
  | candidates
  | direct (p : ProjectId)
  | clients (p : ProjectId)
  | touch (p : ProjectId)
  | schedule (p : ProjectId)
  | setPausing (p : ProjectId)
  | seen (process : Process) (p : ProjectId)
  | record (process : Process) (p : ProjectId)
  /-- The memo drops an entry, or its process starts afresh. -/
  | forget (process : Process) (p : ProjectId)
  | lifecycle (p : ProjectId) (kind : LifecycleKind)
  /-- Any other request or saga writes the project's status. -/
  | setStatus (p : ProjectId) (status : ProjectStatus)
  | setRunning (p : ProjectId) (running : Bool)
  | create (p : ProjectId)
  | createJob (key : Key) (p : ProjectId) (kind : JobType)
  | setState (key : Key) (state : JobState)
  | connect (p : ProjectId) (pooled : Bool)
  | disconnect (p : ProjectId) (pooled : Bool)
  | tick (ms : Time)
deriving DecidableEq

@[reducible] def Reply : Op → Type
  | .candidates => List ProjectId
  | .direct _ | .clients _ => Option Nat
  | .schedule _ | .seen .. => Bool
  | _ => Unit

/-- The choice says whether a probe is answered, and a write of the meter arrives. -/
def exec (opts : Options) (c : Client) (answered : Bool) : (op : Op) → Store → Option (Reply op × Store)
  | .candidates, s => some (s.candidates opts, s.beginSweep c (s.candidates opts))
  | .direct p, s =>
      if answered then some (some (s.projects p).direct, s.setWatch c p { s.watch c p with direct := true })
      else some (none, s.setWatch c p .away)
  | .clients p, s =>
      if answered then some (some (s.projects p).clients, s.setWatch c p { s.watch c p with clients := true })
      else some (none, s.setWatch c p .away)
  | .touch p, s => some ((), (s.setProject p { s.projects p with lastActiveAt := some s.now }).setWatch c p .away)
  | .schedule p, s =>
      let (inserted, jobs) := s.jobs.insert (.idlePause p) ⟨p, .pauseProject, .pending, s.now⟩
      let s' := { s with jobs := jobs }
      some (inserted, (s'.setWatch c p (if inserted then { s.watch c p with won := true } else .away)).report
        (.found p (s'.pauseUnderWay p)))
  | .setPausing p, s =>
      some ((), ((s.setProject p { s.projects p with status := .pausing }).setWatch c p .away).report
        (.paused p (s.quiet opts p)))
  | .seen process p, s =>
      let s' := s.setProject p { s.projects p with trafficAt := some s.now }
      if (s.memo process p).any fun previous => s.now < previous + opts.writeInterval then some (false, s')
      else some (true, { s' with memo := Function.update s.memo process (Function.update (s.memo process) p (some s.now)) })
  | .record process p, s =>
      if answered then some ((), s.setProject p { s.projects p with lastActiveAt := some s.now })
      else some ((), { s with memo := Function.update s.memo process (Function.update (s.memo process) p none) })
  | .forget process p, s =>
      some ((), { s with memo := Function.update s.memo process (Function.update (s.memo process) p none) })
  | .lifecycle p kind, s => some ((), requestLifecycle s p kind)
  | .setStatus p status, s => some ((), s.setProject p { s.projects p with status := status })
  | .setRunning p running, s => some ((), s.setProject p { s.projects p with running := running })
  | .create p, s =>
      if p ∈ s.ids then some ((), s)
      else some ((), { s.setProject p ⟨.creating, false, s.now, none, 0, 0, none⟩ with ids := p :: s.ids })
  | .createJob key p kind, s => some ((), { s with jobs := (s.jobs.insert key ⟨p, kind, .pending, s.now⟩).2 })
  | .setState key state, s => some ((), { s with jobs := s.jobs.setState key state })
  | .connect p pooled, s =>
      let x := s.projects p
      some ((), s.setProject p (if pooled then { x with clients := x.clients + 1 } else { x with direct := x.direct + 1 }))
  | .disconnect p pooled, s =>
      let x := s.projects p
      some ((), s.setProject p (if pooled then { x with clients := x.clients - 1 } else { x with direct := x.direct - 1 }))
  | .tick ms, s => some ((), { s with now := s.now + ms })

/-- A sweep that dies is at no project any more. -/
def abort (c : Client) (s : Store) : Store := { s with watch := Function.update s.watch c fun _ => .away }

/-- What the scan makes of the two counts. -/
def settle (p : ProjectId) (direct clients : Option Nat) (next : Program Op Reply) : Program Op Reply :=
  match direct, clients with
  | some direct, some clients =>
      if 0 < direct + clients then .step (.touch p) fun _ => next
      else .step (.schedule p) fun inserted =>
        if inserted then .step (.setPausing p) fun _ => next else next
  | _, _ => next

/-- The scan of one candidate. The two probes run side by side, and either may count first. -/
def scan (clientsFirst : ProjectId → Bool) (p : ProjectId) (next : Program Op Reply) : Program Op Reply :=
  if clientsFirst p then .step (.clients p) fun clients => .step (.direct p) fun direct => settle p direct clients next
  else .step (.direct p) fun direct => .step (.clients p) fun clients => settle p direct clients next

def scanOnce (clientsFirst : ProjectId → Bool) : Program Op Reply :=
  .step .candidates fun ps => ps.foldr (scan clientsFirst) .done

/-- A request of the data plane as the traffic meter sees it. -/
def seen (process : Process) (p : ProjectId) : Program Op Reply :=
  .step (.seen process p) fun write => if write then .step (.record process p) fun _ => .done else .done

inductive Request
  | scan (clientsFirst : ProjectId → Bool)
  | traffic (process : Process) (p : ProjectId)
  /-- A request, a saga, a worker or a customer that runs one statement. -/
  | other (op : Op)

def Op.ofSweep : Op → Bool
  | .candidates | .direct _ | .clients _ | .touch _ | .schedule _ | .setPausing _ | .seen .. | .record .. => true
  | _ => false

def Request.program : Request → Program Op Reply
  | .scan clientsFirst => scanOnce clientsFirst
  | .traffic process p => IdleScan.seen process p
  | .other op => if op.ofSweep then .done else .step op fun _ => .done

def protocol (opts : Options) : Protocol Client Store Op Bool Request Reply := ⟨exec opts, abort, Request.program⟩

end Corebase.IdleScan
