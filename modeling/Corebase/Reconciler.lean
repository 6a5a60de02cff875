import Corebase.Interleaving
import Corebase.Placement
import Corebase.ProvisioningJobs

namespace Corebase.Reconciler

open Interleaving ProvisioningJobs
open JsText (Text)
open JobRunner (Time JobState)
open Placement (NodeId Node Plan)

abbrev Client := Nat
abbrev Ref := Nat
abbrev ContainerId := Nat

inductive ContainerRole
  | database | pooler | postgrest | other (role : Text)
deriving DecidableEq

/-- A managed container, with its labels. One without a role is a database. -/
structure Container where
  id : ContainerId
  ref : Option Ref
  role : Option ContainerRole
  running : Bool
deriving DecidableEq

structure Volume where
  ref : Option Ref
deriving DecidableEq

structure Network where
  ref : Option Ref
deriving DecidableEq

structure Database where
  node : NodeId
  postgrestPort : Option Nat
  ramBookedMb : Int
deriving DecidableEq

structure Project where
  id : ProjectId
  ref : Ref
  status : ProjectStatus
  plan : Plan
  updatedAt : Time
  database : Option Database
deriving DecidableEq

/-- Statuses whose containers are supposed to be running. -/
def shouldRun (status : ProjectStatus) : Bool := status ∈ [.ready, .configuring, .resuming]

/-- Statuses whose containers must not be running. -/
def shouldNotRun (status : ProjectStatus) : Bool := status ∈ [.softDeleted, .deleted, .paused, .pausing]

def transitional (status : ProjectStatus) : Bool :=
  status ∈ [.creating, .provisioning, .configuring, .pausing, .resuming, .deleting]

inductive DriftClass
  | containerNotRunning | zombieContainer | orphanContainer | poolerNotRunning | postgrestNotRunning
  | unknownContainerRole | stuckTransition | orphanVolume | orphanNetwork | reservationDrift
deriving DecidableEq

inductive DriftAction
  | repairEnqueued | stopped | alertOnly | recomputed | repairLimitReached | deferredSagaRunning
deriving DecidableEq

structure Drift where
  kind : DriftClass
  ref : Option Ref
  action : DriftAction
deriving DecidableEq

/-- The rows of the control plane, and what the engines of the nodes have. -/
structure World where
  now : Time
  projects : List Project
  nodes : List (NodeId × Node)
  containers : NodeId → List Container
  volumes : NodeId → List Volume
  networks : NodeId → List Network

/-- A container that a pass has stopped or a repair that it has inserted, and whether a saga ran for the project. -/
structure Touch where
  project : ProjectId
  saga : Bool
deriving DecidableEq

structure Store where
  world : World
  jobs : Jobs
  deliveries : List Key
  /-- The reports that the passes have recorded, the newest first. -/
  reports : List (List Drift)
  /-- The projects whose containers a pass has found running, against their status. -/
  stopping : List (Client × ProjectId)
  /-- The projects that a pass is about to repair. -/
  repairing : List (Client × ProjectId)
  touched : List Touch

structure Stuck where
  ref : Ref
  jobs : Nat
deriving DecidableEq

inductive Op
  | desired
  | listContainers (n : NodeId) (desired : List Project)
  | busy (p : ProjectId)
  | recent (p : ProjectId) (hour : Time)
  | fail (p : ProjectId)
  | insertRepair (p : ProjectId) (attempts : Nat)
  | enqueue (key : Key)
  /-- A container of the project is stopped. -/
  | stopContainer (n : NodeId) (p : ProjectId) (id : ContainerId)
  | listVolumes (n : NodeId)
  | placements
  | stuck (after : Time)
  | listNetworks (n : NodeId)
  | nodes (hostname : Option String)
  | plansOn (n : NodeId)
  | setReserved (n : NodeId) (mb : Int)
  | report (drift : List Drift)
  /-- Another program inserts a job. -/
  | create (key : Key) (p : ProjectId) (kind : JobType)
  /-- A worker, or a retry, changes the state of a job. -/
  | work (key : Key) (state : JobState)
  /-- Other programs change what they change. -/
  | change (world : World)

@[reducible] def Reply : Op → Type
  | .desired => List Project
  | .listContainers .. => List Container
  | .busy _ | .recent .. => Nat
  | .insertRepair .. | .setReserved .. | .create .. => Bool
  | .listVolumes _ => List Volume
  | .placements => List Ref
  | .stuck _ => List Stuck
  | .listNetworks _ => List Network
  | .nodes _ => List (NodeId × Node)
  | .plansOn _ => List Plan
  | .fail _ | .enqueue _ | .stopContainer .. | .report _ | .work .. | .change _ => Unit

/-- The container of the project in the role: of several the last one of the listing. -/
def Container.plays (container : Container) (ref : Ref) (role : ContainerRole) : Bool :=
  container.ref = some ref && container.role.getD .database = role

def entry (containers : List Container) (ref : Ref) (role : ContainerRole) : Option Container :=
  (containers.filter (·.plays ref role)).getLast?

def runs (containers : List Container) (ref : Ref) (role : ContainerRole) : Bool := (entry containers ref role).any Container.running

/-- The pass that has this listing stops containers of the project. -/
def zombie (containers : List Container) (p : Project) : Bool :=
  shouldNotRun p.status && [ContainerRole.postgrest, .pooler, .database].any (runs containers p.ref)

def World.setStatus (w : World) (p : ProjectId) (status : ProjectStatus) : World :=
  { w with projects := w.projects.map fun project => if project.id = p then { project with status := status } else project }

def World.stop (w : World) (n : NodeId) (id : ContainerId) : World :=
  { w with
    containers := Function.update w.containers n
      ((w.containers n).map fun container => if container.id = id then { container with running := false } else container) }

namespace Store

variable (s : Store)

/-- A saga is running for the project. -/
def working (p : ProjectId) : Bool := s.jobs.any fun row => row.2.project = p && row.2.state = .running

def unfinished (p : ProjectId) : Nat := s.jobs.countP fun row => row.2.project = p && row.2.unfinished

end Store

def exec (c : Client) (_ : Unit) : (op : Op) → Store → Option (Reply op × Store)
  | .desired, s => some (s.world.projects.filter fun p => p.status ≠ .deleted || p.database.isSome, s)
  | .listContainers n desired, s =>
      let containers := s.world.containers n
      some (containers, { s with stopping := ((desired.filter (zombie containers)).map fun p => (c, p.id)) ++ s.stopping })
  | .busy p, s =>
      let busy := s.unfinished p
      some (busy, if busy = 0 then { s with repairing := (c, p) :: s.repairing } else s)
  | .recent p hour, s => some (s.jobs.countP fun row =>
      row.2.project = p && row.1.likeRepair && s.world.now < row.2.createdAt + hour, s)
  | .fail p, s => some ((), { s with
      world := s.world.setStatus p .failed, repairing := s.repairing.filter fun aim => aim ≠ (c, p) })
  | .insertRepair p attempts, s =>
      let (inserted, jobs) := s.jobs.insert (.repair p attempts) ⟨p, .provisionProject, .pending, s.world.now⟩
      some (inserted, { s with
        jobs := jobs
        repairing := s.repairing.filter fun aim => aim ≠ (c, p)
        touched := if inserted then ⟨p, s.working p⟩ :: s.touched else s.touched })
  | .enqueue key, s => some ((), { s with deliveries := key :: s.deliveries })
  | .stopContainer n p id, s => some ((), { s with world := s.world.stop n id, touched := ⟨p, s.working p⟩ :: s.touched })
  | .listVolumes n, s => some (s.world.volumes n, s)
  | .placements, s => some ((s.world.projects.filter fun p => p.database.isSome).map Project.ref, s)
  | .stuck after, s =>
      let stuck := s.world.projects.filter fun p => transitional p.status && p.updatedAt + after < s.world.now
      some (stuck.map fun p => ⟨p.ref, s.unfinished p.id⟩, s)
  | .listNetworks n, s => some (s.world.networks n, s)
  | .nodes hostname, s => some (s.world.nodes.filter fun row => hostname.all fun name => row.2.hostname = name, s)
  | .plansOn n, s =>
      some ((s.world.projects.filter fun p => p.database.any fun d => d.node = n).map Project.plan, s)
  | .setReserved n mb, s =>
      -- the checks of the table
      if (s.world.nodes.any fun row => row.1 = n && !({ row.2 with ramReservedMb := mb } : Node).valid) then some (false, s)
      else some (true, { s with world := { s.world with nodes := s.world.nodes.map fun row =>
        if row.1 = n then (row.1, { row.2 with ramReservedMb := mb }) else row } })
  | .report drift, s => some ((), { s with
      reports := drift :: s.reports, stopping := s.stopping.filter fun aim => aim.1 ≠ c })
  | .create key p kind, s =>
      let (inserted, jobs) := s.jobs.insert key ⟨p, kind, .pending, s.world.now⟩
      some (inserted, { s with jobs := jobs })
  | .work key state, s => some ((), { s with jobs := s.jobs.setState key state })
  | .change world, s => some ((), { s with world := world })

/-- A pass that fails goes no further. -/
def abort (c : Client) (s : Store) : Store :=
  { s with
    stopping := s.stopping.filter fun aim => aim.1 ≠ c
    repairing := s.repairing.filter fun aim => aim.1 ≠ c }

structure Options where
  /-- The node of the engine that the reconciler talks to. -/
  here : NodeId
  hostname : Option String
  repairLimitPerHour : Nat
  /-- What an hour is on the clock. -/
  hour : Time
  stuckAfter : Time

def enqueueRepair (opts : Options) (p : ProjectId) (next : DriftAction → Program Op Reply) : Program Op Reply :=
  .step (.busy p) fun busy =>
    if 0 < busy then next .deferredSagaRunning
    else .step (.recent p opts.hour) fun attempts =>
      if opts.repairLimitPerHour ≤ attempts then .step (.fail p) fun _ => next .repairLimitReached
      else .step (.insertRepair p attempts) fun inserted =>
        if inserted then .step (.enqueue (.repair p attempts)) fun _ => next .repairEnqueued else next .repairEnqueued

def repairIf (adrift : Bool) (opts : Options) (p : Project) (kind : DriftClass) (drift : List Drift)
    (next : List Drift → Program Op Reply) : Program Op Reply :=
  if adrift then enqueueRepair opts p.id fun action => next (drift ++ [⟨kind, some p.ref, action⟩]) else next drift

def stopIf (n : NodeId) (p : Project) (found : Option Container) (drift : List Drift)
    (next : List Drift → Program Op Reply) : Program Op Reply :=
  match found.filter Container.running with
  | some container => if shouldNotRun p.status then
        .step (.stopContainer n p.id container.id) fun _ => next (drift ++ [⟨.zombieContainer, some p.ref, .stopped⟩])
      else next drift
  | none => next drift

/-- The diff of a project against what is on the node. -/
def checkProject (opts : Options) (containers : List Container) (p : Project) (drift : List Drift)
    (next : List Drift → Program Op Reply) : Program Op Reply :=
  let up := runs containers p.ref
  let wanted := shouldRun p.status
  repairIf (wanted && !up .database) opts p .containerNotRunning drift fun drift =>
  repairIf (wanted && up .database && !up .pooler) opts p .poolerNotRunning drift fun drift =>
  repairIf (wanted && up .database && (p.database.bind Database.postgrestPort).isSome && !up .postgrest) opts p
    .postgrestNotRunning drift fun drift =>
  stopIf opts.here p (entry containers p.ref .postgrest) drift fun drift =>
  stopIf opts.here p (entry containers p.ref .pooler) drift fun drift =>
  stopIf opts.here p (entry containers p.ref .database) drift next

def checkProjects (opts : Options) (containers : List Container) : List Project → List Drift →
    (List Drift → Program Op Reply) → Program Op Reply
  | [], drift, next => next drift
  | p :: ps, drift, next => checkProject opts containers p drift fun drift => checkProjects opts containers ps drift next

def unknownRole (container : Container) : Option Drift := match container.ref, container.role with
  | some ref, some (.other _) => some ⟨.unknownContainerRole, some ref, .alertOnly⟩
  | _, _ => none

/-- The projects that have a container in the role. -/
def refsOf (containers : List Container) (role : ContainerRole) : List Ref :=
  ((containers.filter fun container => container.role.getD .database = role).filterMap Container.ref).eraseDups

def orphans (containers : List Container) (desired : List Project) : List Drift :=
  ((refsOf containers .database ++ refsOf containers .pooler).filter (· ∉ desired.map Project.ref)).map fun ref =>
    ⟨.orphanContainer, some ref, .alertOnly⟩

def orphanVolume (placed : List Ref) (volume : Volume) : Option Drift := match volume.ref with
  | some ref => if ref ∈ placed then none else some ⟨.orphanVolume, some ref, .alertOnly⟩
  | none => some ⟨.orphanVolume, none, .alertOnly⟩

def orphanNetwork (placed : List Ref) (network : Network) : Option Drift := match network.ref with
  | some ref => if ref ∈ placed then none else some ⟨.orphanNetwork, some ref, .alertOnly⟩
  | none => some ⟨.orphanNetwork, none, .alertOnly⟩

def stuckDrift (stuck : Stuck) : Option Drift :=
  if 0 < stuck.jobs then none else some ⟨.stuckTransition, some stuck.ref, .alertOnly⟩

def expected (plans : List Plan) : Int := plans.foldl (fun sum plan => sum + plan.ramMb) 0

/-- A reservation that the table does not take fails the pass. -/
def checkNodes : List (NodeId × Node) → List Drift → (List Drift → Program Op Reply) → Program Op Reply
  | [], drift, next => next drift
  | (n, node) :: nodes, drift, next => .step (.plansOn n) fun plans =>
      if expected plans ≠ node.ramReservedMb then
        .step (.setReserved n (expected plans)) fun taken =>
          if taken then checkNodes nodes (drift ++ [⟨.reservationDrift, none, .recomputed⟩]) next else .done
      else checkNodes nodes drift next

/-- What the pass does after the projects. -/
def checkNode (opts : Options) (desired : List Project) (drift : List Drift) : Program Op Reply :=
  .step (.listVolumes opts.here) fun volumes => .step .placements fun placements =>
    let placed := desired.map Project.ref ++ placements
    .step (.stuck opts.stuckAfter) fun stuck => .step (.listNetworks opts.here) fun networks =>
      let drift := drift ++ volumes.filterMap (orphanVolume placed) ++ stuck.filterMap stuckDrift ++
        networks.filterMap (orphanNetwork placed)
      .step (.nodes opts.hostname) fun nodes => checkNodes nodes drift fun drift => .step (.report drift) fun _ => .done

def reconcileOnce (opts : Options) : Program Op Reply :=
  .step .desired fun desired => .step (.listContainers opts.here desired) fun containers =>
    checkProjects opts containers desired (containers.filterMap unknownRole) fun drift =>
      checkNode opts desired (drift ++ orphans containers desired)

inductive Request
  | reconcile (opts : Options)
  | create (key : Key) (p : ProjectId) (kind : JobType)
  | work (key : Key) (state : JobState)
  | change (world : World)

def Request.program : Request → Program Op Reply
  | .reconcile opts => reconcileOnce opts
  | .create key p kind => .step (.create key p kind) fun _ => .done
  | .work key state => .step (.work key state) fun _ => .done
  | .change world => .step (.change world) fun _ => .done

def reconciler : Protocol Client Store Op Unit Request Reply := ⟨exec, abort, Request.program⟩

end Corebase.Reconciler
