import Corebase.Interleaving
import Corebase.RowLocks
import Mathlib.Data.List.Sort

namespace Corebase.Placement

open Interleaving RowLocks

abbrev Client := Nat
abbrev NodeId := Nat
abbrev ProjectId := Nat

inductive Plan
  | free | pro | team | enterprise
deriving DecidableEq

def Plan.ramMb : Plan → Int
  | .free => 350
  | .pro => 1024
  | .team => 1024
  | .enterprise => 2048

def Plan.diskCapMb : Plan → Int
  | .free => 500
  | .pro => 8192
  | .team => 8192
  | .enterprise => 32768

def Plan.containerLimitMb : Plan → Int
  | .free => 512
  | .pro => 1536
  | .team => 1536
  | .enterprise => 3072

/-- The product with the headroom of a fifth, rounded up. The columns are 32 bits wide, where the
product of the source is exact enough to be rounded to the same number. -/
def withHeadroom (mb : Int) : Int := (mb * 6 + 4) / 5

def wholeGb (mb : Int) : Int := max 1 ((mb + 1023) / 1024)

def quotaMbFor (plan : Plan) : Int := withHeadroom plan.diskCapMb

def diskBookingGbFor (plan : Plan) : Int := wholeGb (quotaMbFor plan)

/-- The placement stop at 85 percent, rounded down. -/
def ceilingOf (total : Int) : Int := total * 17 / 20

structure Node where
  hostname : String
  region : String
  active : Bool
  ramTotalMb : Int
  ramReservedMb : Int
  diskTotalGb : Int
  diskReservedGb : Int
deriving DecidableEq

/-- What the checks of the columns require. -/
def Node.valid (n : Node) : Bool :=
  0 ≤ n.ramReservedMb && n.ramReservedMb ≤ n.ramTotalMb && 0 ≤ n.diskReservedGb

structure ProjectDatabase where
  nodeId : NodeId
  volumeName : String
  port : Nat
  poolerPort : Nat
  postgrestPort : Option Nat
  postgrestAdminPort : Option Nat
  ramLimitMb : Int
  ramBookedMb : Int
  diskLimitMb : Int
deriving DecidableEq

def inBounds (p : Nat) : Bool := 1024 ≤ p && p ≤ 65535

def ProjectDatabase.valid (d : ProjectDatabase) : Bool :=
  inBounds d.port && d.postgrestPort.all inBounds && d.postgrestAdminPort.all inBounds &&
    0 ≤ d.ramBookedMb && 0 < d.diskLimitMb

/-- The unique keys of the table other than the project. -/
def ProjectDatabase.clashes (d e : ProjectDatabase) : Bool :=
  d.nodeId = e.nodeId && (d.port = e.port || d.poolerPort = e.poolerPort ||
    (d.postgrestPort.isSome && d.postgrestPort = e.postgrestPort) ||
    (d.postgrestAdminPort.isSome && d.postgrestAdminPort = e.postgrestAdminPort))

/-- The disk that a placement books on its node. -/
def ProjectDatabase.diskBookedGb (d : ProjectDatabase) : Int := wholeGb (withHeadroom d.diskLimitMb)

/-- What a project asks a node for. The packer refuses a booking that is not positive. -/
structure Booking where
  ramMb : Int
  diskGb : Int
  ramPos : 0 < ramMb
  diskPos : 0 < diskGb

theorem Plan.ramMb_pos (plan : Plan) : 0 < plan.ramMb := by cases plan <;> decide

theorem wholeGb_pos (mb : Int) : 0 < wholeGb mb := by
  unfold wholeGb
  omega

def bookingOf (plan : Plan) : Booking where
  ramMb := plan.ramMb
  diskGb := diskBookingGbFor plan
  ramPos := plan.ramMb_pos
  diskPos := wholeGb_pos _

def canFit (n : Node) (bookingMb : Int) : Bool := bookingMb ≤ ceilingOf n.ramTotalMb - n.ramReservedMb

def fits (n : Node) (b : Booking) : Bool :=
  b.ramMb ≤ ceilingOf n.ramTotalMb - n.ramReservedMb && b.diskGb ≤ ceilingOf n.diskTotalGb - n.diskReservedGb

abbrev NodeCandidate := NodeId × Node

structure PortRanges where
  pg : Nat × Nat
  pooler : Nat × Nat
  postgrest : Nat × Nat

/-- What the environment of the worker decides: the ranges, and how the packer compares two fill
ratios and, where they are the same, two host names. -/
structure Config where
  ranges : PortRanges
  emptier : NodeCandidate → NodeCandidate → Bool

def rankNodes (config : Config) (nodes : List NodeCandidate) (b : Booking) : List NodeCandidate :=
  (nodes.filter fun n => fits n.2 b).insertionSort fun m n => config.emptier m n = true

def pickPort (used : List Nat) (range : Nat × Nat) : Option Nat :=
  (List.range' range.1 (range.2 + 1 - range.1)).find? fun p => p ∉ used

def pickPortPair (used : List Nat) (range : Nat × Nat) : Option Nat :=
  (List.range' range.1 ((range.2 + 1 - range.1) / 2) 2).find? fun p => p ∉ used ∧ p + 1 ∉ used

def volumeNameFor (ref : String) : String := "sh-" ++ ref ++ "-pgdata"

def grown (v : Node) (ramMb diskGb : Int) : Node :=
  { v with ramReservedMb := v.ramReservedMb + ramMb, diskReservedGb := v.diskReservedGb + diskGb }

def withRam (v : Node) (mb : Int) : Node := { v with ramReservedMb := max 0 (v.ramReservedMb - mb) }

def withDisk (v : Node) (gb : Int) : Node := { v with diskReservedGb := max 0 (v.diskReservedGb - gb) }

def rebooked (d : ProjectDatabase) (mb : Int) : ProjectDatabase := { d with ramBookedMb := mb }

structure Store where
  nodes : Table Client NodeId Node
  databases : Table Client ProjectId ProjectDatabase

inductive Op
  /-- The placement of a project joined with its node, without a lock. -/
  | placement (p : ProjectId)
  | candidates (region : String)
  | lockNode (n : NodeId)
  | rowsOn (n : NodeId)
  | insert (p : ProjectId) (row : ProjectDatabase)
  | book (n : NodeId) (ramMb diskGb : Int)
  | delete (p : ProjectId)
  | lockBooked (p : ProjectId)
  | setBooked (p : ProjectId) (mb : Int)
  | creditRam (n : NodeId) (mb : Int)
  | creditDisk (n : NodeId) (gb : Int)
  | commit
  | rollback
deriving DecidableEq

@[reducible] def Reply : Op → Type
  | .placement _ => Option ProjectDatabase
  | .candidates _ => List NodeCandidate
  | .lockNode _ => Option Node
  | .rowsOn _ => List ProjectDatabase
  | .insert .. | .book .. | .creditRam .. | .creditDisk .. => Bool
  | .delete _ | .lockBooked _ => Option ProjectDatabase
  | .setBooked .. | .commit | .rollback => Unit

/-- What the store does not decide: which nodes have been heard from, and whether the row that a
statement is after is one that its snapshot does not have. -/
structure Chance where
  heard : NodeId → Bool
  missed : Bool

/-- An update of a node row under the checks of the table. -/
def updateNode (c : Client) (n : NodeId) (f : Node → Node) (s : Store) : Option (Bool × Store) :=
  if s.nodes.free c n then
    match s.nodes.view c n with
    | some v => if (f v).valid then some (true, { s with nodes := s.nodes.write c n (some (f v)) })
        else some (false, s)
    | none => some (true, s)
  else none

/-- Another client has a version of a row that the new one would clash with. -/
def pendingClash (c : Client) (p : ProjectId) (row : ProjectDatabase) (s : Store) : Bool :=
  s.databases.keys.any fun q => q ≠ p && match s.databases.lock q with
    | some (d, some e) => d ≠ c && row.clashes e
    | _ => false

def exec (c : Client) (chance : Chance) : (op : Op) → Store → Option (Reply op × Store)
  | .placement p, s =>
      some ((s.databases.view c p).filter fun d => (s.nodes.view c d.nodeId).isSome, s)
  | .candidates region, s =>
      some ((s.nodes.rows c).filter fun n => n.2.active && n.2.region = region && chance.heard n.1, s)
  | .lockNode n, s =>
      if s.nodes.free c n then
        match s.nodes.view c n with
        | some v => some (some v, { s with nodes := s.nodes.write c n (some v) })
        | none => some (none, s)
      else none
  | .rowsOn n, s => some (((s.databases.rows c).map Prod.snd).filter fun d => d.nodeId = n, s)
  | .insert p row, s =>
      -- a row with one of the keys that is not yet committed is waited for
      if s.databases.free c p && !pendingClash c p row s then
        if (s.databases.view c p).isNone && row.valid && (s.databases.rows c).all fun e => !row.clashes e.2 then
          some (true, { s with databases := s.databases.write c p (some row) })
        else some (false, s)
      else none
  | .book n ramMb diskGb, s => updateNode c n (fun v => grown v ramMb diskGb) s
  | .delete p, s =>
      if chance.missed then some (none, s)
      else if s.databases.free c p then
        match s.databases.view c p with
        | some row => some (some row, { s with databases := s.databases.write c p none })
        | none => some (none, s)
      else none
  | .lockBooked p, s =>
      if chance.missed then some (none, s)
      else if s.databases.free c p then
        match s.databases.view c p with
        | some row => if 0 < row.ramBookedMb then
              some (some row, { s with databases := s.databases.write c p (some row) })
            else some (none, s)
        | none => some (none, s)
      else none
  | .setBooked p mb, s =>
      if s.databases.free c p then
        match s.databases.view c p with
        | some row => some ((), { s with databases := s.databases.write c p (some (rebooked row mb)) })
        | none => some ((), s)
      else none
  | .creditRam n mb, s => updateNode c n (fun v => withRam v mb) s
  | .creditDisk n gb, s => updateNode c n (fun v => withDisk v gb) s
  | .commit, s => some ((), ⟨s.nodes.commit c, s.databases.commit c⟩)
  | .rollback, s => some ((), ⟨s.nodes.rollback c, s.databases.rollback c⟩)

/-- The transaction of a client that dies, or of which a statement fails, is rolled back. -/
def abort (c : Client) (s : Store) : Store := ⟨s.nodes.rollback c, s.databases.rollback c⟩

def committed : Program Op Reply := .step .commit fun _ => .done

def rolledBack : Program Op Reply := .step .rollback fun _ => .done

/-- The rest of the transaction if the statement has kept the checks. -/
def andThen (next : Program Op Reply) (ok : Bool) : Program Op Reply := if ok then next else rolledBack

/-- The walk over the ranked nodes, each locked and looked at again. -/
def pickNode (want : Booking) (found : NodeId → Node → Program Op Reply) : List NodeCandidate → Program Op Reply
  | [] => rolledBack
  | candidate :: ranked => .step (.lockNode candidate.1) fun
      | some r => if r.active && fits r want then found candidate.1 r else pickNode want found ranked
      | none => pickNode want found ranked

def postgrestPorts (rows : List ProjectDatabase) : List Nat :=
  rows.flatMap fun r => r.postgrestPort.toList ++ r.postgrestAdminPort.toList

/-- The row of a project that is placed on a node next to the rows it has. -/
def newRow (config : Config) (ref : String) (plan : Plan) (n : NodeId) (rows : List ProjectDatabase) :
    Option ProjectDatabase := do
  let port ← pickPort (rows.map (·.port)) config.ranges.pg
  let poolerPort ← pickPort (rows.map (·.poolerPort)) config.ranges.pooler
  let postgrestPort ← pickPortPair (postgrestPorts rows) config.ranges.postgrest
  pure {
    nodeId := n
    volumeName := volumeNameFor ref
    port := port
    poolerPort := poolerPort
    postgrestPort := some postgrestPort
    postgrestAdminPort := some (postgrestPort + 1)
    ramLimitMb := plan.containerLimitMb
    ramBookedMb := plan.ramMb
    diskLimitMb := plan.diskCapMb }

def place (config : Config) (p : ProjectId) (ref : String) (plan : Plan) (n : NodeId) : Program Op Reply :=
  .step (.rowsOn n) fun rows => match newRow config ref plan n rows with
    | none => rolledBack
    | some row => .step (.insert p row) (andThen
        (.step (.book n plan.ramMb (diskBookingGbFor plan)) (andThen committed)))

def allocateNode (config : Config) (p : ProjectId) (ref : String) (plan : Plan) (region : String) :
    Program Op Reply :=
  .step (.placement p) fun
    | some _ => committed
    | none => .step (.candidates region) fun rows =>
        pickNode (bookingOf plan) (fun n _ => place config p ref plan n) (rankNodes config rows (bookingOf plan))

def releaseNode (p : ProjectId) : Program Op Reply :=
  .step (.delete p) fun
    | none => committed
    | some row =>
        let returnDisk := .step (.creditDisk row.nodeId row.diskBookedGb) (andThen committed)
        if 0 < row.ramBookedMb then .step (.creditRam row.nodeId row.ramBookedMb) (andThen returnDisk)
        else returnDisk

def releaseRam (p : ProjectId) : Program Op Reply :=
  .step (.lockBooked p) fun
    | none => committed
    | some row => .step (.setBooked p 0) fun _ =>
        .step (.creditRam row.nodeId row.ramBookedMb) (andThen committed)

/-- The locking read of the join is two steps: the snapshot that has the placement, and the lock of
the node, with the node as it is by then and the placement as it was. -/
def bookRam (p : ProjectId) (plan : Plan) : Program Op Reply :=
  .step (.placement p) fun
    | none => rolledBack
    | some d => .step (.lockNode d.nodeId) fun
        | none => rolledBack
        | some n =>
            if 0 < d.ramBookedMb then committed
            else if canFit n plan.ramMb then
              .step (.setBooked p plan.ramMb) fun _ => .step (.book d.nodeId plan.ramMb 0) (andThen committed)
            else rolledBack

inductive Request
  | allocateNode (p : ProjectId) (ref : String) (plan : Plan) (region : String)
  | releaseNode (p : ProjectId)
  | releaseRam (p : ProjectId)
  | bookRam (p : ProjectId) (plan : Plan)

def Request.program (config : Config) : Request → Program Op Reply
  | .allocateNode p ref plan region => Placement.allocateNode config p ref plan region
  | .releaseNode p => Placement.releaseNode p
  | .releaseRam p => Placement.releaseRam p
  | .bookRam p plan => Placement.bookRam p plan

def protocol (config : Config) : Protocol Client Store Op Chance Request Reply := ⟨exec, abort, Request.program config⟩

/-- A store between all transactions. -/
def Store.still (s : Store) : Prop := (∀ n, s.nodes.lock n = none) ∧ ∀ p, s.databases.lock p = none

end Corebase.Placement
