import Corebase.Reservations
import Mathlib.Algebra.BigOperators.Group.List.Basic
import Mathlib.Algebra.Order.Group.Int
import Mathlib.Algebra.Order.Group.Defs
import Mathlib.Algebra.Ring.Int.Defs

namespace Corebase.ReservationDrift

open Interleaving RowLocks Placement PlacementSteps Reservations

/-- The plans of the projects on a node, as a client that is in no transaction reads them. -/
def plansOn (plans : ProjectId → Plan) (c : Client) (n : NodeId) (s : Store) : List Plan :=
  ((s.databases.rows c).filter fun row => row.2.nodeId = n).map fun row => plans row.1

/-- The reservation of a node as the sweep computes it from its rows. -/
def expected (plans : ProjectId → Plan) (c : Client) (n : NodeId) (s : Store) : Int :=
  (plansOn plans c n s).foldl (fun sum plan => sum + plan.ramMb) 0

structure Drift where
  node : String
  was : Int
  now : Int
deriving DecidableEq

/-- What the sweep does about the reservation of a node while no transaction is open. The update
fails, and with it the sweep, where the checks of the table do not allow the number. -/
def recompute (plans : ProjectId → Plan) (c : Client) (n : NodeId) (s : Store) : Option (Option Drift × Store) :=
  match s.nodes.view c n with
  | none => some (none, s)
  | some v =>
      let now := expected plans c n s
      if now ≠ v.ramReservedMb then
        if ({ v with ramReservedMb := now } : Node).valid then
          some (some ⟨v.hostname, v.ramReservedMb, now⟩,
            { s with nodes := (s.nodes.write c n (some { v with ramReservedMb := now })).commit c })
        else none
      else some (none, s)

/-- The sweep finds no drift on the node and leaves the store as it is. -/
def Undrifted (plans : ProjectId → Plan) (c : Client) (n : NodeId) (s : Store) : Prop :=
  recompute plans c n s = some (none, s)

/-- What a project on a node is worth to the sweep. -/
def planned (plans : ProjectId → Plan) (n : NodeId) (p : ProjectId) : Option ProjectDatabase → Int
  | some d => if d.nodeId = n then (plans p).ramMb else 0
  | none => 0

variable {plans : ProjectId → Plan} {c : Client} {n : NodeId} {p : ProjectId} {d : ProjectDatabase} {s : Store}
  {v : Node}

theorem sum_rows (rows : ProjectId → Option ProjectDatabase) (keys : List ProjectId) :
    ((((keys.filterMap fun p => (rows p).map fun d => (p, d)).filter fun row => row.2.nodeId = n).map
      fun row => plans row.1).map Plan.ramMb).sum = (keys.map fun p => planned plans n p (rows p)).sum := by
  induction keys with
  | nil => rfl
  | cons p keys ih =>
      cases hp : rows p with
      | none => simpa [hp, planned] using ih
      | some d =>
          by_cases hd : d.nodeId = n
          · simpa [hp, planned, hd] using ih
          · simpa [hp, planned, hd] using ih

theorem expected_eq (hout : s.databases.Out c) : expected plans c n s =
    ∑ p ∈ s.databases.keys.toFinset, planned plans n p (s.databases.committed p) := by
  have hview : s.databases.view c = s.databases.committed := funext fun _ => hout.untouched.view
  have hsum : expected plans c n s = ((plansOn plans c n s).map Plan.ramMb).sum := by
    rw [expected, List.sum_eq_foldl, List.foldl_map]
  have hkeys : s.databases.keys.toFinset = s.databases.keys.dedup.toFinset := by
    ext p
    simp
  rw [hsum, plansOn, Table.rows, sum_rows, hview, hkeys]
  exact (List.sum_toFinset _ s.databases.keys.nodup_dedup).symm

/-- The placements on the node book what the plans of their projects say. -/
def BookedAsPlanned (plans : ProjectId → Plan) (n : NodeId) (s : Store) : Prop :=
  ∀ p d, s.databases.committed p = some d → d.nodeId = n → d.ramBookedMb = (plans p).ramMb

/-- So do those that book anything. -/
def PlansKept (plans : ProjectId → Plan) (n : NodeId) (s : Store) : Prop :=
  ∀ p d, s.databases.committed p = some d → d.nodeId = n → d.ramBookedMb ≠ 0 → d.ramBookedMb = (plans p).ramMb

/-- No project on the node is paused. -/
def NonePaused (n : NodeId) (s : Store) : Prop :=
  ∀ p d, s.databases.committed p = some d → d.nodeId = n → d.ramBookedMb ≠ 0

theorem undrifted_iff (hout : s.nodes.Out c) (hv : s.nodes.committed n = some v) :
    Undrifted plans c n s ↔ expected plans c n s = v.ramReservedMb := by
  have hview : s.nodes.view c n = some v := hout.untouched.view.trans hv
  simp only [Undrifted, recompute, hview]
  by_cases hsame : expected plans c n s = v.ramReservedMb
  · simp [hsame]
  · simp only [hsame, iff_false, ne_eq, not_false_eq_true, if_true]
    split <;> simp

theorem load_le_planned (hkept : PlansKept plans n s) (p : ProjectId) :
    load (·.ramBookedMb) n (s.databases.committed p) ≤ planned plans n p (s.databases.committed p) := by
  cases hd : s.databases.committed p with
  | none => exact le_refl 0
  | some d =>
      by_cases hn : d.nodeId = n
      · by_cases hzero : d.ramBookedMb = 0
        · simp only [load, planned, hn, if_true, hzero]
          exact (plans p).ramMb_pos.le
        · simp only [load, planned, hn, if_true]
          exact (hkept p d hd hn hzero).le
      · simp [load, planned, hn]

theorem load_eq_planned_iff : load (·.ramBookedMb) n (s.databases.committed p) =
    planned plans n p (s.databases.committed p) ↔
      ∀ d, s.databases.committed p = some d → d.nodeId = n → d.ramBookedMb = (plans p).ramMb := by
  cases hd : s.databases.committed p with
  | none => simp [load, planned]
  | some d => by_cases hn : d.nodeId = n <;> simp [load, planned, hn]

/-- On a node whose books are right the sweep finds no drift as long as its placements book what the
plans say. While the plans stay what they were when the projects were booked, that is as long as none of
them is paused. -/
theorem recompute_exact (plans : ProjectId → Plan) (hc : s.nodes.Out c ∧ s.databases.Out c)
    (hv : s.nodes.committed n = some v) (hbooks : v.ramReservedMb = booked (·.ramBookedMb) s n) :
    (BookedAsPlanned plans n s → Undrifted plans c n s) ∧
    (PlansKept plans n s → (Undrifted plans c n s ↔ NonePaused n s)) := by
  rw [undrifted_iff hc.1 hv, expected_eq hc.2, hbooks, booked]
  constructor
  · intro hplanned
    exact Finset.sum_congr rfl fun p _ => (load_eq_planned_iff.mpr fun d hd hn => hplanned p d hd hn).symm
  · intro hkept
    rw [eq_comm, Finset.sum_eq_sum_iff_of_le fun p _ => load_le_planned hkept p]
    constructor
    · intro hsame p d hd hn hzero
      have hp : p ∈ s.databases.keys.toFinset := List.mem_toFinset.mpr (s.databases.mem_keys p (.inl (by simp [hd])))
      have hpos := (plans p).ramMb_pos
      rw [← load_eq_planned_iff.mp (hsame p hp) d hd hn, hzero] at hpos
      exact lt_irrefl 0 hpos
    · intro hbooked p _
      exact load_eq_planned_iff.mpr fun d hd hn => hkept p d hd hn (hbooked p d hd hn)

/-- In the runs of the reservations the books are right whenever no transaction is open. -/
theorem recompute_reachable {config : Placement.Config} {g : Interleaving.Config Client Store Op Reply}
    (plans : ProjectId → Plan) (hs : Accounted s) (hstill : s.still)
    (h : (protocol config).Reachable FreshBookings s g) (hdone : ∀ c, g.running c = .done)
    (hv : g.store.nodes.committed n = some v) : PlansKept plans n g.store →
      (Undrifted plans c n g.store ↔ NonePaused n g.store) := by
  obtain ⟨haccounted, _, hquiet, _⟩ := reservations_hold hs hstill h
  obtain ⟨hnodes, hdatabases⟩ := hquiet hdone
  exact (recompute_exact plans ⟨by simp [Table.Out, hnodes], by simp [Table.Out, hdatabases]⟩ hv
    (haccounted.ram n v hv)).2

section Examples

def onFree : ProjectId → Plan := fun _ => .free

def bookedNode : Node := grown node 350 0

/-- The project of the paused store while it runs. -/
def runningStore : Store := ⟨.single 0 bookedNode, .single 7 (rebooked pausedRow 350)⟩

theorem out_running (c : Client) : runningStore.nodes.Out c ∧ runningStore.databases.Out c :=
  ⟨fun _ _ h => (by cases h), fun _ _ h => (by cases h)⟩

theorem recompute_exact_running : recompute onFree 5 0 runningStore = some (none, runningStore) := by
  refine (recompute_exact onFree (v := bookedNode) (out_running 5) rfl rfl).1
    fun p d hd _ => ?_
  simp only [runningStore, Table.single, Option.ite_none_right_eq_some] at hd
  obtain ⟨rfl, hd⟩ := hd
  cases hd
  rfl

def pause : List (Move Client Chance Request) := .arrive 0 (.releaseRam 7) :: List.replicate 4 (.run 0 calm)

theorem accounted_running : Accounted runningStore := accounted_single (by decide) rfl rfl rfl

/-- The project is paused, and the sweep gives the node back the reservation that it has let go of. -/
theorem not_recompute_agrees : Accounted runningStore ∧ runningStore.still ∧
    ∃ g s', (protocol defaults).Reachable FreshBookings runningStore g ∧ (∀ c, g.running c = .done) ∧
    Accounted g.store ∧ recompute onFree 5 0 g.store = some (some ⟨"data-1", 0, 350⟩, s') := by
  have hstill : runningStore.still := ⟨fun _ => rfl, fun _ => rfl⟩
  have h := Protocol.Reachable.start.replay (P := protocol defaults) (s := runningStore) freshBookings_watch pause rfl
  refine ⟨accounted_running, hstill, _, _, h, fun c => ?_, (reservations_hold accounted_running hstill h).1, rfl⟩
  match c with
  | 0 => rfl
  | _ + 1 => rfl

end Examples

end Corebase.ReservationDrift
