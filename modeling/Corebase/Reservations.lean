import Corebase.PlacementSteps
import Mathlib.Algebra.BigOperators.Group.Finset.Basic
import Mathlib.Algebra.Order.BigOperators.Group.Finset

namespace Corebase.Reservations

open Interleaving RowLocks Placement PlacementSteps

/-- What a row books on a node. -/
def load (amount : ProjectDatabase → Int) (n : NodeId) : Option ProjectDatabase → Int
  | some d => if d.nodeId = n then amount d else 0
  | none => 0

/-- What the committed rows book on a node. -/
def booked (amount : ProjectDatabase → Int) (s : Store) (n : NodeId) : Int :=
  ∑ p ∈ s.databases.keys.toFinset, load amount n (s.databases.committed p)

/-- Every node has reserved what the rows on it book, and no row books less than nothing. -/
structure Accounted (s : Store) : Prop where
  housed : Housed (fleet s)
  bookings : ∀ p d, s.databases.committed p = some d → 0 ≤ d.ramBookedMb
  ram : ∀ n v, s.nodes.committed n = some v → v.ramReservedMb = booked (·.ramBookedMb) s n
  disk : ∀ n v, s.nodes.committed n = some v → v.diskReservedGb = booked (·.diskBookedGb) s n

def NonNegative (s : Store) : Prop :=
  ∀ n v, s.nodes.committed n = some v → 0 ≤ v.ramReservedMb ∧ 0 ≤ v.diskReservedGb

/-- No reservation has grown past the placement stop. -/
def WithinCeiling (f f' : Fleet) : Prop :=
  ∀ n v v', f.nodes n = some v → f'.nodes n = some v' →
    (v.ramReservedMb < v'.ramReservedMb → v'.ramReservedMb ≤ ceilingOf v'.ramTotalMb) ∧
    (v.diskReservedGb < v'.diskReservedGb → v'.diskReservedGb ≤ ceilingOf v'.diskTotalGb)

section Sums

variable {amount : ProjectDatabase → Int} {S T : Finset ProjectId} {databases : ProjectId → Option ProjectDatabase}
  {n : NodeId} {p : ProjectId} {d : Option ProjectDatabase}

def total (amount : ProjectDatabase → Int) (S : Finset ProjectId) (databases : ProjectId → Option ProjectDatabase)
    (n : NodeId) : Int := ∑ p ∈ S, load amount n (databases p)

theorem total_update (hp : p ∈ S) : total amount S (Function.update databases p d) n +
    load amount n (databases p) = total amount S databases n + load amount n d := by
  have hnew := Finset.add_sum_erase S (fun q => load amount n (Function.update databases p d q)) hp
  have hold := Finset.add_sum_erase S (fun q => load amount n (databases q)) hp
  have hrest : ∑ q ∈ S.erase p, load amount n (Function.update databases p d q) =
      ∑ q ∈ S.erase p, load amount n (databases q) :=
    Finset.sum_congr rfl fun q hq => by rw [Function.update_of_ne (Finset.ne_of_mem_erase hq)]
  simp only [Function.update_self] at hnew
  unfold total
  omega

/-- The sum does not depend on which projects it runs over, as long as it has all with a row. -/
theorem total_covers (hS : ∀ p, p ∉ S → databases p = none) (hT : ∀ p, p ∉ T → databases p = none) :
    total amount S databases n = total amount T databases n := by
  have hzero : ∀ p, databases p = none → load amount n (databases p) = 0 := fun p hp => by rw [hp]; rfl
  calc total amount S databases n = ∑ p ∈ S ∪ T, load amount n (databases p) :=
        Finset.sum_subset Finset.subset_union_left fun p _ hp => hzero p (hS p hp)
    _ = total amount T databases n :=
        (Finset.sum_subset Finset.subset_union_right fun p _ hp => hzero p (hT p hp)).symm

variable (hpos : ∀ p d, databases p = some d → 0 ≤ amount d)
include hpos

theorem load_nonneg : 0 ≤ load amount n (databases p) := by
  cases hd : databases p with
  | none => exact le_refl 0
  | some d =>
      simp only [load]
      split
      · exact hpos p d hd
      · exact le_refl 0

theorem total_nonneg : 0 ≤ total amount S databases n := Finset.sum_nonneg fun _ _ => load_nonneg hpos

theorem load_le_total (hp : p ∈ S) : load amount n (databases p) ≤ total amount S databases n :=
  Finset.single_le_sum (f := fun q => load amount n (databases q)) (fun _ _ => load_nonneg hpos) hp

end Sums

/-- The same of committed rows with the projects that have one. -/
structure Balanced (S : Finset ProjectId) (f : Fleet) : Prop where
  covers : ∀ p, p ∉ S → f.databases p = none
  bookings : ∀ p d, f.databases p = some d → 0 ≤ d.ramBookedMb
  ram : ∀ n v, f.nodes n = some v → v.ramReservedMb = total (·.ramBookedMb) S f.databases n
  disk : ∀ n v, f.nodes n = some v → v.diskReservedGb = total (·.diskBookedGb) S f.databases n

section Fleets

variable {S : Finset ProjectId} {f f' : Fleet} {s : Store} {n : NodeId} {p : ProjectId} {v w : Node}
  {d : Option ProjectDatabase} {config : Config} {held : NodeId → Prop}

theorem keys_cover (p : ProjectId) (hp : p ∉ s.databases.keys.toFinset) : s.databases.committed p = none := by
  by_contra h
  exact hp (List.mem_toFinset.mpr (s.databases.mem_keys p (.inl h)))

theorem Accounted.balanced (h : Accounted s) : Balanced s.databases.keys.toFinset (fleet s) where
  covers := keys_cover
  bookings := h.bookings
  ram := h.ram
  disk := h.disk

theorem Balanced.accounted (h : Balanced S (fleet s)) (hs : Housed (fleet s)) : Accounted s where
  housed := hs
  bookings := h.bookings
  ram n v hv := (h.ram n v hv).trans (total_covers h.covers keys_cover)
  disk n v hv := (h.disk n v hv).trans (total_covers h.covers keys_cover)

theorem Balanced.widen (h : Balanced S f) (p : ProjectId) : Balanced (insert p S) f := by
  have hcovers : ∀ q, q ∉ insert p S → f.databases q = none :=
    fun q hq => h.covers q fun hqS => hq (Finset.mem_insert_of_mem hqS)
  exact ⟨hcovers, h.bookings, fun n v hv => (h.ram n v hv).trans (total_covers h.covers hcovers),
    fun n v hv => (h.disk n v hv).trans (total_covers h.covers hcovers)⟩

theorem diskBookedGb_pos (d : ProjectDatabase) : 0 < d.diskBookedGb := wholeGb_pos _

theorem Balanced.nonneg (h : Balanced S f) (hv : f.nodes n = some v) : 0 ≤ v.ramReservedMb ∧ 0 ≤ v.diskReservedGb := by
  rw [h.ram n v hv, h.disk n v hv]
  exact ⟨total_nonneg h.bookings, total_nonneg fun _ d _ => (diskBookedGb_pos d).le⟩

/-- A node has reserved at least what any of its rows books. -/
theorem Balanced.covered {row : ProjectDatabase} (h : Balanced S f) (hrow : f.databases p = some row)
    (hv : f.nodes row.nodeId = some v) : row.ramBookedMb ≤ v.ramReservedMb ∧ row.diskBookedGb ≤ v.diskReservedGb := by
  have hp : p ∈ S := by
    by_contra hp
    cases (h.covers p hp).symm.trans hrow
  have hram := load_le_total (n := row.nodeId) h.bookings hp
  have hpos : ∀ q d, f.databases q = some d → 0 ≤ d.diskBookedGb := fun _ d _ => (diskBookedGb_pos d).le
  have hdisk := load_le_total (n := row.nodeId) hpos hp
  rw [← h.ram _ v hv, hrow, load, if_pos rfl] at hram
  rw [← h.disk _ v hv, hrow, load, if_pos rfl] at hdisk
  exact ⟨hram, hdisk⟩

/-- A row and the node it is on change by the same amounts. -/
theorem Balanced.update (h : Balanced S f) (hn : f.nodes n = some v)
    (hpos : ∀ e, d = some e → 0 ≤ e.ramBookedMb)
    (hram : w.ramReservedMb + load (·.ramBookedMb) n (f.databases p) =
      v.ramReservedMb + load (·.ramBookedMb) n d)
    (hdisk : w.diskReservedGb + load (·.diskBookedGb) n (f.databases p) =
      v.diskReservedGb + load (·.diskBookedGb) n d)
    (hother : ∀ amount m, m ≠ n → load amount m d = load amount m (f.databases p)) :
    Balanced (insert p S) ⟨Function.update f.nodes n (some w), Function.update f.databases p d⟩ := by
  have hwide := h.widen p
  have htotal : ∀ amount m, total amount (insert p S) (Function.update f.databases p d) m +
      load amount m (f.databases p) = total amount (insert p S) f.databases m + load amount m d :=
    fun amount m => total_update (Finset.mem_insert_self p S)
  refine ⟨fun q hq => ?_, fun q e he => ?_, fun m u hu => ?_, fun m u hu => ?_⟩
  · have hqp : q ≠ p := by
      rintro rfl
      exact hq (Finset.mem_insert_self q S)
    simpa [Function.update_of_ne hqp] using hwide.covers q hq
  · by_cases hqp : q = p
    · subst hqp
      exact hpos e (by simpa using he)
    · exact h.bookings q e (by simpa [Function.update_of_ne hqp] using he)
  · have hm := htotal (·.ramBookedMb) m
    by_cases hmn : m = n
    · subst hmn
      obtain rfl : w = u := by simpa using hu
      rw [← hwide.ram m v hn] at hm
      dsimp only
      omega
    · rw [hother _ m hmn] at hm
      rw [hwide.ram m u (by simpa [Function.update_of_ne hmn] using hu)]
      dsimp only
      omega
  · have hm := htotal (·.diskBookedGb) m
    by_cases hmn : m = n
    · subst hmn
      obtain rfl : w = u := by simpa using hu
      rw [← hwide.disk m v hn] at hm
      dsimp only
      omega
    · rw [hother _ m hmn] at hm
      rw [hwide.disk m u (by simpa [Function.update_of_ne hmn] using hu)]
      dsimp only
      omega

theorem load_of_ne {amount : ProjectDatabase → Int} {row : ProjectDatabase} (h : n ≠ row.nodeId) :
    load amount n (some row) = 0 := if_neg (Ne.symm h)

theorem credited_ram {row : ProjectDatabase} (hpos : 0 ≤ row.ramBookedMb) (hle : row.ramBookedMb ≤ v.ramReservedMb) :
    (credited v row).ramReservedMb = v.ramReservedMb - row.ramBookedMb := by
  by_cases hbooked : 0 < row.ramBookedMb
  · simp only [credited, if_pos hbooked, withDisk, withRam]
    omega
  · simp only [credited, if_neg hbooked, withDisk]
    omega

theorem credited_disk {row : ProjectDatabase} (hle : row.diskBookedGb ≤ v.diskReservedGb) :
    (credited v row).diskReservedGb = v.diskReservedGb - row.diskBookedGb := by
  by_cases hbooked : 0 < row.ramBookedMb
  · simp only [credited, if_pos hbooked, withDisk, withRam]
    omega
  · simp only [credited, if_neg hbooked, withDisk]
    omega

theorem newRow_books {ref : String} {plan : Plan} {rows : List ProjectDatabase} {row : ProjectDatabase}
    (h : newRow config ref plan n rows = some row) :
    row.ramBookedMb = plan.ramMb ∧ row.diskBookedGb = diskBookingGbFor plan := by
  simp only [newRow, Option.bind_eq_bind, Option.bind_eq_some_iff] at h
  obtain ⟨_, _, _, _, _, _, h⟩ := h
  cases h
  exact ⟨rfl, rfl⟩

theorem Balanced.effect (h : Balanced S f) (he : Effect config True held f f') : ∃ T, Balanced T f' := by
  cases he with
  | none => exact ⟨S, h⟩
  | @place p ref plan n v rows row unplaced node fit hold seen new =>
      obtain ⟨hram, hdisk⟩ := newRow_books new
      refine ⟨_, h.update node (fun e he => ?_) ?_ ?_ fun amount m hm => ?_⟩
      · cases he
        exact hram ▸ plan.ramMb_pos.le
      · simp [load, unplaced, newRow_nodeId new, hram, grown]
      · simp [load, unplaced, newRow_nodeId new, hdisk, grown]
      · rw [load_of_ne (newRow_nodeId new ▸ hm), unplaced]
        rfl
  | @release p row v placed node =>
      have hcovered := h.covered placed node
      refine ⟨_, h.update node (fun e he => nomatch he) ?_ ?_ fun amount m hm => ?_⟩
      · simp [placed, load, credited_ram (h.bookings p row placed) hcovered.1]
      · simp [placed, load, credited_disk hcovered.2]
      · rw [placed, load_of_ne hm]
        rfl
  | @pause p row v placed node running =>
      have hcovered := h.covered placed node
      refine ⟨_, h.update node (fun e he => ?_) ?_ ?_ fun amount m hm => ?_⟩
      · cases he
        exact le_refl 0
      · simp only [placed, load, withRam, rebooked, if_true]
        omega
      · simp [placed, load, withRam, rebooked, ProjectDatabase.diskBookedGb]
      · rw [placed, load_of_ne hm]
        exact load_of_ne hm
  | @book p row n v plan placed node fit fresh =>
      obtain ⟨rfl, hzero⟩ := fresh trivial
      refine ⟨_, h.update node (fun e he => ?_) ?_ ?_ fun amount m hm => ?_⟩
      · cases he
        exact plan.ramMb_pos.le
      · simp [placed, load, grown, rebooked, hzero]
      · simp [placed, load, grown, rebooked, ProjectDatabase.diskBookedGb]
      · rw [placed, load_of_ne hm]
        exact load_of_ne hm
  | leak loose node fit => exact absurd trivial loose

theorem withinCeiling_update (hn : f.nodes n = some v) {databases : ProjectId → Option ProjectDatabase}
    (hram : v.ramReservedMb < w.ramReservedMb → w.ramReservedMb ≤ ceilingOf w.ramTotalMb)
    (hdisk : v.diskReservedGb < w.diskReservedGb → w.diskReservedGb ≤ ceilingOf w.diskTotalGb) :
    WithinCeiling f ⟨Function.update f.nodes n (some w), databases⟩ := by
  intro m u u' hu hu'
  by_cases hm : m = n
  · subst hm
    obtain rfl : v = u := Option.some.inj (hn.symm.trans hu)
    obtain rfl : w = u' := by simpa using hu'
    exact ⟨hram, hdisk⟩
  · obtain rfl : u = u' := Option.some.inj (hu.symm.trans (by simpa [Function.update_of_ne hm] using hu'))
    exact ⟨fun h => absurd h (lt_irrefl _), fun h => absurd h (lt_irrefl _)⟩

theorem Balanced.ceiling (h : Balanced S f) {strict : Prop} (he : Effect config strict held f f') :
    WithinCeiling f f' := by
  cases he with
  | none =>
      intro n v v' hv hv'
      obtain rfl : v = v' := Option.some.inj (hv.symm.trans hv')
      exact ⟨fun h => absurd h (lt_irrefl _), fun h => absurd h (lt_irrefl _)⟩
  | @place p ref plan n v rows row unplaced node fit hold seen new =>
      simp only [fits, Bool.and_eq_true, decide_eq_true_eq] at fit
      change plan.ramMb ≤ _ ∧ diskBookingGbFor plan ≤ _ at fit
      refine withinCeiling_update node (fun _ => ?_) fun _ => ?_
      · simp only [grown]
        omega
      · simp only [grown]
        omega
  | @release p row v placed node =>
      have hcovered := h.covered placed node
      have hbooked := h.bookings p row placed
      have hdisk := diskBookedGb_pos row
      refine withinCeiling_update node (fun hlt => ?_) fun hlt => ?_
      · rw [credited_ram hbooked hcovered.1] at hlt
        omega
      · rw [credited_disk hcovered.2] at hlt
        omega
  | @pause p row v placed node running =>
      have hcovered := h.covered placed node
      refine withinCeiling_update node (fun hlt => ?_) fun hlt => absurd hlt (lt_irrefl _)
      simp only [withRam] at hlt
      omega
  | @book p row n v plan placed node fit fresh =>
      simp only [canFit, decide_eq_true_eq] at fit
      refine withinCeiling_update node (fun _ => ?_) fun hlt => absurd hlt ?_
      · simp only [grown]
        omega
      · simp [grown]
  | @leak n v plan loose node fit =>
      simp only [canFit, decide_eq_true_eq] at fit
      refine withinCeiling_update node (fun _ => ?_) fun hlt => absurd hlt ?_
      · simp only [grown]
        omega
      · simp [grown]

end Fleets

/-- A fleet of one node and one placement on it. -/
theorem accounted_single {row : ProjectDatabase} (hpos : 0 ≤ row.ramBookedMb) (hn : row.nodeId = n)
    (hram : v.ramReservedMb = row.ramBookedMb) (hdisk : v.diskReservedGb = row.diskBookedGb) :
    Accounted ⟨.single n v, .single p row⟩ := by
  have hrow : ∀ q d, (if q = p then some row else none) = some d → d = row := by
    intro q d hd
    obtain ⟨_, hd⟩ := Option.ite_none_right_eq_some.mp hd
    exact (Option.some.inj hd).symm
  have hnode : ∀ m w, (if m = n then some v else none) = some w → m = n ∧ w = v := by
    intro m w hw
    obtain ⟨hm, hw⟩ := Option.ite_none_right_eq_some.mp hw
    exact ⟨hm, (Option.some.inj hw).symm⟩
  refine ⟨fun q d hd => ?_, fun q d hd => ?_, fun m w hw => ?_, fun m w hw => ?_⟩
  · obtain rfl := hrow q d hd
    exact ⟨v, by simp [fleet, Table.single, hn]⟩
  · obtain rfl := hrow q d hd
    exact hpos
  · obtain ⟨rfl, rfl⟩ := hnode m w hw
    simp [booked, Table.single, load, hn, hram]
  · obtain ⟨rfl, rfl⟩ := hnode m w hw
    simp [booked, Table.single, load, hn, hdisk]

section Runs

variable {config : Placement.Config} {s : Store} {g : Interleaving.Config Client Store Op Reply}

/-- In the runs in which every resume books a project that has no booking, on the node that it has
locked, the reservations and the bookings agree, and no reservation grows past the placement stop. -/
theorem reservations_hold (hs : Accounted s) (hstill : s.still)
    (h : (protocol config).Reachable FreshBookings s g) :
    Accounted g.store ∧ NonNegative g.store ∧ ((∀ c, g.running c = .done) → g.store.still) ∧
      ∀ m g', FreshBookings g m → (protocol config).move g m = some g' →
        WithinCeiling (fleet g.store) (fleet g'.store) := by
  obtain ⟨S, hS⟩ := effects_keep (I := fun f => ∃ S, Balanced S f) (fun _ _ _ he ⟨_, hS⟩ => hS.effect he)
    grants_fresh hs.housed hstill ⟨_, hs.balanced⟩ h
  refine ⟨hS.accounted (holds grants_fresh hs.housed hstill h).1, fun n v hv => hS.nonneg hv,
    still_of_done grants_fresh hs.housed hstill h, fun m g' hm hg => ?_⟩
  obtain ⟨held, he⟩ := effect_of_move grants_fresh hs.housed hstill h hm hg
  exact hS.ceiling he

end Runs

section Examples

def node : Node := ⟨"data-1", "eu-central", true, 4096, 0, 200, 1⟩

def pausedRow : ProjectDatabase := ⟨0, "sh-abc-pgdata", 5433, 6433, some 7433, some 7434, 512, 0, 500⟩

def defaults : Placement.Config := ⟨⟨(5433, 6432), (6433, 7432), (7433, 7492)⟩, fun m n => m.1 ≤ n.1⟩

/-- One paused project on one node. -/
def paused : Store := ⟨.single 0 node, .single 7 pausedRow⟩

theorem accounted_paused : Accounted paused := accounted_single (by decide) rfl rfl rfl

def calm : Chance := ⟨fun _ => true, false⟩

/-- A resume, statement by statement. -/
def resume : List (Move Client Chance Request) := .arrive 0 (.bookRam 7 .free) :: List.replicate 5 (.run 0 calm)

theorem reservations_hold_resume : ∃ g, (protocol defaults).Reachable FreshBookings paused g ∧
    Accounted g.store ∧ g.store.nodes.committed 0 = some (grown node 350 0) := by
  have h := Protocol.Reachable.start.replay (P := protocol defaults) (s := paused)
    freshBookings_watch resume rfl
  exact ⟨_, h, (reservations_hold accounted_paused ⟨fun _ => rfl, fun _ => rfl⟩ h).1, rfl⟩

/-- Two resumes of the project that have both read it before one of them has booked it. -/
def resumes : List (Move Client Chance Request) :=
  [.arrive 0 (.bookRam 7 .free), .arrive 1 (.bookRam 7 .free), .run 0 calm, .run 1 calm] ++
    List.replicate 4 (.run 0 calm) ++ List.replicate 4 (.run 1 calm)

theorem not_reservations_hold : Accounted paused ∧ paused.still ∧
    ∃ g, (protocol defaults).Reachable (fun _ _ => True) paused g ∧ (∀ c, g.running c = .done) ∧ ¬ Accounted g.store := by
  refine ⟨accounted_paused, ⟨fun _ => rfl, fun _ => rfl⟩, _, Protocol.Reachable.start.free resumes rfl,
    fun c => ?_, fun h => ?_⟩
  · match c with
    | 0 | 1 => rfl
    | _ + 2 => rfl
  · have hram : (700 : Int) = 350 := h.ram 0 (grown node 700 0) rfl
    exact absurd hram (by decide)

end Examples

end Corebase.Reservations
