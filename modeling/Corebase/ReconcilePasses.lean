import Corebase.Reconciler
import Mathlib.Algebra.Ring.Int.Defs

namespace Corebase.ReconcilePasses

open Interleaving ProvisioningJobs Reconciler
open JobRunner (Time JobState)
open Placement (NodeId Node Plan)

/-- What the projects on a node have booked there. -/
def booked (w : World) (n : NodeId) : Int :=
  (((w.projects.filterMap Project.database).filter fun d => d.node = n).map Database.ramBookedMb).sum

def plansOn (w : World) (n : NodeId) : List Plan :=
  (w.projects.filter fun p => p.database.any fun d => d.node = n).map Project.plan

/-- The containers of each project on its own node match its status, no saga is half-way, the engines have nothing
else, and the books of every node are right. -/
structure Healthy (s : Store) : Prop where
  refs : (s.world.projects.map Project.ref).Nodup
  up : ∀ p ∈ s.world.projects, shouldRun p.status = true → ∃ d, p.database = some d ∧
    runs (s.world.containers d.node) p.ref .database = true ∧ runs (s.world.containers d.node) p.ref .pooler = true ∧
    (d.postgrestPort.isSome = true → runs (s.world.containers d.node) p.ref .postgrest = true)
  down : ∀ p ∈ s.world.projects, shouldNotRun p.status = true → ∀ n, ∀ container ∈ s.world.containers n,
    container.ref = some p.ref → container.running = false
  settled : ∀ p ∈ s.world.projects, transitional p.status = false
  idle : ∀ row ∈ s.jobs, row.2.unfinished = false
  containers : ∀ n, ∀ container ∈ s.world.containers n, unknownRole container = none ∧
    ∃ p ∈ s.world.projects, container.ref = some p.ref ∧ ∃ d, p.database = some d ∧ d.node = n
  volumes : ∀ n, ∀ volume ∈ s.world.volumes n, ∃ p ∈ s.world.projects, volume.ref = some p.ref ∧ p.database.isSome = true
  networks : ∀ n, ∀ network ∈ s.world.networks n,
    ∃ p ∈ s.world.projects, network.ref = some p.ref ∧ p.database.isSome = true
  books : ∀ row ∈ s.world.nodes, row.2.ramReservedMb = booked s.world row.1

/-- But for the report, the pass has done nothing, and the report is clean. -/
structure Quiet (s s' : Store) : Prop where
  world : s'.world = s.world
  jobs : s'.jobs = s.jobs
  deliveries : s'.deliveries = s.deliveries
  touched : s'.touched = s.touched
  reports : s'.reports = [] :: s.reports

/-- Every project that should run is on the node of the engine, and on the nodes that the pass recomputes the plans of
the projects add up to what these have booked. -/
structure Homely (opts : Options) (s : Store) : Prop where
  here : ∀ p ∈ s.world.projects, shouldRun p.status = true → ∃ d, p.database = some d ∧ d.node = opts.here
  planned : ∀ row ∈ s.world.nodes, (opts.hostname.all fun name => row.2.hostname = name) = true →
    Reconciler.expected (plansOn s.world row.1) = booked s.world row.1

variable {opts : Options} {c d : Client} {s s' s₁ : Store} {p : Project} {containers : List Container}
  {ps desired : List Project} {drift : List Drift} {next : List Drift → Program Op Reply} {n : NodeId}

section Alone

theorem entry_some {ref : Ref} {role : ContainerRole} {container : Container} (h : entry containers ref role = some container) :
    container ∈ containers ∧ container.ref = some ref := by
  have hmem := List.mem_of_getLast? h
  obtain ⟨hmem, hplays⟩ := List.mem_filter.mp hmem
  simp only [Container.plays, Bool.and_eq_true, decide_eq_true_eq] at hplays
  exact ⟨hmem, hplays.1⟩

theorem runs_iff {ref : Ref} {role : ContainerRole} : runs containers ref role = true ↔
    ∃ container, entry containers ref role = some container ∧ container.running = true := by
  simp [runs, Option.any_eq_true]

theorem stopIf_quiet {role : ContainerRole} (hquiet : shouldNotRun p.status = true → runs containers p.ref role = false) :
    stopIf n p (entry containers p.ref role) drift next = next drift := by
  unfold stopIf
  split
  next container hfound =>
    obtain ⟨hentry, hrunning⟩ := Option.filter_eq_some_iff.mp hfound
    split
    next hdown =>
      rw [runs_iff.mpr ⟨container, hentry, hrunning⟩] at hquiet
      cases hquiet hdown
    next => rfl
  next => rfl

/-- A project whose containers are as its status wants them makes no drift. -/
theorem checkProject_quiet (hup : shouldRun p.status = true → runs containers p.ref .database = true ∧
      runs containers p.ref .pooler = true ∧
      ((p.database.bind Database.postgrestPort).isSome = true → runs containers p.ref .postgrest = true))
    (hdown : zombie containers p = false) : checkProject opts containers p drift next = next drift := by
  have hstop : ∀ role, role ∈ [ContainerRole.postgrest, .pooler, .database] → shouldNotRun p.status = true →
      runs containers p.ref role = false := by
    intro role hrole hstatus
    simp only [zombie, hstatus, Bool.true_and, List.any_eq_false] at hdown
    simpa using hdown role hrole
  unfold checkProject
  dsimp only
  have hrun : shouldRun p.status = false ∨ shouldRun p.status = true ∧ runs containers p.ref .database = true ∧
      runs containers p.ref .pooler = true ∧
      ((p.database.bind Database.postgrestPort).isSome = true → runs containers p.ref .postgrest = true) := by
    cases hstatus : shouldRun p.status with
    | false => exact .inl rfl
    | true => exact .inr ⟨rfl, hup hstatus⟩
  have hrest : ∀ drift, (stopIf opts.here p (entry containers p.ref .postgrest) drift fun drift =>
      stopIf opts.here p (entry containers p.ref .pooler) drift fun drift =>
      stopIf opts.here p (entry containers p.ref .database) drift next) = next drift := by
    intro drift
    rw [stopIf_quiet (hstop _ (by simp)), stopIf_quiet (hstop _ (by simp)), stopIf_quiet (hstop _ (by simp))]
  rcases hrun with hstatus | ⟨hstatus, hdatabase, hpooler, hpostgrest⟩
  · simp only [repairIf, hstatus, Bool.false_and, Bool.false_eq_true, if_false]
    exact hrest drift
  · have hport : ((p.database.bind Database.postgrestPort).isSome && !runs containers p.ref .postgrest) = false := by
      cases hp : (p.database.bind Database.postgrestPort).isSome with
      | false => rfl
      | true => rw [hpostgrest hp]; rfl
    simp only [repairIf, hstatus, hdatabase, hpooler, hport, Bool.not_true, Bool.and_false, Bool.true_and,
      Bool.false_eq_true, if_false]
    exact hrest drift

theorem checkProjects_quiet (h : ∀ p ∈ ps, ∀ drift next, checkProject opts containers p drift next = next drift) :
    checkProjects opts containers ps drift next = next drift := by
  induction ps with
  | nil => rfl
  | cons p ps ih =>
      rw [checkProjects, h p List.mem_cons_self]
      exact ih fun q hq => h q (List.mem_cons_of_mem _ hq)

theorem Healthy.running (h : Healthy s)
    (hhere : ∀ p ∈ s.world.projects, shouldRun p.status = true → ∃ d, p.database = some d ∧ d.node = opts.here)
    (hp : p ∈ s.world.projects) (hstatus : shouldRun p.status = true) : runs (s.world.containers opts.here) p.ref .database = true ∧
      runs (s.world.containers opts.here) p.ref .pooler = true ∧
      ((p.database.bind Database.postgrestPort).isSome = true →
        runs (s.world.containers opts.here) p.ref .postgrest = true) := by
  obtain ⟨d, hd, hdatabase, hpooler, hpostgrest⟩ := h.up p hp hstatus
  obtain ⟨d', hd', hnode⟩ := hhere p hp hstatus
  obtain rfl : d = d' := Option.some.inj (hd.symm.trans hd')
  rw [hnode] at hdatabase hpooler hpostgrest
  refine ⟨hdatabase, hpooler, fun hport => hpostgrest ?_⟩
  rwa [hd] at hport

theorem Healthy.not_zombie (h : Healthy s) (hp : p ∈ s.world.projects) : zombie (s.world.containers n) p = false := by
  rw [Bool.eq_false_iff]
  intro hzombie
  simp only [zombie, Bool.and_eq_true, List.any_eq_true] at hzombie
  obtain ⟨hstatus, role, -, hruns⟩ := hzombie
  obtain ⟨container, hentry, hrunning⟩ := runs_iff.mp hruns
  obtain ⟨hmem, href⟩ := entry_some hentry
  cases (h.down p hp hstatus n container hmem href).symm.trans hrunning

/-- Whatever is on the engine belongs to a project that the pass knows. -/
theorem Healthy.orphans_nil (h : Healthy s) :
    orphans (s.world.containers n) (s.world.projects.filter fun p => p.status ≠ .deleted || p.database.isSome) = [] := by
  have hknown : ∀ role, ∀ ref ∈ refsOf (s.world.containers n) role,
      ref ∈ (s.world.projects.filter fun p => p.status ≠ .deleted || p.database.isSome).map Project.ref := by
    intro role ref href
    obtain ⟨container, hmem, hcontainer⟩ := List.mem_filterMap.mp (List.mem_eraseDups.mp href)
    obtain ⟨-, p, hp, hp', d, hd, -⟩ := h.containers n container (List.mem_filter.mp hmem).1
    rw [hcontainer] at hp'
    exact List.mem_map.mpr ⟨p, List.mem_filter.mpr ⟨hp, by simp [hd]⟩, (Option.some.inj hp').symm⟩
  rw [orphans, List.map_eq_nil_iff, List.filter_eq_nil_iff]
  intro ref href
  rcases List.mem_append.mp href with href | href
  · simpa only [decide_eq_true_eq, not_not] using hknown _ ref href
  · simpa only [decide_eq_true_eq, not_not] using hknown _ ref href

theorem orphanVolume_nil {volumes : List Volume} {placed : List Ref}
    (h : ∀ volume ∈ volumes, ∃ ref ∈ placed, volume.ref = some ref) : volumes.filterMap (orphanVolume placed) = [] := by
  refine List.filterMap_eq_nil_iff.mpr fun volume hvolume => ?_
  obtain ⟨ref, hplaced, href⟩ := h volume hvolume
  simp [orphanVolume, href, hplaced]

theorem orphanNetwork_nil {networks : List Network} {placed : List Ref}
    (h : ∀ network ∈ networks, ∃ ref ∈ placed, network.ref = some ref) :
    networks.filterMap (orphanNetwork placed) = [] := by
  refine List.filterMap_eq_nil_iff.mpr fun network hnetwork => ?_
  obtain ⟨ref, hplaced, href⟩ := h network hnetwork
  simp [orphanNetwork, href, hplaced]

theorem Healthy.placed (h : Healthy s) {ref : Option Ref}
    (href : ∃ p ∈ s.world.projects, ref = some p.ref ∧ p.database.isSome = true) : ∃ ref' ∈
      (s.world.projects.filter fun p => p.status ≠ .deleted || p.database.isSome).map Project.ref ++
        (s.world.projects.filter fun p => p.database.isSome).map Project.ref, ref = some ref' := by
  obtain ⟨p, hp, rfl, hplaced⟩ := href
  exact ⟨p.ref, List.mem_append_right _ (List.mem_map_of_mem (List.mem_filter.mpr ⟨hp, hplaced⟩)), rfl⟩

theorem Healthy.stuck_nil (h : Healthy s) {after : Time} :
    (s.world.projects.filter fun p => transitional p.status && p.updatedAt + after < s.world.now) = [] := by
  refine List.filter_eq_nil_iff.mpr fun p hp => ?_
  simp [h.settled p hp]

theorem ends_checkNodes {nodes : List (NodeId × Node)}
    (hplanned : ∀ row ∈ nodes, Reconciler.expected (plansOn s.world row.1) = row.2.ramReservedMb)
    (h : reconciler.Ends c (checkNodes nodes drift next) s s') : reconciler.Ends c (next drift) s s' := by
  induction nodes with
  | nil => exact h
  | cons row nodes ih =>
      obtain ⟨_, plans, s₁, hexec, hends⟩ := h
      cases hexec
      have hbooks := hplanned row List.mem_cons_self
      unfold plansOn at hbooks
      dsimp only at hends
      rw [if_neg (not_ne_iff.mpr hbooks)] at hends
      exact ih (fun row hrow => hplanned row (List.mem_cons_of_mem _ hrow)) hends

/-- Over a healthy fleet whose projects run on the node of the engine, a pass only has the books of the nodes to check. -/
theorem ends_books (h : Healthy s)
    (hhere : ∀ p ∈ s.world.projects, shouldRun p.status = true → ∃ d, p.database = some d ∧ d.node = opts.here)
    (hends : reconciler.Ends c (reconcileOnce opts) s s') : ∃ stopping,
      reconciler.Ends c (checkNodes (s.world.nodes.filter fun row => opts.hostname.all fun name => row.2.hostname = name) []
        fun drift => .step (.report drift) fun _ => .done) { s with stopping := stopping } s' := by
  obtain ⟨_, desired, s₁, hexec, hends⟩ := hends
  cases hexec
  obtain ⟨_, containers, s₁, hexec, hends⟩ := hends
  cases hexec
  dsimp only at hends
  rw [checkProjects_quiet fun p hp drift next => checkProject_quiet (h.running hhere (List.mem_filter.mp hp).1)
    (h.not_zombie (List.mem_filter.mp hp).1)] at hends
  have hroles : (s.world.containers opts.here).filterMap unknownRole = [] :=
    List.filterMap_eq_nil_iff.mpr fun container hcontainer => (h.containers _ container hcontainer).1
  rw [hroles, h.orphans_nil] at hends
  obtain ⟨_, volumes, s₁, hexec, hends⟩ := hends
  cases hexec
  obtain ⟨_, placements, s₁, hexec, hends⟩ := hends
  cases hexec
  obtain ⟨_, stuck, s₁, hexec, hends⟩ := hends
  cases hexec
  obtain ⟨_, networks, s₁, hexec, hends⟩ := hends
  cases hexec
  obtain ⟨_, nodes, s₁, hexec, hends⟩ := hends
  cases hexec
  dsimp only at hends
  rw [orphanVolume_nil fun volume hvolume => h.placed (h.volumes _ volume hvolume),
    orphanNetwork_nil fun network hnetwork => h.placed (h.networks _ network hnetwork), h.stuck_nil] at hends
  exact ⟨_, hends⟩

theorem quiet_of_homely (h : Healthy s) (hhome : Homely opts s) (hends : reconciler.Ends c (reconcileOnce opts) s s') :
    Quiet s s' := by
  obtain ⟨stopping, hends⟩ := ends_books h hhome.here hends
  have hreport := ends_checkNodes (s := { s with stopping := stopping }) (fun row hrow =>
    (hhome.planned row (List.mem_filter.mp hrow).1 (List.mem_filter.mp hrow).2).trans
      (h.books row (List.mem_filter.mp hrow).1).symm) hends
  obtain ⟨_, _, s₁, hexec, hdone⟩ := hreport
  cases hexec
  obtain rfl : s' = _ := hdone
  exact ⟨rfl, rfl, rfl, rfl, rfl⟩

end Alone

section Loud

/-- However the program ends, it has not recorded a clean report. -/
def Loud (c : Client) (program : Program Op Reply) : Prop :=
  ∀ s s', reconciler.Ends c program s s' → s'.reports ≠ [] :: s.reports

theorem loud_step {op : Op} {next : Reply op → Program Op Reply}
    (hkeep : ∀ s r s', exec c () op s = some (r, s') → s'.reports = s.reports) (h : ∀ r, Loud c (next r)) :
    Loud c (.step op next) := by
  rintro s s' ⟨chance, r, s₁, hexec, hends⟩
  rw [← hkeep s r s₁ hexec]
  exact h r s₁ s' hends

theorem loud_report (hdrift : drift ≠ []) : Loud c (.step (.report drift) fun _ => .done) := by
  rintro s s' ⟨_, _, s₁, hexec, hdone⟩ hreports
  cases hexec
  obtain rfl : s' = _ := hdone
  exact hdrift (List.cons.inj hreports).1

theorem loud_done : Loud c .done := by
  intro s s' hdone hreports
  obtain rfl : s' = s := hdone
  exact List.cons_ne_self _ _ hreports.symm

theorem loud_enqueueRepair {next : DriftAction → Program Op Reply} {p : ProjectId} (h : ∀ action, Loud c (next action)) :
    Loud c (enqueueRepair opts p next) := by
  refine loud_step (fun s r s' hexec => by cases hexec; split <;> rfl) fun busy => ?_
  split
  · exact h _
  · refine loud_step (fun s r s' hexec => by cases hexec; rfl) fun attempts => ?_
    split
    · exact loud_step (fun s r s' hexec => by cases hexec; rfl) fun _ => h _
    · refine loud_step (fun s r s' hexec => by cases hexec; rfl) fun inserted => ?_
      split
      · exact loud_step (fun s r s' hexec => by cases hexec; rfl) fun _ => h _
      · exact h _

variable {A : List Drift → Prop}

theorem loud_repairIf {adrift : Bool} {kind : DriftClass} (hgrow : ∀ drift x, A drift → A (drift ++ [x]))
    (hnext : ∀ drift, A drift → Loud c (next drift)) (hA : A drift) :
    Loud c (repairIf adrift opts p kind drift next) := by
  unfold repairIf
  split
  · exact loud_enqueueRepair fun action => hnext _ (hgrow _ _ hA)
  · exact hnext _ hA

theorem loud_stopIf {found : Option Container} (hgrow : ∀ drift x, A drift → A (drift ++ [x]))
    (hnext : ∀ drift, A drift → Loud c (next drift)) (hA : A drift) : Loud c (stopIf n p found drift next) := by
  unfold stopIf
  split
  · split
    · exact loud_step (fun s r s' hexec => by cases hexec; rfl) fun _ => hnext _ (hgrow _ _ hA)
    · exact hnext _ hA
  · exact hnext _ hA

theorem loud_checkProject (hgrow : ∀ drift x, A drift → A (drift ++ [x])) (hnext : ∀ drift, A drift → Loud c (next drift))
    (hA : A drift) : Loud c (checkProject opts containers p drift next) :=
  loud_repairIf hgrow (fun _ hA => loud_repairIf hgrow (fun _ hA => loud_repairIf hgrow (fun _ hA =>
    loud_stopIf hgrow (fun _ hA => loud_stopIf hgrow (fun _ hA => loud_stopIf hgrow hnext hA) hA) hA) hA) hA) hA

theorem grow_ne_nil (drift : List Drift) (x : Drift) (_ : drift ≠ []) : drift ++ [x] ≠ [] := by simp

theorem loud_checkProjects (hnext : ∀ drift, drift ≠ [] → Loud c (next drift)) (hdrift : drift ≠ []) :
    Loud c (checkProjects opts containers ps drift next) := by
  induction ps generalizing drift with
  | nil => exact hnext drift hdrift
  | cons p ps ih => exact loud_checkProject grow_ne_nil (fun drift hdrift => ih hdrift) hdrift

/-- A project without a container that its status wants is in the report. -/
theorem loud_adrift (hp : p ∈ ps) (hstatus : shouldRun p.status = true) (hdown : runs containers p.ref .database = false)
    (hnext : ∀ drift, drift ≠ [] → Loud c (next drift)) : Loud c (checkProjects opts containers ps drift next) := by
  induction ps generalizing drift with
  | nil => cases hp
  | cons q ps ih =>
      rcases List.mem_cons.mp hp with rfl | hp
      · unfold checkProjects checkProject repairIf
        simp only [hstatus, hdown, Bool.not_false, Bool.and_self, if_true]
        refine loud_enqueueRepair fun action => ?_
        exact loud_repairIf grow_ne_nil (fun _ h => loud_repairIf grow_ne_nil (fun _ h => loud_stopIf grow_ne_nil (fun _ h =>
          loud_stopIf grow_ne_nil (fun _ h => loud_stopIf grow_ne_nil (fun _ h => loud_checkProjects hnext h) h) h) h) h)
          (by simp)
      · exact loud_checkProject (A := fun _ => True) (fun _ _ _ => trivial) (fun _ _ => ih hp) trivial

theorem setReserved_reports {mb : Int} {taken : Bool} (hexec : exec c () (.setReserved n mb) s = some (taken, s')) :
    s'.reports = s.reports := by
  simp only [exec] at hexec
  split at hexec <;> cases hexec <;> rfl

theorem loud_checkNodes {nodes : List (NodeId × Node)} (hdrift : drift ≠ []) :
    Loud c (checkNodes nodes drift fun drift => .step (.report drift) fun _ => .done) := by
  induction nodes generalizing drift with
  | nil => exact loud_report hdrift
  | cons row nodes ih =>
      refine loud_step (fun s r s' hexec => by cases hexec; rfl) fun plans => ?_
      split
      · refine loud_step (fun s r s' hexec => setReserved_reports hexec) fun taken => ?_
        split
        · exact ih (grow_ne_nil _ _ hdrift)
        · exact loud_done
      · exact ih hdrift

theorem loud_checkNode (hdrift : drift ≠ []) : Loud c (checkNode opts desired drift) := by
  refine loud_step (fun s r s' hexec => by cases hexec; rfl) fun volumes => ?_
  refine loud_step (fun s r s' hexec => by cases hexec; rfl) fun placements => ?_
  refine loud_step (fun s r s' hexec => by cases hexec; rfl) fun stuck => ?_
  refine loud_step (fun s r s' hexec => by cases hexec; rfl) fun networks => ?_
  refine loud_step (fun s r s' hexec => by cases hexec; rfl) fun nodes => ?_
  exact loud_checkNodes (by simp [hdrift])

/-- A node whose books do not add up fails the pass or is in its report. -/
theorem loud_books {nodes : List (NodeId × Node)} {row : NodeId × Node} (hrow : row ∈ nodes)
    (hbooks : Reconciler.expected (plansOn s.world row.1) ≠ row.2.ramReservedMb)
    (hends : reconciler.Ends c (checkNodes nodes drift fun drift => .step (.report drift) fun _ => .done) s s') :
    s'.reports ≠ [] :: s.reports := by
  induction nodes with
  | nil => cases hrow
  | cons first nodes ih =>
      obtain ⟨_, plans, s₁, hexec, hends⟩ := hends
      cases hexec
      dsimp only at hends
      split at hends
      next =>
        obtain ⟨_, taken, s₂, hexec, hends⟩ := hends
        have hrest : Loud c (if taken = true then checkNodes nodes (drift ++ [⟨.reservationDrift, none, .recomputed⟩])
            fun drift => .step (.report drift) fun _ => .done else .done) := by
          split
          · exact loud_checkNodes (by simp)
          · exact loud_done
        rw [← setReserved_reports (c := c) hexec]
        exact hrest _ _ hends
      next heq =>
        rcases List.mem_cons.mp hrow with rfl | hrow
        · cases hbooks (not_not.mp heq)
        · exact ih hrow hends

theorem exists_ends (program : Program Op Reply) (s : Store) : ∃ s', reconciler.Ends c program s s' := by
  induction program generalizing s with
  | done => exact ⟨s, rfl⟩
  | step op next ih =>
      have htotal : ∃ r s₁, exec c () op s = some (r, s₁) := by
        cases op <;> first | exact ⟨_, _, rfl⟩ | (simp only [exec]; split <;> exact ⟨_, _, rfl⟩)
      obtain ⟨r, s₁, hexec⟩ := htotal
      obtain ⟨s', hends⟩ := ih r s₁
      exact ⟨s', (), r, s₁, hexec, hends⟩

theorem homely_of_quiet (h : Healthy s) (hquiet : ∀ s', reconciler.Ends c (reconcileOnce opts) s s' → Quiet s s') :
    Homely opts s := by
  obtain ⟨s', hends⟩ := exists_ends (reconcileOnce opts) s
  have hreports := (hquiet s' hends).reports
  have hhere : ∀ p ∈ s.world.projects, shouldRun p.status = true → ∃ d, p.database = some d ∧ d.node = opts.here := by
    intro p hp hstatus
    by_contra haway
    obtain ⟨d, hd, -⟩ := h.up p hp hstatus
    have hdown : runs (s.world.containers opts.here) p.ref .database = false := by
      rw [Bool.eq_false_iff]
      intro hruns
      obtain ⟨container, hentry, -⟩ := runs_iff.mp hruns
      obtain ⟨hmem, href⟩ := entry_some hentry
      obtain ⟨-, q, hq, href', d', hd', hnode⟩ := h.containers _ container hmem
      obtain rfl : p = q := List.inj_on_of_nodup_map h.refs hp hq (Option.some.inj (href.symm.trans href'))
      exact haway ⟨d', hd', hnode⟩
    obtain ⟨_, rows, s₁, hexec, hends⟩ := hends
    cases hexec
    obtain ⟨_, containers, s₁, hexec, hends⟩ := hends
    cases hexec
    refine loud_adrift (List.mem_filter.mpr ⟨hp, by simp [hd]⟩) hstatus hdown (fun drift hdrift => ?_) _ _ hends hreports
    exact loud_checkNode (by simp [hdrift])
  refine ⟨hhere, fun row hrow hname => ?_⟩
  by_contra hbooks
  obtain ⟨stopping, hends⟩ := ends_books h hhere hends
  exact loud_books (s := { s with stopping := stopping }) (List.mem_filter.mpr ⟨hrow, hname⟩)
    (fun heq => hbooks (heq.trans (h.books row hrow))) hends hreports

end Loud

section Sagas

/-- A pass stops a container, or inserts a repair. -/
def Touching : Op → Store → Prop
  | .stopContainer _ p _, s | .insertRepair p _, s => s.working p = false
  | _, _ => True

/-- A pass that finds containers of a project running against its status finds no saga running for it, and no saga starts
to run for a project that a pass is about to stop or to repair. -/
def undisturbed (_ : Client) : Op → Store → Bool
  | .listContainers n desired, s => (desired.filter (zombie (s.world.containers n))).all fun p => !s.working p.id
  | .work key state, s => state ≠ .running ||
      s.jobs.all fun row => row.1 ≠ key || (s.stopping ++ s.repairing).all fun aim => aim.2 ≠ row.2.project
  | _, _ => true

structure Aims (s : Store) : Prop where
  stopping : ∀ aim ∈ s.stopping, s.working aim.2 = false
  repairing : ∀ aim ∈ s.repairing, s.working aim.2 = false
  touched : ∀ touch ∈ s.touched, touch.saga = false

/-- What a client leaves of the aims of the others. -/
structure Leaves (c : Client) (s s' : Store) : Prop where
  stopping : ∀ d, d ≠ c → ∀ p, (d, p) ∈ s.stopping → (d, p) ∈ s'.stopping
  repairing : ∀ d, d ≠ c → ∀ p, (d, p) ∈ s.repairing → (d, p) ∈ s'.repairing

def Undisturbed : Config Client Store Op Reply → Move Client Unit Request → Prop :=
  Protocol.Statements fun c op s => undisturbed c op s = true

def discipline : Discipline Client Store Op where
  Inv := Aims
  Guar := Leaves
  Idle _ _ := True
  Allowed c op s := undisturbed c op s = true

theorem Leaves.refl (c : Client) (s : Store) : Leaves c s s := ⟨fun _ _ _ => id, fun _ _ _ => id⟩

theorem working_insert {key : Key} {p q : ProjectId} {kind : JobType} {at' : Time} (h : s.working q = false) :
    ((s.jobs.insert key ⟨p, kind, .pending, at'⟩).2.any fun row => row.2.project = q && row.2.state = .running) = false := by
  obtain ⟨-, heq⟩ | ⟨-, heq⟩ := Jobs.insert_cases s.jobs key ⟨p, kind, .pending, at'⟩
  · rw [heq]
    exact h
  · rw [heq, List.any_cons]
    simp only [reduceCtorEq, decide_false, Bool.and_false, Bool.false_or]
    exact h

theorem working_setState {key : Key} {state : JobState} {q : ProjectId} (h : s.working q = false)
    (hfree : state = .running → ∀ row ∈ s.jobs, row.1 = key → q ≠ row.2.project) :
    ((s.jobs.setState key state).any fun row => row.2.project = q && row.2.state = .running) = false := by
  simp only [Store.working, List.any_eq_false, Bool.and_eq_true, decide_eq_true_eq, not_and] at h
  simp only [Jobs.setState, List.any_map, List.any_eq_false, Function.comp_apply]
  intro row hrow
  split
  next hkey =>
    simp only [Bool.and_eq_true, decide_eq_true_eq, not_and]
    exact fun hproject hrunning => hfree hrunning row hrow hkey hproject.symm
  next => simpa using h row hrow

theorem not_working_of_unfinished {p : ProjectId} (h : s.unfinished p = 0) : s.working p = false := by
  simp only [Store.unfinished, List.countP_eq_zero, Bool.and_eq_true, decide_eq_true_eq, not_and] at h
  simp only [Store.working, List.any_eq_false, Bool.and_eq_true, decide_eq_true_eq, not_and]
  intro row hrow hproject hrunning
  exact h row hrow hproject (by simp [Job.unfinished, hrunning])

theorem exec_aims {op : Op} {r : Reply op} (hI : Aims s) (hok : undisturbed c op s = true) (hsafe : Touching op s)
    (hexec : exec c () op s = some (r, s')) : Aims s' ∧ Leaves c s s' := by
  cases op with
  | desired | recent | listVolumes | placements | stuck | listNetworks | nodes | plansOn =>
      cases hexec
      exact ⟨hI, .refl c s⟩
  | listContainers n desired =>
      cases hexec
      simp only [undisturbed, List.all_eq_true, Bool.not_eq_true'] at hok
      refine ⟨⟨fun aim haim => ?_, hI.repairing, hI.touched⟩, fun d _ p hp => List.mem_append_right _ hp, fun _ _ _ => id⟩
      rcases List.mem_append.mp haim with haim | haim
      · obtain ⟨p, hp, rfl⟩ := List.mem_map.mp haim
        exact hok p hp
      · exact hI.stopping aim haim
  | busy p =>
      cases hexec
      split
      next hbusy =>
        refine ⟨⟨hI.stopping, fun aim haim => ?_, hI.touched⟩, fun _ _ _ => id, fun d _ q hq => List.mem_cons_of_mem _ hq⟩
        rcases List.mem_cons.mp haim with rfl | haim
        · exact not_working_of_unfinished hbusy
        · exact hI.repairing aim haim
      next => exact ⟨hI, .refl c s⟩
  | fail p =>
      cases hexec
      refine ⟨⟨hI.stopping, fun aim haim => hI.repairing aim (List.mem_of_mem_filter haim), hI.touched⟩,
        fun _ _ _ => id, fun d hd q hq => List.mem_filter.mpr ⟨hq, by simp [hd]⟩⟩
  | insertRepair p attempts =>
      cases hexec
      refine ⟨⟨fun aim haim => working_insert (hI.stopping aim haim),
        fun aim haim => working_insert (hI.repairing aim (List.mem_of_mem_filter haim)), fun touch htouch => ?_⟩,
        fun _ _ _ => id, fun d hd q hq => List.mem_filter.mpr ⟨hq, by simp [hd]⟩⟩
      dsimp only at htouch
      split at htouch
      · rcases List.mem_cons.mp htouch with rfl | htouch
        · exact hsafe
        · exact hI.touched touch htouch
      · exact hI.touched touch htouch
  | enqueue key =>
      cases hexec
      exact ⟨⟨hI.stopping, hI.repairing, hI.touched⟩, fun _ _ _ => id, fun _ _ _ => id⟩
  | stopContainer n p container =>
      cases hexec
      refine ⟨⟨hI.stopping, hI.repairing, fun touch htouch => ?_⟩, fun _ _ _ => id, fun _ _ _ => id⟩
      rcases List.mem_cons.mp htouch with rfl | htouch
      · exact hsafe
      · exact hI.touched touch htouch
  | setReserved n mb =>
      simp only [exec] at hexec
      split at hexec <;> cases hexec
      · exact ⟨hI, .refl c s⟩
      · exact ⟨⟨hI.stopping, hI.repairing, hI.touched⟩, fun _ _ _ => id, fun _ _ _ => id⟩
  | report drift =>
      cases hexec
      exact ⟨⟨fun aim haim => hI.stopping aim (List.mem_of_mem_filter haim), hI.repairing, hI.touched⟩,
        fun d hd q hq => List.mem_filter.mpr ⟨hq, by simp [hd]⟩, fun _ _ _ => id⟩
  | create key p kind =>
      cases hexec
      exact ⟨⟨fun aim haim => working_insert (hI.stopping aim haim),
        fun aim haim => working_insert (hI.repairing aim haim), hI.touched⟩, fun _ _ _ => id, fun _ _ _ => id⟩
  | work key state =>
      cases hexec
      simp only [undisturbed, Bool.or_eq_true, decide_eq_true_eq, List.all_eq_true, List.mem_append] at hok
      have hfree : ∀ aim, aim ∈ s.stopping ∨ aim ∈ s.repairing → state = .running → ∀ row ∈ s.jobs, row.1 = key →
          aim.2 ≠ row.2.project := by
        intro aim haim hrunning row hrow hkey
        rcases hok with hidle | hok
        · exact absurd hrunning hidle
        · exact (hok row hrow).resolve_left (not_not.mpr hkey) aim haim
      exact ⟨⟨fun aim haim => working_setState (hI.stopping aim haim) (hfree aim (.inl haim)),
        fun aim haim => working_setState (hI.repairing aim haim) (hfree aim (.inr haim)), hI.touched⟩,
        fun _ _ _ => id, fun _ _ _ => id⟩
  | change world =>
      cases hexec
      exact ⟨⟨hI.stopping, hI.repairing, hI.touched⟩, fun _ _ _ => id, fun _ _ _ => id⟩

/-- The pass knows of each of the projects that no saga is to start to run for it. -/
def Aimed (c : Client) (aims : List ProjectId) (s : Store) : Prop := ∀ p ∈ aims, (c, p) ∈ s.stopping

theorem stable_aimed (aims : List ProjectId) : discipline.Stable c (Aimed c aims) :=
  fun _ hd _ _ _ hleaves h p hp => hleaves.stopping c hd.symm p (h p hp)

theorem stable_repairing {p : ProjectId} : discipline.Stable c fun s => (c, p) ∈ s.repairing :=
  fun _ hd _ _ _ hleaves h => hleaves.repairing c hd.symm p h

/-- A statement of a pass that leaves the aims of the pass. -/
theorem meets_step {aims : List ProjectId} {op : Op} {next : Reply op → Program Op Reply} {Q : Store → Prop}
    (hQ : ∀ s, Q s → Aimed c aims s) (hsafe : ∀ s, Aims s → Q s → Touching op s)
    (hkeep : ∀ s r s', exec c () op s = some (r, s') → ∀ p, (c, p) ∈ s.stopping → (c, p) ∈ s'.stopping)
    (hnext : ∀ r, discipline.Meets reconciler c (next r) (Aimed c aims)) :
    discipline.Meets reconciler c (.step op next) Q := by
  intro s _ r s' hI hq hok hexec
  obtain ⟨hI', hleaves⟩ := exec_aims hI hok (hsafe s hI hq) hexec
  exact ⟨hI', hleaves, _, stable_aimed aims, fun p hp => hkeep s r s' hexec p (hQ s hq p hp), hnext r⟩

theorem meets_enqueueRepair {aims : List ProjectId} {p : ProjectId} {next : DriftAction → Program Op Reply}
    (hnext : ∀ action, discipline.Meets reconciler c (next action) (Aimed c aims)) :
    discipline.Meets reconciler c (enqueueRepair opts p next) (Aimed c aims) := by
  intro s _ busy s₁ hI hq hok hexec
  obtain ⟨hI₁, hleaves⟩ := exec_aims hI hok trivial hexec
  cases hexec
  by_cases hfree : s.unfinished p = 0
  · rw [if_pos hfree] at hI₁ hleaves ⊢
    simp only [hfree, Nat.lt_irrefl, if_false]
    refine ⟨hI₁, hleaves, _, (stable_aimed aims).and stable_repairing, ⟨hq, List.mem_cons_self⟩, ?_⟩
    -- no saga runs for the project until the repair is in the table
    intro s _ attempts s' hI hq hok hexec
    obtain ⟨hI', hleaves⟩ := exec_aims hI hok trivial hexec
    cases hexec
    refine ⟨hI', hleaves, _, (stable_aimed aims).and stable_repairing, hq, ?_⟩
    dsimp only
    split
    · exact meets_step (fun s h => h.1) (fun _ _ _ => trivial) (fun s _ _ hexec q hq => by cases hexec; exact hq)
        fun _ => hnext _
    · refine meets_step (fun s h => h.1) (fun s hI h => hI.repairing _ h.2)
        (fun s _ _ hexec q hq => by cases hexec; exact hq) fun inserted => ?_
      split
      · exact meets_step (fun s h => h) (fun _ _ _ => trivial) (fun s _ _ hexec q hq => by cases hexec; exact hq)
          fun _ => hnext _
      · exact hnext _
  · rw [if_neg hfree] at hI₁ hleaves ⊢
    simp only [Nat.pos_of_ne_zero hfree, if_true]
    exact ⟨hI₁, hleaves, _, stable_aimed aims, hq, hnext _⟩

theorem meets_repairIf {aims : List ProjectId} {adrift : Bool} {kind : DriftClass}
    (hnext : ∀ drift, discipline.Meets reconciler c (next drift) (Aimed c aims)) :
    discipline.Meets reconciler c (repairIf adrift opts p kind drift next) (Aimed c aims) := by
  unfold repairIf
  split
  · exact meets_enqueueRepair fun action => hnext _
  · exact hnext _

theorem meets_stopIf {aims : List ProjectId} {found : Option Container}
    (haim : shouldNotRun p.status = true → (found.any Container.running) = true → p.id ∈ aims)
    (hnext : ∀ drift, discipline.Meets reconciler c (next drift) (Aimed c aims)) :
    discipline.Meets reconciler c (stopIf n p found drift next) (Aimed c aims) := by
  unfold stopIf
  split
  next container hfound =>
    obtain ⟨hsome, hrunning⟩ := Option.filter_eq_some_iff.mp hfound
    split
    next hdown =>
      have hmem : p.id ∈ aims := haim hdown (by rw [hsome]; exact hrunning)
      exact meets_step (fun s h => h) (fun s hI h => hI.stopping _ (h p.id hmem))
        (fun s _ _ hexec q hq => by cases hexec; exact hq) fun _ => hnext _
    next => exact hnext _
  next => exact hnext _

theorem meets_checkProject {aims : List ProjectId} (haim : zombie containers p = true → p.id ∈ aims)
    (hnext : ∀ drift, discipline.Meets reconciler c (next drift) (Aimed c aims)) :
    discipline.Meets reconciler c (checkProject opts containers p drift next) (Aimed c aims) := by
  have hstop : ∀ role ∈ [ContainerRole.postgrest, .pooler, .database], shouldNotRun p.status = true →
      ((entry containers p.ref role).any Container.running) = true → p.id ∈ aims := by
    intro role hrole hdown hruns
    refine haim ?_
    simp only [zombie, hdown, Bool.true_and, List.any_eq_true]
    exact ⟨role, hrole, hruns⟩
  unfold checkProject
  dsimp only
  refine meets_repairIf fun _ => meets_repairIf fun _ => meets_repairIf fun _ => ?_
  refine meets_stopIf (hstop .postgrest (by simp)) fun _ => ?_
  refine meets_stopIf (hstop .pooler (by simp)) fun _ => ?_
  exact meets_stopIf (hstop .database (by simp)) hnext

theorem meets_checkProjects {aims : List ProjectId} (haim : ∀ p ∈ ps, zombie containers p = true → p.id ∈ aims)
    (hnext : ∀ drift, discipline.Meets reconciler c (next drift) (Aimed c aims)) :
    discipline.Meets reconciler c (checkProjects opts containers ps drift next) (Aimed c aims) := by
  induction ps generalizing drift with
  | nil => exact hnext drift
  | cons p ps ih =>
      exact meets_checkProject (haim p List.mem_cons_self) fun drift =>
        ih fun q hq => haim q (List.mem_cons_of_mem _ hq)

/-- A statement after the one that looks for the projects to stop. -/
def Harmless : Op → Prop
  | .stopContainer .. | .insertRepair .. => False
  | _ => True

theorem meets_harmless {program : Program Op Reply} (h : program.Only Harmless) (Q : Store → Prop) :
    discipline.Meets reconciler c program Q := by
  refine Discipline.Meets.of_only h (fun _ _ => trivial) (fun _ op s r s' hop hI hok hexec => ?_) Q
  refine exec_aims hI hok ?_ hexec
  cases op <;> trivial

theorem harmless_step {op : Op} (h : Harmless op) : (Program.step op fun _ => .done : Program Op Reply).Only Harmless :=
  ⟨h, fun _ => trivial⟩

theorem checkNodes_harmless {nodes : List (NodeId × Node)} :
    (checkNodes nodes drift fun drift => .step (.report drift) fun _ => .done).Only Harmless := by
  induction nodes generalizing drift with
  | nil => exact ⟨trivial, fun _ => trivial⟩
  | cons row nodes ih =>
      refine ⟨trivial, fun plans => ?_⟩
      dsimp only
      split
      · refine ⟨trivial, fun taken => ?_⟩
        dsimp only
        split
        · exact ih
        · trivial
      · exact ih

theorem checkNode_harmless : (checkNode opts desired drift).Only Harmless :=
  ⟨trivial, fun _ => ⟨trivial, fun _ => ⟨trivial, fun _ => ⟨trivial, fun _ => ⟨trivial, fun _ => checkNodes_harmless⟩⟩⟩⟩⟩

theorem meets_reconcileOnce : discipline.Meets reconciler c (reconcileOnce opts) fun _ => True := by
  intro s _ desired s₁ hI _ hok hexec
  obtain ⟨hI₁, hleaves⟩ := exec_aims hI hok trivial hexec
  refine ⟨hI₁, hleaves, _, Discipline.stable_true, trivial, ?_⟩
  intro s _ containers s' hI _ hok hexec
  obtain ⟨hI', hleaves⟩ := exec_aims hI hok trivial hexec
  cases hexec
  refine ⟨hI', hleaves, _, stable_aimed ((desired.filter (zombie (s.world.containers opts.here))).map Project.id),
    fun p hp => ?_, meets_checkProjects (fun p hp hzombie => ?_) fun drift => meets_harmless checkNode_harmless _⟩
  · obtain ⟨project, hproject, rfl⟩ := List.mem_map.mp hp
    exact List.mem_append_left _ (List.mem_map.mpr ⟨project, hproject, rfl⟩)
  · exact List.mem_map_of_mem (List.mem_filter.mpr ⟨hp, hzombie⟩)

theorem sound : discipline.Sound reconciler where
  idle _ := Discipline.stable_true
  abort c s hI _ := ⟨⟨fun aim haim => hI.stopping aim (List.mem_of_mem_filter haim),
    fun aim haim => hI.repairing aim (List.mem_of_mem_filter haim), hI.touched⟩,
    ⟨fun d hd q hq => List.mem_filter.mpr ⟨hq, by simp [hd]⟩, fun d hd q hq => List.mem_filter.mpr ⟨hq, by simp [hd]⟩⟩,
    trivial⟩
  program c q := by
    cases q with
    | reconcile opts => exact meets_reconcileOnce
    | create key p kind => exact meets_harmless (harmless_step (show Harmless (.create key p kind) from trivial)) _
    | work key state => exact meets_harmless (harmless_step (show Harmless (.work key state) from trivial)) _
    | change world => exact meets_harmless (harmless_step (show Harmless (.change world) from trivial)) _

end Sagas

/-- Nothing has been stopped or repaired yet, and nothing is about to be. -/
def unaimed (s : Store) : Prop := s.stopping = [] ∧ s.repairing = [] ∧ s.touched = []

/-- From a store in which no pass is under way, a pass alone over a healthy fleet does nothing just when the fleet is the
one of its engine. As long as no saga runs for a project that is found running against its status, or that a pass is about
to stop or repair, no pass touches a project that a saga is working on. -/
theorem reconcile_quiet {s₀ : Store} {g : Config Client Store Op Reply} (hs : unaimed s₀)
    (h : reconciler.Reachable Undisturbed s₀ g) :
    (∀ touch ∈ g.store.touched, touch.saga = false) ∧
      ∀ c opts, Healthy g.store →
        ((∀ s', reconciler.Ends c (reconcileOnce opts) g.store s' → Quiet g.store s') ↔ Homely opts g.store) := by
  obtain ⟨hstopping, hrepairing, htouched⟩ := hs
  have hI : Aims s₀ := ⟨by simp [hstopping], by simp [hrepairing], by simp [htouched]⟩
  have hholds := sound.reachable (Discipline.grants_statements fun _ _ => trivial) hI (fun _ => trivial) h
  exact ⟨hholds.1.touched, fun c opts hhealthy =>
    ⟨homely_of_quiet hhealthy, fun hhome s' => quiet_of_homely hhealthy hhome⟩⟩

section Examples

def alone : Options := ⟨1, none, 5, 3600, 1800⟩

def nodeOf (n : NodeId) (mb : Int) : NodeId × Node := (n, ⟨"node", "region", true, 8000, mb, 100, 10⟩)

def projectOn (n : NodeId) (id : ProjectId) (status : ProjectStatus) : Project :=
  ⟨id, id, status, .free, 0, some ⟨n, none, 350⟩⟩

/-- A ready project on a node, and another project there whose container runs. -/
def fleet (n : NodeId) (status : ProjectStatus) (jobs : Jobs) : Store :=
  { world :=
      { now := 9000
        projects := [projectOn n 1 .ready, projectOn n 2 status]
        nodes := [nodeOf 1 (if n = 1 then 700 else 0), nodeOf 2 (if n = 2 then 700 else 0)]
        containers := fun node => if node = n then
          [⟨1, some 1, some .database, true⟩, ⟨2, some 1, some .pooler, true⟩, ⟨3, some 2, some .database, true⟩] else []
        volumes := fun _ => []
        networks := fun _ => [] }
    jobs := jobs, deliveries := [], reports := [], stopping := [], repairing := [], touched := [] }

theorem healthy_fleet {n : NodeId} (hn : n = 1 ∨ n = 2) (hjobs : s.jobs = [])
    (hprojects : s.world.projects = [projectOn n 1 .ready, projectOn n 2 .softDeleted])
    (hnodes : s.world.nodes = [nodeOf 1 (if n = 1 then 700 else 0), nodeOf 2 (if n = 2 then 700 else 0)])
    (hcontainers : ∀ m, s.world.containers m = if m = n then
      [⟨1, some 1, some .database, true⟩, ⟨2, some 1, some .pooler, true⟩, ⟨3, some 2, some .database, false⟩] else [])
    (hvolumes : ∀ m, s.world.volumes m = []) (hnetworks : ∀ m, s.world.networks m = []) : Healthy s where
  refs := by rw [hprojects]; exact (by decide : [1, 2].Nodup)
  up := by
    simp only [hprojects, hcontainers, List.forall_mem_cons, projectOn]
    refine ⟨fun _ => ⟨⟨n, none, 350⟩, rfl, ?_⟩, (fun hstatus => by cases hstatus), fun _ hp => absurd hp List.not_mem_nil⟩
    rw [if_pos rfl]
    exact ⟨by decide, by decide, fun hport => by cases hport⟩
  down := by
    simp only [hprojects, hcontainers, List.forall_mem_cons, projectOn]
    refine ⟨(fun hstatus => by cases hstatus), fun _ m container hmem href => ?_, fun _ hp => absurd hp List.not_mem_nil⟩
    split at hmem
    · rcases hmem with _ | ⟨_, _ | ⟨_, _ | ⟨_, hmem⟩⟩⟩
      · cases href
      · cases href
      · rfl
      · cases hmem
    · cases hmem
  settled := by
    simp only [hprojects, List.forall_mem_cons, projectOn]
    exact ⟨rfl, rfl, fun _ hp => absurd hp List.not_mem_nil⟩
  idle := by simp [hjobs]
  containers := by
    simp only [hprojects, hcontainers]
    intro m container hmem
    split at hmem
    next hm =>
      refine ⟨?_, ?_⟩
      · rcases hmem with _ | ⟨_, _ | ⟨_, _ | ⟨_, hmem⟩⟩⟩
        · rfl
        · rfl
        · rfl
        · cases hmem
      · rcases hmem with _ | ⟨_, _ | ⟨_, _ | ⟨_, hmem⟩⟩⟩
        · exact ⟨_, .head _, rfl, _, rfl, hm.symm⟩
        · exact ⟨_, .head _, rfl, _, rfl, hm.symm⟩
        · exact ⟨_, .tail _ (.head _), rfl, _, rfl, hm.symm⟩
        · cases hmem
    next => cases hmem
  volumes := by simp [hvolumes]
  networks := by simp [hnetworks]
  books := by
    simp only [booked, hprojects, hnodes]
    rcases hn with rfl | rfl <;> decide

theorem undisturbed_watch (g : Config Client Store Op Reply) (m : Move Client Unit Request)
    (hm : Protocol.watch undisturbed g m = true) : Undisturbed g m := Protocol.statements_watch (fun _ _ _ => id) g m hm

/-- The fleet without the container of its deleted project. -/
def stopped (n : NodeId) : Store :=
  { fleet n .softDeleted [] with world := (fleet n .softDeleted []).world.stop n 3 }

/-- The same as a pass leaves it that has stopped the container. -/
def swept : Store := { stopped 1 with reports := [[⟨.zombieContainer, some 2, .stopped⟩]], touched := [⟨2, false⟩] }

theorem stopped_containers {n : NodeId} (m : NodeId) : (stopped n).world.containers m = if m = n then
    [⟨1, some 1, some .database, true⟩, ⟨2, some 1, some .pooler, true⟩, ⟨3, some 2, some .database, false⟩] else [] := by
  by_cases hm : m = n
  · subst hm
    simp [stopped, fleet, World.stop]
  · simp [stopped, fleet, World.stop, hm]

theorem healthy_stopped {n : NodeId} (hn : n = 1 ∨ n = 2) : Healthy (stopped n) :=
  healthy_fleet hn rfl rfl rfl stopped_containers (fun _ => rfl) fun _ => rfl

theorem healthy_swept : Healthy swept :=
  healthy_fleet (.inl rfl) rfl rfl rfl stopped_containers (fun _ => rfl) fun _ => rfl

theorem homely_swept : Homely alone swept where
  here p hp _ := by
    rcases hp with _ | ⟨_, _ | ⟨_, hp⟩⟩
    · exact ⟨_, rfl, rfl⟩
    · exact ⟨_, rfl, rfl⟩
    · cases hp
  planned := by decide

theorem reconcile_quiet_swept : (∃ running, reconciler.Reachable Undisturbed (fleet 1 .softDeleted []) ⟨swept, running⟩) ∧
    (∀ touch ∈ swept.touched, touch.saga = false) ∧
    ∀ s', reconciler.Ends 0 (reconcileOnce alone) swept s' → Quiet swept s' := by
  have hrun : ∃ running, reconciler.Reachable Undisturbed (fleet 1 .softDeleted []) ⟨swept, running⟩ :=
    ⟨_, Protocol.Reachable.start.replay (P := reconciler) (s := fleet 1 .softDeleted []) undisturbed_watch
      (.arrive 0 (.reconcile alone) :: List.replicate 11 (.run 0 ())) rfl⟩
  obtain ⟨running, h⟩ := hrun
  obtain ⟨htouched, hquiet⟩ := reconcile_quiet ⟨rfl, rfl, rfl⟩ h
  exact ⟨⟨running, h⟩, htouched, (hquiet 0 alone healthy_swept).mpr homely_swept⟩

/-- A fleet of two nodes, the projects on the one that is not the engine's, and a project that is being paused. -/
theorem not_reconcile_quiet :
    (¬ ∀ c opts s, Healthy s → ∀ s', reconciler.Ends c (reconcileOnce opts) s s' → Quiet s s') ∧
      ¬ ∀ s₀ g, unaimed s₀ → reconciler.Reachable (fun _ _ => True) s₀ g → ∀ touch ∈ g.store.touched, touch.saga = false := by
  refine ⟨fun h => ?_, fun h => ?_⟩
  · have hhealthy := healthy_stopped (.inr rfl)
    have hhome := homely_of_quiet hhealthy (h 0 alone _ hhealthy)
    obtain ⟨d, hd, hnode⟩ := hhome.here _ (.head _) rfl
    cases hd
    cases hnode
  · have hrun := Protocol.Reachable.start.free (P := reconciler)
      (s := fleet 1 .pausing [(.idlePause 2, ⟨2, .pauseProject, .running, 0⟩)])
      (.arrive 0 (.reconcile alone) :: List.replicate 3 (.run 0 ())) rfl
    cases h _ _ ⟨rfl, rfl, rfl⟩ hrun ⟨2, true⟩ (.head _)

end Examples

end Corebase.ReconcilePasses
