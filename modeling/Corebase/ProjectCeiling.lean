import Corebase.ProjectCreation

namespace Corebase.ProjectCeiling

open Interleaving ProjectCreation
open ProvisioningJobs (ProjectStatus)
open JsText (Text)
open Organizations (OrgId)

/-- Two live projects of an organization have different names. -/
def NamesDiffer (projects : List Project) : Prop :=
  projects.Pairwise fun p p' => p.status ≠ .deleted → p'.status ≠ .deleted → p.org = p'.org → p.name ≠ p'.name

structure Bounded (limit : Nat) (s : Store) : Prop where
  ceiling : ∀ org, (s.live org).length ≤ limit
  names : NamesDiffer s.projects

/-- The organization has room for one more live project of the name. -/
def room (limit : Nat) (org : OrgId) (name : Text) (s : Store) : Bool :=
  (s.live org).length < limit && !s.named name org

/-- A statement that makes a project live finds room for it. -/
def roomy (limit : Nat) (_ : Client) : Op → Store → Bool
  | .createProject id key org name _ _, s => s.conflicts id key || room limit org name s
  | .restoreProject id org name _ _, s => s.conflicts id (restoreKey id) || room limit org name s
  | .setStatus p status, s =>
      s.projects.all fun project => project.id ≠ p || project.status ≠ .deleted || status = .deleted
  | _, _ => true

def discipline (limit : Nat) : Discipline Client Store Op where
  Inv := Bounded limit
  Guar _ _ _ := True
  Idle _ _ := True
  Allowed c op s := roomy limit c op s = true

variable {limit : Nat} {c : Client} {s s' : Store} {uuid : ProjectId} {g : Config Client Store Op Reply}

theorem Bounded.same (h : Bounded limit s) (hprojects : s'.projects = s.projects) : Bounded limit s' :=
  ⟨fun org => by rw [Store.live, hprojects]; exact h.ceiling org, hprojects ▸ h.names⟩

theorem Bounded.add (h : Bounded limit s) {project : Project} (hroom : room limit project.org project.name s = true)
    (hprojects : s'.projects = project :: s.projects) : Bounded limit s' := by
  simp only [room, Bool.and_eq_true, decide_eq_true_eq, Bool.not_eq_true', Store.named, List.any_eq_false] at hroom
  refine ⟨fun org => ?_, ?_⟩
  · rw [Store.live, hprojects, List.filter_cons]
    split
    next hlive =>
      simp only [Bool.and_eq_true, decide_eq_true_eq] at hlive
      obtain ⟨rfl, -⟩ := hlive
      exact hroom.1
    next => exact h.ceiling org
  · rw [hprojects]
    refine List.pairwise_cons.mpr ⟨fun p hp _ hlive horg hname => ?_, h.names⟩
    exact hroom.2 p (List.mem_filter.mpr ⟨hp, by simp [horg, hlive]⟩) (by simp [hname])

/-- A change of status that makes no project live. -/
theorem Bounded.setStatus (h : Bounded limit s) {p : ProjectId} {status : ProjectStatus}
    (hroomy : roomy limit c (.setStatus p status) s = true)
    (hprojects : s'.projects = s.projects.map fun project =>
      if project.id = p then { project with status := status } else project) : Bounded limit s' := by
  simp only [roomy, List.all_eq_true, Bool.or_eq_true, decide_eq_true_eq] at hroomy
  let f : Project → Project := fun project => if project.id = p then { project with status := status } else project
  have hf : ∀ project ∈ s.projects, (f project).org = project.org ∧ (f project).name = project.name ∧
      ((f project).status ≠ .deleted → project.status ≠ .deleted) := by
    intro project hproject
    simp only [f]
    split
    next hid =>
      refine ⟨rfl, rfl, fun hlive => ?_⟩
      rcases hroomy project hproject with (hne | hold) | hdeleted
      · exact absurd hid hne
      · exact hold
      · exact absurd hdeleted hlive
    next => exact ⟨rfl, rfl, fun hlive => hlive⟩
  refine ⟨fun org => ?_, ?_⟩
  · refine Nat.le_trans ?_ (h.ceiling org)
    rw [Store.live, hprojects, ← List.countP_eq_length_filter, List.countP_map, Store.live, ← List.countP_eq_length_filter]
    refine List.countP_mono_left fun project hproject hlive => ?_
    obtain ⟨horg, -, hstatus⟩ := hf project hproject
    simp only [Function.comp_apply, Bool.and_eq_true, decide_eq_true_eq] at hlive ⊢
    exact ⟨horg.symm.trans hlive.1, hstatus hlive.2⟩
  · rw [hprojects, NamesDiffer, List.pairwise_map]
    refine h.names.imp_of_mem fun {a b} ha hb hnames hlive hlive' horg => ?_
    obtain ⟨horga, hnamea, hstatusa⟩ := hf a ha
    obtain ⟨horgb, hnameb, hstatusb⟩ := hf b hb
    rw [hnamea, hnameb]
    exact hnames (hstatusa hlive) (hstatusb hlive') (horga.symm.trans (horg.trans horgb))

theorem inv_exec {op : Op} {r : Reply op} (h : Bounded limit s) (hroomy : roomy limit c op s = true)
    (hexec : exec c uuid op s = some (r, s')) : Bounded limit s' := by
  cases op with
  | listForUser | roleOf | countProjectsInOrg | findByName | uuid =>
      cases hexec
      exact h
  | requireAuth | rollback | respond =>
      cases hexec
      exact h.same rfl
  | findByIdempotencyKey =>
      simp only [exec] at hexec
      split at hexec <;> cases hexec <;> exact h.same rfl
  | lockProject p =>
      simp only [exec] at hexec
      split at hexec
      next => cases hexec
      next => split at hexec <;> cases hexec <;> exact h.same rfl
  | createProject id key org name region plan =>
      simp only [exec] at hexec
      split at hexec <;> cases hexec
      next => exact h
      next hnew => exact h.add ((Bool.or_eq_true_iff.mp hroomy).resolve_left hnew) rfl
  | restoreProject id org name region plan =>
      simp only [exec] at hexec
      split at hexec <;> cases hexec
      next => exact h.same rfl
      next hnew => exact h.add ((Bool.or_eq_true_iff.mp hroomy).resolve_left hnew) rfl
  | insertJob =>
      simp only [exec] at hexec
      split at hexec <;> cases hexec <;> exact h.same rfl
  | setStatus p status =>
      simp only [exec] at hexec
      split at hexec <;> cases hexec
      exact h.setStatus hroomy rfl
  | setMember user org role => cases role <;> cases hexec <;> exact h.same rfl

theorem sound : (discipline limit).Sound (creation limit) where
  idle _ := Discipline.stable_true
  abort _ _ hI _ := ⟨hI.same rfl, trivial, trivial⟩
  program _ _ := Discipline.Meets.of_statements (fun _ _ => trivial)
    (fun _ _ _ _ _ hI hroomy hexec => ⟨inv_exec hI hroomy hexec, trivial⟩) _ _

/-- The moves of runs in which every statement that makes a project live finds room for it. -/
def Roomy (limit : Nat) : Config Client Store Op Reply → Move Client ProjectId Request → Prop :=
  Protocol.Statements fun c op s => roomy limit c op s = true

section Examples

/-- An organization with one ready project. -/
def single : Store where
  projects := [⟨['p'], 1, ['a'], [], [], .ready⟩]
  jobs := []
  members := [⟨1, 1, .owner⟩]
  locks := []
  callers := fun _ => none
  belonged := fun _ => []
  missed := []
  created := []
  answers := []

theorem bounded_single : Bounded 2 single where
  ceiling org := (List.length_filter_le ..).trans (by decide)
  names := List.pairwise_singleton ..

def create (key name : Char) : Request :=
  .create ⟨some 1, some (List.replicate 8 key), .ok ⟨[name], [], []⟩, some (.ok 1)⟩

def restore : Request := .restore ['p'] none

def runs (c : Client) (uuid : Char) (n : Nat) : List (Move Client ProjectId Request) := List.replicate n (.run c [uuid])

theorem roomy_watch (g : Config Client Store Op Reply) (m : Move Client ProjectId Request)
    (hm : Protocol.watch (roomy 2) g m = true) : Roomy 2 g m := Protocol.statements_watch (fun _ _ _ => id) g m hm

end Examples

end Corebase.ProjectCeiling
