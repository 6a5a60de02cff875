import Corebase.BackupSchedule
import Mathlib.Data.List.Basic
import Mathlib.Data.List.Induction
import Mathlib.Data.List.Pairwise

namespace Corebase.BackupNights

open JsText BackupSchedule

/-- A job that has not begun, and the run that a job has opened. -/
inductive Phase
  | pending
  | running (startedAt : Nat) (type : BackupType)
  | succeeded (startedAt : Nat) (type : BackupType) (finishedAt : Nat)
deriving DecidableEq

structure Job where
  project : Project
  type : BackupType
  day : Nat
  createdAt : Nat
  phase : Phase
deriving DecidableEq

namespace Job

/-- The idempotency key. -/
def key (j : Job) : Project × BackupType × Nat := (j.project, j.type, j.day)

def fullAt (j : Job) : Option Nat :=
  match j.phase with
  | .succeeded _ .full finishedAt => some finishedAt
  | _ => none

def anyAt (j : Job) : Option Nat :=
  match j.phase with
  | .succeeded _ _ finishedAt => some finishedAt
  | _ => none

/-- The run is open and began in the last six hours. -/
def openAt (now : Nat) (j : Job) : Bool :=
  match j.phase with
  | .running startedAt _ => now < startedAt + 6 * HOUR
  | _ => false

end Job

/-- The backup jobs in the order of their creation, with their runs. -/
abbrev State := List Job

def own (s : State) (p : Project) : List Job := s.filter fun j => j.project = p

def lastFullAt (s : State) (p : Project) : Option Nat := ((own s p).filterMap Job.fullAt).max?

def lastAnyAt (s : State) (p : Project) : Option Nat := ((own s p).filterMap Job.anyAt).max?

def openRuns (s : State) (now : Nat) (p : Project) : Nat := (own s p).countP (Job.openAt now)

def batchSize : Nat := 50

section Scan

variable (digest : Text → Nat) (zone : Nat) (w : Window)

def decision (s : State) (now : Nat) (window : Window) (p : Project) : Option BackupType :=
  decideBackup digest zone ⟨p, now, lastFullAt s p, lastAnyAt s p, window⟩

/-- The job that a sweep inserts for a project. -/
def schedule (s : State) (now : Nat) (p : Project) : Option Job :=
  if 0 < openRuns s now p then none
  else
    match decision digest zone s now w p with
    | none => none
    | some type =>
        if s.any fun j => j.key = (p, type, now / DAY) then none else some ⟨p, type, now / DAY, now, .pending⟩

def scanOnce (s : State) (now : Nat) (candidates : List Project) : State :=
  s ++ (candidates.take batchSize).filterMap (schedule digest zone w s now)

/-- The type is decided again, without the window. -/
def planBackup (s : State) (now : Nat) (j : Job) : Job :=
  match j.phase with
  | .pending => { j with phase := .running now ((decision digest zone s now always j.project).getD .incr) }
  | _ => j

def takeBackup (now : Nat) (j : Job) : Job :=
  match j.phase with
  | .running startedAt type => { j with phase := .succeeded startedAt type now }
  | _ => j

inductive Event
  | sweep (now : Nat) (candidates : List Project)
  | start (now : Nat) (key : Project × BackupType × Nat)
  | finish (now : Nat) (key : Project × BackupType × Nat)
deriving DecidableEq

def Event.now : Event → Nat
  | sweep now _ | start now _ | finish now _ => now

def apply (s : State) : Event → State
  | .sweep now candidates => scanOnce digest zone w s now candidates
  | .start now key => s.map fun j => if j.key = key then planBackup digest zone s now j else j
  | .finish now key => s.map fun j => if j.key = key then takeBackup now j else j

def exec (events : List Event) : State := events.foldl (apply digest zone w) []

/-- In ascending order, nulls first. -/
def Earlier : Option Nat → Option Nat → Prop
  | none, _ => True
  | some _, none => False
  | some a, some b => a ≤ b

/-- The projects that are ready and running, as a sweep may read them. -/
structure Candidates (fleet : List Project) (s : State) (candidates : List Project) : Prop where
  perm : candidates.Perm fleet
  sorted : candidates.Pairwise fun p q => Earlier (lastAnyAt s p) (lastAnyAt s q)

structure Run (fleet : List Project) (events : List Event) : Prop where
  ordered : events.Pairwise fun a b => a.now ≤ b.now
  read : ∀ before now candidates after, events = before ++ .sweep now candidates :: after →
    Candidates fleet (exec digest zone w before) candidates

/-- Each sweep comes at most five minutes after the one before. -/
def sweeps (events : List Event) : List Nat := events.filterMap fun
  | .sweep now _ => some now
  | _ => none

def Spaced (events : List Event) : Prop := (sweeps events).IsChain fun a b => b ≤ a + 5 * MINUTE

/-- What becomes of a backup that the sweep finds unfinished: its run is open since less than six hours, or the key
would be the same. -/
def Guard (s : State) (now : Nat) (p : Project) : Prop :=
  ∀ j ∈ s, j.project = p → j.anyAt = none → j.openAt now = true ∨
    ∀ type, decision digest zone s now w p = some type → j.key = (p, type, now / DAY)

def Guarded (events : List Event) : Prop :=
  ∀ before now candidates after, events = before ++ .sweep now candidates :: after →
    ∀ p ∈ candidates.take batchSize, Guard digest zone w (exec digest zone w before) now p

/-- The full backups of a project that were scheduled in the night. -/
def fulls (s : State) (p : Project) (n : Nat) : List Job :=
  s.filter fun j => j.project = p ∧ j.fullAt.isSome = true ∧ InNight zone w n j.createdAt

/-- Without a full backup in the last day (or, outside its slot, in the last two), and without an unfinished one, the
project is among the first that a sweep of the night reads. The state is that at some point of the night before. -/
def Covered (events : List Event) (p : Project) (n : Nat) : Prop :=
  ∃ before during now candidates after, events = before ++ during ++ .sweep now candidates :: after ∧
    (∀ e ∈ during, InNight zone w n e.now) ∧ InNight zone w n now ∧ p ∈ candidates.take batchSize ∧
    (∀ j ∈ exec digest zone w before, j.project = p → j.anyAt ≠ none) ∧
    ∀ lastFull, lastFullAt (exec digest zone w before) p = some lastFull →
      lastFull + 2 * DAY ≤ now ∨ lastFull + DAY ≤ now ∧ inSlot digest zone p.id now w = true

end Scan

section Facts

variable {digest : Text → Nat} {zone : Nat} {w : Window} {s : State} {now : Nat} {p : Project} {j : Job} {g : Job → Job}

theorem fullAt_eq {f : Nat} : j.fullAt = some f ↔ ∃ startedAt, j.phase = .succeeded startedAt .full f := by
  unfold Job.fullAt
  split
  next startedAt finishedAt h => simp [h]
  next h =>
    constructor
    · exact fun hnone => absurd hnone (by simp)
    · rintro ⟨startedAt, hphase⟩
      exact absurd hphase (h _ _)

theorem anyAt_of_fullAt {f : Nat} (h : j.fullAt = some f) : j.anyAt = some f := by
  obtain ⟨startedAt, hphase⟩ := fullAt_eq.mp h
  rw [Job.anyAt, hphase]

theorem mem_own : j ∈ own s p ↔ j ∈ s ∧ j.project = p := by
  rw [own, List.mem_filter, decide_eq_true_eq]

theorem le_lastFullAt {f : Nat} (hj : j ∈ s) (hp : j.project = p) (hf : j.fullAt = some f) :
    ∃ lastFull, lastFullAt s p = some lastFull ∧ f ≤ lastFull := by
  have hmem : f ∈ (own s p).filterMap Job.fullAt := List.mem_filterMap.mpr ⟨j, mem_own.mpr ⟨hj, hp⟩, hf⟩
  cases hmax : ((own s p).filterMap Job.fullAt).max? with
  | none => exact absurd (List.max?_eq_none_iff.mp hmax ▸ hmem) List.not_mem_nil
  | some lastFull => exact ⟨lastFull, hmax, (List.max?_eq_some_iff.mp hmax).2 f hmem⟩

theorem lastFull_le_lastAny {lastFull lastAny : Nat} (hfull : lastFullAt s p = some lastFull)
    (hany : lastAnyAt s p = some lastAny) : lastFull ≤ lastAny := by
  obtain ⟨j, hj, hf⟩ := List.mem_filterMap.mp (List.max?_eq_some_iff.mp hfull).1
  exact (List.max?_eq_some_iff.mp hany).2 lastFull (List.mem_filterMap.mpr ⟨j, hj, anyAt_of_fullAt hf⟩)

theorem decision_day {type : BackupType} {lastFull : Nat} {window : Window} (hfull : lastFullAt s p = some lastFull)
    (h : decision digest zone s now window p = some type) : lastFull + DAY ≤ now :=
  decideBackup_day hfull (fun _ hany => lastFull_le_lastAny hfull hany) h

/-- What an insert of the sweep says about the state before. -/
theorem schedule_some (h : schedule digest zone w s now p = some j) :
    ∃ type, j = ⟨p, type, now / DAY, now, .pending⟩ ∧ decision digest zone s now w p = some type ∧
      (∀ i ∈ s, i.project = p → i.openAt now = false) ∧ ∀ i ∈ s, i.key ≠ (p, type, now / DAY) := by
  unfold schedule at h
  split at h
  next => cases h
  next hclosed =>
    cases hdecision : decision digest zone s now w p with
    | none => rw [hdecision] at h; cases h
    | some type =>
        rw [hdecision] at h
        dsimp only at h
        split at h
        next => cases h
        next hfresh =>
          refine ⟨type, (Option.some.inj h).symm, rfl, ?_, ?_⟩
          · intro i hi hp
            by_contra hopen
            exact hclosed (List.countP_pos_iff.mpr ⟨i, mem_own.mpr ⟨hi, hp⟩, (Bool.not_eq_false _).mp hopen⟩)
          · exact fun i hi hkey => hfresh (List.any_eq_true.mpr ⟨i, hi, decide_eq_true hkey⟩)

theorem Guard.finished (hguard : Guard digest zone w s now p) (h : schedule digest zone w s now p = some j) :
    ∀ i ∈ s, i.project = p → i.anyAt ≠ none := by
  obtain ⟨type, -, hdecision, hclosed, hfresh⟩ := schedule_some h
  intro i hi hp hopen
  rcases hguard i hi hp hopen with hrunning | hkey
  · rw [hclosed i hi hp] at hrunning
    cases hrunning
  · exact hfresh i hi (hkey type hdecision)

theorem own_map (hproject : ∀ i, (g i).project = i.project) : own (s.map g) p = (own s p).map g := by
  rw [own, own, List.filter_map]
  congr 1
  exact List.filter_congr fun i _ => by rw [Function.comp_apply, hproject]

theorem lastFullAt_map (hproject : ∀ i, (g i).project = i.project) (h : ∀ i ∈ s, i.project = p → (g i).fullAt = i.fullAt) :
    lastFullAt (s.map g) p = lastFullAt s p := by
  unfold lastFullAt
  rw [own_map hproject, List.filterMap_map]
  congr 1
  exact List.filterMap_congr fun i hi => h i (mem_own.mp hi).1 (mem_own.mp hi).2

theorem lastFullAt_append {new : List Job} (h : ∀ i ∈ new, i.fullAt = none) : lastFullAt (s ++ new) p = lastFullAt s p := by
  have hnew : (new.filter fun j => j.project = p).filterMap Job.fullAt = [] :=
    List.filterMap_eq_nil_iff.mpr fun i hi => h i (List.mem_of_mem_filter hi)
  unfold lastFullAt own
  rw [List.filter_append, List.filterMap_append, hnew, List.append_nil]

/-! What holds in every state -/

/-- A later job of the same project waits for the end of the one before and, if that was a full backup, for a day. -/
def Turn (i j : Job) : Prop :=
  i.project = j.project → i.anyAt ≠ none ∧ ∀ f, i.fullAt = some f → f + DAY ≤ j.createdAt

/-- With a nightly plan all runs are full ones, as the last full is a day old when a job is created. -/
def Nightly (s : State) (j : Job) : Prop :=
  match j.phase with
  | .pending => ∀ lastFull, lastFullAt s j.project = some lastFull → lastFull + DAY ≤ j.createdAt
  | .running _ type => type = .full
  | .succeeded _ type _ => type = .full

structure Inv (s : State) (now : Nat) : Prop where
  created : ∀ j ∈ s, j.createdAt ≤ now
  taken : ∀ j ∈ s, ∀ f, j.anyAt = some f → j.createdAt ≤ f
  days : ∀ j ∈ s, j.day = j.createdAt / DAY
  turns : s.Pairwise Turn
  nightly : ∀ j ∈ s, j.project.plan.nightly → Nightly s j

theorem planBackup_kept (hphase : j.phase ≠ .pending) : planBackup digest zone s now j = j := by
  unfold planBackup
  split
  next h => exact absurd h hphase
  next => rfl

theorem takeBackup_kept (hphase : ∀ startedAt type, j.phase ≠ .running startedAt type) : takeBackup now j = j := by
  unfold takeBackup
  split
  next h => exact absurd h (hphase _ _)
  next => rfl

theorem phase_of_anyAt (h : j.anyAt ≠ none) : ∃ startedAt type f, j.phase = .succeeded startedAt type f := by
  unfold Job.anyAt at h
  split at h
  next startedAt type f hphase => exact ⟨startedAt, type, f, hphase⟩
  next => exact absurd rfl h

/-- Two unfinished jobs of a project are one. -/
theorem Inv.unfinished_unique {i : Job} (h : Inv s now) (hi : i ∈ s) (hj : j ∈ s) (hproject : i.project = j.project)
    (hopen : i.anyAt = none) (hopen' : j.anyAt = none) : i = j := by
  by_contra hne
  have hsymm : Std.Symm fun a b => Turn a b ∨ Turn b a := ⟨fun _ _ => Or.symm⟩
  have hturns : s.Pairwise fun a b => Turn a b ∨ Turn b a := h.turns.imp Or.inl
  rcases hturns.forall hi hj hne with hturn | hturn
  · exact (hturn hproject).1 hopen
  · exact (hturn hproject.symm).1 hopen'

/-- A step of one job at a time, which keeps what is finished. -/
theorem Inv.map {later : Nat} (h : Inv s now) (hlater : now ≤ later) (hproject : ∀ i, (g i).project = i.project)
    (hcreated : ∀ i, (g i).createdAt = i.createdAt) (hday : ∀ i, (g i).day = i.day)
    (hkept : ∀ i, i.anyAt ≠ none → g i = i) (htaken : ∀ i f, (g i).anyAt = some f → i.anyAt = some f ∨ f = later)
    (hnightly : ∀ i ∈ s, i.project.plan.nightly → Nightly (s.map g) (g i)) : Inv (s.map g) later where
  created := by
    intro i hi
    obtain ⟨j, hj, rfl⟩ := List.mem_map.mp hi
    rw [hcreated]
    exact (h.created j hj).trans hlater
  taken := by
    intro i hi f hf
    obtain ⟨j, hj, rfl⟩ := List.mem_map.mp hi
    rw [hcreated]
    rcases htaken j f hf with hf | rfl
    · exact h.taken j hj f hf
    · exact (h.created j hj).trans hlater
  days := by
    intro i hi
    obtain ⟨j, hj, rfl⟩ := List.mem_map.mp hi
    rw [hcreated, hday]
    exact h.days j hj
  turns := by
    refine List.pairwise_map.mpr (h.turns.imp ?_)
    intro i j hturn hsame
    rw [hproject, hproject] at hsame
    obtain ⟨hfinished, hfull⟩ := hturn hsame
    rw [hkept i hfinished, hcreated]
    exact ⟨hfinished, hfull⟩
  nightly := by
    intro i hi hplan
    obtain ⟨j, hj, rfl⟩ := List.mem_map.mp hi
    rw [hproject] at hplan
    exact hnightly j hj hplan

theorem Inv.sweep {later : Nat} {candidates : List Project} (h : Inv s now) (hlater : now ≤ later) (hnodup : candidates.Nodup)
    (hguard : ∀ p ∈ candidates.take batchSize, Guard digest zone w s later p) :
    Inv (scanOnce digest zone w s later candidates) later := by
  have hnew : ∀ j ∈ (candidates.take batchSize).filterMap (schedule digest zone w s later),
      ∃ p ∈ candidates.take batchSize, schedule digest zone w s later p = some j := fun j hj => List.mem_filterMap.mp hj
  have hlast : ∀ p, lastFullAt (scanOnce digest zone w s later candidates) p = lastFullAt s p := by
    intro p
    refine lastFullAt_append fun j hj => ?_
    obtain ⟨q, -, hq⟩ := hnew j hj
    obtain ⟨type, rfl, -⟩ := schedule_some hq
    rfl
  constructor
  · intro j hj
    rcases List.mem_append.mp hj with hj | hj
    · exact (h.created j hj).trans hlater
    · obtain ⟨q, -, hq⟩ := hnew j hj
      obtain ⟨type, rfl, -⟩ := schedule_some hq
      exact Nat.le_refl _
  · intro j hj f hf
    rcases List.mem_append.mp hj with hj | hj
    · exact h.taken j hj f hf
    · obtain ⟨q, -, hq⟩ := hnew j hj
      obtain ⟨type, rfl, -⟩ := schedule_some hq
      cases hf
  · intro j hj
    rcases List.mem_append.mp hj with hj | hj
    · exact h.days j hj
    · obtain ⟨q, -, hq⟩ := hnew j hj
      obtain ⟨type, rfl, -⟩ := schedule_some hq
      rfl
  · refine List.pairwise_append.mpr ⟨h.turns, ?_, ?_⟩
    · refine List.pairwise_filterMap.mpr ((hnodup.sublist (List.take_sublist _ _)).imp ?_)
      intro p q hne i hi j hj hsame
      obtain ⟨_, rfl, -⟩ := schedule_some hi
      obtain ⟨_, rfl, -⟩ := schedule_some hj
      exact absurd hsame hne
    · intro i hi j hj hsame
      obtain ⟨q, hq, hschedule⟩ := hnew j hj
      obtain ⟨type, rfl, hdecision, -⟩ := schedule_some hschedule
      refine ⟨(hguard q hq).finished hschedule i hi hsame, fun f hf => ?_⟩
      obtain ⟨lastFull, hlastFull, hle⟩ := le_lastFullAt hi hsame hf
      exact (Nat.add_le_add_right hle DAY).trans (decision_day hlastFull hdecision)
  · intro j hj hplan
    rcases List.mem_append.mp hj with hj | hj
    · have hold := h.nightly j hj hplan
      unfold Nightly at hold ⊢
      rwa [hlast]
    · obtain ⟨q, -, hschedule⟩ := hnew j hj
      obtain ⟨type, rfl, hdecision, -⟩ := schedule_some hschedule
      intro lastFull hlastFull
      rw [hlast] at hlastFull
      exact decision_day hlastFull hdecision

theorem planBackup_same (s : State) (now : Nat) (j : Job) : (planBackup digest zone s now j).project = j.project ∧
    (planBackup digest zone s now j).createdAt = j.createdAt ∧ (planBackup digest zone s now j).day = j.day ∧
    (planBackup digest zone s now j).anyAt = j.anyAt ∧ (planBackup digest zone s now j).fullAt = j.fullAt := by
  unfold planBackup
  split
  next h => exact ⟨rfl, rfl, rfl, by rw [Job.anyAt, Job.anyAt, h], by rw [Job.fullAt, Job.fullAt, h]⟩
  next => exact ⟨rfl, rfl, rfl, rfl, rfl⟩

theorem takeBackup_same (now : Nat) (j : Job) : (takeBackup now j).project = j.project ∧
    (takeBackup now j).createdAt = j.createdAt ∧ (takeBackup now j).day = j.day := by
  unfold takeBackup
  split <;> exact ⟨rfl, rfl, rfl⟩

theorem Inv.start {later : Nat} {key : Project × BackupType × Nat} (h : Inv s now) (hlater : now ≤ later) :
    Inv (apply digest zone w s (.start later key)) later := by
  have hsame : ∀ i : Job, let g := fun j : Job => if j.key = key then planBackup digest zone s later j else j
      (g i).project = i.project ∧ (g i).createdAt = i.createdAt ∧ (g i).day = i.day ∧ (g i).anyAt = i.anyAt ∧
        (g i).fullAt = i.fullAt := by
    intro i
    dsimp only
    split
    · exact planBackup_same s later i
    · exact ⟨rfl, rfl, rfl, rfl, rfl⟩
  refine h.map hlater (fun i => (hsame i).1) (fun i => (hsame i).2.1) (fun i => (hsame i).2.2.1) ?_ ?_ ?_
  · intro i hi
    obtain ⟨startedAt, type, f, hphase⟩ := phase_of_anyAt hi
    rw [planBackup_kept (by rw [hphase]; exact Phase.noConfusion), ite_self]
  · intro i f hf
    exact .inl ((hsame i).2.2.2.1 ▸ hf)
  · intro i hi hplan
    have hold := h.nightly i hi hplan
    have hlast : ∀ p, lastFullAt (s.map fun j => if j.key = key then planBackup digest zone s later j else j) p = lastFullAt s p :=
      fun p => lastFullAt_map (fun i => (hsame i).1) fun i _ _ => (hsame i).2.2.2.2
    cases hphase : i.phase with
    | pending =>
        unfold Nightly at hold
        rw [hphase] at hold
        by_cases hkey : i.key = key
        · have hfull : decision digest zone s later always i.project = some .full := by
            refine (decideBackup_nightly hplan).mpr ⟨rfl, fun lastFull hlastFull => .inr ⟨?_, rfl⟩⟩
            exact (hold lastFull hlastFull).trans ((h.created i hi).trans hlater)
          rw [if_pos hkey, planBackup, hphase, hfull]
          rfl
        · rw [if_neg hkey]
          unfold Nightly
          rw [hphase]
          dsimp only
          rwa [hlast]
    | running | succeeded =>
        rw [planBackup_kept (by rw [hphase]; exact Phase.noConfusion), ite_self]
        unfold Nightly at hold ⊢
        rw [hphase] at hold ⊢
        exact hold

theorem Inv.finish {later : Nat} {key : Project × BackupType × Nat} (h : Inv s now) (hlater : now ≤ later) :
    Inv (apply digest zone w s (.finish later key)) later := by
  have hsame : ∀ i : Job, let g := fun j : Job => if j.key = key then takeBackup later j else j
      (g i).project = i.project ∧ (g i).createdAt = i.createdAt ∧ (g i).day = i.day := by
    intro i
    dsimp only
    split
    · exact takeBackup_same later i
    · exact ⟨rfl, rfl, rfl⟩
  have hkept : ∀ i : Job, (∀ startedAt type, i.phase ≠ .running startedAt type) →
      (if i.key = key then takeBackup later i else i) = i := by
    intro i hphase
    rw [takeBackup_kept hphase, ite_self]
  have hfinished : ∀ i : Job, i.anyAt ≠ none → (if i.key = key then takeBackup later i else i) = i := by
    intro i hi
    obtain ⟨startedAt, type, f, hphase⟩ := phase_of_anyAt hi
    exact hkept i fun _ _ hrunning => by rw [hphase] at hrunning; cases hrunning
  refine h.map hlater (fun i => (hsame i).1) (fun i => (hsame i).2.1) (fun i => (hsame i).2.2) hfinished ?_ ?_
  · intro i f hf
    split at hf
    · unfold takeBackup at hf
      split at hf
      next => exact .inr (Option.some.inj hf).symm
      next => exact .inl hf
    · exact .inl hf
  · intro i hi hplan
    have hold := h.nightly i hi hplan
    cases hphase : i.phase with
    | pending =>
        have hlast : lastFullAt (s.map fun j => if j.key = key then takeBackup later j else j) i.project = lastFullAt s i.project := by
          refine lastFullAt_map (fun j => (hsame j).1) fun j hj hproject => ?_
          by_cases hopen : j.anyAt = none
          · have hpending : i.anyAt = none := by rw [Job.anyAt, hphase]
            obtain rfl := h.unfinished_unique hj hi hproject hopen hpending
            rw [hkept j fun _ _ hrunning => by rw [hphase] at hrunning; cases hrunning]
          · rw [hfinished j hopen]
        rw [hkept i fun _ _ hrunning => by rw [hphase] at hrunning; cases hrunning]
        unfold Nightly at hold ⊢
        rw [hphase] at hold ⊢
        dsimp only
        rwa [hlast]
    | running startedAt type =>
        unfold Nightly at hold
        rw [hphase] at hold
        by_cases hkey : i.key = key
        · rw [if_pos hkey, takeBackup, hphase]
          exact hold
        · rw [if_neg hkey]
          unfold Nightly
          rw [hphase]
          exact hold
    | succeeded startedAt type f =>
        rw [hkept i fun _ _ hrunning => by rw [hphase] at hrunning; cases hrunning]
        unfold Nightly at hold ⊢
        rw [hphase] at hold ⊢
        exact hold

theorem Inv.mono {later : Nat} (h : Inv s now) (hlater : now ≤ later) : Inv s later :=
  ⟨fun j hj => (h.created j hj).trans hlater, h.taken, h.days, h.turns, h.nightly⟩

theorem inv_nil : Inv [] now :=
  ⟨List.forall_mem_nil _, List.forall_mem_nil _, List.forall_mem_nil _, List.Pairwise.nil, List.forall_mem_nil _⟩

end Facts

/-! Runs -/

section Runs

variable {digest : Text → Nat} {zone : Nat} {w : Window} {fleet : List Project} {events before : List Event} {p : Project}
  {n : Nat} {j : Job}

theorem exec_concat (events : List Event) (e : Event) :
    exec digest zone w (events ++ [e]) = apply digest zone w (exec digest zone w events) e := by
  rw [exec, List.foldl_append]
  rfl

theorem Run.inv (hfleet : fleet.Nodup) (hrun : Run digest zone w fleet events) (hguarded : Guarded digest zone w events)
    {after : List Event} (hsplit : events = before ++ after) {t : Nat} (ht : ∀ e ∈ before, e.now ≤ t) :
    Inv (exec digest zone w before) t := by
  induction before using List.reverseRecOn generalizing after t with
  | nil => exact inv_nil
  | append_singleton before e ih =>
      rw [List.append_assoc, List.singleton_append] at hsplit
      have hordered : ∀ a ∈ before, a.now ≤ e.now := by
        have hpair := hrun.ordered
        rw [hsplit] at hpair
        exact fun a ha => (List.pairwise_append.mp hpair).2.2 a ha e List.mem_cons_self
      have hinv := ih hsplit hordered
      have hlast : e.now ≤ t := ht e (List.mem_append_right _ List.mem_cons_self)
      rw [exec_concat]
      refine Inv.mono ?_ hlast
      cases e with
      | sweep now candidates =>
          have hcandidates := (hrun.read before now candidates after hsplit).perm.nodup_iff.mpr hfleet
          exact hinv.sweep (Nat.le_refl _) hcandidates (hguarded before now candidates after hsplit)
      | start now key => exact hinv.start (Nat.le_refl _)
      | finish now key => exact hinv.finish (Nat.le_refl _)

/-- A job is found again after any step. -/
theorem kept (after : List Event) (hj : j ∈ exec digest zone w before) :
    ∃ i ∈ exec digest zone w (before ++ after), i.project = j.project ∧ i.createdAt = j.createdAt := by
  induction after using List.reverseRecOn with
  | nil => exact ⟨j, by rwa [List.append_nil], rfl, rfl⟩
  | append_singleton after e ih =>
      obtain ⟨i, hi, hproject, hcreated⟩ := ih
      rw [← List.append_assoc, exec_concat]
      cases e with
      | sweep now candidates => exact ⟨i, List.mem_append_left _ hi, hproject, hcreated⟩
      | start now key =>
          refine ⟨_, List.mem_map.mpr ⟨i, hi, rfl⟩, ?_, ?_⟩
          · split
            · exact (planBackup_same _ _ _).1.trans hproject
            · exact hproject
          · split
            · exact (planBackup_same _ _ _).2.1.trans hcreated
            · exact hcreated
      | finish now key =>
          refine ⟨_, List.mem_map.mpr ⟨i, hi, rfl⟩, ?_, ?_⟩
          · split
            · exact (takeBackup_same _ _).1.trans hproject
            · exact hproject
          · split
            · exact (takeBackup_same _ _).2.1.trans hcreated
            · exact hcreated

/-- Every job comes from a sweep. -/
theorem created_by (hj : j ∈ exec digest zone w events) : ∃ before now candidates after k,
    events = before ++ .sweep now candidates :: after ∧ now = j.createdAt ∧ j.project ∈ candidates.take batchSize ∧
      schedule digest zone w (exec digest zone w before) now j.project = some k := by
  induction events using List.reverseRecOn generalizing j with
  | nil => cases hj
  | append_singleton events e ih =>
      have hold : ∀ i ∈ exec digest zone w events, i.project = j.project → i.createdAt = j.createdAt →
          ∃ before now candidates after k, events ++ [e] = before ++ .sweep now candidates :: after ∧ now = j.createdAt ∧
            j.project ∈ candidates.take batchSize ∧
              schedule digest zone w (exec digest zone w before) now j.project = some k := by
        intro i hi hproject hcreated
        obtain ⟨before, now, candidates, after, k, rfl, hnow, hmem, hk⟩ := ih hi
        rw [hcreated] at hnow
        rw [hproject] at hmem hk
        exact ⟨before, now, candidates, after ++ [e], k, by rw [List.append_assoc, List.cons_append], hnow, hmem, hk⟩
      rw [exec_concat] at hj
      cases e with
      | sweep now candidates =>
          rcases List.mem_append.mp hj with hj | hj
          · exact hold j hj rfl rfl
          · obtain ⟨q, hq, hk⟩ := List.mem_filterMap.mp hj
            obtain ⟨type, rfl, -⟩ := schedule_some hk
            exact ⟨events, now, candidates, [], _, rfl, rfl, hq, hk⟩
      | start now key =>
          obtain ⟨i, hi, rfl⟩ := List.mem_map.mp hj
          refine hold i hi ?_ ?_
          · split
            · exact (planBackup_same _ _ _).1.symm
            · rfl
          · split
            · exact (planBackup_same _ _ _).2.1.symm
            · rfl
      | finish now key =>
          obtain ⟨i, hi, rfl⟩ := List.mem_map.mp hj
          refine hold i hi ?_ ?_
          · split
            · exact (takeBackup_same _ _).1.symm
            · rfl
          · split
            · exact (takeBackup_same _ _).2.1.symm
            · rfl

/-- A night that brings no job leaves those of the project alone. -/
theorem own_during {during : List Event} (hfinished : ∀ j ∈ exec digest zone w before, j.project = p → j.anyAt ≠ none)
    (hnight : ∀ e ∈ during, InNight zone w n e.now)
    (hnone : ¬ ∃ j ∈ exec digest zone w (before ++ during), j.project = p ∧ InNight zone w n j.createdAt) :
    own (exec digest zone w (before ++ during)) p = own (exec digest zone w before) p := by
  induction during using List.reverseRecOn with
  | nil => rw [List.append_nil]
  | append_singleton during e ih =>
      have hbefore : ¬ ∃ j ∈ exec digest zone w (before ++ during), j.project = p ∧ InNight zone w n j.createdAt := by
        rintro ⟨j, hj, hproject, hcreated⟩
        obtain ⟨i, hi, hproject', hcreated'⟩ := kept [e] hj
        rw [List.append_assoc] at hi
        exact hnone ⟨i, hi, hproject'.trans hproject, hcreated' ▸ hcreated⟩
      have hsame := ih (fun a ha => hnight a (List.mem_append_left _ ha)) hbefore
      have hdone : ∀ j ∈ own (exec digest zone w (before ++ during)) p, j.anyAt ≠ none := by
        intro j hj
        rw [hsame] at hj
        exact hfinished j (mem_own.mp hj).1 (mem_own.mp hj).2
      rw [← List.append_assoc, exec_concat]
      cases e with
      | sweep now candidates =>
          have hnew : own ((candidates.take batchSize).filterMap
              (schedule digest zone w (exec digest zone w (before ++ during)) now)) p = [] := by
            refine List.filter_eq_nil_iff.mpr fun j hj hproject => hnone ⟨j, ?_, of_decide_eq_true hproject, ?_⟩
            · rw [← List.append_assoc, exec_concat]
              exact List.mem_append_right _ hj
            · obtain ⟨q, -, hk⟩ := List.mem_filterMap.mp hj
              obtain ⟨type, rfl, -⟩ := schedule_some hk
              exact hnight _ (List.mem_append_right _ List.mem_cons_self)
          rw [← hsame, apply, scanOnce, own, List.filter_append]
          exact (congrArg _ hnew).trans (List.append_nil _)
      | start now key =>
          rw [← hsame, apply, own_map fun i => by split; exacts [(planBackup_same _ _ _).1, rfl]]
          refine (List.map_congr_left fun j hj => ?_).trans (List.map_id _)
          obtain ⟨startedAt, type, f, hphase⟩ := phase_of_anyAt (hdone j hj)
          rw [planBackup_kept (by rw [hphase]; exact Phase.noConfusion), ite_self]
          rfl
      | finish now key =>
          rw [← hsame, apply, own_map fun i => by split; exacts [(takeBackup_same _ _).1, rfl]]
          refine (List.map_congr_left fun j hj => ?_).trans (List.map_id _)
          obtain ⟨startedAt, type, f, hphase⟩ := phase_of_anyAt (hdone j hj)
          have hsteady : ∀ startedAt type, j.phase ≠ .running startedAt type := by
            intro _ _ hrunning
            rw [hphase] at hrunning
            cases hrunning
          rw [takeBackup_kept hsteady, ite_self]
          rfl

theorem lastFullAt_own {s s' : State} (h : own s p = own s' p) : lastFullAt s p = lastFullAt s' p := by
  unfold lastFullAt
  rw [h]

/-- In a night where a project is covered, a job is created for it. -/
theorem Covered.created (hfleet : fleet.Nodup) (hrun : Run digest zone w fleet events)
    (hguarded : Guarded digest zone w events) (hplan : p.plan.nightly) (h : Covered digest zone w events p n) :
    ∃ j ∈ exec digest zone w events, j.project = p ∧ InNight zone w n j.createdAt := by
  obtain ⟨before, during, now, candidates, after, hsplit, hduring, hnow, hmem, hfinished, hdue⟩ := h
  by_cases hearly : ∃ j ∈ exec digest zone w (before ++ during), j.project = p ∧ InNight zone w n j.createdAt
  · obtain ⟨j, hj, hproject, hcreated⟩ := hearly
    obtain ⟨i, hi, hproject', hcreated'⟩ := kept (.sweep now candidates :: after) hj
    rw [← hsplit] at hi
    exact ⟨i, hi, hproject'.trans hproject, hcreated' ▸ hcreated⟩
  · have hown := own_during hfinished hduring hearly
    have hlast := lastFullAt_own hown
    have hordered : ∀ e ∈ before ++ during, e.now ≤ now := by
      have hpair := hrun.ordered
      rw [hsplit] at hpair
      exact fun a ha => (List.pairwise_append.mp hpair).2.2 a ha _ List.mem_cons_self
    have hinv := hrun.inv hfleet hguarded hsplit hordered
    have hdone : ∀ i ∈ exec digest zone w (before ++ during), i.project = p → i.anyAt ≠ none := by
      intro i hi hproject
      have hmem : i ∈ own (exec digest zone w before) p := hown ▸ mem_own.mpr ⟨hi, hproject⟩
      exact hfinished i (mem_own.mp hmem).1 hproject
    have hclosed : openRuns (exec digest zone w (before ++ during)) now p = 0 := by
      refine List.countP_eq_zero.mpr fun i hi hopen => ?_
      obtain ⟨startedAt, type, f, hphase⟩ := phase_of_anyAt (hdone i (mem_own.mp hi).1 (mem_own.mp hi).2)
      rw [Job.openAt, hphase] at hopen
      cases hopen
    have hdecision : decision digest zone (exec digest zone w (before ++ during)) now w p = some .full := by
      refine (decideBackup_nightly hplan).mpr ⟨rfl, fun lastFull hlastFull => ?_⟩
      exact hdue lastFull (hlast ▸ hlastFull)
    have hfresh : (exec digest zone w (before ++ during)).any (fun i => i.key = (p, .full, now / DAY)) = false := by
      refine List.any_eq_false.mpr fun i hi hkey => ?_
      obtain ⟨rfl, hrest⟩ := Prod.mk.inj (of_decide_eq_true hkey)
      have hday : i.createdAt / DAY = now / DAY := (hinv.days i hi).symm.trans (Prod.mk.inj hrest).2
      obtain ⟨startedAt, type, f, hphase⟩ := phase_of_anyAt (hdone i hi rfl)
      have htype := hinv.nightly i hi hplan
      rw [Nightly, hphase] at htype
      obtain rfl : type = .full := htype
      have hfull : i.fullAt = some f := fullAt_eq.mpr ⟨startedAt, hphase⟩
      have htaken := hinv.taken i hi f (anyAt_of_fullAt hfull)
      obtain ⟨lastFull, hlastFull, hle⟩ := le_lastFullAt hi rfl hfull
      have hage := decision_day hlastFull hdecision
      unfold DAY at hday hage
      omega
    have hschedule : schedule digest zone w (exec digest zone w (before ++ during)) now p =
        some ⟨p, .full, now / DAY, now, .pending⟩ := by
      rw [schedule, hclosed, if_neg (Nat.lt_irrefl 0), hdecision]
      dsimp only
      rw [hfresh, if_neg Bool.false_ne_true]
    have hcreated : (⟨p, .full, now / DAY, now, .pending⟩ : Job) ∈
        exec digest zone w (before ++ during ++ [.sweep now candidates]) := by
      rw [exec_concat]
      exact List.mem_append_right _ (List.mem_filterMap.mpr ⟨p, hmem, hschedule⟩)
    obtain ⟨i, hi, hproject, hnight⟩ := kept after hcreated
    rw [List.append_assoc, List.singleton_append, ← hsplit] at hi
    exact ⟨i, hi, hproject, hnight ▸ hnow⟩

theorem covered_of_created (hguarded : Guarded digest zone w events) (hplan : p.plan.nightly)
    (hj : j ∈ exec digest zone w events) (hproject : j.project = p) (hnight : InNight zone w n j.createdAt) :
    Covered digest zone w events p n := by
  obtain ⟨before, now, candidates, after, k, hsplit, rfl, hmem, hk⟩ := created_by hj
  rw [hproject] at hmem hk
  obtain ⟨type, -, hdecision, -⟩ := schedule_some hk
  refine ⟨before, [], _, candidates, after, by rwa [List.append_nil], List.forall_mem_nil _, hnight, hmem, ?_, ?_⟩
  · exact (hguarded before _ candidates after hsplit p hmem).finished hk
  · exact ((decideBackup_nightly hplan).mp hdecision).2

theorem Inv.fulls_le {s : State} {now : Nat} (h : Inv s now) (p : Project) (n : Nat) : (fulls zone w s p n).length ≤ 1 := by
  have hturns : (fulls zone w s p n).Pairwise Turn := h.turns.sublist List.filter_sublist
  cases hfulls : fulls zone w s p n with
  | nil => exact Nat.zero_le _
  | cons i rest =>
      cases rest with
      | nil => exact Nat.le_refl _
      | cons j rest =>
          have hmem : ∀ k ∈ fulls zone w s p n, k ∈ s ∧ k.project = p ∧ k.fullAt.isSome = true ∧ InNight zone w n k.createdAt := by
            intro k hk
            have hfilter := List.mem_filter.mp hk
            exact ⟨hfilter.1, of_decide_eq_true hfilter.2⟩
          rw [hfulls] at hturns hmem
          obtain ⟨hi, hpi, hfull, hnight⟩ := hmem i List.mem_cons_self
          obtain ⟨hj, hpj, -, hnight'⟩ := hmem j (List.mem_cons_of_mem _ List.mem_cons_self)
          obtain ⟨f, hf⟩ := Option.isSome_iff_exists.mp hfull
          have hturn := (List.pairwise_cons.mp hturns).1 j List.mem_cons_self (hpi.trans hpj.symm)
          have hwait := hturn.2 f hf
          have htaken := h.taken i hi f (anyAt_of_fullAt hf)
          have hday := hnight.lt hnight'
          omega

theorem exists_last (events : List Event) : ∃ last, ∀ e ∈ events, e.now ≤ last := by
  induction events with
  | nil => exact ⟨0, List.forall_mem_nil _⟩
  | cons e events ih =>
      obtain ⟨last, hlast⟩ := ih
      refine ⟨max e.now last, List.forall_mem_cons.mpr ⟨Nat.le_max_left _ _, fun a ha => ?_⟩⟩
      exact (hlast a ha).trans (Nat.le_max_right _ _)

/-- Of sweeps that come every five minutes, one falls into the five minutes before any time between two of them. -/
theorem sweep_before {times : List Nat} {first : Nat} (stop : Nat) (hspaced : times.IsChain fun a b => b ≤ a + 5 * MINUTE)
    (hhead : times.head? = some first) (hfirst : first < stop) (hstop : ∃ b ∈ times, stop ≤ b) :
    ∃ t ∈ times, t < stop ∧ stop ≤ t + 5 * MINUTE := by
  induction times generalizing first with
  | nil => cases hhead
  | cons a times ih =>
      obtain rfl : a = first := Option.some.inj hhead
      obtain ⟨b, hb, hstopb⟩ := hstop
      cases times with
      | nil =>
          rw [List.mem_singleton.mp hb] at hstopb
          omega
      | cons c times =>
          rw [List.isChain_cons_cons] at hspaced
          by_cases hc : c < stop
          · have hrest : b ∈ c :: times := (List.mem_cons.mp hb).resolve_left fun h => by omega
            obtain ⟨t, ht, hbetween⟩ := ih hspaced.2 rfl hc ⟨b, hrest, hstopb⟩
            exact ⟨t, List.mem_cons_of_mem _ ht, hbetween⟩
          · exact ⟨a, List.mem_cons_self, hfirst, by omega⟩

/-- Where each sweep leaves unfinished backups to themselves, a project with a nightly plan has one full backup in
exactly the nights in which it is covered, and no project ever has two; and sweeps that come every five minutes fall
into every slot that begins five minutes before the window closes. -/
theorem nights_covered (hfleet : fleet.Nodup) (hrun : Run digest zone w fleet events)
    (hguarded : Guarded digest zone w events) (hdone : ∀ j ∈ exec digest zone w events, j.anyAt ≠ none) :
    (∀ p n, (fulls zone w (exec digest zone w events) p n).length ≤ 1) ∧
      (∀ p n, p.plan.nightly →
        ((fulls zone w (exec digest zone w events) p n).length = 1 ↔ Covered digest zone w events p n)) ∧
      ∀ (p : Project) (n first : Nat), Spaced events → w.startHour < w.endHour → slotMinuteFor digest p.id w.minutes + 5 ≤ w.minutes →
        (sweeps events).head? = some first → first + zone < slotEnd digest p.id w n →
        (∃ t ∈ sweeps events, slotEnd digest p.id w n ≤ t + zone) →
          ∃ t ∈ sweeps events, slotEnd digest p.id w n ≤ t + zone + 5 * MINUTE ∧ InNight zone w n t ∧
            inSlot digest zone p.id t w = true := by
  obtain ⟨last, hlast⟩ := exists_last events
  have hinv : Inv (exec digest zone w events) last := hrun.inv hfleet hguarded (List.append_nil events).symm hlast
  refine ⟨fun p n => hinv.fulls_le p n, fun p n hplan => ⟨fun hone => ?_, fun hcovered => ?_⟩, ?_⟩
  · obtain ⟨j, hj⟩ := List.length_eq_one_iff.mp hone
    have hmem : j ∈ fulls zone w (exec digest zone w events) p n := hj ▸ List.mem_cons_self
    obtain ⟨hj, hfilter⟩ := List.mem_filter.mp hmem
    obtain ⟨hproject, -, hnight⟩ := of_decide_eq_true hfilter
    exact covered_of_created hguarded hplan hj hproject hnight
  · obtain ⟨j, hj, hproject, hnight⟩ := hcovered.created hfleet hrun hguarded hplan
    obtain ⟨startedAt, type, f, hphase⟩ := phase_of_anyAt (hdone j hj)
    have htype := hinv.nightly j hj (hproject ▸ hplan)
    rw [Nightly, hphase] at htype
    obtain rfl : type = .full := htype
    have hfull : j.fullAt.isSome = true := Option.isSome_iff_exists.mpr ⟨f, fullAt_eq.mpr ⟨startedAt, hphase⟩⟩
    have hmem : j ∈ fulls zone w (exec digest zone w events) p n :=
      List.mem_filter.mpr ⟨hj, decide_eq_true ⟨hproject, hfull, hnight⟩⟩
    exact Nat.le_antisymm (hinv.fulls_le p n) (List.length_pos_of_mem hmem)
  · intro p n first hspaced hwindow hslot hhead hfirst hstop
    obtain ⟨b, hb, hstopb⟩ := hstop
    obtain ⟨t, ht, hlow, hhigh⟩ := sweep_before (slotEnd digest p.id w n - zone) hspaced hhead (by omega) ⟨b, hb, by omega⟩
    have hslotEnd : slotEnd digest p.id w n ≤ t + zone + 5 * MINUTE := by omega
    obtain ⟨hin, hnight⟩ := inSlot_last digest p.id hwindow hslot hslotEnd (by omega)
    exact ⟨t, ht, hslotEnd, hnight, hin⟩

end Runs

/-! A project whose slot is the first half hour of the window -/

section Sample

def sampleId : Text := "00000000-0000-4000-8000-000000000013".toList

def sampleDigest (_ : Text) : Nat := 8280

def sample : Project := ⟨sampleId, .free⟩

/-- 03:25 of the first day. -/
def first : Nat := 3 * HOUR + 25 * MINUTE

def opening : List Event :=
  [.sweep first [sample], .start (first + MINUTE) (sample, .full, 0), .finish (first + 3 * MINUTE) (sample, .full, 0)]

/-- The sweeps that follow, up to 06:00 of the second day. -/
def following : List Event := (List.range 319).map fun k => .sweep (first + (k + 1) * (5 * MINUTE)) [sample]

theorem reads_sample {events : List Event} (h : ∀ e ∈ events, ∀ now candidates, e = .sweep now candidates → candidates = [sample]) :
    ∀ before now candidates after, events = before ++ .sweep now candidates :: after →
      Candidates [sample] (exec sampleDigest 0 WINDOW before) candidates := by
  intro before now candidates after hsplit
  have hmem : Event.sweep now candidates ∈ events := hsplit ▸ List.mem_append_right _ List.mem_cons_self
  rw [h _ hmem now candidates rfl]
  exact ⟨List.Perm.refl _, List.pairwise_singleton _ _⟩

theorem opening_reads : ∀ e ∈ opening, ∀ now candidates, e = .sweep now candidates → candidates = [sample] := by
  intro e he now candidates hsweep
  simp only [opening, List.mem_cons, List.not_mem_nil, or_false] at he
  rcases he with rfl | rfl | rfl
  · cases hsweep
    rfl
  · cases hsweep
  · cases hsweep

theorem following_reads : ∀ e ∈ following, ∀ now candidates, e = .sweep now candidates → candidates = [sample] := by
  intro e he now candidates hsweep
  obtain ⟨k, -, rfl⟩ := List.mem_map.mp he
  cases hsweep
  rfl

theorem nights_covered_sample : (fulls 0 WINDOW (exec sampleDigest 0 WINDOW opening) sample 0).length = 1 := by
  have hrun : Run sampleDigest 0 WINDOW [sample] opening := ⟨by decide, reads_sample opening_reads⟩
  have hfirst : ∀ before now candidates after, opening = before ++ .sweep now candidates :: after → before = [] := by
    intro before now candidates after hsplit
    cases before with
    | nil => rfl
    | cons e before =>
        have htail : opening.tail = before ++ .sweep now candidates :: after := (List.cons.inj hsplit).2
        have hmem : Event.sweep now candidates ∈ opening.tail := htail ▸ List.mem_append_right _ List.mem_cons_self
        simp [opening] at hmem
  have hguarded : Guarded sampleDigest 0 WINDOW opening := by
    intro before now candidates after hsplit p _
    rw [hfirst before now candidates after hsplit]
    exact List.forall_mem_nil _
  have hcovered : Covered sampleDigest 0 WINDOW opening sample 0 :=
    ⟨[], [], first, [sample], opening.tail, rfl, List.forall_mem_nil _, by decide, List.mem_cons_self,
      List.forall_mem_nil _, fun _ hnone => by cases hnone⟩
  have hfleet : [sample].Nodup := List.pairwise_singleton _ _
  exact ((nights_covered hfleet hrun hguarded (by decide)).2.1 sample 0 rfl).mpr hcovered

/-- The backup that is finished at 03:28 is not a day old in the slot of the next night. -/
theorem not_nights_covered : ¬ ∀ (digest : Text → Nat) (zone : Nat) (w : Window) (fleet : List Project) (events : List Event),
    fleet.Nodup → Run digest zone w fleet events → Spaced events → (∀ j ∈ exec digest zone w events, j.anyAt ≠ none) →
      ∀ p ∈ fleet, p.plan.nightly → ∀ n : Nat,
        (∃ e ∈ events, e.now + zone ≤ n * DAY + w.startHour * HOUR) →
        (∃ e ∈ events, n * DAY + w.startHour * HOUR + w.hours * HOUR ≤ e.now + zone) →
          (fulls zone w (exec digest zone w events) p n).length = 1 := by
  intro h
  have hordered : (opening ++ following).Pairwise fun a b => a.now ≤ b.now := by
    have htrans : IsTrans Event fun a b => a.now ≤ b.now := ⟨fun _ _ _ => Nat.le_trans⟩
    refine List.isChain_iff_pairwise.mp ?_
    decide +kernel
  have hreads : ∀ e ∈ opening ++ following, ∀ now candidates, e = .sweep now candidates → candidates = [sample] := by
    intro e he
    exact (List.mem_append.mp he).elim (opening_reads e) (following_reads e)
  have hcount := h sampleDigest 0 WINDOW [sample] (opening ++ following) (List.pairwise_singleton _ _)
    ⟨hordered, reads_sample hreads⟩ (by unfold Spaced; decide +kernel) (by decide +kernel) sample List.mem_cons_self rfl 1
    (by decide +kernel) (by decide +kernel)
  exact absurd hcount (by decide +kernel)

end Sample

end Corebase.BackupNights
