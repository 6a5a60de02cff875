import Corebase.ProvisioningJobs
import Mathlib.Data.List.Perm.Subperm

namespace Corebase.Repairs

open Interleaving JobRunner ProvisioningJobs

abbrev Client := Nat

/-- A sweep has said repair_enqueued of a project, and whether that was so. -/
structure Report where
  project : ProjectId
  backed : Bool
deriving DecidableEq

structure Store where
  now : Time
  jobs : Jobs
  failed : ProjectId → Bool
  /-- What the sweeps have reported, the newest first. -/
  reports : List Report

def repairKey (p : ProjectId) : Key → Bool
  | .repair q _ => q = p
  | _ => false

def repairOf (p : ProjectId) (row : Key × Job) : Bool := row.2.project = p && repairKey p row.1

/-- The project has a repair job that is not finished. -/
def underRepair (p : ProjectId) (s : Store) : Bool := s.jobs.any fun row => repairOf p row && row.2.unfinished

structure Options where
  /-- What an hour is on the clock. -/
  hour : Time
  repairLimitPerHour : Nat

inductive Op
  | busy (p : ProjectId)
  | recent (p : ProjectId)
  | fail (p : ProjectId)
  | insert (p : ProjectId) (attempts : Nat)
  /-- Another program inserts a job. -/
  | create (key : Key) (p : ProjectId) (kind : JobType)
  /-- A worker, or a retry, changes the state of a job. -/
  | setState (key : Key) (state : JobState)
  | tick (ms : Time)
deriving DecidableEq

@[reducible] def Reply : Op → Type
  | .busy _ | .recent _ => Nat
  | .insert .. | .create .. => Bool
  | .fail _ | .setState .. | .tick _ => Unit

def exec (opts : Options) (_ : Client) (_ : Unit) : (op : Op) → Store → Option (Reply op × Store)
  | .busy p, s => some (s.jobs.countP fun row => row.2.project = p && row.2.unfinished, s)
  | .recent p, s => some (s.jobs.countP fun row =>
      row.2.project = p && row.1.likeRepair && s.now < row.2.createdAt + opts.hour, s)
  | .fail p, s => some ((), { s with failed := Function.update s.failed p true })
  | .insert p attempts, s =>
      let (inserted, jobs) := s.jobs.insert (.repair p attempts) ⟨p, .provisionProject, .pending, s.now⟩
      let s' := { s with jobs := jobs }
      some (inserted, { s' with reports := ⟨p, underRepair p s'⟩ :: s.reports })
  | .create key p kind, s =>
      let (inserted, jobs) := s.jobs.insert key ⟨p, kind, .pending, s.now⟩
      some (inserted, { s with jobs := jobs })
  | .setState key state, s => some ((), { s with jobs := s.jobs.setState key state })
  | .tick ms, s => some ((), { s with now := s.now + ms })

def abort (_ : Client) (s : Store) : Store := s

/-- The repair of a project, and what the sweep does after it. -/
def enqueueRepair (opts : Options) (p : ProjectId) (next : Program Op Reply) : Program Op Reply :=
  .step (.busy p) fun busy =>
    if 0 < busy then next
    else .step (.recent p) fun attempts =>
      if opts.repairLimitPerHour ≤ attempts then .step (.fail p) fun _ => next
      else .step (.insert p attempts) fun _ => next

/-- The repairs of a sweep that has found these projects adrift. -/
def reconcileOnce (opts : Options) (ps : List ProjectId) : Program Op Reply := ps.foldr (enqueueRepair opts) .done

inductive Request
  | reconcile (ps : List ProjectId)
  | create (key : Key) (p : ProjectId) (kind : JobType)
  | work (key : Key) (state : JobState)
  | wait (ms : Time)

def Request.program (opts : Options) : Request → Program Op Reply
  | .reconcile ps => reconcileOnce opts ps
  -- the id of a new project is drawn after the key of its request is given
  | .create key p kind => if repairKey p key then .done else .step (.create key p kind) fun _ => .done
  | .work key state => .step (.setState key state) fun _ => .done
  | .wait ms => .step (.tick ms) fun _ => .done

def protocol (opts : Options) : Protocol Client Store Op Unit Request Reply := ⟨exec opts, abort, Request.program opts⟩

/-- Every repair job has a number below the limit. -/
structure Lawful (limit : Nat) (s : Store) : Prop where
  keys : s.jobs.keys.Nodup
  numbers : ∀ p n job, (.repair p n, job) ∈ s.jobs → job.project = p → n < limit

/-- No job has the key of the repair, unless a repair of the project is under way. -/
def numberFree (_ : Client) : Op → Store → Bool
  | .insert p attempts, s => (s.jobs.byKey (.repair p attempts)).isNone || underRepair p s
  | _, _ => true

/-- What the programs run of the statements. -/
def Numbered (limit : Nat) : Op → Prop
  | .insert _ attempts => attempts < limit
  | .create key p _ => repairKey p key = false
  | _ => True

def discipline (limit : Nat) (strict : Prop) : Discipline Client Store Op where
  Inv s := Lawful limit s ∧ (strict → ∀ r ∈ s.reports, r.backed = true)
  Guar _ _ _ := True
  Idle _ _ := True
  Allowed c op s := strict → numberFree c op s = true

variable {opts : Options} {limit : Nat} {strict : Prop} {s s' : Store} {p : ProjectId} {key : Key} {job : Job} {n : Nat}

section Statements

theorem Lawful.insert (h : Lawful limit s) {jobs : Jobs} {ok : Bool} (hjobs : s.jobs.insert key job = (ok, jobs))
    (hkey : ∀ n, key = .repair job.project n → n < limit) {now : Time} {failed : ProjectId → Bool} {reports : List Report} :
    Lawful limit ⟨now, jobs, failed, reports⟩ := by
  obtain ⟨_, heq⟩ | ⟨hnew, heq⟩ := Jobs.insert_cases s.jobs key job <;>
    rw [heq] at hjobs <;> cases hjobs
  · exact ⟨h.keys, h.numbers⟩
  · refine ⟨List.nodup_cons.mpr ⟨Jobs.byKey_eq_none.mp hnew, h.keys⟩, fun p n job' hmem hp => ?_⟩
    rcases List.mem_cons.mp hmem with heq | hmem
    · cases heq
      exact hkey n (by rw [hp])
    · exact h.numbers p n job' hmem hp

theorem underRepair_of_mem (hmem : (key, job) ∈ s.jobs) (hkey : repairOf p (key, job) = true)
    (hjob : job.unfinished = true) : underRepair p s = true :=
  List.any_eq_true.mpr ⟨_, hmem, by simp [hkey, hjob]⟩

/-- With its number free, a repair that is enqueued is there. -/
theorem backed_insert {attempts : Nat} (hfree : numberFree 0 (.insert p attempts) s = true) {jobs : Jobs} {ok : Bool}
    (hjobs : s.jobs.insert (.repair p attempts) ⟨p, .provisionProject, .pending, s.now⟩ = (ok, jobs)) :
    underRepair p { s with jobs := jobs } = true := by
  obtain ⟨htaken, heq⟩ | ⟨_, heq⟩ := Jobs.insert_cases s.jobs (.repair p attempts)
    ⟨p, .provisionProject, .pending, s.now⟩ <;> rw [heq] at hjobs <;> cases hjobs
  · simp only [numberFree, Bool.or_eq_true, Option.isNone_iff_eq_none] at hfree
    exact hfree.resolve_left htaken
  · exact underRepair_of_mem List.mem_cons_self (by simp [repairOf, repairKey]) rfl

theorem inv_exec {c : Client} {op : Op} {r : Reply op} (hnumbered : Numbered limit op)
    (hI : (discipline limit strict).Inv s) (hok : (discipline limit strict).Allowed c op s)
    (hexec : exec opts c () op s = some (r, s')) : (discipline limit strict).Inv s' := by
  cases op with
  | busy | recent =>
      cases hexec
      exact hI
  | fail | tick =>
      cases hexec
      exact ⟨⟨hI.1.keys, hI.1.numbers⟩, hI.2⟩
  | insert p attempts =>
      cases hexec
      refine ⟨hI.1.insert rfl fun n hn => ?_, fun hstrict r hr => ?_⟩
      · cases hn
        exact hnumbered
      · rcases List.mem_cons.mp hr with rfl | hr
        · exact backed_insert (hok hstrict) rfl
        · exact hI.2 hstrict r hr
  | create key p kind =>
      cases hexec
      refine ⟨hI.1.insert rfl fun n hn => ?_, hI.2⟩
      subst hn
      simp [Numbered, repairKey] at hnumbered
  | setState key state =>
      cases hexec
      refine ⟨⟨?_, fun p n job hmem hp => ?_⟩, hI.2⟩
      · rw [Jobs.keys_setState]
        exact hI.1.keys
      · obtain ⟨⟨key', job'⟩, hrow, heq⟩ := List.mem_map.mp hmem
        split at heq <;> cases heq
        · exact hI.1.numbers p n job' hrow hp
        · exact hI.1.numbers p n job hrow hp

end Statements

section Programs

theorem only_reconcileOnce (ps : List ProjectId) : (reconcileOnce opts ps).Only (Numbered opts.repairLimitPerHour) := by
  induction ps with
  | nil => trivial
  | cons p ps ih =>
      refine ⟨trivial, fun busy => ?_⟩
      beta_reduce
      split
      next => exact ih
      next =>
        refine ⟨trivial, fun attempts => ?_⟩
        beta_reduce
        split
        next => exact ⟨trivial, fun _ => ih⟩
        next hleft => exact ⟨Nat.lt_of_not_le hleft, fun _ => ih⟩

theorem only_program (q : Request) : (q.program opts).Only (Numbered opts.repairLimitPerHour) := by
  cases q with
  | reconcile ps => exact only_reconcileOnce ps
  | create key p kind =>
      simp only [Request.program]
      split
      next => trivial
      next hkey => exact ⟨Bool.eq_false_iff.mpr hkey, fun _ => trivial⟩
  | work key state => exact ⟨trivial, fun _ => trivial⟩
  | wait ms => exact ⟨trivial, fun _ => trivial⟩

theorem sound : (discipline opts.repairLimitPerHour strict).Sound (protocol opts) where
  idle _ _ _ _ _ _ _ _ := trivial
  abort _ _ hI _ := ⟨hI, trivial, trivial⟩
  program _ q := Discipline.Meets.of_only (only_program q) (fun _ _ => trivial)
    (fun _ _ _ _ _ hnumbered hI hok hexec => ⟨inv_exec hnumbered hI hok hexec, trivial⟩) _

end Programs

section Runs

variable {g : Config Client Store Op Reply}

/-- The moves of runs in which every repair finds its number free. -/
def NumbersFree : Config Client Store Op Reply → Move Client Unit Request → Prop :=
  Protocol.Statements fun c op s => numberFree c op s = true

theorem grants_numbersFree : (discipline limit True).Grants NumbersFree where
  allowed _ c choice op next hr hok _ := hok c choice op next rfl hr
  mortal _ _ _ := trivial

/-- The repair jobs that the project got within the hour from a moment on. -/
def repairsWithin (hour : Time) (s : Store) (p : ProjectId) (t : Time) : Jobs :=
  s.jobs.filter fun row => repairOf p row && t ≤ row.2.createdAt && row.2.createdAt ≤ t + hour

theorem repairsWithin_length_le (h : Lawful limit s) (hour t : Time) : (repairsWithin hour s p t).length ≤ limit := by
  have hkey : ∀ key ∈ (repairsWithin hour s p t).map Prod.fst, ∃ n < limit, key = .repair p n := by
    intro key hkey
    obtain ⟨⟨key, job⟩, hrow, rfl⟩ := List.mem_map.mp hkey
    obtain ⟨hmem, hrow⟩ := List.mem_filter.mp hrow
    simp only [repairOf, Bool.and_eq_true, decide_eq_true_eq] at hrow
    cases key with
    | repair q n =>
        obtain rfl : q = p := by simpa [repairKey] using hrow.1.1.2
        exact ⟨n, h.numbers q n job hmem hrow.1.1.1, rfl⟩
    | idlePause | restoreExpiry | purge | delete | restore | numbered | other => simp [repairKey] at hrow
  have hnodup : ((repairsWithin hour s p t).map Prod.fst).Nodup := h.keys.sublist (List.filter_sublist.map _)
  have hsub : (repairsWithin hour s p t).map Prod.fst ⊆ (List.range limit).map (Key.repair p) := by
    intro key hmem
    obtain ⟨n, hn, rfl⟩ := hkey key hmem
    exact List.mem_map.mpr ⟨n, List.mem_range.mpr hn, rfl⟩
  simpa using (hnodup.subperm hsub).length_le

end Runs

section Examples

/-- The clock counts minutes. -/
def defaults : Options := ⟨60, 3⟩

def quietStore : Store := ⟨0, [], fun _ => false, []⟩

theorem lawful_quiet : Lawful limit quietStore := ⟨List.nodup_nil, nofun⟩

/-- A sweep that finds the project adrift. -/
def sweep (p : ProjectId) : List (Move Client Unit Request) := .arrive 0 (.reconcile [p]) :: List.replicate 3 (.run 0 ())

theorem numbersFree_watch (g : Config Client Store Op Reply) (m : Move Client Unit Request)
    (hm : Protocol.watch numberFree g m = true) : NumbersFree g m := Protocol.statements_watch (fun _ _ _ => id) g m hm

/-- The first repair is done, and two hours later the project is adrift again. -/
def relapse : List (Move Client Unit Request) :=
  sweep 7 ++ [.arrive 1 (.work (.repair 7 0) .succeeded), .run 1 (), .arrive 1 (.wait 120), .run 1 ()] ++ sweep 7

end Examples

end Corebase.Repairs
