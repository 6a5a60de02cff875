import Corebase.JobRunner
import Mathlib.Data.List.Nodup
import Mathlib.Data.List.Dedup

namespace Corebase.ProvisioningJobs

open JobRunner JsText

abbrev ProjectId := Nat

inductive JobType
  | provisionProject | restoreProject | pauseProject | resumeProject | rotateCredentials | deleteProject | purgeProject
  | backupProject
deriving DecidableEq

inductive ProjectStatus
  | creating | provisioning | configuring | ready | failed | pausing | paused | resuming | restoring | restored | deleting
  | softDeleted | deleted
deriving DecidableEq

/-- The idempotency keys, by the program that makes them. The key of a create request is any text. -/
inductive Key
  | repair (p : ProjectId) (n : Nat)
  | idlePause (p : ProjectId)
  | restoreExpiry (p : ProjectId)
  | purge (p : ProjectId)
  | delete (p : ProjectId)
  | restore (p : ProjectId)
  | numbered (kind : JobType) (p : ProjectId) (n : Nat)
  | other (text : Text)
deriving DecidableEq

/-- The pattern repair_%, in which the underscore stands for any character. -/
def Key.likeRepair : Key → Bool
  | .repair .. => true
  | .other text => "repair".toList.isPrefixOf text && 6 < text.length
  | _ => false

structure Job where
  project : ProjectId
  kind : JobType
  state : JobState
  createdAt : Time
deriving DecidableEq

def Job.unfinished (job : Job) : Bool := job.state ∈ [.pending, .enqueued, .running]

/-- The rows of the table, the newest first. -/
abbrev Jobs := List (Key × Job)

namespace Jobs

def byKey (jobs : Jobs) (key : Key) : Option Job := (jobs.find? fun row => row.1 = key).map Prod.snd

/-- An INSERT with ON CONFLICT DO NOTHING, and whether it has inserted a row. -/
def insert (jobs : Jobs) (key : Key) (job : Job) : Bool × Jobs :=
  if (jobs.byKey key).isSome then (false, jobs) else (true, (key, job) :: jobs)

def setState (jobs : Jobs) (key : Key) (state : JobState) : Jobs :=
  jobs.map fun row => if row.1 = key then (row.1, { row.2 with state := state }) else row

def keys (jobs : Jobs) : List Key := jobs.map Prod.fst

variable {jobs : Jobs} {key : Key} {job : Job} {state : JobState}

theorem byKey_eq_none : jobs.byKey key = none ↔ key ∉ jobs.keys := by
  simp only [byKey, Option.map_eq_none_iff, List.find?_eq_none, keys, List.mem_map, not_exists, not_and,
    decide_eq_true_eq]

theorem insert_cases (jobs : Jobs) (key : Key) (job : Job) : (jobs.byKey key ≠ none ∧ jobs.insert key job = (false, jobs)) ∨
    (jobs.byKey key = none ∧ jobs.insert key job = (true, (key, job) :: jobs)) := by
  unfold insert
  cases h : jobs.byKey key with
  | none => exact .inr ⟨rfl, rfl⟩
  | some _ => exact .inl ⟨nofun, rfl⟩

theorem keys_insert (jobs : Jobs) (key : Key) (job : Job) : jobs.keys ⊆ (jobs.insert key job).2.keys := by
  obtain ⟨-, heq⟩ | ⟨-, heq⟩ := insert_cases jobs key job
  · exact heq ▸ fun _ => id
  · exact heq ▸ fun _ => List.mem_cons_of_mem _

@[simp] theorem keys_setState : (jobs.setState key state).keys = jobs.keys := by
  simp only [setState, keys, List.map_map]
  refine List.map_congr_left fun row _ => ?_
  simp only [Function.comp_apply]
  split <;> rfl

end Jobs

end Corebase.ProvisioningJobs
