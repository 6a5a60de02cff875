import Corebase.Interleaving
import Corebase.JsText

namespace Corebase.JobRunner

open Interleaving JsText

/-- Milliseconds. -/
abbrev Time := Nat
abbrev Worker := Nat
abbrev StepName := Text

inductive JobState
  | pending | enqueued | running | succeeded | failed | deadLetter
deriving DecidableEq

def JobState.terminal : JobState → Bool
  | .succeeded | .deadLetter => true
  | _ => false

structure JobRecord where
  jobType : Text
  state : JobState
  attempts : Nat
  maxAttempts : Nat
  /-- The array under completed, if the checkpoint has one. -/
  checkpoint : Option (List StepName)
  lastError : Option Text
  heartbeatAt : Option Time
  scheduledFor : Time
  createdAt : Time
  startedAt : Option Time
  finishedAt : Option Time
deriving DecidableEq

/-- A row as it is inserted. -/
def created (jobType : Text) (maxAttempts : Nat) (now : Time) : JobRecord where
  jobType := jobType
  state := .pending
  attempts := 0
  maxAttempts := maxAttempts
  checkpoint := none
  lastError := none
  heartbeatAt := none
  scheduledFor := now
  createdAt := now
  startedAt := none
  finishedAt := none

inductive Event
  | claim (w : Worker)
  | start (w : Worker) (name : StepName)
  | complete (w : Worker) (name : StepName)
  | save (w : Worker) (names : List StepName)
  | deadLetter (w : Worker)
  | hook (w : Worker)
deriving DecidableEq

structure Store where
  now : Time
  job : JobRecord
  /-- The workers that have claimed the job and neither ended nor died since. -/
  executing : Worker → Bool
  /-- What has happened, the newest first. -/
  history : List Event

def initial (job : JobRecord) (now : Time) : Store := ⟨now, job, fun _ => false, []⟩

/-- The worker of the latest claim. -/
def owner : List Event → Option Worker
  | [] => none
  | .claim w :: _ => some w
  | _ :: past => owner past

inductive Op
  | byIdempotencyKey
  | claim (staleAfterMs : Time)
  | start (name : StepName)
  | finish (name : StepName)
  | saveCheckpoint (completed : List StepName)
  | succeed
  | fail (error : Text)
  | onDeadLetter
  | heartbeat
  | findOrphans (staleAfterMs : Time)
  | enqueueRecovery
  | markEnqueued
  | tick (ms : Time)
deriving DecidableEq

abbrev Reply : Op → Type
  | .byIdempotencyKey | .claim _ => Option JobRecord
  | .finish _ | .saveCheckpoint _ | .succeed => Except Text Unit
  | .fail _ => Except Text Bool
  | .findOrphans _ | .enqueueRecovery => Bool
  | .start _ | .onDeadLetter | .heartbeat | .markEnqueued | .tick _ => Unit

/-- Whether a statement or a handler succeeds. One that fails has done nothing to the row. -/
inductive Outcome
  | ok | error (message : Text)
deriving DecidableEq

def JobRecord.claimable (job : JobRecord) (now staleAfterMs : Time) : Bool :=
  job.state = .pending || job.state = .enqueued ||
    job.state = .running && job.heartbeatAt.any fun at' => at' + staleAfterMs < now

def JobRecord.claim (job : JobRecord) (now : Time) : JobRecord :=
  { job with
    state := .running, attempts := job.attempts + 1, startedAt := some (job.startedAt.getD now),
    heartbeatAt := some now }

def JobRecord.succeed (job : JobRecord) (now : Time) : JobRecord :=
  { job with state := .succeeded, finishedAt := some now, lastError := none }

def JobRecord.exhausted (job : JobRecord) : Bool := job.maxAttempts ≤ job.attempts

def JobRecord.fail (job : JobRecord) (now : Time) (error : Text) : JobRecord :=
  { job with
    lastError := some error, state := if job.exhausted then .deadLetter else .pending,
    finishedAt := if job.exhausted then some now else none }

def JobRecord.orphaned (job : JobRecord) (now staleAfterMs : Time) : Bool :=
  job.state = .pending && job.scheduledFor ≤ now || job.state = .enqueued && job.createdAt + staleAfterMs < now ||
    job.state = .running && job.heartbeatAt.any fun at' => at' + staleAfterMs < now

def JobRecord.markEnqueued (job : JobRecord) : JobRecord :=
  if job.state = .pending then { job with state := .enqueued } else job

namespace Store

def log (s : Store) (e : Event) : Store := { s with history := e :: s.history }

def withJob (s : Store) (job : JobRecord) : Store := { s with job := job }

/-- The worker is no longer at the job. -/
def leave (s : Store) (w : Worker) : Store := { s with executing := Function.update s.executing w false }

def claim (s : Store) (w : Worker) : Store :=
  { s with
    job := s.job.claim s.now, executing := Function.update s.executing w true, history := .claim w :: s.history }

def saveCheckpoint (s : Store) (w : Worker) (completed : List StepName) : Store :=
  (s.withJob { s.job with checkpoint := some completed }).log (.save w completed)

def succeed (s : Store) (w : Worker) : Store := (s.withJob (s.job.succeed s.now)).leave w

def fail (s : Store) (w : Worker) (error : Text) : Store :=
  let failed := (s.withJob (s.job.fail s.now error)).leave w
  if s.job.exhausted && s.job.state ≠ .deadLetter then failed.log (.deadLetter w) else failed

end Store

def exec (w : Worker) : Outcome → (op : Op) → Store → Option (Reply op × Store)
  | .ok, .byIdempotencyKey, s => some (some s.job, s)
  | .ok, .claim stale, s =>
      some (if s.job.claimable s.now stale then (some (s.job.claim s.now), s.claim w) else (none, s))
  | _, .start name, s => some ((), s.log (.start w name))
  | .ok, .finish name, s => some (.ok (), s.log (.complete w name))
  | .ok, .saveCheckpoint completed, s => some (.ok (), s.saveCheckpoint w completed)
  | .ok, .succeed, s => some (.ok (), s.succeed w)
  | .ok, .fail error, s => some (.ok s.job.exhausted, s.fail w error)
  | _, .onDeadLetter, s => some ((), s.log (.hook w))
  | .ok, .heartbeat, s => some ((), s.withJob { s.job with heartbeatAt := some s.now })
  | .ok, .findOrphans stale, s => some (s.job.orphaned s.now stale, s)
  | .ok, .enqueueRecovery, s => some (true, s)
  | .ok, .markEnqueued, s => some ((), s.withJob s.job.markEnqueued)
  | _, .tick ms, s => some ((), { s with now := s.now + ms })
  | .error _, .byIdempotencyKey, s => some (none, s)
  | .error _, .claim _, s => some (none, s)
  | .error e, .finish _, s => some (.error e, s)
  | .error e, .saveCheckpoint _, s => some (.error e, s)
  | .error e, .succeed, s => some (.error e, s)
  | .error e, .fail _, s => some (.error e, s.leave w)
  | .error _, .heartbeat, s => some ((), s)
  | .error _, .findOrphans _, s => some (false, s)
  | .error _, .enqueueRecovery, s => some (false, s)
  | .error _, .markEnqueued, s => some ((), s)

/-- The handler of an error in the saga. -/
def caught (error : Text) : Program Op Reply :=
  .step (.fail error) fun
    | .ok true => .step .onDeadLetter fun _ => .done
    | _ => .done

/-- The step loop of runJob. -/
def runSteps : List StepName → List StepName → Program Op Reply
  | [], _ => .step .succeed fun
      | .ok _ => .done
      | .error e => caught e
  | name :: steps, done =>
      if name ∈ done then runSteps steps done
      else .step (.start name) fun _ => .step (.finish name) fun
        | .error e => caught e
        | .ok _ => .step (.saveCheckpoint (done ++ [name])) fun
          | .error e => caught e
          | .ok _ => runSteps steps (done ++ [name])

def noSaga (jobType : Text) : Text := "no saga registered for job_type \"".toList ++ jobType ++ "\"".toList

def execute (sagas : Text → Option (List StepName)) (staleAfterMs : Time) : Program Op Reply :=
  .step .byIdempotencyKey fun
    | none => .done
    | some row =>
      if row.state = .succeeded then .done
      else .step (.claim staleAfterMs) fun
        | none => .done
        | some claimed => match sagas claimed.jobType with
          | none => .step (.fail (noSaga claimed.jobType)) fun _ => .done
          | some steps => runSteps steps (claimed.checkpoint.getD [])

/-- What sweepOnce does for this row. -/
def sweepOnce (staleAfterMs : Time) : Program Op Reply :=
  .step (.findOrphans staleAfterMs) fun
    | false => .done
    | true => .step .enqueueRecovery fun
      | false => .done
      | true => .step .markEnqueued fun _ => .done

inductive Request
  | execute | sweep | markEnqueued | heartbeat | tick (ms : Time)
deriving DecidableEq

/-- The settings of the workers and of the sweeper. -/
structure Options where
  sagas : Text → Option (List StepName)
  staleAfterMs : Time
  sweepAfterMs : Time

def workers (opts : Options) : Protocol Worker Store Op Outcome Request Reply where
  exec := exec
  abort w s := s.leave w
  program
    | .execute => execute opts.sagas opts.staleAfterMs
    | .sweep => sweepOnce opts.sweepAfterMs
    | .markEnqueued => .step .markEnqueued fun _ => .done
    | .heartbeat => .step .heartbeat fun _ => .done
    | .tick ms => .step (.tick ms) fun _ => .done

section Lemmas

variable (s : Store) (w v : Worker)

theorem markEnqueued_of_ne {job : JobRecord} (h : job.state ≠ .pending) : job.markEnqueued = job := if_neg h

@[simp] theorem markEnqueued_checkpoint (job : JobRecord) : job.markEnqueued.checkpoint = job.checkpoint := by
  unfold JobRecord.markEnqueued
  split <;> rfl

@[simp] theorem leave_self : (s.leave w).executing w = false := Function.update_self ..

theorem leave_other (h : v ≠ w) : (s.leave w).executing v = s.executing v := Function.update_of_ne h ..

@[simp] theorem claim_self : (s.claim w).executing w = true := Function.update_self ..

theorem claim_other (h : v ≠ w) : (s.claim w).executing v = s.executing v := Function.update_of_ne h ..

@[simp] theorem fail_job (e : Text) : (s.fail w e).job = s.job.fail s.now e := by
  unfold Store.fail
  split <;> rfl

theorem fail_history (e : Text) :
    (s.fail w e).history = s.history ∨ (s.fail w e).history = .deadLetter w :: s.history := by
  unfold Store.fail
  split
  · exact .inr rfl
  · exact .inl rfl

@[simp] theorem fail_executing (e : Text) : (s.fail w e).executing = (s.leave w).executing := by
  unfold Store.fail
  split <;> rfl

variable {s w} {s' : Store} {outcome : Outcome}

theorem exec_byIdempotencyKey {r : Option JobRecord} (h : exec w outcome .byIdempotencyKey s = some (r, s')) :
    (r = none ∨ r = some s.job) ∧ s' = s := by
  cases outcome <;> cases h
  · exact ⟨.inr rfl, rfl⟩
  · exact ⟨.inl rfl, rfl⟩

theorem exec_claim {stale : Time} {r : Option JobRecord} (h : exec w outcome (.claim stale) s = some (r, s')) :
    r = none ∧ s' = s ∨ s.job.claimable s.now stale = true ∧ r = some (s.job.claim s.now) ∧ s' = s.claim w := by
  cases outcome with
  | error message =>
      cases h
      exact .inl ⟨rfl, rfl⟩
  | ok =>
      simp only [exec] at h
      split at h <;> cases h
      · exact .inr ⟨‹_›, rfl, rfl⟩
      · exact .inl ⟨rfl, rfl⟩

theorem exec_start {name : StepName} {r : Unit} (h : exec w outcome (.start name) s = some (r, s')) :
    s' = s.log (.start w name) := by
  cases outcome <;> cases h <;> rfl

theorem exec_onDeadLetter {r : Unit} (h : exec w outcome .onDeadLetter s = some (r, s')) :
    s' = s.log (.hook w) := by
  cases outcome <;> cases h <;> rfl

end Lemmas

end Corebase.JobRunner
