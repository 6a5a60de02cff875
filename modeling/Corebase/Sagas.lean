import Corebase.Interleaving
import Corebase.JobRunner

namespace Corebase.Sagas

open Interleaving
open JobRunner (Worker JobState)

abbrev JobId := Nat

/-- What a step does, act by act, until it returns or throws. -/
inductive Body (Act : Type) (Answer : Act → Type) : Type
  | ok
  | throw
  | act (a : Act) (next : Answer a → Body Act Answer)

/-- All acts of the body are of a kind. -/
def Body.Only {Act : Type} {Answer : Act → Type} (kind : Act → Prop) : Body Act Answer → Prop
  | .ok | .throw => True
  | .act a next => kind a ∧ ∀ r, (next r).Only kind

theorem Body.Only.mono {Act : Type} {Answer : Act → Type} {kind kind' : Act → Prop} {body : Body Act Answer}
    (h : body.Only kind) (hkind : ∀ a, kind a → kind' a) : body.Only kind' := by
  induction body with
  | ok | throw => trivial
  | act a next ih => exact ⟨hkind a h.1, fun r => ih r (h.2 r)⟩

structure Job (Kind Name : Type) where
  kind : Kind
  state : JobState
  attempts : Nat
  maxAttempts : Nat
  /-- The checkpoint. -/
  done : List Name

structure Store (Kind Name World : Type) where
  /-- The rows of the table, the oldest first. -/
  jobs : List (Job Kind Name)
  /-- The heartbeat of the job is missing for long enough that it may be claimed from its worker. -/
  stale : JobId → Bool
  /-- The job that a worker has claimed, until it ends or dies. -/
  working : Worker → Option JobId
  world : World

inductive Op (Name Act Change : Type)
  | claim (j : JobId)
  | act (a : Act)
  | save (j : JobId) (done : List Name)
  | succeed (j : JobId)
  | fail (j : JobId)
  | beat (j : JobId) (late : Bool)
  | change (x : Change)

inductive Request (Other Change : Type)
  | execute (j : JobId)
  | beat (j : JobId) (late : Bool)
  | other (r : Other)
  | change (x : Change)

variable {Kind Name World Act Change Choice Other : Type} {Answer : Act → Type}

def Job.unfinished (job : Job Kind Name) : Bool := job.state ∈ [.pending, .enqueued, .running]

def Job.exhausted (job : Job Kind Name) : Bool := job.maxAttempts ≤ job.attempts

def Job.claimable (job : Job Kind Name) (stale : Bool) : Bool :=
  job.state ∈ [.pending, .enqueued] || job.state = .running && stale

@[reducible] def Reply (Kind Name : Type) (Answer : Act → Type) : Op Name Act Change → Type
  | .claim _ => Option (Job Kind Name)
  | .act a => Answer a
  | .save .. | .succeed _ | .fail _ => Bool
  | .beat .. | .change _ => Unit

namespace Store

def setJob (s : Store Kind Name World) (j : JobId) (job : Job Kind Name) : Store Kind Name World :=
  { s with jobs := s.jobs.set j job }

def leave (s : Store Kind Name World) (c : Worker) : Store Kind Name World :=
  { s with working := Function.update s.working c none }

def claim (s : Store Kind Name World) (c : Worker) (j : JobId) (job : Job Kind Name) : Store Kind Name World :=
  { s with
    jobs := s.jobs.set j { job with state := .running, attempts := job.attempts + 1 }
    stale := Function.update s.stale j false
    working := Function.update s.working c (some j) }

def idle (s : Store Kind Name World) : Bool := s.jobs.all fun job => !job.unfinished

end Store

/-- The sagas by the kind of their job and its payload, and what their acts and those of other programs do. -/
structure Design (Kind Name World Act Change Choice Other : Type) (Answer : Act → Type) where
  /-- The names of the steps. -/
  sagas : Kind → List Name
  body : Kind → Name → Body Act Answer
  /-- What is done about a job that has failed for good. -/
  onDeadLetter : Kind → Body Act Answer
  others : Other → Body Act Answer
  perform : Choice → (a : Act) → World → Option (Answer a × World)
  /-- A request or an event that changes the table of the jobs, and the world with it. -/
  change : Change → Store Kind Name World → Store Kind Name World

/-- The choice says what an act finds, and whether a statement about the job itself fails. -/
structure Chance (Choice : Type) where
  choice : Choice
  fault : Bool

namespace Design

variable (D : Design Kind Name World Act Change Choice Other Answer)

def exec (c : Worker) (chance : Chance Choice) :
    (op : Op Name Act Change) → Store Kind Name World → Option (Reply Kind Name Answer op × Store Kind Name World)
  | .claim j, s => match s.jobs[j]? with
    | some job =>
      if !chance.fault && job.claimable (s.stale j) then
        some (some { job with state := .running, attempts := job.attempts + 1 }, s.claim c j job)
      else some (none, s)
    | none => some (none, s)
  | .act a, s => (D.perform chance.choice a s.world).map fun (r, w) => (r, { s with world := w })
  | .save j done, s => match s.jobs[j]? with
    | some job => if chance.fault then some (false, s) else some (true, s.setJob j { job with done := done })
    | none => some (true, s)
  | .succeed j, s => match s.jobs[j]? with
    | some job => if chance.fault then some (false, s)
      else some (true, (s.setJob j { job with state := .succeeded }).leave c)
    | none => some (true, s.leave c)
  | .fail j, s => match s.jobs[j]? with
    | some job => if chance.fault then some (false, s.leave c)
      else some (job.exhausted, (s.setJob j { job with
        state := if job.exhausted then .deadLetter else .pending }).leave c)
    | none => some (false, s.leave c)
  | .beat j late, s => some ((), { s with stale := Function.update s.stale j late })
  | .change x, s => some ((), D.change x s)

/-- The body, and what follows when it returns and when it throws. -/
def run : Body Act Answer → Program (Op Name Act Change) (Reply Kind Name Answer) →
    Program (Op Name Act Change) (Reply Kind Name Answer) → Program (Op Name Act Change) (Reply Kind Name Answer)
  | .ok, after, _ => after
  | .throw, _, failed => failed
  | .act a next, after, failed => .step (.act a) fun r => run (next r) after failed

def caught (j : JobId) (kind : Kind) : Program (Op Name Act Change) (Reply Kind Name Answer) :=
  .step (.fail j) fun terminal => if terminal then run (D.onDeadLetter kind) .done .done else .done

variable [DecidableEq Name]

def runSteps (j : JobId) (kind : Kind) : List Name → List Name → Program (Op Name Act Change) (Reply Kind Name Answer)
  | [], _ => .step (.succeed j) fun saved => if saved then .done else D.caught j kind
  | name :: steps, done =>
      if name ∈ done then runSteps j kind steps done
      else run (D.body kind name) (.step (.save j (done ++ [name])) fun saved =>
        if saved then runSteps j kind steps (done ++ [name]) else D.caught j kind) (D.caught j kind)

def execute (j : JobId) : Program (Op Name Act Change) (Reply Kind Name Answer) :=
  .step (.claim j) fun
    | none => .done
    | some job => D.runSteps j job.kind (D.sagas job.kind) job.done

def protocol : Protocol Worker (Store Kind Name World) (Op Name Act Change) (Chance Choice) (Request Other Change)
    (Reply Kind Name Answer) where
  exec := D.exec
  abort c s := s.leave c
  program
    | .execute j => D.execute j
    | .beat j late => .step (.beat j late) fun _ => .done
    | .other r => run (D.others r) .done .done
    | .change x => .step (.change x) fun _ => .done

end Design

/-- The rows stay as many as they are, unless a request adds one. -/
theorem length_reachable [DecidableEq Name] {D : Design Kind Name World Act Change Choice Other Answer}
    {s : Store Kind Name World} {n : Nat} (hchange : ∀ x s, (D.change x s).jobs.length = s.jobs.length) (hs : s.jobs.length = n)
    {ok : Config Worker (Store Kind Name World) (Op Name Act Change) (Reply Kind Name Answer) →
      Move Worker (Chance Choice) (Request Other Change) → Prop}
    {g : Config Worker (Store Kind Name World) (Op Name Act Change) (Reply Kind Name Answer)}
    (h : D.protocol.Reachable ok s g) : g.store.jobs.length = n := by
  refine h.invariant (I := fun s => s.jobs.length = n) hs (fun c chance op s r s' hlength hexec => ?_) fun c s => ?_
  rotate_left
  · exact id
  have hset : ∀ {j : JobId} {job : Job Kind Name}, (s.jobs.set j job).length = n := by
    intro j job
    rw [List.length_set, hlength]
  cases op with
  | act a =>
      obtain ⟨_, _, heq⟩ := Option.map_eq_some_iff.mp hexec
      cases heq
      exact hlength
  | change x =>
      cases hexec
      exact (hchange x s).trans hlength
  | beat =>
      cases hexec
      exact hlength
  | claim | save | succeed | fail =>
      simp only [Design.protocol, Design.exec] at hexec
      split at hexec
      · split at hexec <;> cases hexec <;> first | exact hlength | exact hset
      · cases hexec
        exact hlength

/-- The steps before one that is not done. -/
theorem takeWhile_done [DecidableEq Name] {saga before steps done : List Name} {name : Name} (hsteps : saga = before ++ name :: steps)
    (hbefore : ∀ n ∈ before, n ∈ done) (hnew : name ∉ done) : ∀ n ∈ saga.takeWhile (· ≠ name), n ∈ done := by
  intro n hn
  rw [hsteps, List.takeWhile_append_of_pos fun m hm => by
    simpa using fun heq : m = name => hnew (heq ▸ hbefore m hm)] at hn
  simp only [ne_eq, not_true_eq_false, decide_false, Bool.false_eq_true, not_false_eq_true,
    List.takeWhile_cons_of_neg, List.append_nil] at hn
  exact hbefore n hn

end Corebase.Sagas
