import Corebase.SagaSteps

namespace Corebase.CredentialRotation

open Interleaving Sagas SagaRules SagaSteps
open JobRunner (Worker JobState)

abbrev Password := Nat

/-- The payload of a rotation. -/
structure Kind where
  terminate : Bool
deriving DecidableEq

structure World where
  /-- The active version of the developer's secret. -/
  stored : Option Password
  /-- The password that the database accepts for the role. -/
  inForce : Option Password
  /-- A version has been stored since the role was last changed. -/
  unapplied : Bool
deriving DecidableEq

inductive Act
  | loadPlacement
  | rotate
  | connectAsSuperuser
  | setRolePassword (value : Password)
  | terminateBackends
  | purgeRetired
deriving DecidableEq

@[reducible] def Answer : Act → Type
  | .rotate => Password
  | _ => Unit

/-- The generated secret is given. -/
def apply (value : Password) : (a : Act) → World → Option (Answer a × World)
  | .rotate, w => some (value, { w with stored := some value, unapplied := true })
  | .setRolePassword value, w => some ((), { w with inForce := some value, unapplied := false })
  | .loadPlacement, w | .connectAsSuperuser, w | .terminateBackends, w | .purgeRetired, w => some ((), w)

abbrev Steps := Body Act fun a => Option (Answer a)

def rotateDeveloperPassword : Steps :=
  attempt .loadPlacement fun _ => attempt .rotate fun value => attempt .connectAsSuperuser fun _ =>
    attempt (.setRolePassword value) fun _ => .ok

def terminateOldSessions (kind : Kind) : Steps :=
  if !kind.terminate then .ok
  else attempt .loadPlacement fun _ => attempt .connectAsSuperuser fun _ => attempt .terminateBackends fun _ => .ok

def purgeRetiredCredential : Steps := attempt .purgeRetired fun _ => .ok

def body (kind : Kind) : StepName → Steps
  | .rotateDeveloperPassword => rotateDeveloperPassword
  | .terminateOldSessions => terminateOldSessions kind
  | .purgeRetiredCredential => purgeRetiredCredential
  | _ => .ok

/-- A request for a rotation, of a project that is ready or not. -/
structure Request where
  terminate : Bool
  ready : Bool
  maxAttempts : Nat

/-- One rotation is in flight at a time. -/
def requestRotation (r : Request) (s : Store Kind StepName World) : Store Kind StepName World :=
  if s.idle && r.ready then { s with jobs := s.jobs ++ [⟨⟨r.terminate⟩, .pending, 0, r.maxAttempts, []⟩] } else s

def rotations : Design Kind StepName World Act Request (Outcome × Password) Empty fun a => Option (Answer a) where
  sagas _ := steps .rotateCredentials
  body := body
  onDeadLetter _ := .ok
  others r := nomatch r
  perform := perform apply
  change := requestRotation

/-- A job fails for good only while every stored version has been applied. -/
def contract : Contract Kind StepName World Act Request where
  Inv w := w.unapplied = false → w.stored = w.inForce
  Post _ name w := name = .rotateDeveloperPassword → w.unapplied = false
  Rely w w' := w' = w
  Rest _ w := w.unapplied = false
  Legal _ _ := True
  Timely _ _ := True
  Final _ _ w := w.unapplied = false

variable {s : Store Kind StepName World} {w : World}

/-- An act that leaves the passwords alone. -/
def Aside : Act → Prop
  | .rotate | .setRolePassword _ => False
  | _ => True

variable {kind : Kind} {done : List StepName} {keep Q Z : World → Prop}

theorem carries_aside {a : Act} {next : Answer a → Steps} (ha : Aside a) (hkeep : ∀ w, Q w → keep w)
    (hnext : ∀ r, contract.Carries (perform apply) keep (next r) Q Z) :
    contract.Carries (perform apply) keep (attempt a next) Q Z := by
  refine carries_attempt (fun _ => Q) hkeep (fun value w r w' hI hQ _ happly => ?_) (fun _ _ _ _ heq h => heq ▸ h) hnext
  cases a with
  | rotate | setRolePassword => cases ha
  | loadPlacement | connectAsSuperuser | terminateBackends | purgeRetired =>
      cases happly
      exact ⟨hI, hkeep w hQ, hQ⟩

theorem carries_rotate (hnew : StepName.rotateDeveloperPassword ∉ done) :
    contract.Carries (perform apply) (contract.Posts kind done) rotateDeveloperPassword (contract.Posts kind done)
      (contract.Posts kind (done ++ [.rotateDeveloperPassword])) := by
  have hkeep : ∀ w, contract.Posts kind done w := fun w name hname heq => absurd (heq ▸ hname) hnew
  refine carries_aside trivial (fun w _ => hkeep w) fun _ => ?_
  refine carries_attempt (fun value w => w.stored = some value) (fun w _ => hkeep w)
    (fun value w r w' hI _ _ happly => ?_) (fun _ _ _ _ heq h => heq ▸ h) fun value => ?_
  · cases happly
    exact ⟨nofun, hkeep _, rfl⟩
  refine carries_aside trivial (fun w _ => hkeep w) fun _ => ?_
  refine carries_attempt (fun _ w => w.unapplied = false) (fun w _ => hkeep w)
    (fun _ w r w' hI hstored _ happly => ?_) (fun _ _ _ _ heq h => heq ▸ h) fun _ => ?_
  · cases happly
    exact ⟨fun _ => hstored, hkeep _, rfl⟩
  · exact fun w _ happlied name _ _ => happlied

theorem carries_rest {name : StepName} (hname : name = .terminateOldSessions ∨ name = .purgeRetiredCredential) :
    contract.Carries (perform apply) (contract.Posts kind done) (body kind name) (contract.Posts kind done)
      (contract.Posts kind (done ++ [name])) := by
  have hok : contract.Carries (perform apply) (contract.Posts kind done) .ok (contract.Posts kind done)
      (contract.Posts kind (done ++ [name])) := by
    intro w _ h n hn heq
    rcases List.mem_append.mp hn with hn | hn
    · exact h n hn heq
    · obtain rfl := List.mem_singleton.mp hn
      rcases hname with rfl | rfl <;> cases heq
  rcases hname with rfl | rfl
  · unfold body terminateOldSessions
    dsimp only
    split
    · exact hok
    · exact carries_aside trivial (fun _ => id) fun _ => carries_aside trivial (fun _ => id) fun _ =>
        carries_aside trivial (fun _ => id) fun _ => hok
  · exact carries_aside trivial (fun _ => id) fun _ => hok

theorem kept : contract.Kept rotations where
  refl _ := rfl
  post _ _ _ _ _ heq h := heq ▸ h
  step kind name hmem done _ hnew := by
    rcases List.mem_cons.mp hmem with rfl | hmem
    · exact carries_rotate hnew
    · exact carries_rest (by simpa using hmem)
  succeed jobs w j job _ _ hposts := hposts _ List.mem_cons_self rfl
  fail _ _ _ _ _ _ _ h := h
  other := ⟨fun _ => False, nofun, fun _ => trivial, fun _ _ _ _ _ hforeign => hforeign.elim⟩
  change c r s hI _ := by
    simp only [rotations, requestRotation]
    split
    next hfree =>
      simp only [Bool.and_eq_true] at hfree
      have hnone := hI.none_of_idle hfree.1
      exact ⟨hI.create hfree.1 rfl rfl, Contract.spares_alone (fun d _ => hnone d) fun d _ => hnone d, rfl⟩
    next => exact ⟨hI, fun d _ => ⟨rfl, fun j _ => ⟨rfl, rfl⟩⟩, rfl⟩

/-- The password of the secret is the one in force whenever no rotation is unfinished, as long as no lease is taken over
from a worker that is alive, and no rotation fails for good with a stored password that has not been applied. -/
theorem stored_in_force {g : Config Worker (Store Kind StepName World) (Op StepName Act Request) (Reply Kind StepName fun a => Option (Answer a))}
    (hjobs : s.jobs = []) (hworking : ∀ c, s.working c = none) (hstored : s.world.stored = s.world.inForce)
    (happlied : s.world.unapplied = false) (h : rotations.protocol.Reachable (Protocol.Statements contract.Allowed) s g)
    (hidle : g.store.idle = true) : g.store.world.stored = g.store.world.inForce := by
  have hgood : contract.Good s := ⟨fun _ => hstored, by simp [hjobs], by simp [hjobs], by simp [hworking], by simp [hworking],
    fun _ => happlied⟩
  have hgood := Contract.good_of_reachable kept hgood hworking h
  exact hgood.world (hgood.rest hidle)

section Examples

/-- The database accepts the stored password. -/
def fresh : Store Kind StepName World := ⟨[], fun _ => false, fun _ => none, ⟨some 0, some 0, false⟩⟩

abbrev Run := List (Move Worker (Chance (Outcome × Password)) (Sagas.Request Empty Request))

def run (c : Worker) (value : Password) (n : Nat) : Run := List.replicate n (.run c ⟨(.done, value), false⟩)

def request (maxAttempts : Nat) : Run := .arrive 9 (.change ⟨false, true, maxAttempts⟩) :: run 9 0 1

def watch : Worker → Op StepName Act Request → Store Kind StepName World → Bool :=
  Contract.watched (fun _ _ => true) (fun _ _ => true) fun _ _ w => !w.unapplied

theorem allowed_watch (g : Config Worker (Store Kind StepName World) (Op StepName Act Request) (Reply Kind StepName fun a => Option (Answer a)))
    (m : Move Worker (Chance (Outcome × Password)) (Sagas.Request Empty Request)) (hm : Protocol.watch watch g m = true) :
    Protocol.Statements contract.Allowed g m :=
  Protocol.statements_watch (Contract.allowed_watched (fun _ _ _ => trivial) (fun _ _ _ => trivial) fun _ _ w h => (Bool.not_eq_true' _).mp h) g m hm

/-- The role is not changed at the first attempt, and the second one stores a password of its own. -/
theorem stored_in_force_retried : ∃ g, rotations.protocol.Reachable (Protocol.Statements contract.Allowed) fresh g ∧
    g.store.idle = true ∧ g.store.world.stored = some 2 ∧ g.store.world.stored = g.store.world.inForce := by
  have h := Protocol.Reachable.start.replay (P := rotations.protocol) (s := fresh) allowed_watch
    (request 5 ++ .arrive 0 (.execute 0) :: run 0 1 4 ++ .run 0 ⟨(.failed, 1), false⟩ :: run 0 1 1 ++
      .arrive 0 (.execute 0) :: run 0 2 10) rfl
  exact ⟨_, h, rfl, rfl, stored_in_force rfl (fun _ => rfl) rfl rfl h rfl⟩

/-- A worker whose lease has been taken over applies its password after the one of the other worker. And a rotation whose
attempts are used up leaves a stored password that is never applied. -/
theorem not_stored_in_force :
    (¬ ∀ g, rotations.protocol.Reachable (fun _ _ => True) fresh g → g.store.idle = true →
      g.store.world.stored = g.store.world.inForce) ∧
    ∃ g, rotations.protocol.Reachable (fun _ _ => True) fresh g ∧ g.store.jobs.map Job.state = [.deadLetter] ∧
      g.store.world.stored = some 1 ∧ g.store.world.inForce = some 0 := by
  refine ⟨fun h => ?_, _, Protocol.Reachable.start.free (P := rotations.protocol) (s := fresh)
    (request 1 ++ .arrive 0 (.execute 0) :: run 0 1 4 ++ .run 0 ⟨(.failed, 1), false⟩ :: run 0 1 1) rfl, rfl, rfl, rfl⟩
  have hrun := Protocol.Reachable.start.free (P := rotations.protocol) (s := fresh)
    (request 5 ++ .arrive 0 (.execute 0) :: run 0 1 4 ++ .arrive 9 (.beat 0 true) :: run 9 0 1 ++
      .arrive 1 (.execute 0) :: run 1 2 10 ++ run 0 1 1) rfl
  exact absurd (h _ hrun rfl) (by decide)

end Examples

end Corebase.CredentialRotation
