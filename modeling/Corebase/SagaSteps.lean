import Corebase.ProvisioningJobs
import Corebase.SagaRules

namespace Corebase.SagaSteps

open Sagas SagaRules
open ProvisioningJobs (JobType)

inductive StepName
  | allocateNode | createVolume | createNetwork | startContainer | waitHealthy | configureBackups | verifyArchiving
  | createBaseRoles | storeCredentials | generateApiKeys | startPooler | waitPoolerHealthy | startPostgrest
  | waitPostgrestHealthy | writeConnection | markReady
  | disableApi | disableWrites | finalBackup | stopPostgrest | stopPooler | stopContainer | removeNetwork
  | markSoftDeleted
  | restoreIntoVolume | recoverToTarget | resetRestoredCredentials | markRestored
  | planBackup | takeBackup
  | markPausing | checkpointAndStop | removePausedContainers | markPaused
  | markResuming | markResumed
  | rotateDeveloperPassword | terminateOldSessions | purgeRetiredCredential
  | verifyPurgeable | removeContainer | removeVolume | scheduleRepoDestruction | deleteCredentials | releaseCapacity
  | verifyGone | markDeleted
deriving DecidableEq

/-- The sagas of buildSagas. -/
def steps : JobType → List StepName
  | .provisionProject => [.allocateNode, .createVolume, .createNetwork, .startContainer, .waitHealthy,
      .configureBackups, .verifyArchiving, .createBaseRoles, .storeCredentials, .generateApiKeys, .startPooler,
      .waitPoolerHealthy, .startPostgrest, .waitPostgrestHealthy, .writeConnection, .markReady]
  | .deleteProject => [.disableApi, .disableWrites, .finalBackup, .stopPostgrest, .stopPooler, .stopContainer,
      .removeNetwork, .markSoftDeleted]
  | .restoreProject => [.allocateNode, .createVolume, .createNetwork, .restoreIntoVolume, .recoverToTarget,
      .resetRestoredCredentials, .configureBackups, .verifyArchiving, .writeConnection, .markRestored]
  | .backupProject => [.planBackup, .takeBackup]
  | .pauseProject => [.markPausing, .finalBackup, .checkpointAndStop, .removePausedContainers, .markPaused]
  | .resumeProject => [.markResuming, .createNetwork, .startContainer, .waitHealthy, .configureBackups,
      .verifyArchiving, .startPooler, .waitPoolerHealthy, .startPostgrest, .waitPostgrestHealthy, .markResumed]
  | .rotateCredentials => [.rotateDeveloperPassword, .terminateOldSessions, .purgeRetiredCredential]
  | .purgeProject => [.verifyPurgeable, .removeContainer, .removeNetwork, .removeVolume, .scheduleRepoDestruction,
      .deleteCredentials, .releaseCapacity, .verifyGone, .markDeleted]

/-- An act that fails has done nothing, or has done its work and its answer is lost. -/
inductive Outcome
  | done | failed | lost
deriving DecidableEq

section Attempts

variable {Kind Name World Act Change Choice : Type} {Raw : Act → Type}

/-- What an act answers and does, unless it fails. -/
def perform (apply : Choice → (a : Act) → World → Option (Raw a × World)) (choice : Outcome × Choice) (a : Act) (w : World) :
    Option (Option (Raw a) × World) :=
  (apply choice.2 a w).map fun (r, w') => match choice.1 with
    | .done => (some r, w')
    | .failed => (none, w)
    | .lost => (none, w')

def attempt (a : Act) (next : Raw a → Body Act fun a => Option (Raw a)) : Body Act fun a => Option (Raw a) :=
  .act a fun
    | none => .throw
    | some r => next r

variable {K : Contract Kind Name World Act Change} {apply : Choice → (a : Act) → World → Option (Raw a × World)}
  {keep Q Z : World → Prop}

theorem carries_attempt {a : Act} {next : Raw a → Body Act fun a => Option (Raw a)} (Q' : Raw a → World → Prop)
    (hkeep : ∀ w, Q w → keep w)
    (hact : ∀ choice w r w', K.Inv w → Q w → K.Legal a w → apply choice a w = some (r, w') → K.Inv w' ∧ keep w' ∧ Q' r w')
    (hstable : ∀ r w w', K.Inv w → K.Rely w w' → Q' r w → Q' r w')
    (hnext : ∀ r, K.Carries (perform apply) keep (next r) (Q' r) Z) : K.Carries (perform apply) keep (attempt a next) Q Z := by
  intro choice w answer w' hI hQ hlegal hperform
  obtain ⟨⟨r, w₁⟩, happly, heq⟩ := Option.map_eq_some_iff.mp hperform
  obtain ⟨hI', hkeep', hQ'⟩ := hact choice.2 w r w₁ hI hQ hlegal happly
  cases houtcome : choice.1 with
  | done =>
      simp only [houtcome] at heq
      cases heq
      exact ⟨hI', hkeep', Q' r, hstable r, hQ', hnext r⟩
  | failed =>
      simp only [houtcome] at heq
      cases heq
      exact ⟨hI, hkeep w hQ, _, fun _ _ _ _ _ => trivial, trivial, trivial⟩
  | lost =>
      simp only [houtcome] at heq
      cases heq
      exact ⟨hI', hkeep', _, fun _ _ _ _ _ => trivial, trivial, trivial⟩

/-- An act that only looks. -/
theorem carries_look {a : Act} {next : Raw a → Body Act fun a => Option (Raw a)} (P : Raw a → World → Prop)
    (hkeep : ∀ w, Q w → keep w)
    (hlook : ∀ choice w r w', K.Inv w → Q w → apply choice a w = some (r, w') → w' = w ∧ P r w)
    (hstable : ∀ r w w', K.Inv w → K.Rely w w' → Q w ∧ P r w → Q w' ∧ P r w')
    (hnext : ∀ r, K.Carries (perform apply) keep (next r) (fun w => Q w ∧ P r w) Z) :
    K.Carries (perform apply) keep (attempt a next) Q Z := by
  refine carries_attempt (fun r w => Q w ∧ P r w) hkeep (fun choice w r w' hI hQ _ happly => ?_) hstable hnext
  obtain ⟨rfl, hP⟩ := hlook choice w r w' hI hQ happly
  exact ⟨hI, hkeep _ hQ, hQ, hP⟩

end Attempts

end Corebase.SagaSteps
