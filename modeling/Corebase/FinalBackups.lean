import Corebase.Reconciler
import Corebase.SagaAttempts

namespace Corebase.FinalBackups

open Interleaving Sagas SagaRules SagaSteps SagaAttempts
open JobRunner (Worker JobState)
open ProvisioningJobs (JobType ProjectStatus)
open Reconciler (shouldNotRun)

/-- The sagas that take a project down. -/
inductive Takedown
  | pause | delete
deriving DecidableEq

def Takedown.jobType : Takedown → JobType
  | .pause => .pauseProject
  | .delete => .deleteProject

structure Settings where
  /-- A backup repository is configured. -/
  repo : Bool
  requireBackups : Bool
  requireFinalBackup : Bool
deriving DecidableEq

inductive Container
  | running | stopped | absent
deriving DecidableEq

/-- The steps that look whether the database runs. -/
inductive Stage
  | disableWrites
  | finalBackup (takedown : Takedown)
  | checkpointAndStop
  | stopContainer
deriving DecidableEq

inductive Event
  | removed | paused | softDeleted
deriving DecidableEq

/-- What was behind the project when it was taken down. -/
structure Down where
  event : Event
  backed : Bool
  confirmed : Bool
  covered : Bool
  dormant : Bool
  recorded : Bool
deriving DecidableEq

structure World where
  status : ProjectStatus
  /-- The container of the database. -/
  container : Container
  /-- The default of the database is read-only. -/
  readOnly : Bool
  /-- The rows of the backup runs, the newest first, and whether they have succeeded. -/
  runs : List Bool
  /-- The job has a backup that succeeded after its last checkpoint, and the check of the archive has passed since. -/
  backed : Bool
  confirmed : Bool
  /-- A backup has succeeded after writes were disabled, and no transaction has committed since. -/
  covered : Bool
  /-- A deletion has found the database not running. -/
  dormant : Bool
  down : List Down
deriving DecidableEq

/-- The command goes well. -/
abbrev Choice := Bool

inductive Act
  /-- Something that may throw, and that nothing here depends on. -/
  | prepare
  | updatePausing
  | status
  | inspect (stage : Stage)
  | setReadOnly
  | prior
  | openRun
  | takeBackup
  | closeRun (succeeded : Bool)
  | checkpoint
  | check
  | stopContainer
  | removeContainers
  | setPaused
  | setSoftDeleted
  /-- A container that ends by itself, one that is started, and a transaction of a customer. -/
  | exit
  | start
  | commit
deriving DecidableEq

@[reducible] def Answer : Act → Type
  | .updatePausing | .inspect _ | .setReadOnly | .prior | .takeBackup | .check => Bool
  | .status => ProjectStatus
  | .prepare | .openRun | .closeRun _ | .checkpoint | .stopContainer | .removeContainers | .setPaused | .setSoftDeleted
  | .exit | .start | .commit => Unit

def World.up (w : World) : Bool := w.container = .running

/-- The project goes down. -/
def World.log (w : World) (event : Event) : World :=
  { w with down := ⟨event, w.backed, w.confirmed, w.covered, w.dormant, true ∈ w.runs⟩ :: w.down }

/-- A deletion goes by what is on record. -/
def World.dormantAt (w : World) : Stage → Bool
  | .disableWrites => !w.up && !w.readOnly
  | .finalBackup .delete => !w.up && !w.covered
  | _ => false

def World.halt (w : World) : World := if w.up then { w with container := .stopped } else w

def apply (choice : Choice) : (a : Act) → World → Option (Answer a × World)
  | .prepare, w => some ((), w)
  | .updatePausing, w =>
      if w.status ∈ [.ready, .pausing] then some (true, { w with status := .pausing }) else some (false, w)
  | .status, w => some (w.status, w)
  | .inspect stage, w => some (w.up, { w with dormant := w.dormant || w.dormantAt stage })
  | .setReadOnly, w => if w.up then some (true, { w with readOnly := true }) else some (false, w)
  | .prior, w => some (true ∈ w.runs, w)
  | .openRun, w => some ((), { w with runs := false :: w.runs })
  | .takeBackup, w =>
      if w.up && choice then some (true, { w with backed := true, covered := w.covered || w.readOnly }) else some (false, w)
  | .closeRun succeeded, w => some ((), { w with runs := succeeded :: w.runs.tail })
  | .checkpoint, w => some ((), if w.up && choice then { w with backed := false, confirmed := false } else w)
  | .check, w => if w.up && choice then some (true, { w with confirmed := w.confirmed || w.backed }) else some (false, w)
  | .stopContainer, w => some ((), w.halt)
  | .removeContainers, w => some ((), { w with container := .absent }.log .removed)
  | .setPaused, w => some ((), { w with status := .paused }.log .paused)
  | .setSoftDeleted, w => some ((), { w with status := .softDeleted }.log .softDeleted)
  | .exit, w => some ((), w.halt)
  | .start, w => some ((), if w.container = .stopped then { w with container := .running } else w)
  | .commit, w => some ((), if w.up then { w with covered := false } else w)

abbrev Steps := Body Act fun a => Option (Answer a)

/-- The row of the run is closed, and the step throws. -/
def failRun : Steps := .act (.closeRun false) fun _ => .throw

/-- An act whose failure closes the row of the run. -/
def guarded (a : Act) (next : Answer a → Steps) : Steps :=
  .act a fun
    | none => failRun
    | some r => next r

def markPausing : Steps :=
  attempt .updatePausing fun updated => if updated then .ok
  else attempt .status fun status => if status = .paused then .ok else .throw

def finalBackup (config : Settings) (takedown : Takedown) : Steps :=
  attempt .prepare fun _ => if !config.repo then if config.requireFinalBackup then .throw else .ok
  else attempt (.inspect (.finalBackup takedown)) fun running =>
    if !running then attempt .prior fun prior => if !prior && config.requireFinalBackup then .throw else .ok
    else attempt .openRun fun _ => guarded .takeBackup fun ok => if !ok then failRun
    else attempt .prepare fun _ => attempt (.closeRun true) fun _ => .ok

def stopDatabase : Steps := attempt .prepare fun _ => attempt .stopContainer fun _ => .ok

def checkpointAndStop (config : Settings) : Steps :=
  attempt .prepare fun _ => attempt (.inspect .checkpointAndStop) fun running => if !running then .ok
  else attempt .checkpoint fun _ =>
    if config.repo then
      attempt .prepare fun _ => attempt .openRun fun _ => guarded .takeBackup fun ok => if !ok then failRun
      else guarded .prepare fun _ => guarded (.closeRun true) fun _ => guarded .check fun ok =>
        if !ok then failRun else stopDatabase
    else if config.requireBackups then .throw else stopDatabase

def disableWrites : Steps :=
  attempt .prepare fun _ => attempt (.inspect .disableWrites) fun running => if !running then .ok
  else attempt .setReadOnly fun connected => if connected then .ok else .throw

def stopContainer : Steps :=
  attempt .prepare fun _ => attempt (.inspect .stopContainer) fun running => if running then stopDatabase else .ok

def body (config : Settings) (takedown : Takedown) : StepName → Steps
  | .markPausing => markPausing
  | .finalBackup => finalBackup config takedown
  | .checkpointAndStop => checkpointAndStop config
  | .removePausedContainers => attempt .prepare fun _ => attempt .removeContainers fun _ => attempt .prepare fun _ => .ok
  | .markPaused => attempt .prepare fun _ => attempt .setPaused fun _ => .ok
  | .disableApi => .ok
  | .disableWrites => disableWrites
  | .stopContainer => stopContainer
  | .markSoftDeleted => attempt .setSoftDeleted fun _ => attempt .prepare fun _ => .ok
  | _ => attempt .prepare fun _ => .ok

inductive Other
  | sweep | exit | start | commit
deriving DecidableEq

/-- What a reconcile pass does about the container of a project that must not run. -/
def sweep : Steps :=
  attempt .status fun status => if shouldNotRun status then
    attempt (.inspect .stopContainer) fun running => if running then stopDatabase else .ok
  else .ok

def others : Other → Steps
  | .sweep => sweep
  | .exit => attempt .exit fun _ => .ok
  | .start => attempt .start fun _ => .ok
  | .commit => attempt .commit fun _ => .ok

def takedowns (config : Settings) :
    Design Takedown StepName World Act Empty (Outcome × Choice) Other fun a => Option (Answer a) where
  sagas takedown := steps takedown.jobType
  body := body config
  onDeadLetter _ := .ok
  others := others
  perform := perform apply
  change x := nomatch x

/-- The project has its backup behind it. -/
def Down.Sound (config : Settings) (d : Down) : Prop := match d.event with
  | .removed | .paused => d.backed = true ∧ d.confirmed = true
  | .softDeleted => (d.covered = true ∨ d.dormant = true) ∧ (config.requireFinalBackup = true → d.recorded = true)

def Inv (config : Settings) (w : World) : Prop := config.repo = true → ∀ d ∈ w.down, d.Sound config

def Confirmed (w : World) : Prop := w.backed = true ∧ w.confirmed = true

def Covered (config : Settings) (w : World) : Prop :=
  (w.covered = true ∨ w.dormant = true) ∧ (config.requireFinalBackup = true → true ∈ w.runs)

def Post (config : Settings) : Takedown → StepName → World → Prop
  | .pause, .checkpointAndStop, w => config.repo = true → Confirmed w
  | .delete, .disableWrites, w => w.readOnly = true ∨ w.dormant = true
  | .delete, .finalBackup, w => config.repo = true → Covered config w
  | _, _, _ => True

/-- A pause finds the database stopped only when it has already backed it up, and no transaction commits after the final
backup of a deletion. -/
def legal : Act → World → Bool
  | .inspect .checkpointAndStop, w => w.up || w.backed && w.confirmed
  | .commit, w => !w.covered
  | _, _ => true

def contract (config : Settings) : Contract Takedown StepName World Act Empty where
  Inv := Inv config
  Post := Post config
  Rely w w' := ∃ container, w' = { w with container := container }
  Rest _ _ := True
  Legal a w := legal a w = true
  Timely _ _ := True
  Final _ _ _ := True

variable {config : Settings} {takedown : Takedown} {name : StepName} {done : List StepName} {w w' : World} {choice : Choice}

section Acts

theorem post_mono (hconfirmed : name = .checkpointAndStop → Confirmed w → Confirmed w')
    (hreadOnly : w.readOnly = true → w'.readOnly = true) (hdormant : w.dormant = true → w'.dormant = true)
    (hcovered : w.covered = true → w'.covered = true)
    (hruns : takedown = .delete → name = .finalBackup → true ∈ w.runs → true ∈ w'.runs) (h : Post config takedown name w) :
    Post config takedown name w' := by
  unfold Post at h ⊢
  split at h
  · exact fun hrepo => hconfirmed rfl (h hrepo)
  · exact h.imp hreadOnly hdormant
  · intro hrepo
    obtain ⟨hbehind, hrecorded⟩ := h hrepo
    exact ⟨hbehind.imp hcovered hdormant, fun hrequired => hruns rfl rfl (hrecorded hrequired)⟩
  · trivial

theorem post_container (container : Container) (h : Post config takedown name w) :
    Post config takedown name { w with container := container } :=
  post_mono (w := w) (fun _ => id) id id id (fun _ _ => id) h

/-- The acts that record that the project goes down. -/
def Logs : Act → Prop
  | .removeContainers | .setPaused | .setSoftDeleted => True
  | _ => False

/-- The steps whose part the act may undo. -/
def Undoes : Act → Takedown → StepName → Prop
  | .checkpoint, _, name => name = .checkpointAndStop
  | .closeRun _, takedown, name => takedown = .delete ∧ name = .finalBackup
  | _, _, _ => False

theorem halt_container (w : World) : ∃ container, w.halt = { w with container := container } := by
  unfold World.halt
  split
  · exact ⟨_, rfl⟩
  · exact ⟨w.container, rfl⟩

/-- Every act keeps what the steps that are done have left. -/
theorem apply_keeps {a : Act} {r : Answer a} (hlegal : legal a w = true) (happly : apply choice a w = some (r, w')) :
    (¬ Logs a → w'.down = w.down) ∧
      ∀ name, ¬ Undoes a takedown name → Post config takedown name w → Post config takedown name w' := by
  cases a with
  | prepare | status | prior =>
      cases happly
      exact ⟨fun _ => rfl, fun _ _ => id⟩
  | stopContainer | exit =>
      cases happly
      obtain ⟨container, heq⟩ := halt_container w
      rw [heq]
      exact ⟨fun _ => rfl, fun _ _ => post_container container⟩
  | start =>
      cases happly
      split
      · exact ⟨fun _ => rfl, fun _ _ => post_container _⟩
      · exact ⟨fun _ => rfl, fun _ _ => id⟩
  | commit =>
      have hcovered : w.covered = false := by simpa [legal] using hlegal
      cases happly
      split
      · exact ⟨fun _ => rfl, fun _ _ => post_mono (fun _ => id) id id (fun h => nomatch hcovered.symm.trans h) fun _ _ => id⟩
      · exact ⟨fun _ => rfl, fun _ _ => id⟩
  | updatePausing =>
      simp only [apply] at happly
      split at happly <;> cases happly
      · exact ⟨fun _ => rfl, fun _ _ => post_mono (fun _ => id) id id id fun _ _ => id⟩
      · exact ⟨fun _ => rfl, fun _ _ => id⟩
  | inspect stage =>
      cases happly
      refine ⟨fun _ => rfl, fun _ _ => post_mono (fun _ => id) id (fun h => ?_) id fun _ _ => id⟩
      simp [h]
  | setReadOnly =>
      simp only [apply] at happly
      split at happly <;> cases happly
      · exact ⟨fun _ => rfl, fun _ _ => post_mono (fun _ => id) (fun _ => rfl) id id fun _ _ => id⟩
      · exact ⟨fun _ => rfl, fun _ _ => id⟩
  | openRun =>
      cases happly
      exact ⟨fun _ => rfl, fun _ _ => post_mono (fun _ => id) id id id fun _ _ => List.mem_cons_of_mem _⟩
  | closeRun succeeded =>
      cases happly
      refine ⟨fun _ => rfl, fun name hundo => post_mono (fun _ => id) id id id fun htakedown hname => ?_⟩
      exact absurd ⟨htakedown, hname⟩ hundo
  | takeBackup =>
      simp only [apply] at happly
      split at happly <;> cases happly
      · refine ⟨fun _ => rfl, fun _ _ => post_mono (fun _ h => ⟨rfl, h.2⟩) id id (fun h => ?_) fun _ _ => id⟩
        simp [h]
      · exact ⟨fun _ => rfl, fun _ _ => id⟩
  | checkpoint =>
      cases happly
      split
      · exact ⟨fun _ => rfl, fun name hundo => post_mono (fun hname => absurd hname hundo) id id id fun _ _ => id⟩
      · exact ⟨fun _ => rfl, fun _ _ => id⟩
  | check =>
      simp only [apply] at happly
      split at happly <;> cases happly
      · refine ⟨fun _ => rfl, fun _ _ => post_mono (fun _ h => ⟨h.1, ?_⟩) id id id fun _ _ => id⟩
        simp [h.2]
      · exact ⟨fun _ => rfl, fun _ _ => id⟩
  | removeContainers | setPaused | setSoftDeleted =>
      cases happly
      exact ⟨fun hlogs => absurd trivial hlogs, fun _ _ => post_mono (fun _ => id) id id id fun _ _ => id⟩

end Acts

section Saga

variable {Q Z : World → Prop}

abbrev Posts (config : Settings) (takedown : Takedown) (done : List StepName) : World → Prop :=
  (contract config).Posts takedown done

/-- The container does not matter. -/
def Steady (Q : World → Prop) : Prop := ∀ w container, Q w → Q { w with container := container }

theorem steady_posts : Steady (Posts config takedown done) :=
  fun _ container h name hname => post_container container (h name hname)

theorem stable_steady {Q : World → Prop} (hQ : Steady Q) (w w' : World) (_ : (contract config).Inv w)
    (hrely : (contract config).Rely w w') (h : Q w) : Q w' := by
  obtain ⟨container, rfl⟩ := hrely
  exact hQ w container h

/-- What an act that logs nothing does for the worker. -/
theorem keeps_act {a : Act} {r : Answer a} (hlogs : ¬ Logs a) (hundo : ∀ name ∈ done, ¬ Undoes a takedown name)
    (hI : Inv config w) (hposts : Posts config takedown done w) (hlegal : legal a w = true)
    (happly : apply choice a w = some (r, w')) : Inv config w' ∧ Posts config takedown done w' := by
  obtain ⟨hdown, hkeeps⟩ : (¬ Logs a → w'.down = w.down) ∧
      ∀ name, ¬ Undoes a takedown name → Post config takedown name w → Post config takedown name w' := apply_keeps hlegal happly
  refine ⟨fun hrepo => ?_, fun name hname => hkeeps name (hundo name hname) (hposts name hname)⟩
  rw [hdown hlogs]
  exact hI hrepo

/-- An act, with what is known after it. -/
theorem carries_act {a : Act} {next : Answer a → Steps} (P : Answer a → World → Prop) (hsteady : ∀ r, Steady (P r))
    (hlogs : ¬ Logs a) (hundo : ∀ name ∈ done, ¬ Undoes a takedown name)
    (hP : ∀ choice w r w', legal a w = true → Posts config takedown done w → Q w → apply choice a w = some (r, w') → P r w')
    (hnext : ∀ r, (contract config).Carries (perform apply) (Posts config takedown done) (next r)
      (fun w => Posts config takedown done w ∧ P r w) Z) :
    (contract config).Carries (perform apply) (Posts config takedown done) (attempt a next)
      (fun w => Posts config takedown done w ∧ Q w) Z := by
  refine carries_attempt (fun r w => Posts config takedown done w ∧ P r w) (fun _ => And.left)
    (fun choice w r w' hI hQ hlegal happly => ?_)
    (fun r => stable_steady fun w container h => ⟨steady_posts w container h.1, hsteady r w container h.2⟩) hnext
  obtain ⟨hI', hposts⟩ := keeps_act hlogs hundo hI hQ.1 hlegal happly
  exact ⟨hI', hposts, hposts, hP choice w r w' hlegal hQ.1 hQ.2 happly⟩

theorem carries_failRun (hclose : ∀ name ∈ done, ¬ Undoes (.closeRun false) takedown name) :
    (contract config).Carries (perform apply) (Posts config takedown done) failRun (Posts config takedown done) Z := by
  intro choice w answer w' hI hw hlegal hperform
  obtain ⟨hI', hposts⟩ : Inv config w' ∧ Posts config takedown done w' :=
    perform_keeps (I := fun w => Inv config w ∧ Posts config takedown done w) ⟨hI, hw⟩
      (fun r w' happly => keeps_act id hclose hI hw hlegal happly) hperform
  exact ⟨hI', hposts, fun _ => True, fun _ _ _ _ => id, trivial, trivial⟩

/-- An act whose failure closes the row of the run. -/
theorem carries_guarded {a : Act} {next : Answer a → Steps} (P : Answer a → World → Prop) (hsteady : ∀ r, Steady (P r))
    (hlogs : ¬ Logs a) (hundo : ∀ name ∈ done, ¬ Undoes a takedown name)
    (hclose : ∀ name ∈ done, ¬ Undoes (.closeRun false) takedown name)
    (hP : ∀ choice w r w', legal a w = true → Posts config takedown done w → Q w → apply choice a w = some (r, w') → P r w')
    (hnext : ∀ r, (contract config).Carries (perform apply) (Posts config takedown done) (next r)
      (fun w => Posts config takedown done w ∧ P r w) Z) :
    (contract config).Carries (perform apply) (Posts config takedown done) (guarded a next)
      (fun w => Posts config takedown done w ∧ Q w) Z := by
  intro choice w answer w' hI hQ hlegal hperform
  obtain ⟨⟨r, w₁⟩, happly, heq⟩ := Option.map_eq_some_iff.mp hperform
  obtain ⟨hI', hposts⟩ := keeps_act hlogs hundo hI hQ.1 hlegal happly
  cases houtcome : choice.1 with
  | done =>
      simp only [houtcome] at heq
      cases heq
      exact ⟨hI', hposts, _, stable_steady fun w container h => ⟨steady_posts w container h.1, hsteady r w container h.2⟩,
        ⟨hposts, hP choice.2 w r _ hlegal hQ.1 hQ.2 happly⟩, hnext r⟩
  | failed =>
      simp only [houtcome] at heq
      cases heq
      exact ⟨hI, hQ.1, _, stable_steady steady_posts, hQ.1, carries_failRun hclose⟩
  | lost =>
      simp only [houtcome] at heq
      cases heq
      exact ⟨hI', hposts, _, stable_steady steady_posts, hposts, carries_failRun hclose⟩

theorem carries_prepare {next : Unit → Steps} (hsteady : Steady Q)
    (hnext : (contract config).Carries (perform apply) (Posts config takedown done) (next ())
      (fun w => Posts config takedown done w ∧ Q w) Z) :
    (contract config).Carries (perform apply) (Posts config takedown done) (attempt .prepare next)
      (fun w => Posts config takedown done w ∧ Q w) Z := by
  refine carries_act (fun _ => Q) (fun _ => hsteady) id (fun _ _ => id) (fun choice w r w' _ _ hQ happly => ?_) fun _ => hnext
  cases happly
  exact hQ

theorem carries_done (h : ∀ w, Posts config takedown done w → Q w → Post config takedown name w) :
    (contract config).Carries (perform apply) (Posts config takedown done) (.ok : Steps)
      (fun w => Posts config takedown done w ∧ Q w) (Posts config takedown (done ++ [name])) := by
  intro w _ hw n hn
  rcases List.mem_append.mp hn with hn | hn
  · exact hw.1 n hn
  · obtain rfl := List.mem_singleton.mp hn
    exact h w hw.1 hw.2

/-- The acts that log nothing and undo the part of no step. -/
def Plain (takedown : Takedown) (a : Act) : Prop := ¬ Logs a ∧ ∀ name, ¬ Undoes a takedown name

theorem carries_plain {body : Steps} (hbody : body.Only (Plain takedown)) (hpost : ∀ w, Post config takedown name w) :
    (contract config).Carries (perform apply) (Posts config takedown done) body (Posts config takedown done)
      (Posts config takedown (done ++ [name])) := by
  induction body with
  | ok => exact (carries_done fun w _ _ => hpost w).mono fun w _ hw => ⟨hw, trivial⟩
  | throw => trivial
  | act a next ih =>
      intro choice w answer w' hI hw hlegal hperform
      obtain ⟨hI', hposts⟩ : Inv config w' ∧ Posts config takedown done w' :=
        perform_keeps (I := fun w => Inv config w ∧ Posts config takedown done w) ⟨hI, hw⟩
          (fun r w' happly => keeps_act hbody.1.1 (fun name _ => hbody.1.2 name) hI hw hlegal happly) hperform
      exact ⟨hI', hposts, _, stable_steady steady_posts, hposts, ih answer (hbody.2 answer)⟩

theorem carries_stopDatabase (hsteady : Steady Q) (h : ∀ w, Posts config takedown done w → Q w → Post config takedown name w) :
    (contract config).Carries (perform apply) (Posts config takedown done) stopDatabase
      (fun w => Posts config takedown done w ∧ Q w) (Posts config takedown (done ++ [name])) := by
  refine carries_prepare hsteady ?_
  refine carries_act (fun _ => Q) (fun _ => hsteady) id (fun _ _ => id) (fun choice w r w' _ _ hQ happly => ?_) fun _ => carries_done h
  cases happly
  obtain ⟨container, heq⟩ := halt_container w
  rw [heq]
  exact hsteady w container hQ

theorem carries_checkpointAndStop (hnew : StepName.checkpointAndStop ∉ done) :
    (contract config).Carries (perform apply) (Posts config .pause done) (checkpointAndStop config)
      (fun w => Posts config .pause done w ∧ True) (Posts config .pause (done ++ [.checkpointAndStop])) := by
  have hclose : ∀ succeeded, ∀ name ∈ done, ¬ Undoes (.closeRun succeeded) .pause name := fun _ _ _ h => nomatch h.1
  refine carries_prepare (fun _ _ => id) ?_
  refine carries_act (fun running w => running = false → Confirmed w) (fun _ _ _ => id) id (fun _ _ => id)
    (fun choice w r w' hlegal _ _ happly => ?_) fun running => ?_
  · cases happly
    intro hdown
    have hconfirmed : w.backed = true ∧ w.confirmed = true := by simpa [legal, hdown] using hlegal
    exact hconfirmed
  split
  next hdown => exact carries_done fun w _ h _ => h (by simpa using hdown)
  refine carries_act (fun _ _ => True) (fun _ _ _ => id) id (fun name hname hundo => hnew (hundo ▸ hname))
    (fun _ _ _ _ _ _ _ _ => trivial) fun _ => ?_
  split
  next hrepo =>
    refine carries_prepare (fun _ _ => id) ?_
    refine carries_act (fun _ _ => True) (fun _ _ _ => id) id (fun _ _ => id) (fun _ _ _ _ _ _ _ _ => trivial) fun _ => ?_
    refine carries_guarded (fun ok w => ok = true → w.backed = true) (fun _ _ _ => id) id (fun _ _ => id) (hclose false)
      (fun choice w r w' _ _ _ happly => ?_) fun ok => ?_
    · simp only [apply] at happly
      split at happly <;> cases happly
      · exact fun _ => rfl
      · nofun
    split
    · exact (carries_failRun (hclose false)).mono fun w _ h => h.1
    next hok =>
      have hok' : ok = true := by simpa using hok
      refine carries_guarded (fun _ w => w.backed = true) (fun _ _ _ => id) id (fun _ _ => id) (hclose false)
        (fun choice w r w' _ _ hQ happly => ?_) fun _ => ?_
      · cases happly
        exact hQ hok'
      refine carries_guarded (fun _ w => w.backed = true) (fun _ _ _ => id) id (hclose true) (hclose false)
        (fun choice w r w' _ _ hQ happly => ?_) fun _ => ?_
      · cases happly
        exact hQ
      refine carries_guarded (fun ok w => ok = true → Confirmed w) (fun _ _ _ => id) id (fun _ _ => id) (hclose false)
        (fun choice w r w' _ _ hQ happly => ?_) fun ok => ?_
      · simp only [apply] at happly
        split at happly <;> cases happly
        · exact fun _ => ⟨hQ, by simp [hQ]⟩
        · nofun
      split
      · exact (carries_failRun (hclose false)).mono fun w _ h => h.1
      next hok => exact carries_stopDatabase (fun _ _ => id) fun w _ h _ => h (by simpa using hok)
  next hrepo =>
    split
    · trivial
    · exact carries_stopDatabase (fun _ _ => id) fun w _ _ h => absurd h hrepo

theorem carries_disableWrites : (contract config).Carries (perform apply) (Posts config .delete done) disableWrites
    (fun w => Posts config .delete done w ∧ True) (Posts config .delete (done ++ [.disableWrites])) := by
  refine carries_prepare (fun _ _ => id) ?_
  refine carries_act (fun running w => running = false → w.readOnly = true ∨ w.dormant = true) (fun _ _ _ => id) id
    (fun _ _ => id) (fun choice w r w' _ _ _ happly => ?_) fun running => ?_
  · cases happly
    intro hdown
    by_cases hreadOnly : w.readOnly = true
    · exact .inl hreadOnly
    · refine .inr ?_
      simp [World.dormantAt, hdown, hreadOnly]
  split
  next hdown => exact carries_done fun w _ h => h (by simpa using hdown)
  refine carries_act (fun connected w => connected = true → w.readOnly = true) (fun _ _ _ => id) id (fun _ _ => id)
    (fun choice w r w' _ _ _ happly => ?_) fun connected => ?_
  · simp only [apply] at happly
    split at happly <;> cases happly
    · exact fun _ => rfl
    · nofun
  split
  next hconnected => exact carries_done fun w _ h => .inl (h hconnected)
  next => trivial

theorem carries_finalBackup (hnew : StepName.finalBackup ∉ done) (hdisabled : StepName.disableWrites ∈ done) :
    (contract config).Carries (perform apply) (Posts config .delete done) (finalBackup config .delete)
      (fun w => Posts config .delete done w ∧ True) (Posts config .delete (done ++ [.finalBackup])) := by
  have hclose : ∀ succeeded, ∀ name ∈ done, ¬ Undoes (.closeRun succeeded) .delete name :=
    fun _ _ hname hundo => hnew (hundo.2 ▸ hname)
  refine carries_prepare (fun _ _ => id) ?_
  split
  next hrepo =>
    split
    · trivial
    · exact carries_done fun w _ _ h => absurd h (by simpa using hrepo)
  refine carries_act (fun running w => running = false → w.covered = true ∨ w.dormant = true) (fun _ _ _ => id) id
    (fun _ _ => id) (fun choice w r w' _ _ _ happly => ?_) fun running => ?_
  · cases happly
    intro hdown
    by_cases hcovered : w.covered = true
    · exact .inl hcovered
    · refine .inr ?_
      simp [World.dormantAt, hdown, hcovered]
  split
  next hdown =>
    refine carries_act (fun prior w => (w.covered = true ∨ w.dormant = true) ∧ (prior = true → true ∈ w.runs))
      (fun _ _ _ => id) id (fun _ _ => id) (fun choice w r w' _ _ hQ happly => ?_) fun prior => ?_
    · cases happly
      exact ⟨hQ (by simpa using hdown), fun hprior => by simpa using hprior⟩
    split
    · trivial
    next hfound =>
      refine carries_done fun w _ h _ => ⟨h.1, fun hrequired => h.2 ?_⟩
      simpa [hrequired] using hfound
  next =>
    refine carries_act (fun _ _ => True) (fun _ _ _ => id) id (fun _ _ => id) (fun _ _ _ _ _ _ _ _ => trivial) fun _ => ?_
    refine carries_guarded (fun ok w => ok = true → w.covered = true ∨ w.dormant = true) (fun _ _ _ => id) id (fun _ _ => id)
      (hclose false) (fun choice w r w' _ hposts _ happly => ?_) fun ok => ?_
    · simp only [apply] at happly
      split at happly <;> cases happly
      · intro _
        have hdisabled' : w.readOnly = true ∨ w.dormant = true := hposts _ hdisabled
        exact hdisabled'.imp_left fun hreadOnly => by simp [hreadOnly]
      · nofun
    split
    · exact (carries_failRun (hclose false)).mono fun w _ h => h.1
    next hok =>
      have hok' : ok = true := by simpa using hok
      refine carries_prepare (fun _ _ => id) ?_
      refine carries_act (fun _ w => (w.covered = true ∨ w.dormant = true) ∧ true ∈ w.runs) (fun _ _ _ => id) id (hclose true)
        (fun choice w r w' _ _ hQ happly => ?_) fun _ => ?_
      · cases happly
        exact ⟨hQ hok', List.mem_cons_self⟩
      exact carries_done fun w _ h _ => ⟨h.1, fun _ => h.2⟩

/-- The project goes down with what the steps before have left. -/
theorem carries_log {a : Act} {next : Answer a → Steps} (event : Event) (hundo : ∀ name, ¬ Undoes a takedown name)
    (hlog : ∀ choice w r w', apply choice a w = some (r, w') → ∃ status container,
      w' = { w with status := status, container := container }.log event)
    (hsound : ∀ w, config.repo = true → Posts config takedown done w →
      Down.Sound config ⟨event, w.backed, w.confirmed, w.covered, w.dormant, true ∈ w.runs⟩)
    (hnext : ∀ r, (contract config).Carries (perform apply) (Posts config takedown done) (next r) (Posts config takedown done) Z) :
    (contract config).Carries (perform apply) (Posts config takedown done) (attempt a next) (Posts config takedown done) Z := by
  refine carries_attempt (fun _ => Posts config takedown done) (fun _ => id) (fun choice w r w' hI hposts hlegal happly => ?_)
    (fun _ => stable_steady steady_posts) hnext
  have hkeeps : ∀ name, ¬ Undoes a takedown name → Post config takedown name w → Post config takedown name w' :=
    (apply_keeps hlegal happly).2
  have hposts' : Posts config takedown done w' := fun name hname => hkeeps name (hundo name) (hposts name hname)
  obtain ⟨status, container, rfl⟩ := hlog choice w r w' happly
  refine ⟨fun hrepo d hd => ?_, hposts', hposts'⟩
  rcases List.mem_cons.mp hd with rfl | hd
  · exact hsound w hrepo hposts
  · exact hI hrepo d hd

theorem plain_prepare : Plain takedown .prepare := ⟨id, fun _ => id⟩

theorem only_stopDatabase : stopDatabase.Only (Plain takedown) :=
  only_attempt plain_prepare fun _ => only_attempt ⟨id, fun _ => id⟩ fun _ => trivial

theorem only_finalBackup : (finalBackup config .pause).Only (Plain .pause) := by
  have hclose : ∀ succeeded, Plain .pause (.closeRun succeeded) := fun _ => ⟨id, fun _ hundo => nomatch hundo.1⟩
  have hfail : failRun.Only (Plain .pause) := ⟨hclose false, fun _ => trivial⟩
  refine only_attempt plain_prepare fun _ => ?_
  split
  · split <;> trivial
  refine only_attempt ⟨id, fun _ => id⟩ fun running => ?_
  split
  · refine only_attempt ⟨id, fun _ => id⟩ fun prior => ?_
    split <;> trivial
  refine only_attempt ⟨id, fun _ => id⟩ fun _ => ⟨⟨id, fun _ => id⟩, fun answer => ?_⟩
  cases answer with
  | none => exact hfail
  | some ok =>
      dsimp only
      split
      · exact hfail
      · exact only_attempt plain_prepare fun _ => only_attempt (hclose true) fun _ => trivial

theorem only_markPausing : markPausing.Only (Plain takedown) := by
  refine only_attempt ⟨id, fun _ => id⟩ fun updated => ?_
  split
  · trivial
  refine only_attempt ⟨id, fun _ => id⟩ fun status => ?_
  split <;> trivial

theorem only_stopContainer : stopContainer.Only (Plain takedown) := by
  refine only_attempt plain_prepare fun _ => only_attempt ⟨id, fun _ => id⟩ fun running => ?_
  split
  · exact only_stopDatabase
  · trivial

theorem carries_step (hmem : name ∈ steps takedown.jobType)
    (hbefore : ∀ n ∈ (steps takedown.jobType).takeWhile (· ≠ name), n ∈ done) (hnew : name ∉ done) :
    (contract config).Carries (perform apply) (Posts config takedown done) (body config takedown name)
      (Posts config takedown done) (Posts config takedown (done ++ [name])) := by
  have hstart : ∀ {body : Steps}, (contract config).Carries (perform apply) (Posts config takedown done) body
      (fun w => Posts config takedown done w ∧ True) (Posts config takedown (done ++ [name])) →
        (contract config).Carries (perform apply) (Posts config takedown done) body (Posts config takedown done)
          (Posts config takedown (done ++ [name])) := fun h => h.mono fun w _ hw => ⟨hw, trivial⟩
  have hprepared : (attempt .prepare fun _ => .ok : Steps).Only (Plain takedown) := only_attempt plain_prepare fun _ => trivial
  cases takedown with
  | pause =>
      cases name with
      | markPausing => exact carries_plain only_markPausing fun _ => trivial
      | finalBackup => exact carries_plain only_finalBackup fun _ => trivial
      | checkpointAndStop => exact hstart (carries_checkpointAndStop hnew)
      | removePausedContainers =>
          have hearlier : ∀ n ∈ (steps .pauseProject).takeWhile (· ≠ StepName.removePausedContainers), n ∈ done := hbefore
          refine hstart (carries_prepare (fun _ _ => id) (Contract.Carries.mono ?_ fun w _ h => h.1))
          refine carries_log .removed (fun _ => id) (fun choice w r w' happly => ?_) (fun w hrepo hposts => ?_)
            fun _ => carries_plain hprepared fun _ => trivial
          · cases happly
            exact ⟨w.status, .absent, rfl⟩
          · exact hposts .checkpointAndStop (hearlier _ (by decide)) hrepo
      | markPaused =>
          have hearlier : ∀ n ∈ (steps .pauseProject).takeWhile (· ≠ StepName.markPaused), n ∈ done := hbefore
          refine hstart (carries_prepare (fun _ _ => id) (Contract.Carries.mono ?_ fun w _ h => h.1))
          refine carries_log .paused (fun _ => id) (fun choice w r w' happly => ?_) (fun w hrepo hposts => ?_)
            fun _ => carries_plain trivial fun _ => trivial
          · cases happly
            exact ⟨.paused, w.container, rfl⟩
          · exact hposts .checkpointAndStop (hearlier _ (by decide)) hrepo
      | _ => exact absurd hmem (by decide)
  | delete =>
      cases name with
      | disableApi => exact carries_plain trivial fun _ => trivial
      | disableWrites => exact hstart carries_disableWrites
      | finalBackup =>
          have hearlier : ∀ n ∈ (steps .deleteProject).takeWhile (· ≠ StepName.finalBackup), n ∈ done := hbefore
          exact hstart (carries_finalBackup hnew (hearlier _ (by decide)))
      | stopContainer => exact carries_plain only_stopContainer fun _ => trivial
      | markSoftDeleted =>
          have hearlier : ∀ n ∈ (steps .deleteProject).takeWhile (· ≠ StepName.markSoftDeleted), n ∈ done := hbefore
          refine carries_log .softDeleted (fun _ => id) (fun choice w r w' happly => ?_) (fun w hrepo hposts => ?_)
            fun _ => carries_plain hprepared fun _ => trivial
          · cases happly
            exact ⟨.softDeleted, w.container, rfl⟩
          · obtain ⟨hbehind, hrecorded⟩ : Covered config w := hposts .finalBackup (hearlier _ (by decide)) hrepo
            exact ⟨hbehind, fun hrequired => by simpa using hrecorded hrequired⟩
      | stopPostgrest | stopPooler | removeNetwork => exact carries_plain hprepared fun _ => trivial
      | _ => exact absurd hmem (by decide)

/-- What sweeps, customers and the engine do to the container and to the data. -/
def Foreign : Act → Prop
  | .prepare | .status | .inspect .stopContainer | .stopContainer | .exit | .start | .commit => True
  | _ => False

theorem foreign_rely {a : Act} {r : Answer a} (ha : Foreign a) (hlegal : legal a w = true) (happly : apply choice a w = some (r, w')) :
    ∃ container, w' = { w with container := container } := by
  cases a with
  | prepare | status =>
      cases happly
      exact ⟨w.container, rfl⟩
  | inspect stage =>
      cases stage with
      | stopContainer =>
          cases happly
          refine ⟨w.container, ?_⟩
          simp [World.dormantAt]
      | _ => exact ha.elim
  | stopContainer | exit =>
      cases happly
      exact halt_container w
  | start =>
      cases happly
      split
      · exact ⟨_, rfl⟩
      · exact ⟨w.container, rfl⟩
  | commit =>
      have hcovered : w.covered = false := by simpa [legal] using hlegal
      cases happly
      refine ⟨w.container, ?_⟩
      split
      · rw [← hcovered]
      · rfl
  | _ => exact ha.elim

theorem only_others (other : Other) : (others other).Only Foreign := by
  cases other with
  | sweep =>
      refine only_attempt trivial fun status => ?_
      split
      · refine only_attempt trivial fun running => ?_
        split
        · exact only_attempt trivial fun _ => only_attempt trivial fun _ => trivial
        · trivial
      · trivial
  | exit | start | commit => exact only_attempt trivial fun _ => trivial

theorem kept : (contract config).Kept (takedowns config) where
  refl w := ⟨w.container, rfl⟩
  post _ _ _ _ _ hrely h := by
    obtain ⟨container, rfl⟩ := hrely
    exact post_container container h
  step _ _ hmem _ hbefore hnew := carries_step hmem hbefore hnew
  succeed _ _ _ _ _ _ _ := trivial
  fail _ _ _ _ _ _ _ _ := trivial
  other := by
    refine ⟨Foreign, only_others, fun _ => trivial, fun choice a w answer w' hforeign hI hlegal hperform => ?_⟩
    have hact : perform apply choice a w = some (answer, w') := hperform
    obtain ⟨container, rfl⟩ := perform_keeps (I := fun w' => ∃ container, w' = { w with container := container })
      ⟨w.container, rfl⟩ (fun r w' happly => foreign_rely hforeign hlegal happly) hact
    exact ⟨hI, ⟨container, rfl⟩, fun _ => id⟩
  change _ x := nomatch x

end Saga

/-- A project with the job that takes it down, which has done nothing yet. -/
structure Standing (s : Store Takedown StepName World) (takedown : Takedown) (maxAttempts : Nat) : Prop where
  jobs : s.jobs = [⟨takedown, .pending, 0, maxAttempts, []⟩]
  working : ∀ c, s.working c = none
  down : s.world.down = []
  /-- Whatever backups there are, they are not of this job. -/
  fresh : s.world.backed = false ∧ s.world.confirmed = false ∧ s.world.covered = false ∧ s.world.dormant = false

variable {s : Store Takedown StepName World} {maxAttempts : Nat}
  {g : Config Worker (Store Takedown StepName World) (Op StepName Act Empty) (Reply Takedown StepName fun a => Option (Answer a))}

theorem Standing.good (h : Standing s takedown maxAttempts) : (contract config).Good s := by
  have hI : Inv config s.world := fun _ d hd => by simp [h.down] at hd
  refine ⟨hI, fun j job hj _ => ?_, fun j j' job job' hj hj' _ _ => ?_, by simp [h.working], by simp [h.working],
    fun _ => trivial⟩
  · rw [h.jobs, List.getElem?_singleton] at hj
    split at hj <;> cases hj
    exact fun _ hname => absurd hname List.not_mem_nil
  · rw [h.jobs, List.getElem?_singleton] at hj hj'
    split at hj <;> split at hj' <;> simp_all

section Examples

def strict : Settings := ⟨true, true, true⟩

/-- A project with a backup on record, and its job. -/
def standing (takedown : Takedown) (status : ProjectStatus) (container : Container) : Store Takedown StepName World where
  jobs := [⟨takedown, .pending, 0, 5, []⟩]
  stale := fun _ => false
  working := fun _ => none
  world := ⟨status, container, false, [true], false, false, false, false, []⟩

theorem standing_fresh (takedown : Takedown) (status : ProjectStatus) (container : Container) :
    Standing (standing takedown status container) takedown 5 := ⟨rfl, fun _ => rfl, rfl, rfl, rfl, rfl, rfl⟩

abbrev Run := List (Move Worker (Chance (Outcome × Choice)) (Request Other Empty))

def run (c : Worker) (outcome : Outcome) (n : Nat) : Run := List.replicate n (.run c ⟨(outcome, true), false⟩)

def watch : Worker → Op StepName Act Empty → Store Takedown StepName World → Bool :=
  Contract.watched legal (fun _ _ => true) fun _ _ _ => true

theorem allowed_watch (g : Config Worker (Store Takedown StepName World) (Op StepName Act Empty)
      (Reply Takedown StepName fun a => Option (Answer a))) (m : Move Worker (Chance (Outcome × Choice)) (Request Other Empty))
    (hm : Protocol.watch watch g m = true) : Protocol.Statements (contract strict).Allowed g m :=
  Protocol.statements_watch (Contract.allowed_watched (fun _ _ h => h) (fun x _ _ => nomatch x) fun _ _ _ _ => trivial) g m hm

end Examples

end Corebase.FinalBackups
