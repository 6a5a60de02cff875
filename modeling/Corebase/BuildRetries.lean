import Corebase.SagaAttempts

namespace Corebase.BuildRetries

open Interleaving Sagas SagaRules SagaSteps SagaAttempts
open JobRunner (Worker JobState)
open ProvisioningJobs (JobType ProjectStatus)

/-- The jobs that build a project. -/
inductive Build
  | provision | restore
deriving DecidableEq

def Build.jobType : Build → JobType
  | .provision => .provisionProject
  | .restore => .restoreProject

/-- The roles of the database whose passwords are stored. The image has all of them but developer. -/
inductive Role
  | postgres | developer | authenticator | poolerAuth | authRole | adminRole
deriving DecidableEq

/-- The roles in the order in which their passwords are applied. -/
def wanted : List Role := [.postgres, .developer, .authenticator, .poolerAuth, .authRole, .adminRole]

/-- What there is in a data directory. -/
inductive Content
  | empty
  /-- The traces of a restore that was cut off. -/
  | cut
  | initdb
  | restored
deriving DecidableEq

structure Volume where
  content : Content
  /-- The developer role is there, and what the other roles have by it. -/
  developer : Bool
  /-- The roles whose password is the stored one. -/
  applied : List Role
deriving DecidableEq

structure World where
  /-- The restore has a target time. -/
  target : Bool
  status : ProjectStatus
  /-- The row of the placement. -/
  placed : Bool
  /-- How often the capacity and the ports have been booked. -/
  bookings : Nat
  volume : Option Volume
  /-- The container of the database exists and runs. -/
  up : Bool
deriving DecidableEq

structure Choice where
  /-- The container stays up. -/
  boots : Bool
  /-- A backup repository is configured. -/
  repo : Bool
  /-- pgBackRest runs to completion. -/
  completes : Bool
  /-- A run that does not has come to the PG_VERSION, and to the developer role. -/
  pgVersion : Bool
  developer : Bool
  /-- The cluster comes out of its recovery. -/
  recovers : Bool

inductive Act
  /-- Something that may throw, and that nothing here depends on. -/
  | prepare
  | allocateNode
  | volumeExists
  | createVolume
  | startContainer
  | exec
  | repo
  | probe
  | pgbackrestRestore
  | recovered
  | ensureDeveloperRole
  | setRolePassword (role : Role)
  | login (role : Role)
  | setStatus (status : ProjectStatus)
deriving DecidableEq

@[reducible] def Answer : Act → Type
  | .volumeExists | .exec | .repo | .probe | .pgbackrestRestore | .recovered | .ensureDeveloperRole | .setRolePassword _
  | .login _ => Bool
  | .prepare | .allocateNode | .createVolume | .startContainer | .setStatus _ => Unit

/-- The entrypoint initialises a directory that is empty. -/
def Volume.boot (v : Volume) : Volume := if v.content = .empty then ⟨.initdb, false, []⟩ else v

def Volume.fresh : Volume := ⟨.empty, false, []⟩

def apply (choice : Choice) : (a : Act) → World → Option (Answer a × World)
  | .prepare, w => some ((), w)
  | .allocateNode, w => some ((), if w.placed then w else { w with placed := true, bookings := w.bookings + 1 })
  | .volumeExists, w => some (w.volume.isSome, w)
  | .createVolume, w => some ((), { w with volume := some (w.volume.getD .fresh) })
  | .startContainer, w => some ((), if w.up then w
      else { w with volume := some (w.volume.getD .fresh).boot, up := choice.boots })
  | .exec, w => some (w.up, w)
  | .repo, w => some (choice.repo, w)
  | .probe, w => some (w.volume.any fun v => v.content ≠ .empty, w)
  | .pgbackrestRestore, w => match w.volume with
    | some v =>
      if v.content ≠ .empty then some (false, w)
      else if choice.completes then some (true, { w with volume := some ⟨.restored, true, []⟩ })
      else some (false, { w with volume := some (if choice.pgVersion then ⟨.cut, choice.developer, []⟩ else v) })
    | none => some (false, w)
  | .recovered, w => some (choice.recovers && w.up && !(w.target && w.volume.any fun v => v.content = .initdb), w)
  | .ensureDeveloperRole, w =>
      if w.up then some (true, { w with volume := w.volume.map fun v => { v with developer := true } })
      else some (false, w)
  | .setRolePassword role, w => match w.volume with
    | some v =>
      if w.up && (role ≠ .developer || v.developer) then
        some (true, { w with volume := some { v with applied := role :: v.applied } })
      else some (false, w)
    | none => some (false, w)
  | .login role, w => some (w.up && w.volume.any fun v => role ∈ v.applied, w)
  | .setStatus status, w => some ((), { w with status := status })

abbrev Steps := Body Act fun a => Option (Answer a)

def createVolume : Steps :=
  attempt .prepare fun _ => attempt .volumeExists fun found => if found then .ok else attempt .createVolume fun _ => .ok

def startContainer : Steps := attempt .prepare fun _ => attempt .startContainer fun _ => attempt .prepare fun _ => .ok

def waitHealthy : Steps :=
  attempt .prepare fun _ => attempt .exec fun running => if running then attempt .prepare fun _ => .ok else .throw

/-- The steps that run pgBackRest in the container. -/
def backups : Steps :=
  attempt .prepare fun _ => attempt .repo fun configured => if !configured then .ok
  else attempt .prepare fun _ => attempt .exec fun running => if running then .ok else .throw

def createBaseRoles : Steps :=
  attempt .prepare fun _ => attempt .ensureDeveloperRole fun connected => if connected then .ok else .throw

def applyPasswords : List Role → Steps
  | [] => .ok
  | role :: roles => attempt (.setRolePassword role) fun altered => if altered then applyPasswords roles else .throw

/-- The passwords are stored before they are applied. -/
def credentials : Steps := attempt .prepare fun _ => applyPasswords wanted

def wait (role : Role) : Steps :=
  attempt .prepare fun _ => attempt (.login role) fun served => if served then attempt .prepare fun _ => .ok else .throw

def restoreIntoVolume : Steps :=
  attempt .prepare fun _ => attempt .probe fun already => if already then .ok
  else attempt .repo fun configured => if !configured then .throw
  else attempt .pgbackrestRestore fun exited => if !exited then .throw else attempt .prepare fun _ => .ok

def recoverToTarget : Steps :=
  attempt .prepare fun _ => attempt .startContainer fun _ => attempt .recovered fun recovered =>
    if recovered then attempt .prepare fun _ => .ok else .throw

def mark (status : ProjectStatus) : Steps :=
  attempt .prepare fun _ => attempt (.setStatus status) fun _ => attempt .prepare fun _ => .ok

def body : StepName → Steps
  | .allocateNode => attempt .prepare fun _ => attempt .allocateNode fun _ => .ok
  | .createVolume => createVolume
  | .startContainer => startContainer
  | .waitHealthy => waitHealthy
  | .configureBackups | .verifyArchiving => backups
  | .createBaseRoles => createBaseRoles
  | .storeCredentials | .resetRestoredCredentials => credentials
  | .waitPoolerHealthy => wait .developer
  | .waitPostgrestHealthy => wait .authenticator
  | .restoreIntoVolume => restoreIntoVolume
  | .recoverToTarget => recoverToTarget
  | .markReady => mark .ready
  | .markRestored => mark .restored
  | _ => attempt .prepare fun _ => .ok

/-- The retry of the user, and what is lost before it. -/
inductive Change
  | retry | loseContainer | loseVolume
deriving DecidableEq

/-- The steps that a retry takes out of the checkpoint. -/
def substrate : List StepName := [.createVolume, .createNetwork, .startContainer, .waitHealthy]

def latestDead (jobs : List (Job Build StepName)) : Option (Job Build StepName × JobId) :=
  (jobs.zipIdx.filter fun row => row.1.state = .deadLetter).getLast?

def requestRetry (s : Store Build StepName World) : Store Build StepName World :=
  if s.world.status = .failed then
    match latestDead s.jobs with
    | some (job, j) =>
        { s with
          jobs := s.jobs.set j { job with
            state := .pending
            attempts := 0
            done := job.done.filter fun name => name ∉ substrate }
          world := { s.world with status := .creating } }
    | none => s
  else s

def change : Change → Store Build StepName World → Store Build StepName World
  | .retry, s => requestRetry s
  | .loseContainer, s => { s with world := { s.world with up := false } }
  -- a volume is removed after the container that has it
  | .loseVolume, s => { s with world := { s.world with volume := none, up := false } }

def builds : Design Build StepName World Act Change (Outcome × Choice) Empty fun a => Option (Answer a) where
  sagas build := steps build.jobType
  body _ := body
  onDeadLetter _ := attempt (.setStatus .failed) fun _ => .ok
  others r := nomatch r
  perform := perform apply
  change := change

def Applied (w : World) : Prop := ∃ v, w.volume = some v ∧ ∀ role, role ∈ v.applied

def Unapplied (w : World) : Prop := ∀ v, w.volume = some v → v.applied = []

def Restored (w : World) : Prop := ∃ v, w.volume = some v ∧ v.content = .restored

/-- The volume is not one with the data of a project. -/
def Bare (w : World) : Prop := ∀ v, w.volume = some v → v.developer = false

/-- What a job has behind it that has run without an interruption. -/
structure Built (build : Build) (w : World) : Prop where
  booked : w.bookings = 1
  roles : ∃ v, w.volume = some v ∧ v.developer = true
  applied : Applied w
  restored : build = .restore → Restored w

structure Inv (w : World) : Prop where
  bookings : w.bookings = if w.placed then 1 else 0
  empty : ∀ v, w.volume = some v → v.content = .empty → v.developer = false ∧ v.applied = []
  developer : ∀ v, w.volume = some v → .developer ∈ v.applied → v.developer = true
  up : w.up = true → ∃ v, w.volume = some v ∧ v.content ≠ .empty

/-- What a step has left, or what makes a later one fail when the volume has been lost. -/
def Post : Build → StepName → World → Prop
  | _, .allocateNode, w => w.placed = true
  | .provision, .storeCredentials, w => Applied w ∨ Unapplied w
  | .provision, .waitPostgrestHealthy, w => Applied w
  | .restore, .restoreIntoVolume, w => Restored w ∨ Bare w
  | .restore, .resetRestoredCredentials, w => Restored w ∧ Applied w
  | _, _, _ => True

/-- The last step that finds out that the volume is not the one it was. -/
def Build.lastCheck : Build → StepName
  | .provision => .waitPostgrestHealthy
  | .restore => .resetRestoredCredentials

/-- No restore that was cut off, and no other directory, is taken for a restored one. -/
def legal : Act → World → Bool
  | .probe, w => w.volume.all fun v => v.content = .empty || v.content = .restored
  | _, _ => true

/-- What is lost is lost between the dead letter and the retry, and the volume not after the last step that would find out. -/
def timely : Change → Store Build StepName World → Bool
  | .retry, _ => true
  | .loseContainer, s => s.jobs.all fun job => job.state = .deadLetter
  | .loseVolume, s => s.jobs.all fun job => job.state = .deadLetter && job.kind.lastCheck ∉ job.done

def contract : Contract Build StepName World Act Change where
  Inv := Inv
  Post := Post
  Rely w w' := ∃ status, w' = { w with status := status }
  Rest jobs w := jobs.length = 1 → ∀ job ∈ jobs, (job.state = .succeeded → Built job.kind w) ∧
    (job.state = .deadLetter → ∀ name ∈ job.done, Post job.kind name w)
  Legal a w := legal a w = true
  Timely x s := timely x s = true ∧ s.jobs.length = 1
  Final _ _ _ := True

variable {w w' : World} {choice : Choice} {build : Build} {name : StepName} {done : List StepName}

section Acts

theorem post_mono (hplaced : w.placed = true → w'.placed = true) (happlied : Applied w → Applied w')
    (hunapplied : name = .storeCredentials → Unapplied w → Unapplied w') (hrestored : Restored w → Restored w')
    (hbare : build = .restore → name = .restoreIntoVolume → Bare w → Bare w') (h : Post build name w) : Post build name w' := by
  unfold Post at h ⊢
  split at h
  · exact hplaced h
  · exact h.imp happlied (hunapplied rfl)
  · exact happlied h
  · exact h.imp hrestored (hbare rfl rfl)
  · exact h.imp hrestored happlied
  · trivial

/-- The steps whose part the act changes. -/
def Owns : Act → StepName → Prop
  | .setRolePassword _, name => name = .storeCredentials
  | .pgbackrestRestore, name => name = .restoreIntoVolume
  | _, _ => False

theorem post_volume (hplaced : w'.placed = w.placed) (hvolume : w'.volume = w.volume) (h : Post build name w) :
    Post build name w' := by
  have hbare : Bare w → Bare w' := fun h => by rwa [Bare, hvolume]
  exact post_mono (hplaced ▸ id) (fun h => by rwa [Applied, hvolume]) (fun _ h => by rwa [Unapplied, hvolume])
    (fun h => by rwa [Restored, hvolume]) (fun _ _ => hbare) h

theorem post_status (status : ProjectStatus) (h : Post build name w) : Post build name { w with status := status } := by
  have hplaced : { w with status := status }.placed = w.placed := rfl
  exact post_volume hplaced rfl h

variable {v : Volume}

theorem Inv.volume (h : Inv w) (hbookings : w'.bookings = w.bookings) (hplaced : w'.placed = w.placed)
    (hvolume : w'.volume = some v) (hempty : v.content = .empty → v.developer = false ∧ v.applied = [])
    (hdeveloper : .developer ∈ v.applied → v.developer = true) (hup : w'.up = true → v.content ≠ .empty) : Inv w' := by
  refine ⟨by rw [hbookings, hplaced]; exact h.bookings, fun v' hv => ?_, fun v' hv => ?_, fun h => ⟨v, hvolume, hup h⟩⟩
  · obtain rfl := Option.some.inj (hvolume.symm.trans hv)
    exact hempty
  · obtain rfl := Option.some.inj (hvolume.symm.trans hv)
    exact hdeveloper

/-- A volume without data gives way to another one. -/
theorem post_blank (h : Inv w) (hold : ∀ v, w.volume = some v → v.content = .empty) (hplaced : w'.placed = w.placed)
    (hvolume : w'.volume = some v) (hdeveloper : name = .restoreIntoVolume → v.developer = false) (happlied : v.applied = [])
    (hpost : Post build name w) : Post build name w' := by
  refine post_mono (hplaced ▸ id) (fun hall => ?_) (fun _ _ v' hv => ?_) (fun hrestored => ?_) (fun _ hname _ v' hv => ?_) hpost
  · obtain ⟨v', hv, hall⟩ := hall
    cases (h.empty v' hv (hold v' hv)).2 ▸ hall .postgres
  · obtain rfl := Option.some.inj (hvolume.symm.trans hv)
    exact happlied
  · obtain ⟨v', hv, hcontent⟩ := hrestored
    cases (hold v' hv).symm.trans hcontent
  · obtain rfl := Option.some.inj (hvolume.symm.trans hv)
    exact hdeveloper hname

theorem post_boot (h : Inv w) (hplaced : w'.placed = w.placed) (hvolume : w'.volume = some (w.volume.getD .fresh).boot)
    (hpost : Post build name w) : Post build name w' := by
  cases hv : w.volume with
  | none =>
      rw [hv] at hvolume
      exact post_blank h (fun v hv' => nomatch hv.symm.trans hv') hplaced hvolume (fun _ => rfl) rfl hpost
  | some v =>
      rw [hv] at hvolume
      by_cases hempty : v.content = .empty
      · have hboot : ((some v).getD Volume.fresh).boot = ⟨.initdb, false, []⟩ := by simp [Volume.boot, hempty]
        refine post_blank h (fun v' hv' => ?_) hplaced (hvolume.trans (congrArg some hboot)) (fun _ => rfl) rfl hpost
        obtain rfl := Option.some.inj (hv.symm.trans hv')
        exact hempty
      · have hboot : ((some v).getD Volume.fresh).boot = v := by simp [Volume.boot, hempty]
        exact post_volume hplaced ((hvolume.trans (congrArg some hboot)).trans hv.symm) hpost

theorem Inv.boot (h : Inv w) (hbookings : w'.bookings = w.bookings) (hplaced : w'.placed = w.placed)
    (hvolume : w'.volume = some (w.volume.getD .fresh).boot) : Inv w' := by
  refine h.volume hbookings hplaced hvolume (fun hempty => ?_) (fun hmem => ?_) fun _ hempty => ?_
  · simp only [Volume.boot] at hempty
    split at hempty
    · cases hempty
    next hne => exact absurd hempty hne
  · simp only [Volume.boot] at hmem ⊢
    split at hmem
    · cases hmem
    next hne =>
      rw [if_neg hne]
      cases hv : w.volume with
      | none =>
          rw [hv] at hne
          exact absurd rfl hne
      | some v =>
          rw [hv] at hmem
          exact h.developer v hv hmem
  · simp only [Volume.boot] at hempty
    split at hempty
    · cases hempty
    next hne => exact hne hempty

/-- Every act keeps the invariant, and what the steps that are done have left. -/
theorem apply_keeps {a : Act} {r : Answer a} (h : Inv w) (hdeveloper : build = .restore → a ≠ .ensureDeveloperRole)
    (happly : apply choice a w = some (r, w')) :
    Inv w' ∧ ∀ name, ¬ Owns a name → Post build name w → Post build name w' := by
  cases a with
  | prepare | volumeExists | exec | repo | probe | recovered | login =>
      cases happly
      exact ⟨h, fun _ _ => id⟩
  | setStatus status =>
      cases happly
      exact ⟨⟨h.bookings, h.empty, h.developer, h.up⟩, fun _ _ => post_volume rfl rfl⟩
  | allocateNode =>
      cases happly
      split
      next => exact ⟨h, fun _ _ => id⟩
      next hnew =>
        refine ⟨⟨?_, h.empty, h.developer, h.up⟩, fun _ _ => post_mono (fun _ => rfl) id (fun _ => id) id fun _ _ => id⟩
        simp [h.bookings, hnew]
  | createVolume =>
      cases happly
      cases hv : w.volume with
      | none =>
          refine ⟨h.volume rfl rfl rfl (fun _ => ⟨rfl, rfl⟩) (fun hmem => nomatch hmem) fun hup => ?_,
            fun _ _ => post_blank h (fun v hv' => nomatch hv.symm.trans hv') rfl rfl (fun _ => rfl) rfl⟩
          obtain ⟨v, hv', -⟩ := h.up hup
          cases hv.symm.trans hv'
      | some v =>
          refine ⟨h.volume rfl rfl rfl (h.empty v hv) (h.developer v hv) fun hup => ?_, fun _ _ => post_volume rfl hv.symm⟩
          obtain ⟨v', hv', hbooted⟩ := h.up hup
          exact Option.some.inj (hv.symm.trans hv') ▸ hbooted
  | startContainer =>
      cases happly
      split
      · exact ⟨h, fun _ _ => id⟩
      · exact ⟨h.boot rfl rfl rfl, fun _ _ => post_boot h rfl rfl⟩
  | pgbackrestRestore =>
      simp only [apply] at happly
      split at happly
      next v hv =>
        split at happly
        · cases happly
          exact ⟨h, fun _ _ => id⟩
        next hempty =>
          have hempty' : v.content = .empty := by simpa using hempty
          have hold : ∀ v, w.volume = some v → v.content = .empty := by
            intro v' hv'
            obtain rfl := Option.some.inj (hv.symm.trans hv')
            exact hempty'
          have hdown : w.up = false := by
            by_contra hup
            obtain ⟨v', hv', hbooted⟩ := h.up (by simpa using hup)
            exact hbooted (hold v' hv')
          split at happly <;> cases happly
          · exact ⟨h.volume rfl rfl rfl nofun (fun _ => rfl) nofun,
              fun name howner => post_blank h hold rfl rfl (fun hname => absurd hname howner) rfl⟩
          · split
            · exact ⟨h.volume rfl rfl rfl nofun (fun hmem => nomatch hmem) nofun,
                fun name howner => post_blank h hold rfl rfl (fun hname => absurd hname howner) rfl⟩
            · refine ⟨h.volume rfl rfl rfl (h.empty v hv) (h.developer v hv) fun hup => ?_, fun _ _ => post_volume rfl hv.symm⟩
              cases hdown.symm.trans hup
      · cases happly
        exact ⟨h, fun _ _ => id⟩
  | ensureDeveloperRole =>
      have hbuild : build ≠ .restore := fun heq => hdeveloper heq rfl
      simp only [apply] at happly
      split at happly <;> cases happly
      next hup =>
        obtain ⟨v, hv, hbooted⟩ := h.up hup
        rw [hv]
        refine ⟨h.volume rfl rfl rfl (fun hempty => absurd hempty hbooted) (fun _ => rfl) fun _ => hbooted,
          fun name _ => post_mono id (fun hall => ?_) (fun _ hun v' hv' => ?_) (fun hrestored => ?_)
            fun heq => absurd heq hbuild⟩
        · obtain ⟨v', hv', hall⟩ := hall
          obtain rfl := Option.some.inj (hv.symm.trans hv')
          exact ⟨_, rfl, hall⟩
        · obtain rfl := Option.some.inj hv'
          exact hun v hv
        · obtain ⟨v', hv', hcontent⟩ := hrestored
          obtain rfl := Option.some.inj (hv.symm.trans hv')
          exact ⟨_, rfl, hcontent⟩
      next => exact ⟨h, fun _ _ => id⟩
  | setRolePassword role =>
      simp only [apply] at happly
      split at happly
      next v hv =>
        split at happly <;> cases happly
        next hup =>
          simp only [Bool.and_eq_true, Bool.or_eq_true, ne_eq, decide_eq_true_eq] at hup
          obtain ⟨v', hv', hbooted⟩ := h.up hup.1
          obtain rfl := Option.some.inj (hv.symm.trans hv')
          refine ⟨h.volume rfl rfl rfl (fun hempty => absurd hempty hbooted) (fun hmem => ?_) fun _ => hbooted,
            fun name howner => post_mono id (fun hall => ?_) (fun hname => absurd hname howner) (fun hrestored => ?_)
              fun _ _ hbare v' hv' => ?_⟩
          · rcases List.mem_cons.mp hmem with heq | hmem
            · exact hup.2.resolve_left fun hne => hne heq.symm
            · exact h.developer v hv hmem
          · obtain ⟨v', hv', hall⟩ := hall
            obtain rfl := Option.some.inj (hv.symm.trans hv')
            exact ⟨_, rfl, fun role => List.mem_cons_of_mem _ (hall role)⟩
          · obtain ⟨v', hv', hcontent⟩ := hrestored
            obtain rfl := Option.some.inj (hv.symm.trans hv')
            exact ⟨_, rfl, hcontent⟩
          · obtain rfl := Option.some.inj hv'
            exact hbare v hv
        next => exact ⟨h, fun _ _ => id⟩
      · cases happly
        exact ⟨h, fun _ _ => id⟩

end Acts

section Saga

variable {Q Z : World → Prop}

abbrev Posts (build : Build) (done : List StepName) : World → Prop := contract.Posts build done

/-- The status does not matter. -/
def Steady (Q : World → Prop) : Prop := ∀ w status, Q w → Q { w with status := status }

theorem steady_posts : Steady (Posts build done) := fun _ status h name hname => post_status status (h name hname)

theorem stable_steady {Q : World → Prop} (hQ : Steady Q) (w w' : World) (_ : contract.Inv w) (hrely : contract.Rely w w')
    (h : Q w) : Q w' := by
  obtain ⟨status, rfl⟩ := hrely
  exact hQ w status h

/-- An act, with what is known after it. -/
theorem carries_act {a : Act} {next : Answer a → Steps} (P : Answer a → World → Prop) (hsteady : ∀ r, Steady (P r))
    (ha : ∀ name ∈ done, Owns a name → ∀ w, Post build name w)
    (hdeveloper : build = .restore → a ≠ .ensureDeveloperRole)
    (hP : ∀ choice w r w', Inv w → legal a w = true → Posts build done w → Q w → apply choice a w = some (r, w') → P r w')
    (hnext : ∀ r, contract.Carries (perform apply) (Posts build done) (next r) (fun w => Posts build done w ∧ P r w) Z) :
    contract.Carries (perform apply) (Posts build done) (attempt a next) (fun w => Posts build done w ∧ Q w) Z := by
  refine carries_attempt (fun r w => Posts build done w ∧ P r w) (fun _ => And.left)
    (fun choice w r w' hI hQ hlegal happly => ?_)
    (fun r => stable_steady fun w status h => ⟨steady_posts w status h.1, hsteady r w status h.2⟩) hnext
  obtain ⟨hI', hposts⟩ := apply_keeps hI hdeveloper happly
  have hposts' : Posts build done w' := by
    intro name hname
    by_cases hown : Owns a name
    · exact ha name hname hown w'
    · exact hposts name hown (hQ.1 name hname)
  exact ⟨hI', hposts', hposts', hP choice w r w' hI hlegal hQ.1 hQ.2 happly⟩

theorem carries_prepare {next : Unit → Steps} (hsteady : Steady Q)
    (hnext : contract.Carries (perform apply) (Posts build done) (next ()) (fun w => Posts build done w ∧ Q w) Z) :
    contract.Carries (perform apply) (Posts build done) (attempt .prepare next) (fun w => Posts build done w ∧ Q w) Z := by
  refine carries_act (fun _ => Q) (fun _ => hsteady) (fun _ _ hown => hown.elim) nofun (fun choice w r w' _ _ _ hQ happly => ?_) fun _ => hnext
  cases happly
  exact hQ

theorem carries_done (h : ∀ w, Inv w → Posts build done w → Q w → Post build name w) :
    contract.Carries (perform apply) (Posts build done) (.ok : Steps) (fun w => Posts build done w ∧ Q w)
      (Posts build (done ++ [name])) := by
  intro w hI hw n hn
  rcases List.mem_append.mp hn with hn | hn
  · exact hw.1 n hn
  · obtain rfl := List.mem_singleton.mp hn
    exact h w hI hw.1 hw.2

/-- The acts that change the part of no step. -/
def Plain (build : Build) (a : Act) : Prop := (∀ name, ¬ Owns a name) ∧ (build = .restore → a ≠ .ensureDeveloperRole)

theorem carries_plain {body : Steps} (hbody : body.Only (Plain build)) (hpost : ∀ w, Post build name w) :
    contract.Carries (perform apply) (Posts build done) body (Posts build done) (Posts build (done ++ [name])) := by
  induction body with
  | ok => exact (carries_done fun w _ _ _ => hpost w).mono fun w _ hw => ⟨hw, trivial⟩
  | throw => trivial
  | act a next ih =>
      intro choice w answer w' hI hw _ hperform
      obtain ⟨hI', hposts⟩ : Inv w' ∧ Posts build done w' := by
        refine perform_keeps (I := fun w => Inv w ∧ Posts build done w) ⟨hI, hw⟩ (fun r w' happly => ?_) hperform
        obtain ⟨hI', hposts⟩ := apply_keeps hI hbody.1.2 happly
        exact ⟨hI', fun name hname => hposts name (hbody.1.1 name) (hw name hname)⟩
      exact ⟨hI', hposts, _, stable_steady steady_posts, hposts, ih answer (hbody.2 answer)⟩

theorem plain_prepare : Plain build .prepare := ⟨fun _ => id, nofun⟩

theorem only_prepared : (attempt .prepare fun _ => .ok : Steps).Only (Plain build) := only_attempt plain_prepare fun _ => trivial

theorem only_backups : backups.Only (Plain build) := by
  refine only_attempt plain_prepare fun _ => only_attempt ⟨fun _ => id, nofun⟩ fun configured => ?_
  split
  · trivial
  refine only_attempt plain_prepare fun _ => only_attempt ⟨fun _ => id, nofun⟩ fun running => ?_
  split <;> trivial

theorem only_wait (role : Role) : (wait role).Only (Plain build) := by
  refine only_attempt plain_prepare fun _ => only_attempt ⟨fun _ => id, nofun⟩ fun served => ?_
  split
  · exact only_prepared
  · trivial

theorem only_mark (status : ProjectStatus) : (mark status).Only (Plain build) :=
  only_attempt plain_prepare fun _ => only_attempt ⟨fun _ => id, nofun⟩ fun _ => only_prepared

theorem only_createVolume : createVolume.Only (Plain build) := by
  refine only_attempt plain_prepare fun _ => only_attempt ⟨fun _ => id, nofun⟩ fun found => ?_
  split
  · trivial
  · exact only_attempt ⟨fun _ => id, nofun⟩ fun _ => trivial

theorem only_waitHealthy : waitHealthy.Only (Plain build) := by
  refine only_attempt plain_prepare fun _ => only_attempt ⟨fun _ => id, nofun⟩ fun running => ?_
  split
  · exact only_prepared
  · trivial

theorem only_recoverToTarget : recoverToTarget.Only (Plain build) := by
  refine only_attempt plain_prepare fun _ => only_attempt ⟨fun _ => id, nofun⟩ fun _ => only_attempt ⟨fun _ => id, nofun⟩
    fun recovered => ?_
  split
  · exact only_prepared
  · trivial

theorem only_createBaseRoles : createBaseRoles.Only (Plain .provision) := by
  refine only_attempt plain_prepare fun _ => only_attempt ⟨fun _ => id, nofun⟩ fun connected => ?_
  split <;> trivial

theorem carries_allocateNode : contract.Carries (perform apply) (Posts build done)
    (attempt .prepare fun _ => attempt .allocateNode fun _ => .ok) (fun w => Posts build done w ∧ True)
      (Posts build (done ++ [.allocateNode])) := by
  refine carries_prepare (fun _ _ => id) ?_
  refine carries_act (fun _ w => w.placed = true) (fun _ _ _ => id) (fun _ _ hown => hown.elim) nofun (fun choice w r w' _ _ _ _ happly => ?_)
    fun _ => ?_
  · cases happly
    split
    · assumption
    · rfl
  · exact carries_done fun w _ _ h => by cases build <;> exact h

/-- The password of every role is the stored one, but for these. -/
def AppliedBut (roles : List Role) (w : World) : Prop := ∀ role ∉ roles, ∃ v, w.volume = some v ∧ role ∈ v.applied

theorem applied_of_nil (h : AppliedBut [] w) : Applied w := by
  obtain ⟨v, hv, -⟩ := h .postgres List.not_mem_nil
  refine ⟨v, hv, fun role => ?_⟩
  obtain ⟨v', hv', hrole⟩ := h role List.not_mem_nil
  exact Option.some.inj (hv'.symm.trans hv) ▸ hrole

theorem carries_applyPasswords (hdone : StepName.storeCredentials ∈ done → build = .restore) (roles : List Role)
    (hpost : ∀ w, Inv w → Posts build done w → Applied w → Post build name w) :
    contract.Carries (perform apply) (Posts build done) (applyPasswords roles) (fun w => Posts build done w ∧ AppliedBut roles w)
      (Posts build (done ++ [name])) := by
  induction roles with
  | nil => exact carries_done fun w hI hposts h => hpost w hI hposts (applied_of_nil h)
  | cons role roles ih =>
      refine carries_act (fun altered w => altered = true → AppliedBut roles w) (fun _ _ _ => id) (fun n hn hown => ?_) nofun
        (fun choice w r w' _ _ _ hQ happly => ?_) fun altered => ?_
      · obtain rfl : n = .storeCredentials := hown
        obtain rfl := hdone hn
        exact fun _ => trivial
      · simp only [apply] at happly
        split at happly
        next v hv =>
          split at happly <;> cases happly
          · intro _ role' hrole'
            refine ⟨_, rfl, ?_⟩
            by_cases heq : role' = role
            · exact heq ▸ List.mem_cons_self
            · obtain ⟨v', hv', hmem⟩ := hQ role' (by simp [heq, hrole'])
              exact List.mem_cons_of_mem _ (Option.some.inj (hv'.symm.trans hv) ▸ hmem)
          · nofun
        · cases happly
          nofun
      · split
        next haltered => exact ih.mono fun w _ hw => ⟨hw.1, hw.2 haltered⟩
        next => trivial

theorem carries_credentials (hdone : StepName.storeCredentials ∈ done → build = .restore)
    (hpost : ∀ w, Inv w → Posts build done w → Applied w → Post build name w) :
    contract.Carries (perform apply) (Posts build done) credentials (fun w => Posts build done w ∧ True)
      (Posts build (done ++ [name])) := by
  refine carries_prepare (fun _ _ => id) ((carries_applyPasswords hdone wanted hpost).mono fun w _ hw => ⟨hw.1, fun role hrole => ?_⟩)
  cases role <;> exact absurd (by decide) hrole

theorem carries_waitPostgrest (hdone : StepName.storeCredentials ∈ done) :
    contract.Carries (perform apply) (Posts .provision done) (wait .authenticator) (fun w => Posts .provision done w ∧ True)
      (Posts .provision (done ++ [.waitPostgrestHealthy])) := by
  refine carries_prepare (fun _ _ => id) ?_
  refine carries_act (fun served w => served = true → Applied w) (fun _ _ _ => id) (fun _ _ hown => hown.elim) nofun
    (fun choice w r w' _ _ hposts _ happly => ?_) fun served => ?_
  · cases happly
    intro hserved
    simp only [Bool.and_eq_true, Option.any_eq_true, decide_eq_true_eq] at hserved
    obtain ⟨-, v, hv, hmem⟩ := hserved
    rcases hposts _ hdone with happlied | hun
    · exact happlied
    · cases hun v hv ▸ hmem
  · split
    next hserved => exact carries_prepare (fun _ _ => id) (carries_done fun w _ _ h => h hserved)
    next => trivial

theorem carries_restoreIntoVolume (hnew : StepName.restoreIntoVolume ∉ done) :
    contract.Carries (perform apply) (Posts .restore done) restoreIntoVolume (fun w => Posts .restore done w ∧ True)
      (Posts .restore (done ++ [.restoreIntoVolume])) := by
  refine carries_prepare (fun _ _ => id) ?_
  refine carries_act (fun already w => already = true → Restored w) (fun _ _ _ => id) (fun _ _ hown => hown.elim) nofun
    (fun choice w r w' _ hlegal _ _ happly => ?_) fun already => ?_
  · cases happly
    intro halready
    simp only [Option.any_eq_true, ne_eq, decide_eq_true_eq] at halready
    obtain ⟨v, hv, hcontent⟩ := halready
    exact ⟨v, hv, by simpa [legal, hv, hcontent] using hlegal⟩
  split
  next halready => exact carries_done fun w _ _ h => .inl (h halready)
  refine carries_act (fun _ _ => True) (fun _ _ _ => id) (fun _ _ hown => hown.elim) nofun (fun _ _ _ _ _ _ _ _ _ => trivial) fun configured => ?_
  split
  · trivial
  refine carries_act (fun exited w => exited = true → Restored w) (fun _ _ _ => id) (fun n hn hown => absurd (hown ▸ hn) hnew) nofun
    (fun choice w r w' _ _ _ _ happly => ?_) fun exited => ?_
  · simp only [apply] at happly
    split at happly
    · split at happly
      · cases happly
        nofun
      · split at happly <;> cases happly
        · exact fun _ => ⟨_, rfl, rfl⟩
        · nofun
    · cases happly
      nofun
  split
  · trivial
  next hexited => exact carries_prepare (fun _ _ => id) (carries_done fun w _ _ h => .inl (h (by simpa using hexited)))

theorem carries_step (hmem : name ∈ steps build.jobType) (hbefore : ∀ n ∈ (steps build.jobType).takeWhile (· ≠ name), n ∈ done)
    (hnew : name ∉ done) :
    contract.Carries (perform apply) (Posts build done) (body name) (Posts build done) (Posts build (done ++ [name])) := by
  have hstart : ∀ {body : Steps}, contract.Carries (perform apply) (Posts build done) body (fun w => Posts build done w ∧ True)
      (Posts build (done ++ [name])) → contract.Carries (perform apply) (Posts build done) body (Posts build done)
        (Posts build (done ++ [name])) := fun h => h.mono fun w _ hw => ⟨hw, trivial⟩
  cases build with
  | provision =>
      cases name with
      | allocateNode => exact hstart carries_allocateNode
      | createVolume => exact carries_plain only_createVolume fun _ => trivial
      | startContainer => exact carries_plain (only_attempt plain_prepare fun _ => only_attempt ⟨fun _ => id, nofun⟩ fun _ => only_prepared) fun _ => trivial
      | waitHealthy => exact carries_plain only_waitHealthy fun _ => trivial
      | configureBackups | verifyArchiving => exact carries_plain only_backups fun _ => trivial
      | createBaseRoles => exact carries_plain only_createBaseRoles fun _ => trivial
      | storeCredentials => exact hstart (carries_credentials (fun h => absurd h hnew) fun w _ _ h => .inl h)
      | waitPoolerHealthy => exact carries_plain (only_wait _) fun _ => trivial
      | waitPostgrestHealthy =>
          have hearlier : ∀ n ∈ (steps .provisionProject).takeWhile (· ≠ StepName.waitPostgrestHealthy), n ∈ done := hbefore
          exact hstart (carries_waitPostgrest (hearlier _ (by decide)))
      | markReady => exact carries_plain (only_mark _) fun _ => trivial
      | createNetwork | generateApiKeys | startPooler | startPostgrest | writeConnection =>
          exact carries_plain only_prepared fun _ => trivial
      | _ => exact absurd hmem (by decide)
  | restore =>
      cases name with
      | allocateNode => exact hstart carries_allocateNode
      | createVolume => exact carries_plain only_createVolume fun _ => trivial
      | restoreIntoVolume => exact hstart (carries_restoreIntoVolume hnew)
      | recoverToTarget => exact carries_plain only_recoverToTarget fun _ => trivial
      | resetRestoredCredentials =>
          have hearlier : ∀ n ∈ (steps .restoreProject).takeWhile (· ≠ StepName.resetRestoredCredentials), n ∈ done := hbefore
          refine hstart (carries_credentials (fun _ => rfl) fun w hI hposts happlied => ⟨?_, happlied⟩)
          refine (hposts .restoreIntoVolume (hearlier _ (by decide))).resolve_right fun hbare => ?_
          obtain ⟨v, hv, hall⟩ := happlied
          cases (hbare v hv).symm.trans (hI.developer v hv (hall .developer))
      | configureBackups | verifyArchiving => exact carries_plain only_backups fun _ => trivial
      | markRestored => exact carries_plain (only_mark _) fun _ => trivial
      | createNetwork | writeConnection => exact carries_plain only_prepared fun _ => trivial
      | _ => exact absurd hmem (by decide)

theorem built_of_posts (hI : Inv w) (hposts : Posts build (steps build.jobType) w) : Built build w := by
  have hplaced : w.placed = true := by
    cases build with
    | provision => exact hposts .allocateNode (by decide)
    | restore => exact hposts .allocateNode (by decide)
  have happlied : Applied w := by
    cases build with
    | provision => exact hposts .waitPostgrestHealthy (by decide)
    | restore => exact (hposts .resetRestoredCredentials (by decide)).2
  obtain ⟨v, hv, hall⟩ := happlied
  refine ⟨hI.bookings.trans (if_pos hplaced), ⟨v, hv, hI.developer v hv (hall .developer)⟩, ⟨v, hv, hall⟩, ?_⟩
  rintro rfl
  exact (hposts .resetRestoredCredentials (by decide)).1

end Saga

section Changes

variable {s : Store Build StepName World} {c : Worker} {jobs : List (Job Build StepName)} {job : Job Build StepName} {j : JobId}

theorem latestDead_row (h : latestDead jobs = some (job, j)) : jobs[j]? = some job ∧ job.state = .deadLetter := by
  obtain ⟨hmem, hdead⟩ := List.mem_filter.mp (List.mem_of_getLast? h)
  exact ⟨List.mem_zipIdx_iff_getElem?.mp hmem, by simpa using hdead⟩

theorem idle_of_dead (h : ∀ job ∈ s.jobs, job.state = .deadLetter) : s.idle = true :=
  List.all_eq_true.mpr fun job hjob => by simp [Job.unfinished, h job hjob]

theorem spares_idle {s' : Store Build StepName World} (h : contract.Good s) (hidle : s.idle = true)
    (hworking : s'.working = s.working) : contract.Spares c s s' ∧ s'.working c = s.working c := by
  have hnone := h.none_of_idle hidle
  exact ⟨Contract.spares_alone (fun d _ => hnone d) fun d _ => by rw [hworking]; exact hnone d, by rw [hworking]⟩

/-- What is lost takes nothing away that a step has left and no later one would miss. -/
theorem good_lost {w : World} (h : contract.Good s) (hdead : ∀ job ∈ s.jobs, job.state = .deadLetter) (hI : Inv w)
    (hposts : ∀ job ∈ s.jobs, ∀ name ∈ job.done, Post job.kind name s.world → Post job.kind name w) :
    contract.Good { s with world := w } := by
  have hidle := idle_of_dead hdead
  refine h.rest_world hidle hI fun hlength job hjob => ⟨fun hsucceeded => ?_, fun hfailed name hname => ?_⟩
  · cases (hdead job hjob).symm.trans hsucceeded
  · exact hposts job hjob name hname ((h.rest hidle hlength job hjob).2 hfailed name hname)

theorem post_lost (hvolume : w.volume = none) (hplaced : w'.placed = true → w.placed = true) (hname : name ≠ build.lastCheck)
    (h : Post build name w') : Post build name w := by
  unfold Post at h ⊢
  split at h
  · exact hplaced h
  · exact .inr fun v hv => nomatch hvolume.symm.trans hv
  · exact absurd rfl hname
  · exact .inr fun v hv => nomatch hvolume.symm.trans hv
  · exact absurd rfl hname
  · trivial

theorem good_retry (h : contract.Good s) (hlength : s.jobs.length = 1) : contract.Good (requestRetry s) ∧
    contract.Spares c s (requestRetry s) ∧ (requestRetry s).working c = s.working c := by
  have hsame : contract.Good s ∧ contract.Spares c s s ∧ s.working c = s.working c :=
    ⟨h, fun d _ => ⟨rfl, fun _ _ => ⟨rfl, s.world.status, rfl⟩⟩, rfl⟩
  unfold requestRetry
  split
  · split
    next job j hlatest =>
      obtain ⟨hjob, hdead⟩ := latestDead_row hlatest
      obtain ⟨only, honly⟩ := List.length_eq_one_iff.mp hlength
      have hall : ∀ row ∈ s.jobs, row.state = .deadLetter := by
        intro row hrow
        have hmem := List.mem_of_getElem? hjob
        rw [honly] at hrow hmem
        rw [List.mem_singleton.mp hrow, ← List.mem_singleton.mp hmem]
        exact hdead
      have hidle := idle_of_dead hall
      have hI := h.world
      have hposts : Posts job.kind job.done s.world := (h.rest hidle hlength job (List.mem_of_getElem? hjob)).2 hdead
      refine ⟨h.reopen hidle hjob (w := { s.world with status := .creating }) ⟨hI.bookings, hI.empty, hI.developer, hI.up⟩
        rfl fun name hname => ?_, spares_idle h hidle rfl⟩
      exact steady_posts s.world .creating hposts name (List.mem_filter.mp hname).1
    next => exact hsame
  · exact hsame

theorem kept : contract.Kept builds where
  refl w := ⟨w.status, rfl⟩
  post _ _ _ _ _ hrely h := by
    obtain ⟨status, rfl⟩ := hrely
    exact post_status status h
  step _ _ hmem _ hbefore hnew := carries_step hmem hbefore hnew
  succeed jobs w j job hI hjob hposts hlength row hrow := by
    obtain rfl := Contract.eq_of_single hjob hlength hrow
    exact ⟨fun _ => built_of_posts hI hposts, nofun⟩
  fail jobs w j job hI hjob hposts _ hlength row hrow := by
    obtain rfl := Contract.eq_of_single hjob hlength hrow
    exact ⟨nofun, fun _ => hposts⟩
  other := by
    refine ⟨fun a => ∃ status, a = .setStatus status, nofun, fun _ => only_attempt ⟨_, rfl⟩ fun _ => trivial,
      fun choice a w answer w' hforeign hI hlegal hperform => ?_⟩
    obtain ⟨status, rfl⟩ := hforeign
    have hset : perform apply choice (.setStatus status) w = some (answer, w') := hperform
    obtain ⟨status, rfl⟩ : ∃ status, w' = { w with status := status } := by
      refine perform_keeps (I := fun w' => ∃ status, w' = { w with status := status }) ⟨w.status, rfl⟩
        (fun r w' happly => ?_) hset
      cases happly
      exact ⟨status, rfl⟩
    refine ⟨⟨hI.bookings, hI.empty, hI.developer, hI.up⟩, ⟨status, rfl⟩, fun jobs hrest hlength job hjob => ⟨fun hsucceeded => ?_,
      fun hdead name hname => post_status status ((hrest hlength job hjob).2 hdead name hname)⟩⟩
    obtain ⟨hbooked, hroles, happlied, hrestored⟩ := (hrest hlength job hjob).1 hsucceeded
    exact ⟨hbooked, hroles, happlied, hrestored⟩
  change c x s h htimely := by
    cases x with
    | retry => exact good_retry h htimely.2
    | loseContainer =>
        have hdead : ∀ job ∈ s.jobs, job.state = .deadLetter := by simpa [timely] using htimely.1
        have hI := h.world
        exact ⟨good_lost h hdead ⟨hI.bookings, hI.empty, hI.developer, nofun⟩ fun _ _ _ _ => post_volume rfl rfl,
          spares_idle h (idle_of_dead hdead) rfl⟩
    | loseVolume =>
        have hlost : ∀ job ∈ s.jobs, job.state = .deadLetter ∧ job.kind.lastCheck ∉ job.done := by
          simpa [timely] using htimely.1
        have hI := h.world
        refine ⟨good_lost h (fun job hjob => (hlost job hjob).1) ⟨hI.bookings, nofun, nofun, nofun⟩
          fun job hjob name hname => post_lost rfl id fun heq => (hlost job hjob).2 (heq ▸ hname),
          spares_idle h (idle_of_dead fun job hjob => (hlost job hjob).1) rfl⟩

end Changes

/-- A project that has not been built yet, with its job. -/
structure Unbuilt (s : Store Build StepName World) (build : Build) (maxAttempts : Nat) : Prop where
  jobs : s.jobs = [⟨build, .pending, 0, maxAttempts, []⟩]
  working : ∀ c, s.working c = none
  placed : s.world.placed = false ∧ s.world.bookings = 0
  volume : s.world.volume = none ∧ s.world.up = false

variable {s : Store Build StepName World} {maxAttempts : Nat}
  {g : Config Worker (Store Build StepName World) (Op StepName Act Change) (Reply Build StepName fun a => Option (Answer a))}

theorem Unbuilt.good (h : Unbuilt s build maxAttempts) : contract.Good s := by
  obtain ⟨hplaced, hbookings⟩ := h.placed
  obtain ⟨hvolume, hdown⟩ := h.volume
  have hI : Inv s.world := ⟨by simp [hplaced, hbookings], by simp [hvolume], by simp [hvolume], by simp [hdown]⟩
  refine ⟨hI, fun j job hj _ => ?_, fun j j' job job' hj hj' _ _ => ?_, by simp [h.working], by simp [h.working],
    fun hidle => ?_⟩
  · rw [h.jobs, List.getElem?_singleton] at hj
    split at hj <;> cases hj
    exact fun _ hname => absurd hname List.not_mem_nil
  · rw [h.jobs, List.getElem?_singleton] at hj hj'
    split at hj <;> split at hj' <;> simp_all
  · simp [Sagas.Store.idle, h.jobs, Job.unfinished] at hidle

/-- The statements of a run in which no probe finds what is left of a restore that was cut off, no lease is taken from a
worker that is alive, and what is lost is lost in time. -/
def Allowed (c : Worker) : Op StepName Act Change → Store Build StepName World → Prop
  | .change x, s => timely x s = true
  | op, s => contract.Allowed c op s

theorem length_requestRetry (s : Store Build StepName World) : (requestRetry s).jobs.length = s.jobs.length := by
  unfold requestRetry
  split
  · split
    · exact List.length_set
    · rfl
  · rfl

theorem length_change (x : Change) (s : Store Build StepName World) : (change x s).jobs.length = s.jobs.length := by
  cases x with
  | retry => exact length_requestRetry s
  | loseContainer | loseVolume => rfl

/-- However often the build of a project fails for good and is retried, if it succeeds it leaves what a build without an
interruption leaves, as long as the volume is not lost after the last step that would find out. -/
theorem retried_built (hs : Unbuilt s build maxAttempts)
    (h : builds.protocol.Reachable (Protocol.Statements Allowed) s g) :
    ∀ job ∈ g.store.jobs, job.state = .succeeded → Built job.kind g.store.world := by
  have hone : s.jobs.length = 1 := by rw [hs.jobs]; rfl
  have hlength : ∀ g, builds.protocol.Reachable (Protocol.Statements Allowed) s g → g.store.jobs.length = 1 :=
    fun g hg => length_reachable (D := builds) length_change hone hg
  have hallowed : builds.protocol.Reachable (Protocol.Statements contract.Allowed) s g := by
    refine (h.along (K := fun g => g.store.jobs.length = 1) hlength).mono fun g m hm c chance op next hmove hrunning => ?_
    have hop := hm.1 c chance op next hmove hrunning
    cases op with
    | change x => exact ⟨hop, hm.2⟩
    | claim | act | save | succeed | fail | beat => exact hop
  have hgood := Contract.good_of_reachable kept hs.good hs.working hallowed
  intro job hjob hsucceeded
  refine (hgood.rest ?_ (hlength g h) job hjob).1 hsucceeded
  obtain ⟨only, honly⟩ := List.length_eq_one_iff.mp (hlength g h)
  rw [honly] at hjob
  obtain rfl := List.mem_singleton.mp hjob
  simp [Sagas.Store.idle, honly, Job.unfinished, hsucceeded]

section Examples

set_option maxRecDepth 4000

def fresh (build : Build) : Store Build StepName World where
  jobs := [⟨build, .pending, 0, 5, []⟩]
  stale := fun _ => false
  working := fun _ => none
  world := ⟨false, .creating, false, 0, none, false⟩

theorem unbuilt_fresh (build : Build) : Unbuilt (fresh build) build 5 := ⟨rfl, fun _ => rfl, ⟨rfl, rfl⟩, rfl, rfl⟩

abbrev Run := List (Move Worker (Chance (Outcome × Choice)) (Request Empty Change))

def run (outcome : Outcome) (n : Nat) : Run :=
  List.replicate n (.run 0 ⟨(outcome, ⟨true, true, true, true, true, true⟩), false⟩)

/-- The first attempt fails after so many statements, and so do the others at once. -/
def failures (n : Nat) : Run :=
  .arrive 0 (.execute 0) :: run .done n ++ run .failed 1 ++ run .done 1 ++
    (List.replicate 4 (.arrive 0 (.execute 0) :: run .done 1 ++ run .failed 1 ++ run .done 1)).flatten ++ run .done 1

def request (x : Change) : Run := .arrive 0 (.change x) :: run .done 1

/-- A lost volume, a retry and an attempt of so many statements. -/
def retried (lost : Change) (n : Nat) : Run := request lost ++ request .retry ++ .arrive 0 (.execute 0) :: run .done n

def watch : Worker → Op StepName Act Change → Store Build StepName World → Bool :=
  Contract.watched legal timely fun _ _ _ => true

theorem allowed_watch (g : Config Worker (Store Build StepName World) (Op StepName Act Change)
      (Reply Build StepName fun a => Option (Answer a))) (m : Move Worker (Chance (Outcome × Choice)) (Request Empty Change))
    (hm : Protocol.watch watch g m = true) : Protocol.Statements Allowed g m := by
  refine Protocol.statements_watch (fun c op s h => ?_) g m hm
  cases op with
  | claim j =>
      intro job hjob hrunning hstale
      simp [watch, Contract.watched, hjob, hrunning, hstale] at h
  | act a => exact h
  | change x => exact h
  | save | succeed | beat => trivial
  | fail j => exact fun _ _ _ => trivial

/-- The build fails for good when the project is to be marked ready, the container goes away, and the retry succeeds. -/
theorem retried_built_container : ∃ g, builds.protocol.Reachable (Protocol.Statements Allowed) (fresh .provision) g ∧
    Built .provision g.store.world := by
  have h := Protocol.Reachable.start.replay (P := builds.protocol) (s := fresh .provision) allowed_watch
    (failures 55 ++ retried .loseContainer 19) rfl
  exact ⟨_, h, retried_built (unbuilt_fresh .provision) h _ List.mem_cons_self rfl⟩

/-- The volume goes away instead: the cluster of the project is an empty one without its roles, and so is a restored one. -/
theorem not_retried_built : ¬ ∃ build, ∀ g, builds.protocol.Reachable (fun _ _ => True) (fresh build) g →
    ∀ job ∈ g.store.jobs, job.state = .succeeded → Built job.kind g.store.world := by
  rintro ⟨build, h⟩
  cases build with
  | provision =>
      have hrun := Protocol.Reachable.start.free (P := builds.protocol) (s := fresh .provision)
        (failures 55 ++ retried .loseVolume 20) rfl
      obtain ⟨v, hv, hall⟩ := (h _ hrun _ List.mem_cons_self rfl).applied
      cases hv
      cases hall .postgres
  | restore =>
      have hrun := Protocol.Reachable.start.free (P := builds.protocol) (s := fresh .restore)
        (failures 41 ++ retried .loseVolume 12) rfl
      obtain ⟨v, hv, hcontent⟩ := (h _ hrun _ List.mem_cons_self rfl).restored rfl
      cases hv
      cases hcontent

end Examples

end Corebase.BuildRetries
