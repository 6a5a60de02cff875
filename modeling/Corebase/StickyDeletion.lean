import Corebase.Reconciler
import Corebase.SagaAttempts
import Corebase.SagaFacts

namespace Corebase.StickyDeletion

open Interleaving Sagas SagaSteps SagaAttempts SagaFacts
open JobRunner (Worker Time JobState)
open ProvisioningJobs (JobType ProjectStatus)
open Reconciler (shouldRun)

/-- The statements of the workers that write the status of the project. -/
inductive Update
  | markReady | markRestored | markSoftDeleted | markDeleted | markPausing | markPaused | markResuming | markResumed
  | deadLetter | repairLimit | idlePause | restoreExpiry
deriving DecidableEq

def Update.target : Update → ProjectStatus
  | .markReady | .markResumed => .ready
  | .markRestored => .restored
  | .markSoftDeleted => .softDeleted
  | .markDeleted => .deleted
  | .markPausing | .idlePause => .pausing
  | .markPaused => .paused
  | .markResuming => .resuming
  | .deadLetter | .repairLimit => .failed
  | .restoreExpiry => .deleting

/-- The condition on the status under WHERE. -/
def Update.guard : Update → ProjectStatus → Bool
  | .markReady, status => status ≠ .ready
  | .markDeleted, status => status ≠ .deleted
  | .markPausing, status => status ∈ [.ready, .pausing]
  | .markResuming, status => status ∈ [.paused, .resuming, .pausing]
  | .deadLetter, status => status ∉ [.deleted, .softDeleted]
  | .repairLimit, status => status ≠ .failed
  | .markRestored, _ | .markSoftDeleted, _ | .markPaused, _ | .markResumed, _ | .idlePause, _ | .restoreExpiry, _ => true

inductive Part
  | volume | credentials
deriving DecidableEq

/-- The project as it was when a part of its data was destroyed. -/
structure Destruction where
  status : ProjectStatus
  due : Bool
deriving DecidableEq

structure World where
  status : ProjectStatus
  deletedAt : Option Time
  purgeAfter : Option Time
  now : Time
  volume : Bool
  credentials : Bool
  /-- There is a job under the key of the delete requests. -/
  asked : Bool
  /-- The user wants the project deleted. -/
  requested : Bool
  /-- A purge has found the project purgeable. -/
  verified : Bool
  destroyed : List Destruction
deriving DecidableEq

inductive Act
  /-- Something that may throw, and that nothing here depends on. -/
  | prepare
  /-- The same with an answer. -/
  | look
  | status
  | update (u : Update)
  | purgeable
  | store (part : Part)
  | destroy (part : Part)
deriving DecidableEq

inductive Updated
  | changed | unchanged
  /-- The row would violate its CHECK. -/
  | refused
deriving DecidableEq

@[reducible] def Answer : Act → Type
  | .prepare | .store _ | .destroy _ => Unit
  | .look => Bool
  | .status => ProjectStatus
  | .update _ => Updated
  | .purgeable => ProjectStatus × Bool

namespace World

def due (w : World) : Bool := w.purgeAfter.any fun t => t ≤ w.now

/-- The CHECK of the table. -/
def fits (w : World) : Bool :=
  decide (w.status ∈ [.softDeleted, .deleted]) == w.deletedAt.isSome || w.status = .deleting

def set (window : Time) (u : Update) (w : World) : World :=
  if u = .markSoftDeleted then
    { w with
      status := .softDeleted
      deletedAt := some (w.deletedAt.getD w.now)
      purgeAfter := some (w.purgeAfter.getD (w.now + window)) }
  else { w with status := u.target }

def has (w : World) : Part → Bool
  | .volume => w.volume
  | .credentials => w.credentials

def put (w : World) (present : Bool) : Part → World
  | .volume => { w with volume := present }
  | .credentials => { w with credentials := present }

end World

def apply (window : Time) (choice : Bool) : (a : Act) → World → Option (Answer a × World)
  | .prepare, w => some ((), w)
  | .look, w => some (choice, w)
  | .status, w => some (w.status, w)
  | .update u, w =>
      if u.guard w.status then
        if (w.set window u).fits then some (.changed, w.set window u) else some (.refused, w)
      else some (.unchanged, w)
  | .purgeable, w => some ((w.status, w.due), { w with verified := w.verified || w.status = .softDeleted && w.due })
  | .store part, w => some ((), w.put true part)
  | .destroy part, w => some ((), if w.has part then
      { w.put false part with destroyed := ⟨w.status, w.due⟩ :: w.destroyed } else w)

abbrev Steps := Body Act fun a => Option (Answer a)

/-- An UPDATE, and whether it has found the row. -/
def update (u : Update) (next : Bool → Steps) : Steps :=
  attempt (.update u) fun
    | .refused => .throw
    | .changed => next true
    | .unchanged => next false

def write (u : Update) : Steps := update u fun _ => .ok

def prepared (next : Steps) : Steps := attempt .prepare fun _ => next

def markPausing : Steps :=
  update .markPausing fun found => if found then .ok
  else attempt .status fun status => if status = .paused then .ok else .throw

def markResuming : Steps :=
  prepared <| update .markResuming fun found => if found then prepared .ok
  else attempt .status fun status => if status = .ready then .ok else .throw

def verifyPurgeable : Steps :=
  attempt .purgeable fun (status, due) =>
    if status = .deleted then .ok else if status ≠ .softDeleted then .throw else if !due then .throw else .ok

def storing (part : Part) : Steps := prepared <| attempt (.store part) fun _ => prepared .ok

def body : StepName → Steps
  | .markReady => prepared (write .markReady)
  | .markRestored => prepared <| update .markRestored fun _ => prepared .ok
  | .markSoftDeleted => update .markSoftDeleted fun _ => prepared .ok
  | .markDeleted => write .markDeleted
  | .markPausing => markPausing
  | .markPaused => prepared (write .markPaused)
  | .markResuming => markResuming
  | .markResumed => prepared (write .markResumed)
  | .verifyPurgeable => verifyPurgeable
  -- A container that is created brings its volume about.
  | .createVolume | .startContainer | .restoreIntoVolume | .recoverToTarget => storing .volume
  | .storeCredentials | .configureBackups | .generateApiKeys | .resetRestoredCredentials | .rotateDeveloperPassword =>
      storing .credentials
  | .removeVolume => prepared <| attempt (.destroy .volume) fun _ => .ok
  | .deleteCredentials => attempt (.destroy .credentials) fun _ => .ok
  | _ => prepared .ok

/-- The sagas whose failure leaves a project unusable. -/
def building (kind : JobType) : Bool := kind ∈ [.provisionProject, .restoreProject]

def onDeadLetter (kind : JobType) : Steps := if building kind then write .deadLetter else .ok

inductive Other
  | reconcile | idleScan | restoreExpiry
deriving DecidableEq

/-- A pass goes by what it has read of the project, and inserts a job before it writes the status. -/
def others : Other → Steps
  | .reconcile => attempt .status fun status => if !shouldRun status then .ok
      else attempt .look fun drift => if !drift then .ok
      else attempt .look fun busy => if busy then .ok
      else attempt .look fun limit => if limit then write .repairLimit else .ok
  | .idleScan => attempt .status fun status => if status ≠ .ready then .ok
      else attempt .look fun inserted => if inserted then write .idlePause else .ok
  | .restoreExpiry => attempt .status fun status => if status ≠ .restored then .ok
      else attempt .look fun inserted => if inserted then write .restoreExpiry else .ok

inductive Lifecycle
  | pause | resume
deriving DecidableEq

def Lifecycle.jobType : Lifecycle → JobType
  | .pause => .pauseProject
  | .resume => .resumeProject

def Lifecycle.source : Lifecycle → ProjectStatus
  | .pause => .ready
  | .resume => .paused

def Lifecycle.target : Lifecycle → ProjectStatus
  | .pause => .pausing
  | .resume => .resuming

inductive Change
  | requestLifecycle (kind : Lifecycle)
  | requestRetry
  | requestDelete
  /-- The user takes the deletion back. -/
  | restore
  /-- Any other job is created. -/
  | create (kind : JobType)
  | pass (d : Time)
deriving DecidableEq

abbrev Jobs := Store JobType StepName World

namespace Requests

def add (kind : JobType) (s : Jobs) : Jobs := { s with jobs := s.jobs ++ [⟨kind, .pending, 0, 5, []⟩] }

def requestLifecycle (kind : Lifecycle) (s : Jobs) : Jobs :=
  if s.jobs.any fun job => job.kind = kind.jobType && job.unfinished then s
  else if s.world.status ≠ kind.source then s
  else add kind.jobType { s with world := { s.world with status := kind.target } }

/-- The last build that has failed for good. -/
def failedBuild (jobs : List (Job JobType StepName)) : Option JobId :=
  (List.range jobs.length).reverse.find? fun j => jobs[j]?.any fun job => building job.kind && job.state = .deadLetter

/-- The row of a build that is retried. What it has of the substrate is looked at again. -/
def reopened (job : Job JobType StepName) : Job JobType StepName :=
  { job with
    state := .pending
    attempts := 0
    done := job.done.filter (· ∉ [.createVolume, .createNetwork, .startContainer, .waitHealthy]) }

def requestRetry (s : Jobs) : Jobs :=
  if s.world.status ≠ .failed then s
  else match failedBuild s.jobs with
    | none => s
    | some j => match s.jobs[j]? with
      | none => s
      | some job => { s.setJob j (reopened job) with world := { s.world with status := .creating } }

def requestDelete (s : Jobs) : Jobs :=
  if s.world.status = .deleted then s
  else if s.world.asked then { s with world := { s.world with requested := true } }
  else add .deleteProject { s with world := { s.world with status := .deleting, asked := true, requested := true } }

def restore (s : Jobs) : Jobs :=
  if s.world.status = .softDeleted then { s with world := { s.world with
    status := .ready
    deletedAt := none
    purgeAfter := none
    requested := false } }
  else s

end Requests

def change : Change → Jobs → Jobs
  | .requestLifecycle kind => Requests.requestLifecycle kind
  | .requestRetry => Requests.requestRetry
  | .requestDelete => Requests.requestDelete
  | .restore => Requests.restore
  | .create kind => Requests.add kind
  | .pass d => fun s => { s with world := { s.world with now := s.world.now + d } }

def sagas (window : Time) :
    Design JobType StepName World Act Change (Outcome × Bool) Other fun a => Option (Answer a) where
  sagas := steps
  body _ := body
  onDeadLetter := onDeadLetter
  others := others
  perform := perform (apply window)
  change := change

/-- The statements that write the status of a live project whatever it is. -/
def Update.heedless (u : Update) : Bool :=
  u ∈ [.markReady, .markPaused, .markResumed, .deadLetter, .repairLimit, .idlePause]

/-- No such statement comes between the request of a deletion and its mark, and nothing leads back once a purge has found the
project purgeable. -/
def legal : Act → World → Bool
  | .update u, w => !(u.heedless && w.requested && w.deletedAt.isNone) && !(u = .restoreExpiry && w.verified)
  | .store _, w => !w.verified
  | _, _ => true

/-- A deletion that was taken back is not requested again. -/
def timely : Change → World → Bool
  | .requestDelete, w => w.status = .deleted || (w.requested || !w.asked) && (w.asked || !w.verified)
  | .restore, w => !w.verified
  | _, _ => true

/-- The statuses of a project whose deletion is under way or done. -/
def gone (status : ProjectStatus) : Bool := status ∈ [.deleting, .softDeleted, .deleted, .restored]

structure Inv (w : World) : Prop where
  fits : w.fits = true
  sticky : w.requested = true → gone w.status = true
  due : w.verified = true → w.status ∈ [.softDeleted, .deleted] ∧ w.due = true
  empty : w.status = .deleted → w.verified = true ∧ w.volume = false ∧ w.credentials = false
  destroyed : ∀ d ∈ w.destroyed, d = ⟨.softDeleted, true⟩

def Fact : StepName → World → Prop
  | .verifyPurgeable, w => w.verified = true
  | .removeVolume, w => w.verified = true ∧ w.volume = false
  | .deleteCredentials, w => w.verified = true ∧ w.credentials = false
  | _, _ => True

def facts : Facts JobType StepName World Act Change where
  Inv := Inv
  Fact _ := Fact
  Legal a w := legal a w = true
  Timely x s := timely x s.world = true

variable {window : Time} {choice : Bool} {w w' : World} {u : Update} {kind : JobType} {name : StepName}

section Acts

@[simp] theorem set_status (u : Update) (w : World) : (w.set window u).status = u.target := by
  unfold World.set
  split
  next heq => rw [heq]; rfl
  next => rfl

/-- An UPDATE leaves everything but the status and the two dates. -/
theorem set_rest (window : Time) (u : Update) (w : World) : (w.set window u).requested = w.requested ∧ (w.set window u).verified = w.verified ∧
    (w.set window u).volume = w.volume ∧ (w.set window u).credentials = w.credentials ∧
    (w.set window u).destroyed = w.destroyed ∧ (w.set window u).asked = w.asked := by
  unfold World.set
  split <;> exact ⟨rfl, rfl, rfl, rfl, rfl, rfl⟩

theorem set_deletedAt (u : Update) (w : World) (h : (w.set window u).deletedAt = none) : w.deletedAt = none := by
  unfold World.set at h
  split at h
  · cases h
  · exact h

theorem set_due (h : w.due = true) : (w.set window u).due = true := by
  unfold World.set
  split
  · unfold World.due at h ⊢
    cases hpurge : w.purgeAfter with
    | none => simp [hpurge] at h
    | some t => simpa [hpurge] using h
  · exact h

/-- Where the row is marked deleted, only a deletion fits. -/
theorem gone_of_fits (hfits : w.fits = true) (hdeleted : w.deletedAt.isSome = true) :
    w.status = .deleting ∨ w.status ∈ [.softDeleted, .deleted] := by
  simp only [World.fits, hdeleted, Bool.or_eq_true, decide_eq_true_eq, beq_true] at hfits
  exact hfits.symm

theorem deletedAt_of_fits (hfits : w.fits = true) (hstatus : w.status ∈ [.softDeleted, .deleted]) : w.deletedAt.isSome = true := by
  have hcheck : w.deletedAt.isSome = true ∨ w.status = .deleting := by simpa [World.fits, hstatus] using hfits
  refine hcheck.resolve_right fun h => ?_
  simp [h] at hstatus

/-- A statement that minds the status sends no project back whose deletion is under way. -/
theorem gone_of_guard (hgone : gone w.status = true) (hguard : u.guard w.status = true) (hheed : u.heedless = false) :
    gone u.target = true := by
  cases u with
  | markPausing | markResuming =>
      cases hstatus : w.status <;> simp_all [Update.guard, gone]
  | markRestored | markSoftDeleted | markDeleted | restoreExpiry => rfl
  | markReady | markPaused | markResumed | deadLetter | repairLimit | idlePause => cases hheed

theorem inv_set (hI : Inv w) (hlegal : legal (.update u) w = true) (hguard : u.guard w.status = true)
    (hfits : (w.set window u).fits = true)
    (hempty : u = .markDeleted → w.verified = true ∧ w.volume = false ∧ w.credentials = false) : Inv (w.set window u) := by
  obtain ⟨hrequested, hverified, hvolume, hcredentials, hdestroyed, -⟩ := set_rest window u w
  simp only [legal, Bool.and_eq_true, Bool.not_eq_true', Bool.and_eq_false_iff, decide_eq_false_iff_not] at hlegal
  refine ⟨hfits, fun h => ?_, fun h => ?_, fun h => ?_, ?_⟩
  · rw [hrequested] at h
    cases hdate : (w.set window u).deletedAt with
    | some t =>
        have hdeletion : (w.set window u).deletedAt.isSome = true := by rw [hdate]; rfl
        rcases gone_of_fits hfits hdeletion with h | h
        · rw [h]; rfl
        · simp only [List.mem_cons, List.not_mem_nil, or_false] at h
          rcases h with h | h <;> rw [h] <;> rfl
    | none =>
        rw [set_status]
        have hnone := set_deletedAt u w hdate
        refine gone_of_guard (hI.sticky h) hguard ?_
        simpa [h, hnone] using hlegal.1
  · rw [hverified] at h
    obtain ⟨hstatus, hdue⟩ := hI.due h
    refine ⟨?_, set_due hdue⟩
    have hdate : (w.set window u).deletedAt.isSome = true := by
      cases hnone : (w.set window u).deletedAt with
      | some t => rfl
      | none =>
          have hsome := deletedAt_of_fits hI.fits hstatus
          rw [set_deletedAt u w hnone] at hsome
          cases hsome
    refine (gone_of_fits hfits hdate).resolve_left fun hdeleting => ?_
    -- only the sweep writes this status
    rw [set_status] at hdeleting
    cases u <;> simp_all [Update.target]
  · rw [set_status] at h
    rw [hverified, hvolume, hcredentials]
    refine hempty ?_
    cases u <;> simp_all [Update.target]
  · rw [hdestroyed]
    exact hI.destroyed

theorem grows_of (hverified : w.verified = true → w'.verified = true)
    (hvolume : w.verified = true → w.volume = false → w'.volume = false)
    (hcredentials : w.verified = true → w.credentials = false → w'.credentials = false) : facts.Grows w w' := by
  intro _ name h
  change Fact name w at h
  change Fact name w'
  unfold Fact at h ⊢
  split at h
  · exact hverified h
  · exact ⟨hverified h.1, hvolume h.1 h.2⟩
  · exact ⟨hverified h.1, hcredentials h.1 h.2⟩
  · trivial

/-- What a saga must have behind it for the act. -/
def Needs : Act → World → Prop
  | .update .markDeleted, w => w.verified = true ∧ w.volume = false ∧ w.credentials = false
  | .destroy _, w => w.verified = true
  | _, _ => True

theorem keeps_update (hI : Inv w) (hlegal : legal (.update u) w = true) (hneeds : Needs (.update u) w) {r : Updated}
    (happly : apply window choice (.update u) w = some (r, w')) : Inv w' ∧ facts.Grows w w' := by
  simp only [apply] at happly
  split at happly
  next hguard =>
    split at happly <;> cases happly
    next hfits =>
      obtain ⟨-, hverified, hvolume, hcredentials, -⟩ := set_rest window u w
      refine ⟨inv_set hI hlegal hguard hfits fun hu => ?_, grows_of (by rw [hverified]; exact id) (fun _ => by rw [hvolume]; exact id)
        fun _ => by rw [hcredentials]; exact id⟩
      subst hu
      exact hneeds
    next => exact ⟨hI, Facts.Grows.refl w⟩
  next =>
    cases happly
    exact ⟨hI, Facts.Grows.refl w⟩

theorem keeps_purgeable (hI : Inv w) :
    Inv { w with verified := w.verified || w.status = .softDeleted && w.due } := by
  refine ⟨hI.fits, hI.sticky, fun h => ?_, fun h => ?_, hI.destroyed⟩
  · rcases Bool.or_eq_true_iff.mp h with h | h
    · exact hI.due h
    · obtain ⟨hstatus, hdue⟩ : w.status = .softDeleted ∧ w.due = true := by simpa using h
      refine ⟨?_, hdue⟩
      rw [hstatus]
      exact List.mem_cons_self
  · obtain ⟨hverified, hrest⟩ := hI.empty h
    exact ⟨by rw [hverified]; rfl, hrest⟩

/-- Nothing is stored of a project that is being purged. -/
theorem keeps_store {part : Part} (hI : Inv w) (hlegal : legal (.store part) w = true) :
    Inv (w.put true part) ∧ facts.Grows w (w.put true part) := by
  have hverified : w.verified = false := by simpa [legal] using hlegal
  have hno : ∀ {P : Prop}, w.verified = true → P := fun h => nomatch hverified.symm.trans h
  cases part with
  | volume | credentials =>
      exact ⟨⟨hI.fits, hI.sticky, hI.due, fun h => hno (hI.empty h).1, hI.destroyed⟩,
        grows_of id (fun h => hno h) fun h => hno h⟩

/-- What is destroyed is of a project whose retention window has closed. -/
theorem keeps_destroy {part : Part} (hI : Inv w) (hverified : w.verified = true) (hhas : w.has part = true) :
    Inv { w.put false part with destroyed := ⟨w.status, w.due⟩ :: w.destroyed } := by
  obtain ⟨hstatus, hdue⟩ := hI.due hverified
  have hsoft : w.status = .softDeleted := by
    simp only [List.mem_cons, List.not_mem_nil, or_false] at hstatus
    refine hstatus.resolve_right fun h => ?_
    obtain ⟨-, hvolume, hcredentials⟩ := hI.empty h
    cases part with
    | volume => exact Bool.false_ne_true (hvolume.symm.trans hhas)
    | credentials => exact Bool.false_ne_true (hcredentials.symm.trans hhas)
  have hrest : ∀ d ∈ Destruction.mk w.status w.due :: w.destroyed, d = ⟨.softDeleted, true⟩ := by
    intro d hd
    rcases List.mem_cons.mp hd with rfl | hd
    · rw [hsoft, hdue]
    · exact hI.destroyed d hd
  cases part with
  | volume | credentials =>
      exact ⟨hI.fits, hI.sticky, hI.due, fun h => (nomatch hsoft.symm.trans h), hrest⟩

theorem grows_put (part : Part) (destroyed : List Destruction) :
    facts.Grows w { w.put false part with destroyed := destroyed } := by
  cases part with
  | volume => exact grows_of id (fun _ _ => rfl) fun _ => id
  | credentials => exact grows_of id (fun _ => id) fun _ _ => rfl

theorem keeps_act {a : Act} {r : Answer a} (hI : Inv w) (hlegal : legal a w = true) (hneeds : Needs a w)
    (happly : apply window choice a w = some (r, w')) : Inv w' ∧ facts.Grows w w' := by
  cases a with
  | prepare | look | status =>
      cases happly
      exact ⟨hI, Facts.Grows.refl w⟩
  | update u => exact keeps_update hI hlegal hneeds happly
  | purgeable =>
      cases happly
      exact ⟨keeps_purgeable hI, grows_of (fun h => by rw [h]; rfl) (fun _ => id) fun _ => id⟩
  | store part =>
      cases happly
      exact keeps_store hI hlegal
  | destroy part =>
      cases happly
      split
      next hhas => exact ⟨keeps_destroy hI hneeds hhas, grows_put part _⟩
      next => exact ⟨hI, Facts.Grows.refl w⟩

end Acts

section Saga

variable {Q Z : World → Prop} {done : List StepName}

/-- The acts for which a saga needs nothing behind it. -/
def Free (a : Act) : Prop := ∀ w, Needs a w

theorem carries_free {body : Steps} (hbody : body.Only Free) (hZ : ∀ w, Z w) :
    facts.Carries (perform (apply window)) body Q Z := by
  induction body generalizing Q with
  | ok => exact fun w _ _ => hZ w
  | throw => trivial
  | act a next ih =>
      intro choice w answer w' hI _ hlegal hperform
      obtain ⟨hI', hgrows⟩ : Inv w' ∧ facts.Grows w w' :=
        perform_keeps (I := fun w' => Inv w' ∧ facts.Grows w w') ⟨hI, Facts.Grows.refl w⟩
          (fun r w' happly => keeps_act hI hlegal (hbody.1 w) happly) hperform
      exact ⟨hI', hgrows, fun _ => True, fun _ _ _ => id, trivial, ih answer (hbody.2 answer)⟩

/-- An act of a saga that has its needs behind it. -/
theorem carries_act {a : Act} {next : Answer a → Steps} (Q' : Answer a → World → Prop) (hneeds : ∀ w, Q w → Needs a w)
    (hact : ∀ choice w r w', Inv w → Q w → apply window choice a w = some (r, w') → Q' r w')
    (hsteady : ∀ r w w', facts.Grows w w' → Q' r w → Q' r w')
    (hnext : ∀ r, facts.Carries (perform (apply window)) (next r) (Q' r) Z) :
    facts.Carries (perform (apply window)) (attempt a next) Q Z := by
  refine Facts.carries_attempt Q' (fun choice w r w' hI hQ hlegal happly => ?_) hsteady hnext
  obtain ⟨hI', hgrows⟩ := keeps_act hI hlegal (hneeds w hQ) happly
  exact ⟨hI', hgrows, hact choice w r w' hI hQ happly⟩

theorem steady_left (w w' : World) (hgrows : facts.Grows w w') (h : facts.Left kind done w) : facts.Left kind done w' :=
  hgrows.left h

theorem carries_prepared {next : Steps} (hsteady : ∀ w w', facts.Grows w w' → Q w → Q w')
    (hnext : facts.Carries (perform (apply window)) next Q Z) :
    facts.Carries (perform (apply window)) (prepared next) Q Z := by
  refine carries_act (fun _ => Q) (fun _ _ => trivial) (fun choice w r w' _ hQ happly => ?_) (fun _ => hsteady) fun _ => hnext
  cases happly
  exact hQ

theorem carries_verifyPurgeable :
    facts.Carries (perform (apply window)) verifyPurgeable Q (Fact .verifyPurgeable) := by
  refine carries_act (fun r w => r.1 = .deleted ∨ r.1 = .softDeleted ∧ r.2 = true → w.verified = true) (fun _ _ => trivial)
    (fun choice w r w' hI _ happly => ?_) (fun r w w' hgrows h hpass => hgrows .purgeProject .verifyPurgeable (h hpass)) fun r => ?_
  · cases happly
    rintro (hstatus | ⟨hstatus, hdue⟩)
    · have hverified : w.verified = true := (hI.empty hstatus).1
      rw [hverified]
      rfl
    · dsimp only at hstatus hdue
      simp [hstatus, hdue]
  · obtain ⟨status, due⟩ := r
    dsimp only
    split
    next hdeleted => exact fun w _ h => h (.inl hdeleted)
    next =>
      split
      · trivial
      next hsoft =>
        split
        · trivial
        next hdue => exact fun w _ h => h (.inr ⟨by simpa using hsoft, by simpa using hdue⟩)

theorem carries_destroy {part : Part} (hbefore : StepName.verifyPurgeable ∈ done)
    (hZ : ∀ w, w.verified = true → w.has part = false → Z w) (hsteady : ∀ w w', facts.Grows w w' → Z w → Z w') :
    facts.Carries (perform (apply window)) (attempt (.destroy part) fun _ => .ok) (facts.Left kind done) Z := by
  have hverified : ∀ w, facts.Left kind done w → w.verified = true := fun w h => h .verifyPurgeable hbefore
  refine carries_act (fun _ => Z) hverified (fun choice w r w' _ hleft happly => ?_) (fun _ => hsteady) fun _ w _ => id
  cases happly
  split
  next =>
    cases part with
    | volume | credentials => exact hZ _ (hverified w hleft) rfl
  next hhas => exact hZ w (hverified w hleft) (by simpa using hhas)

theorem carries_markDeleted (hbefore : ∀ n ∈ [StepName.verifyPurgeable, .removeVolume, .deleteCredentials], n ∈ done) (hZ : ∀ w, Z w) :
    facts.Carries (perform (apply window)) (write .markDeleted) (facts.Left kind done) Z := by
  refine carries_act (fun _ _ => True) (fun w hleft => ?_) (fun _ _ _ _ _ _ _ => trivial) (fun _ _ _ _ => id) fun r => ?_
  · have hvolume : w.verified = true ∧ w.volume = false := hleft .removeVolume (hbefore _ (by decide))
    have hcredentials : w.verified = true ∧ w.credentials = false := hleft .deleteCredentials (hbefore _ (by decide))
    exact ⟨hvolume.1, hvolume.2, hcredentials.2⟩
  · cases r with
    | refused => trivial
    | changed | unchanged => exact fun w _ _ => hZ w

theorem free_update (hu : u ≠ .markDeleted) : Free (.update u) := by
  intro w
  cases u with
  | markDeleted => exact absurd rfl hu
  | _ => trivial

theorem only_update {next : Bool → Steps} (hu : u ≠ .markDeleted) (hnext : ∀ found, (next found).Only Free) :
    (update u next).Only Free := by
  refine only_attempt (free_update hu) fun r => ?_
  cases r with
  | refused => trivial
  | changed => exact hnext true
  | unchanged => exact hnext false

theorem only_write (hu : u ≠ .markDeleted) : (write u).Only Free := only_update hu fun _ => trivial

theorem only_prepared {next : Steps} (hnext : next.Only Free) : (prepared next).Only Free :=
  only_attempt (fun _ => trivial) fun _ => hnext

theorem only_storing (part : Part) : (storing part).Only Free :=
  only_prepared (only_attempt (fun _ => trivial) fun _ => only_prepared trivial)

theorem only_markPausing : markPausing.Only Free := by
  refine only_update nofun fun found => ?_
  split
  · trivial
  refine only_attempt (fun _ => trivial) fun status => ?_
  split <;> trivial

theorem only_markResuming : markResuming.Only Free := by
  refine only_prepared (only_update nofun fun found => ?_)
  split
  · exact only_prepared trivial
  refine only_attempt (fun _ => trivial) fun status => ?_
  split <;> trivial

/-- Only a purge has steps that need others behind them. -/
theorem purges (kind : JobType) : ∀ name ∈ [StepName.removeVolume, .deleteCredentials, .markDeleted],
    name ∈ steps kind → kind = .purgeProject := by
  cases kind <;> decide

theorem carries_step (hmem : name ∈ steps kind) (hbefore : ∀ n ∈ (steps kind).takeWhile (· ≠ name), n ∈ done) :
    facts.Carries (perform (apply window)) (body name) (facts.Left kind done) (Fact name) := by
  have hprepared : (prepared .ok).Only Free := only_prepared trivial
  cases name with
  | verifyPurgeable => exact carries_verifyPurgeable
  | removeVolume =>
      obtain rfl := purges kind _ (by decide) hmem
      have hverify : StepName.verifyPurgeable ∈ done := hbefore _ (by decide)
      exact carries_prepared steady_left (carries_destroy hverify (fun w h h' => ⟨h, h'⟩) fun w w' hgrows =>
        hgrows .purgeProject .removeVolume)
  | deleteCredentials =>
      obtain rfl := purges kind _ (by decide) hmem
      have hverify : StepName.verifyPurgeable ∈ done := hbefore _ (by decide)
      exact carries_destroy hverify (fun w h h' => ⟨h, h'⟩) fun w w' hgrows => hgrows .purgeProject .deleteCredentials
  | markDeleted =>
      obtain rfl := purges kind _ (by decide) hmem
      have hpurged : ∀ n ∈ [StepName.verifyPurgeable, .removeVolume, .deleteCredentials],
          n ∈ (steps .purgeProject).takeWhile (· ≠ StepName.markDeleted) := by decide
      exact carries_markDeleted (fun n hn => hbefore n (hpurged n hn)) fun _ => trivial
  | markReady | markPaused | markResumed =>
      exact carries_free (only_prepared (only_write nofun)) fun _ => trivial
  | markRestored => exact carries_free (only_prepared (only_update (u := .markRestored) nofun fun _ => hprepared)) fun _ => trivial
  | markSoftDeleted => exact carries_free (only_update (u := .markSoftDeleted) nofun fun _ => hprepared) fun _ => trivial
  | markPausing => exact carries_free only_markPausing fun _ => trivial
  | markResuming => exact carries_free only_markResuming fun _ => trivial
  | createVolume | startContainer | restoreIntoVolume | recoverToTarget | storeCredentials | configureBackups
  | generateApiKeys | resetRestoredCredentials | rotateDeveloperPassword =>
      exact carries_free (only_storing _) fun _ => trivial
  | _ => exact carries_free (only_prepared trivial) fun _ => trivial

theorem only_others (other : Other) : (others other).Only Free := by
  have hlook : ∀ next : Bool → Steps, (∀ r, (next r).Only Free) → (attempt Act.look next : Steps).Only Free :=
    fun next h => only_attempt (a := Act.look) (fun _ => trivial) h
  have hwrite : ∀ {u : Update} (r : Bool), u ≠ .markDeleted → (if r then write u else .ok : Steps).Only Free := by
    intro u r hu
    split
    · exact only_write hu
    · trivial
  cases other with
  | reconcile =>
      refine only_attempt (fun _ => trivial) fun status => ?_
      split
      · trivial
      refine hlook _ fun drift => ?_
      split
      · trivial
      refine hlook _ fun busy => ?_
      split
      · trivial
      exact hlook _ fun limit => hwrite limit nofun
  | idleScan | restoreExpiry =>
      refine only_attempt (fun _ => trivial) fun status => ?_
      split
      · trivial
      exact hlook _ fun inserted => hwrite inserted nofun

end Saga

section Changes

variable {s : Jobs}

/-- A row is added that has done nothing. -/
theorem kept_add {w : World} (kind : JobType) (hs : facts.Good s) (hI : Inv w) (hgrows : facts.Grows s.world w) :
    facts.Good (Requests.add kind { s with world := w }) ∧ facts.Guar s (Requests.add kind { s with world := w }) := by
  refine ⟨⟨hI, fun job hjob => ?_⟩, Facts.guar_append hgrows⟩
  rcases List.mem_append.mp hjob with hjob | hjob
  · exact hgrows.left (hs.left job hjob)
  · obtain rfl := List.mem_singleton.mp hjob
    exact fun _ hname => absurd hname List.not_mem_nil

theorem kept_world {w : World} (hs : facts.Good s) (hI : Inv w) (hgrows : facts.Grows s.world w) :
    facts.Good { s with world := w } ∧ facts.Guar s { s with world := w } :=
  ⟨hs.world_grows hI hgrows, hgrows, fun _ _ => id⟩

/-- The status of a project whose deletion is not under way is changed to another one. -/
theorem inv_live {status : ProjectStatus} (hI : Inv w) (hlive : gone w.status = false) (hstatus : gone status = false) :
    Inv { w with status := status } := by
  have hdate : ∀ {status}, gone status = false → status ∉ [ProjectStatus.softDeleted, .deleted] ∧ status ≠ .deleting := by
    intro status h
    cases status <;> simp_all [gone]
  obtain ⟨hnew, -⟩ := hdate hstatus
  obtain ⟨hold, hother⟩ := hdate hlive
  refine ⟨?_, fun h => ?_, fun h => absurd (hI.due h).1 hold, fun h => ?_, hI.destroyed⟩
  · have hfits := hI.fits
    simp only [World.fits, hold, hother, decide_false, Bool.or_false] at hfits
    simp only [World.fits, hnew, decide_false, hfits, Bool.true_or]
  · exact nomatch hlive.symm.trans (hI.sticky h)
  · exact absurd (h ▸ List.mem_cons_of_mem _ List.mem_cons_self) hnew

theorem grows_status (status : ProjectStatus) : facts.Grows w { w with status := status } :=
  grows_of id (fun _ => id) fun _ => id

theorem kept_lifecycle (kind : Lifecycle) (hs : facts.Good s) :
    facts.Good (Requests.requestLifecycle kind s) ∧ facts.Guar s (Requests.requestLifecycle kind s) := by
  unfold Requests.requestLifecycle
  split
  · exact ⟨hs, Facts.Guar.refl s⟩
  split
  · exact ⟨hs, Facts.Guar.refl s⟩
  next hstatus =>
    have hsource : s.world.status = kind.source := by simpa using hstatus
    refine kept_add _ hs (inv_live hs.world ?_ ?_) (grows_status _)
    · rw [hsource]
      cases kind <;> rfl
    · cases kind <;> rfl

theorem kept_retry (hs : facts.Good s) : facts.Good (Requests.requestRetry s) ∧ facts.Guar s (Requests.requestRetry s) := by
  unfold Requests.requestRetry
  split
  · exact ⟨hs, Facts.Guar.refl s⟩
  next hstatus =>
    have hfailed : s.world.status = .failed := by simpa using hstatus
    split
    · exact ⟨hs, Facts.Guar.refl s⟩
    next j hfound =>
    split
    · exact ⟨hs, Facts.Guar.refl s⟩
    next job hjob =>
      have hI : Inv { s.world with status := .creating } := inv_live hs.world (by rw [hfailed]; rfl) rfl
      have hrow : facts.Guar s (s.setJob j (Requests.reopened job)) := Facts.guar_set rfl rfl hjob rfl
      have hset : facts.Good (s.setJob j (Requests.reopened job)) := hs.set rfl rfl fun name hname =>
        hs.left job (List.mem_of_getElem? hjob) name (List.mem_of_mem_filter hname)
      exact ⟨hset.world_grows hI (grows_status _), grows_status _, hrow.rows⟩

theorem kept_delete (hs : facts.Good s) (htimely : timely .requestDelete s.world = true) :
    facts.Good (Requests.requestDelete s) ∧ facts.Guar s (Requests.requestDelete s) := by
  have hI : Inv s.world := hs.world
  unfold Requests.requestDelete
  split
  · exact ⟨hs, Facts.Guar.refl s⟩
  next hstatus =>
    obtain ⟨hasked, hverified⟩ : (s.world.requested = true ∨ s.world.asked = false) ∧
        (s.world.asked = true ∨ s.world.verified = false) := by simpa [timely, hstatus] using htimely
    have hgrows : ∀ {status asked}, facts.Grows s.world
        { s.world with status := status, asked := asked, requested := true } := grows_of id (fun _ => id) fun _ => id
    split
    next h =>
      have hrequested : s.world.requested = true := hasked.resolve_right (by simp [h])
      exact kept_world hs ⟨hI.fits, fun _ => hI.sticky hrequested, hI.due, hI.empty, hI.destroyed⟩ hgrows
    next h =>
      have hunverified : s.world.verified = false := hverified.resolve_left h
      refine kept_add _ hs ⟨?_, fun _ => rfl, fun h => ?_, nofun, hI.destroyed⟩ hgrows
      · simp [World.fits]
      · cases hunverified.symm.trans h

theorem kept_restore (hs : facts.Good s) (htimely : timely .restore s.world = true) :
    facts.Good (Requests.restore s) ∧ facts.Guar s (Requests.restore s) := by
  have hunverified : s.world.verified = false := by simpa [timely] using htimely
  unfold Requests.restore
  split
  · refine kept_world hs ⟨rfl, nofun, fun h => ?_, nofun, hs.world.destroyed⟩ (grows_of id (fun _ => id) fun _ => id)
    cases hunverified.symm.trans h
  · exact ⟨hs, Facts.Guar.refl s⟩

theorem kept_pass (d : Time) (hs : facts.Good s) :
    facts.Good (change (.pass d) s) ∧ facts.Guar s (change (.pass d) s) := by
  have hI : Inv s.world := hs.world
  refine kept_world hs ⟨hI.fits, hI.sticky, fun h => ⟨(hI.due h).1, ?_⟩, hI.empty, hI.destroyed⟩
    (grows_of id (fun _ => id) fun _ => id)
  have hdue := (hI.due h).2
  unfold World.due at hdue ⊢
  cases hpurge : s.world.purgeAfter with
  | none => simp [hpurge] at hdue
  | some t =>
      have hpast : t ≤ s.world.now := by simpa [hpurge] using hdue
      simpa using Nat.le_add_right_of_le hpast

theorem kept : facts.Kept (sagas window) where
  step _ _ hmem _ hbefore := carries_step hmem hbefore
  other other := carries_free (only_others other) fun _ => trivial
  hook kind := by
    refine carries_free ?_ fun _ => trivial
    show (onDeadLetter kind).Only Free
    unfold onDeadLetter
    split
    · exact only_write nofun
    · trivial
  change x s hs htimely := by
    cases x with
    | requestLifecycle kind => exact kept_lifecycle kind hs
    | requestRetry => exact kept_retry hs
    | requestDelete => exact kept_delete hs htimely
    | restore => exact kept_restore hs htimely
    | create kind => exact kept_add kind hs hs.world (Facts.Grows.refl _)
    | pass d => exact kept_pass d hs

end Changes

/-- A project that nobody has wanted deleted, and whatever jobs it has, none of them a purge that has begun. -/
structure Standing (s : Jobs) : Prop where
  fits : s.world.fits = true
  live : s.world.deletedAt = none
  requested : s.world.requested = false
  verified : s.world.verified = false
  destroyed : s.world.destroyed = []
  jobs : ∀ job ∈ s.jobs, ∀ name ∈ job.done, name ∉ [StepName.verifyPurgeable, .removeVolume, .deleteCredentials]

variable {s : Jobs} {g : Config Worker Jobs (Op StepName Act Change) (Reply JobType StepName fun a => Option (Answer a))}

theorem Standing.good (h : Standing s) : facts.Good s := by
  have hno : ∀ {P : Prop}, s.world.verified = true → P := fun hv => nomatch h.verified.symm.trans hv
  refine ⟨⟨h.fits, fun hr => (nomatch h.requested.symm.trans hr), fun hv => hno hv, fun hstatus => ?_, ?_⟩, fun job hjob name hname => ?_⟩
  · have hdate := deletedAt_of_fits h.fits (hstatus ▸ List.mem_cons_of_mem _ List.mem_cons_self)
    rw [h.live] at hdate
    cases hdate
  · rw [h.destroyed]
    exact fun _ hd => absurd hd List.not_mem_nil
  · have hother := h.jobs job hjob name hname
    change Fact name s.world
    unfold Fact
    split
    · exact absurd List.mem_cons_self hother
    · exact absurd (List.mem_cons_of_mem _ List.mem_cons_self) hother
    · exact absurd (List.mem_cons_of_mem _ (List.mem_cons_of_mem _ List.mem_cons_self)) hother
    · trivial

section Examples

/-- A live project with a build that is to be done. -/
def live (status : ProjectStatus) : Jobs where
  jobs := [⟨.provisionProject, .pending, 0, 5, []⟩]
  stale := fun _ => false
  working := fun _ => none
  world := ⟨status, none, none, 0, true, true, false, false, false, []⟩

theorem live_standing {status : ProjectStatus} (h : status ∉ [.deleting, .softDeleted, .deleted]) : Standing (live status) := by
  refine ⟨?_, rfl, rfl, rfl, rfl, fun job hjob name hname => ?_⟩
  · cases status <;> first | rfl | exact absurd (by decide) h
  · obtain rfl := List.mem_singleton.mp hjob
    cases hname

abbrev Run := List (Move Worker (Chance (Outcome × Bool)) (Request Other Change))

def run (c : Worker) (n : Nat) : Run := List.replicate n (.run c ⟨(.done, true), false⟩)

/-- A request or an event, by a client of its own. -/
def event (x : Change) : Run := .arrive 9 (.change x) :: run 9 1

/-- The project is deleted, and its retention window closes. -/
def deleted (j : JobId) : Run :=
  event .requestDelete ++ .arrive 0 (.execute j) :: run 0 19 ++ event (.pass 8) ++ event (.create .purgeProject)

theorem allowed_watch (g : Config Worker Jobs (Op StepName Act Change) (Reply JobType StepName fun a => Option (Answer a)))
    (m : Move Worker (Chance (Outcome × Bool)) (Request Other Change))
    (hm : Protocol.watch (Facts.watched legal fun x s => timely x s.world) g m = true) :
    Protocol.Statements facts.Allowed g m :=
  Protocol.statements_watch (Facts.allowed_watched (fun _ _ h => h) fun _ _ h => h) g m hm

end Examples

end Corebase.StickyDeletion
