import Corebase.JobRunner

namespace Corebase.JobFencing

open Interleaving JobRunner JsText

/-- A running row is claimed only when no worker is at the job. -/
def Fenced (_ : Worker) (op : Op) (s : Store) : Prop :=
  ∀ stale, op = .claim stale → s.job.state = .running → ∀ v, s.executing v = false

/-- No step starts whose name has been saved before. -/
def Fresh : List Event → Prop
  | [] => True
  | e :: past => Fresh past ∧ ∀ w name, e = .start w name → ∀ v names, .save v names ∈ past → name ∉ names

/-- The worker still executes its claim, and another one has claimed the job since. -/
def TakenOver (s : Store) (w : Worker) : Prop := s.executing w = true ∧ owner s.history ≠ some w

structure Inv (s : Store) : Prop where
  held : ∀ w, s.executing w = true → owner s.history = some w ∧ s.job.state = .running
  fresh : Fresh s.history
  saved : ∀ w names, .save w names ∈ s.history → ∀ name ∈ names, name ∈ s.job.checkpoint.getD []

structure Guar (w : Worker) (s s' : Store) : Prop where
  others : ∀ v, v ≠ w → s'.executing v = s.executing v
  terminal : s.job.state.terminal = true → s'.job.state = s.job.state
  /-- The checkpoint is left to the worker that is at the job. -/
  checkpoint : ∀ v, v ≠ w → s.executing v = true → s'.job.checkpoint = s.job.checkpoint

def fencing : Discipline Worker Store Op where
  Inv := Inv
  Guar := Guar
  Idle w s := s.executing w = false
  Allowed := Fenced

/-- The worker is at the job, with the checkpoint that it has read or saved last. -/
def Working (w : Worker) (done : List StepName) (s : Store) : Prop :=
  s.executing w = true ∧ s.job.checkpoint.getD [] = done

section Steps

variable {s : Store} {w : Worker} {done : List StepName}

theorem executing_stable (w : Worker) (b : Bool) : fencing.Stable w fun s => s.executing w = b :=
  fun _ hd _ _ _ hG h => (hG.others w (Ne.symm hd)).trans h

theorem working_stable (w : Worker) (done : List StepName) : fencing.Stable w (Working w done) := by
  rintro _ hd _ _ - hG ⟨hw, hdone⟩
  exact ⟨(hG.others w (Ne.symm hd)).trans hw, by rw [hG.checkpoint w (Ne.symm hd) hw]; exact hdone⟩

theorem Inv.single (h : Inv s) {v : Worker} (hv : s.executing v = true) (hw : s.executing w = true) : v = w :=
  Option.some.inj ((h.held v hv).1.symm.trans (h.held w hw).1)

theorem Inv.unheld (h : Inv s) (hw : s.job.state ≠ .running) (v : Worker) : s.executing v = false := by
  by_contra hv
  exact hw (h.held v (by simpa using hv)).2

theorem Guar.refl (w : Worker) (s : Store) : Guar w s s := ⟨fun _ _ => rfl, fun _ => rfl, fun _ _ _ => rfl⟩

/-- A change of the row that keeps its checkpoint, and its state unless it is pending. -/
theorem inv_row (h : Inv s) {s' : Store} (hexec : s'.executing = s.executing) (hpast : s'.history = s.history)
    (hstate : s.job.state ≠ .pending → s'.job.state = s.job.state)
    (hcheckpoint : s'.job.checkpoint = s.job.checkpoint) : Inv s' ∧ Guar w s s' := by
  refine ⟨⟨fun v hv => ?_, ?_, ?_⟩, ⟨fun _ _ => by rw [hexec], fun ht => hstate ?_, fun _ _ _ => hcheckpoint⟩⟩
  · rw [hexec] at hv
    obtain ⟨hown, hrun⟩ := h.held v hv
    refine ⟨hpast ▸ hown, (hstate ?_).trans hrun⟩
    rw [hrun]
    exact nofun
  · rw [hpast]
    exact h.fresh
  · rw [hpast, hcheckpoint]
    exact h.saved
  · rintro hp
    rw [hp] at ht
    cases ht

theorem inv_leave (h : Inv s) : Inv (s.leave w) ∧ Guar w s (s.leave w) ∧ (s.leave w).executing w = false := by
  have hheld : ∀ v, (s.leave w).executing v = true → s.executing v = true := by
    intro v hv
    by_cases hvw : v = w
    · rw [hvw, leave_self] at hv
      cases hv
    · rwa [leave_other s w v hvw] at hv
  exact ⟨⟨fun v hv => h.held v (hheld v hv), h.fresh, h.saved⟩,
    ⟨fun v hv => leave_other s w v hv, fun _ => rfl, fun _ _ _ => rfl⟩, leave_self s w⟩

/-- The worker at the job writes its last state. -/
theorem inv_end (h : Inv s) (hw : s.executing w = true) {s' : Store} (hexec : s'.executing = (s.leave w).executing)
    (hpast : s'.history = s.history ∨ s'.history = .deadLetter w :: s.history)
    (hcheckpoint : s'.job.checkpoint = s.job.checkpoint) :
    Inv s' ∧ Guar w s s' ∧ s'.executing w = false := by
  have hgone : ∀ v, s'.executing v = false := by
    intro v
    rw [hexec]
    by_cases hv : v = w
    · rw [hv, leave_self]
    · rw [leave_other s w v hv]
      by_contra hv'
      exact hv (h.single (by simpa using hv') hw)
  refine ⟨⟨fun v hv => ?_, ?_, ?_⟩, ⟨fun v hv => ?_, fun ht => ?_, fun _ _ _ => hcheckpoint⟩, hgone w⟩
  · rw [hgone v] at hv
    cases hv
  · rcases hpast with hpast | hpast <;> rw [hpast]
    · exact h.fresh
    · exact ⟨h.fresh, nofun⟩
  · rw [hcheckpoint]
    rcases hpast with hpast | hpast <;> rw [hpast]
    · exact h.saved
    · exact fun v names hmem => h.saved v names ((List.mem_cons.mp hmem).resolve_left nofun)
  · rw [hexec, leave_other s w v hv]
  · rw [(h.held w hw).2] at ht
    cases ht

theorem inv_claim (h : Inv s) {stale : Time} (hfenced : Fenced w (.claim stale) s)
    (hclaim : s.job.claimable s.now stale = true) : Inv (s.claim w) ∧ Guar w s (s.claim w) := by
  have hfree : ∀ v, s.executing v = false := by
    intro v
    by_cases hrun : s.job.state = .running
    · exact hfenced stale rfl hrun v
    · exact h.unheld hrun v
  refine ⟨⟨fun v hv => ?_, ⟨h.fresh, nofun⟩, fun v names hmem => ?_⟩, ⟨fun v hv => ?_, fun ht => ?_, fun _ _ _ => rfl⟩⟩
  · by_cases hvw : v = w
    · rw [hvw]
      exact ⟨rfl, rfl⟩
    · rw [claim_other s w v hvw, hfree v] at hv
      cases hv
  · exact h.saved v names ((List.mem_cons.mp hmem).resolve_left nofun)
  · exact claim_other s w v hv
  · cases hstate : s.job.state <;> simp [JobRecord.claimable, JobState.terminal, hstate] at hclaim ht

theorem inv_log (h : Inv s) {e : Event} (howner : owner (e :: s.history) = owner s.history)
    (hfresh : ∀ v name, e = .start v name → name ∉ s.job.checkpoint.getD [])
    (hsaved : ∀ v names, e ≠ .save v names) : Inv (s.log e) ∧ Guar w s (s.log e) := by
  refine ⟨⟨fun v hv => ?_, ⟨h.fresh, fun v name he u names hmem hname => ?_⟩, fun v names hmem => ?_⟩, ?_⟩
  · obtain ⟨hown, hstate⟩ := h.held v hv
    exact ⟨howner.trans hown, hstate⟩
  · exact hfresh v name he (h.saved u names hmem name hname)
  · exact h.saved v names ((List.mem_cons.mp hmem).resolve_left fun he => hsaved v names he.symm)
  · exact ⟨fun _ _ => rfl, fun _ => rfl, fun _ _ _ => rfl⟩

theorem inv_save (h : Inv s) (hw : Working w done s) (name : StepName) :
    Inv (s.saveCheckpoint w (done ++ [name])) ∧ Guar w s (s.saveCheckpoint w (done ++ [name])) := by
  refine ⟨⟨fun v hv => h.held v hv, ⟨h.fresh, nofun⟩, fun v names hmem x hx => ?_⟩,
    ⟨fun _ _ => rfl, fun _ => rfl, fun v hv hexec => absurd (h.single hexec hw.1) hv⟩⟩
  change x ∈ done ++ [name]
  rcases List.mem_cons.mp hmem with he | hmem
  · cases he
    exact hx
  · exact List.mem_append_left _ (hw.2 ▸ h.saved v names hmem x hx)

end Steps

section Programs

variable (opts : Options) (w : Worker)

theorem meets_done : fencing.Meets (workers opts) w .done fun s => s.executing w = false := fun _ _ => id

/-- However the statement of a failure ends, the worker is no longer at the job. -/
theorem inv_fail {s s' : Store} {outcome : Outcome} {error : Text} {r : Reply (.fail error)} (hI : Inv s)
    (hw : s.executing w = true) (hexec : (workers opts).exec w outcome (.fail error) s = some (r, s')) :
    Inv s' ∧ Guar w s s' ∧ s'.executing w = false := by
  cases outcome with
  | ok =>
      cases hexec
      exact inv_end hI hw (fail_executing s w error) (fail_history s w error) (by rw [fail_job]; rfl)
  | error message =>
      cases hexec
      exact inv_leave hI

theorem meets_caught (error : Text) :
    fencing.Meets (workers opts) w (caught error) fun s => s.executing w = true := by
  intro s outcome r s' hI hw _ hexec
  obtain ⟨hinv, hguar, hgone⟩ := inv_fail opts w hI hw hexec
  refine ⟨hinv, hguar, _, executing_stable w false, hgone, ?_⟩
  match r with
  | .error _ => exact meets_done opts w
  | .ok false => exact meets_done opts w
  | .ok true =>
      intro s outcome r s' hI hw _ hexec
      obtain rfl := exec_onDeadLetter hexec
      obtain ⟨hinv, hguar⟩ := inv_log (w := w) (e := .hook w) hI rfl nofun nofun
      exact ⟨hinv, hguar, _, executing_stable w false, hw, meets_done opts w⟩

theorem meets_runSteps (steps done : List StepName) :
    fencing.Meets (workers opts) w (runSteps steps done) (Working w done) := by
  induction steps generalizing done with
  | nil =>
      intro s outcome r s' hI hw _ hexec
      cases outcome with
      | ok =>
          cases hexec
          obtain ⟨hinv, hguar, hgone⟩ := inv_end hI hw.1 (show (s.succeed w).executing = _ from rfl) (.inl rfl) rfl
          exact ⟨hinv, hguar, _, executing_stable w false, hgone, meets_done opts w⟩
      | error message =>
          cases hexec
          exact ⟨hI, .refl w s, _, executing_stable w true, hw.1, meets_caught opts w message⟩
  | cons name steps ih =>
      unfold runSteps
      split
      · exact ih done
      next hname =>
        intro s outcome r s' hI hw _ hexec
        obtain rfl := exec_start hexec
        obtain ⟨hinv, hguar⟩ := inv_log (w := w) (e := .start w name) hI rfl
          (fun v x he => by cases he; rwa [hw.2]) nofun
        refine ⟨hinv, hguar, _, working_stable w done, hw, ?_⟩
        intro s outcome r s' hI hw _ hexec
        cases outcome with
        | error message =>
            cases hexec
            exact ⟨hI, .refl w s, _, executing_stable w true, hw.1, meets_caught opts w message⟩
        | ok =>
            cases hexec
            obtain ⟨hinv, hguar⟩ := inv_log (w := w) hI (e := .complete w name) rfl nofun nofun
            refine ⟨hinv, hguar, _, working_stable w done, hw, ?_⟩
            intro s outcome r s' hI hw _ hexec
            cases outcome with
            | error message =>
                cases hexec
                exact ⟨hI, .refl w s, _, executing_stable w true, hw.1, meets_caught opts w message⟩
            | ok =>
                cases hexec
                obtain ⟨hinv, hguar⟩ := inv_save hI hw name
                exact ⟨hinv, hguar, _, working_stable w _, ⟨hw.1, rfl⟩, ih (done ++ [name])⟩

theorem meets_execute : fencing.Meets (workers opts) w (execute opts.sagas opts.staleAfterMs)
    fun s => s.executing w = false := by
  intro s outcome r s' hI hw _ hexec
  obtain ⟨hr, rfl⟩ := exec_byIdempotencyKey hexec
  refine ⟨hI, .refl w _, _, executing_stable w false, hw, ?_⟩
  rcases hr with rfl | rfl
  · exact meets_done opts w
  dsimp only
  split
  · exact meets_done opts w
  intro s outcome r s' hI hw hfenced hexec
  rcases exec_claim hexec with ⟨rfl, rfl⟩ | ⟨hclaim, rfl, rfl⟩
  · exact ⟨hI, .refl w _, _, executing_stable w false, hw, meets_done opts w⟩
  obtain ⟨hinv, hguar⟩ := inv_claim hI hfenced hclaim
  refine ⟨hinv, hguar, _, working_stable w (s.job.checkpoint.getD []), ⟨claim_self s w, rfl⟩, ?_⟩
  dsimp only
  split
  · intro s outcome r s' hI hw _ hexec
    obtain ⟨hinv, hguar, hgone⟩ := inv_fail opts w hI hw.1 hexec
    exact ⟨hinv, hguar, _, executing_stable w false, hgone, meets_done opts w⟩
  · exact meets_runSteps opts w _ _

/-- A statement that is none of a worker at the job. -/
theorem meets_row {op : Op} {next : Reply op → Program Op Reply}
    (hrow : ∀ s outcome r s', exec w outcome op s = some (r, s') → s'.executing = s.executing ∧
      s'.history = s.history ∧ (s.job.state ≠ .pending → s'.job.state = s.job.state) ∧
      s'.job.checkpoint = s.job.checkpoint)
    (hnext : ∀ r, fencing.Meets (workers opts) w (next r) fun s => s.executing w = false) :
    fencing.Meets (workers opts) w (.step op next) fun s => s.executing w = false := by
  intro s outcome r s' hI hw _ hexec
  obtain ⟨he, hpast, hstate, hcheckpoint⟩ := hrow s outcome r s' hexec
  obtain ⟨hinv, hguar⟩ := inv_row (w := w) hI he hpast hstate hcheckpoint
  exact ⟨hinv, hguar, _, executing_stable w false, by rw [he]; exact hw, hnext r⟩

theorem meets_markEnqueued : fencing.Meets (workers opts) w (.step .markEnqueued fun _ => .done)
    fun s => s.executing w = false := by
  refine meets_row opts w (fun s outcome r s' hexec => ?_) fun _ => meets_done opts w
  cases outcome with
  | error message =>
      cases hexec
      exact ⟨rfl, rfl, fun _ => rfl, rfl⟩
  | ok =>
      cases hexec
      exact ⟨rfl, rfl, fun hp => congrArg JobRecord.state (markEnqueued_of_ne hp), markEnqueued_checkpoint s.job⟩

theorem meets_sweep : fencing.Meets (workers opts) w (sweepOnce opts.sweepAfterMs)
    fun s => s.executing w = false := by
  apply meets_row
  · intro s outcome r s' hexec
    cases outcome <;> cases hexec <;> exact ⟨rfl, rfl, fun _ => rfl, rfl⟩
  rintro (_ | _)
  · exact meets_done opts w
  apply meets_row
  · intro s outcome r s' hexec
    cases outcome <;> cases hexec <;> exact ⟨rfl, rfl, fun _ => rfl, rfl⟩
  rintro (_ | _)
  · exact meets_done opts w
  · exact meets_markEnqueued opts w

theorem sound : fencing.Sound (workers opts) where
  idle w := executing_stable w false
  abort w s hI _ := inv_leave hI
  program w q := by
    cases q with
    | execute => exact meets_execute opts w
    | sweep => exact meets_sweep opts w
    | markEnqueued => exact meets_markEnqueued opts w
    | heartbeat | tick ms =>
        apply meets_row
        · intro s outcome r s' hexec
          cases outcome <;> cases hexec <;> exact ⟨rfl, rfl, fun _ => rfl, rfl⟩
        · exact fun _ => meets_done opts w

end Programs

variable {opts : Options} {job : JobRecord} {now : Time} {g g' : Config Worker Store Op Reply}
  {m : Move Worker Outcome Request}

theorem inv_initial (job : JobRecord) (now : Time) : Inv (initial job now) := ⟨nofun, trivial, nofun⟩

theorem holds_reachable (h : (workers opts).Reachable (Protocol.Statements Fenced) (initial job now) g) :
    fencing.Holds (workers opts) g :=
  (sound opts).reachable (Discipline.grants_statements fun _ _ => trivial) (inv_initial job now) (fun _ => rfl) h

section Examples

def oneStep : Options := ⟨fun _ => some ["a".toList], 30000, 90000⟩

def finished : JobRecord := { created [] 5 0 with state := .succeeded }

/-- The state after a delivery of a job that has succeeded. -/
def delivered : Config Worker Store Op Reply :=
  ⟨initial finished 0, Function.update (fun _ => .done) 1 ((workers oneStep).program .execute)⟩

end Examples

end Corebase.JobFencing
