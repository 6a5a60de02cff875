import Corebase.JobFencing

namespace Corebase.JobAttempts

open Interleaving JobRunner JobFencing JsText

/-- How often the job has been executed. -/
def executions : List Event → Nat
  | [] => 0
  | .claim _ :: past => executions past + 1
  | _ :: past => executions past

/-- The worker has sent the job to dead_letter, and not called the hook since. -/
def owes (w : Worker) : List Event → Bool
  | [] => false
  | .deadLetter v :: past => v = w || owes w past
  | .hook v :: past => v ≠ w && owes w past
  | _ :: past => owes w past

/-- A running row is claimed only while it has attempts left. -/
def Unspent (_ : Worker) (op : Op) (s : Store) : Prop :=
  ∀ stale, op = .claim stale → s.job.state = .running → s.job.attempts < s.job.maxAttempts

/-- The worker is not between the failure that was the last one and the hook. -/
def Settled (w : Worker) (s : Store) : Prop := owes w s.history = false

structure Inv (maxAttempts : Nat) (s : Store) : Prop where
  max : s.job.maxAttempts = maxAttempts
  executions : executions s.history = s.job.attempts
  bounded : s.job.attempts ≤ maxAttempts
  waiting : s.job.state = .pending ∨ s.job.state = .enqueued → s.job.attempts < maxAttempts

/-- The row does not get to dead_letter without a trace. -/
def Traced (w : Worker) (s s' : Store) : Prop :=
  s.job.state ≠ .deadLetter → s'.job.state = .deadLetter → s'.history = .deadLetter w :: s.history

def counting (maxAttempts : Nat) : Discipline Worker Store Op where
  Inv := Inv maxAttempts
  Guar := Traced
  Idle _ _ := True
  Allowed := Unspent

def hooks (jobType : Text) : Discipline Worker Store Op where
  Inv s := s.job.jobType = jobType
  Guar w s s' := ∀ v, v ≠ w → owes v s'.history = owes v s.history
  Idle := Settled
  Allowed _ _ _ := True
  Mortal := Settled

section Counting

variable {maxAttempts : Nat} {opts : Options} {s s' : Store} {w : Worker}

theorem inv_claim (h : Inv maxAttempts s) {stale : Time} (hunspent : Unspent w (.claim stale) s)
    (hclaim : s.job.claimable s.now stale = true) : Inv maxAttempts (s.claim w) := by
  have hleft : s.job.attempts < maxAttempts := by
    by_cases hrun : s.job.state = .running
    · exact h.max ▸ hunspent stale rfl hrun
    · refine h.waiting ?_
      cases hstate : s.job.state <;> simp [JobRecord.claimable, hstate] at hclaim hrun ⊢
  refine ⟨h.max, congrArg (· + 1) h.executions, hleft, ?_⟩
  intro hrunning
  rcases hrunning with h | h <;> cases h

/-- A change that leaves the attempts and gives the job up for execution only while some are left. -/
theorem inv_quiet (h : Inv maxAttempts s) (hmax : s'.job.maxAttempts = s.job.maxAttempts)
    (hattempts : s'.job.attempts = s.job.attempts) (hpast : executions s'.history = executions s.history)
    (hstate : s'.job.state = .pending ∨ s'.job.state = .enqueued →
      s.job.state = .pending ∨ s.job.state = .enqueued ∨ s.job.exhausted = false) : Inv maxAttempts s' := by
  refine ⟨hmax.trans h.max, ?_, hattempts ▸ h.bounded, fun hs => ?_⟩
  · rw [hpast, hattempts]
    exact h.executions
  · rw [hattempts]
    rcases hstate hs with hp | he | hleft
    · exact h.waiting (.inl hp)
    · exact h.waiting (.inr he)
    · have := h.max
      simp only [JobRecord.exhausted, decide_eq_false_iff_not] at hleft
      omega

theorem inv_fail (h : Inv maxAttempts s) (e : Text) : Inv maxAttempts (s.fail w e) := by
  refine inv_quiet h ?_ ?_ ?_ fun hs => ?_
  · rw [fail_job]
    rfl
  · rw [fail_job]
    rfl
  · rcases fail_history s w e with hpast | hpast <;> rw [hpast]
    rfl
  · rw [fail_job] at hs
    cases hleft : s.job.exhausted with
    | false => exact .inr (.inr rfl)
    | true => simp [JobRecord.fail, hleft] at hs

theorem inv_markEnqueued (h : Inv maxAttempts s) : Inv maxAttempts (s.withJob s.job.markEnqueued) := by
  by_cases hp : s.job.state = .pending
  · rw [JobRecord.markEnqueued, if_pos hp]
    exact inv_quiet h rfl rfl rfl fun _ => .inl hp
  · rw [markEnqueued_of_ne hp]
    exact inv_quiet h rfl rfl rfl fun hs => hs.imp_right .inl

theorem inv_exec (h : Inv maxAttempts s) {outcome : Outcome} {op : Op} {r : Reply op} (hunspent : Unspent w op s)
    (hexec : exec w outcome op s = some (r, s')) : Inv maxAttempts s' := by
  have hrow : ∀ {s'' : Store}, s''.job.state = s.job.state → s''.job.attempts = s.job.attempts →
      s''.job.maxAttempts = s.job.maxAttempts → executions s''.history = executions s.history →
      Inv maxAttempts s'' := by
    intro s'' hstate hattempts hmax hpast
    refine inv_quiet h hmax hattempts hpast fun hs => ?_
    rw [hstate] at hs
    exact hs.imp_right .inl
  cases op with
  | byIdempotencyKey | start | finish | onDeadLetter | findOrphans | enqueueRecovery | tick | saveCheckpoint
  | heartbeat => cases outcome <;> cases hexec <;> exact hrow rfl rfl rfl rfl
  | claim stale =>
      rcases exec_claim hexec with ⟨-, rfl⟩ | ⟨hclaim, -, rfl⟩
      · exact h
      · exact inv_claim h hunspent hclaim
  | succeed =>
      cases outcome <;> cases hexec
      · exact inv_quiet h rfl rfl rfl nofun
      · exact h
  | markEnqueued =>
      cases outcome <;> cases hexec
      · exact inv_markEnqueued h
      · exact h
  | fail e =>
      cases outcome <;> cases hexec
      · exact inv_fail h e
      · exact hrow rfl rfl rfl rfl

/-- Only a failure takes the row to dead_letter. -/
theorem traced_exec {outcome : Outcome} {op : Op} {r : Reply op} (hexec : exec w outcome op s = some (r, s')) :
    Traced w s s' := by
  intro hne hdead
  cases op with
  | byIdempotencyKey | start | finish | onDeadLetter | findOrphans | enqueueRecovery | tick | saveCheckpoint
  | heartbeat => cases outcome <;> cases hexec <;> exact absurd hdead hne
  | claim stale =>
      rcases exec_claim hexec with ⟨-, rfl⟩ | ⟨-, -, rfl⟩
      · exact absurd hdead hne
      · cases hdead
  | succeed =>
      cases outcome <;> cases hexec
      · cases hdead
      · exact absurd hdead hne
  | markEnqueued =>
      cases outcome <;> cases hexec
      · by_cases hp : s.job.state = .pending
        · rw [JobRecord.markEnqueued, if_pos hp] at hdead
          cases hdead
        · rw [markEnqueued_of_ne hp] at hdead
          exact absurd hdead hne
      · exact absurd hdead hne
  | fail e =>
      cases outcome <;> cases hexec
      · rw [fail_job] at hdead
        have hspent : s.job.exhausted = true := by
          by_contra hleft
          simp [JobRecord.fail, hleft] at hdead
        exact congrArg Store.history (if_pos (by simp [hspent, hne]))
      · exact absurd hdead hne

theorem counting_sound (maxAttempts : Nat) (opts : Options) : (counting maxAttempts).Sound (workers opts) where
  idle _ := Discipline.stable_true
  abort _ _ hI _ := ⟨inv_quiet hI rfl rfl rfl fun hs => hs.imp_right .inl, fun hne hd => absurd hd hne, trivial⟩
  program _ _ := Discipline.Meets.of_statements (fun _ _ => trivial)
    (fun _ _ _ _ _ hI hunspent hexec => ⟨inv_exec hI hunspent hexec, traced_exec hexec⟩) _ _

end Counting

section Hooks

variable {jobType : Text} {steps : List StepName} (opts : Options) (w : Worker)

theorem settled_stable : (hooks jobType).Stable w (Settled w) :=
  fun _ hd _ _ _ hG h => (hG w (Ne.symm hd)).trans h

theorem meets_done : (hooks jobType).Meets (workers opts) w .done (Settled w) := fun _ _ => id

/-- A statement that neither sends the job to dead_letter nor calls the hook. -/
theorem meets_quiet {op : Op} {next : Reply op → Program Op Reply}
    (hquiet : ∀ s outcome r s', exec w outcome op s = some (r, s') →
      (s'.history = s.history ∨ ∃ e, s'.history = e :: s.history ∧ ∀ v past, owes v (e :: past) = owes v past) ∧
      s'.job.jobType = s.job.jobType)
    (hnext : ∀ r, (hooks jobType).Meets (workers opts) w (next r) (Settled w)) :
    (hooks jobType).Meets (workers opts) w (.step op next) (Settled w) := by
  intro s outcome r s' hI hQ _ hexec
  obtain ⟨hpast, htype⟩ := hquiet s outcome r s' hexec
  have howes : ∀ v, owes v s'.history = owes v s.history := by
    intro v
    rcases hpast with hpast | ⟨e, hpast, he⟩ <;> rw [hpast]
    exact he v _
  exact ⟨htype.trans hI, fun v _ => howes v, _, settled_stable w, (howes w).trans hQ, hnext r⟩

theorem meets_caught (error : Text) : (hooks jobType).Meets (workers opts) w (caught error) (Settled w) := by
  intro s outcome r s' hI hQ _ hexec
  cases outcome with
  | error message =>
      cases hexec
      exact ⟨hI, fun _ _ => rfl, _, settled_stable w, hQ, meets_done opts w⟩
  | ok =>
      cases hexec
      have hI' : (s.fail w error).job.jobType = jobType := by
        rw [fail_job]
        exact hI
      have hother : ∀ v, v ≠ w → owes v (s.fail w error).history = owes v s.history := by
        intro v hv
        rcases fail_history s w error with hpast | hpast <;> rw [hpast]
        simp [owes, Ne.symm hv]
      refine ⟨hI', hother, ?_⟩
      cases hspent : s.job.exhausted with
      | false =>
          refine ⟨_, settled_stable w, ?_, meets_done opts w⟩
          rw [Settled, Store.fail, hspent]
          exact hQ
      | true =>
          refine ⟨_, Discipline.stable_true, trivial, ?_⟩
          intro s outcome r s' hI _ _ hexec
          obtain rfl := exec_onDeadLetter hexec
          have hthere : ∀ v, v ≠ w → owes v (s.log (.hook w)).history = owes v s.history := by
            intro v hv
            simp [Store.log, owes, Ne.symm hv]
          refine ⟨hI, hthere, _, settled_stable w, ?_, meets_done opts w⟩
          simp [Settled, Store.log, owes]

theorem meets_runSteps (steps done : List StepName) :
    (hooks jobType).Meets (workers opts) w (runSteps steps done) (Settled w) := by
  induction steps generalizing done with
  | nil =>
      apply meets_quiet
      · intro s outcome r s' hexec
        cases outcome <;> cases hexec <;> exact ⟨.inl rfl, rfl⟩
      rintro (e | _)
      · exact meets_caught opts w e
      · exact meets_done opts w
  | cons name steps ih =>
      unfold runSteps
      split
      · exact ih done
      apply meets_quiet
      · intro s outcome r s' hexec
        obtain rfl := exec_start hexec
        exact ⟨.inr ⟨.start w name, rfl, fun _ _ => rfl⟩, rfl⟩
      intro _
      apply meets_quiet
      · intro s outcome r s' hexec
        cases outcome <;> cases hexec
        · exact ⟨.inr ⟨.complete w name, rfl, fun _ _ => rfl⟩, rfl⟩
        · exact ⟨.inl rfl, rfl⟩
      rintro (e | _)
      · exact meets_caught opts w e
      apply meets_quiet
      · intro s outcome r s' hexec
        cases outcome <;> cases hexec
        · exact ⟨.inr ⟨.save w _, rfl, fun _ _ => rfl⟩, rfl⟩
        · exact ⟨.inl rfl, rfl⟩
      rintro (e | _)
      · exact meets_caught opts w e
      · exact ih (done ++ [name])

theorem meets_execute (hs : opts.sagas jobType = some steps) :
    (hooks jobType).Meets (workers opts) w (execute opts.sagas opts.staleAfterMs) (Settled w) := by
  intro s outcome r s' hI hQ _ hexec
  obtain ⟨hr, rfl⟩ := exec_byIdempotencyKey hexec
  refine ⟨hI, fun _ _ => rfl, _, settled_stable w, hQ, ?_⟩
  rcases hr with rfl | rfl
  · exact meets_done opts w
  dsimp only
  split
  · exact meets_done opts w
  intro s outcome r s' hI hQ _ hexec
  rcases exec_claim hexec with ⟨rfl, rfl⟩ | ⟨-, rfl, rfl⟩
  · exact ⟨hI, fun _ _ => rfl, _, settled_stable w, hQ, meets_done opts w⟩
  refine ⟨hI, fun _ _ => rfl, _, settled_stable w, hQ, ?_⟩
  have htype : (s.job.claim s.now).jobType = jobType := hI
  simp only [htype, hs]
  exact meets_runSteps opts w _ _

theorem meets_row {op : Op} {next : Reply op → Program Op Reply}
    (hrow : ∀ s outcome r s', exec w outcome op s = some (r, s') → s'.history = s.history ∧
      s'.job.jobType = s.job.jobType)
    (hnext : ∀ r, (hooks jobType).Meets (workers opts) w (next r) (Settled w)) :
    (hooks jobType).Meets (workers opts) w (.step op next) (Settled w) :=
  meets_quiet opts w (fun s outcome r s' hexec => (hrow s outcome r s' hexec).imp_left .inl) hnext

theorem meets_markEnqueued :
    (hooks jobType).Meets (workers opts) w (.step .markEnqueued fun _ => .done) (Settled w) := by
  apply meets_row
  · intro s outcome r s' hexec
    cases outcome <;> cases hexec
    · exact ⟨rfl, (apply_ite JobRecord.jobType _ _ _).trans (ite_self _)⟩
    · exact ⟨rfl, rfl⟩
  · exact fun _ => meets_done opts w

theorem hooks_sound (hs : opts.sagas jobType = some steps) : (hooks jobType).Sound (workers opts) where
  idle := settled_stable
  abort _ _ hI hsettled := ⟨hI, fun _ _ => rfl, hsettled⟩
  program w q := by
    cases q with
    | execute => exact meets_execute opts w hs
    | markEnqueued => exact meets_markEnqueued opts w
    | heartbeat | tick ms =>
        apply meets_row
        · intro s outcome r s' hexec
          cases outcome <;> cases hexec <;> exact ⟨rfl, rfl⟩
        · exact fun _ => meets_done opts w
    | sweep =>
        apply meets_row
        · intro s outcome r s' hexec
          cases outcome <;> cases hexec <;> exact ⟨rfl, rfl⟩
        rintro (_ | _)
        · exact meets_done opts w
        apply meets_row
        · intro s outcome r s' hexec
          cases outcome <;> cases hexec <;> exact ⟨rfl, rfl⟩
        rintro (_ | _)
        · exact meets_done opts w
        · exact meets_markEnqueued opts w

end Hooks

/-- A running row is claimed only while it has attempts left, and no worker dies between the last
failure and the hook. -/
def Orderly (g : Config Worker Store Op Reply) (m : Move Worker Outcome Request) : Prop :=
  Protocol.Statements Unspent g m ∧ Protocol.Deaths Settled g m

theorem inv_created {maxAttempts : Nat} (hmax : 0 < maxAttempts) (jobType : Text) (now : Time) :
    Inv maxAttempts (initial (created jobType maxAttempts now) now) :=
  ⟨rfl, rfl, Nat.zero_le _, fun _ => hmax⟩

/-- A job is executed at most as often as it may be, and a worker that is through with a job it has
sent to dead_letter has called the hook. -/
theorem attempts_bounded {opts : Options} {jobType : Text} {steps : List StepName} {maxAttempts : Nat} {now : Time}
    {g : Config Worker Store Op Reply} (hmax : 0 < maxAttempts) (hs : opts.sagas jobType = some steps)
    (h : (workers opts).Reachable Orderly (initial (created jobType maxAttempts now) now) g) :
    executions g.store.history ≤ maxAttempts ∧
      (∀ m g', Orderly g m → (workers opts).move g m = some g' → g.store.job.state ≠ .deadLetter →
        g'.store.job.state = .deadLetter → ∃ w, g'.store.history = .deadLetter w :: g.store.history) ∧
      ∀ w, g.running w = .done → owes w g.store.history = false := by
  have hcount : (counting maxAttempts).Grants Orderly :=
    ⟨fun _ c choice op next hr hok => hok.1 c choice op next rfl hr, fun _ _ _ => trivial⟩
  have hhook : (hooks jobType).Grants Orderly := ⟨fun _ _ _ _ _ _ _ => trivial, fun _ c hok => hok.2 c rfl⟩
  have hcounts := (counting_sound maxAttempts opts).reachable hcount (inv_created hmax jobType now) (fun _ => trivial) h
  have hhooks := (hooks_sound opts hs).reachable hhook (show _ = jobType from rfl) (fun _ => show _ = false from rfl) h
  refine ⟨hcounts.1.executions ▸ hcounts.1.bounded, fun m g' hm hg hne hdead => ?_, fun w hw => ?_⟩
  · rcases (hcounts.move (counting_sound maxAttempts opts) hcount hm hg).2 with hst | ⟨w, htraced⟩
    · rw [hst] at hdead
      exact absurd hdead hne
    · exact ⟨w, htraced hne hdead⟩
  · obtain ⟨Q, -, hQ, hmeets⟩ := hhooks.2 w
    rw [hw] at hmeets
    exact hmeets _ hhooks.1 hQ

section Examples

/-- No worker dies, and no running row is claimed. -/
def calm (g : Config Worker Store Op Reply) : Move Worker Outcome Request → Bool
  | .arrive _ _ => true
  | .crash _ => false
  | .run w _ => match g.running w with
    | .step (.claim _) _ => g.store.job.state ≠ .running
    | _ => true

theorem orderly_calm (g : Config Worker Store Op Reply) (m : Move Worker Outcome Request) (h : calm g m = true) :
    Orderly g m := by
  refine ⟨?_, ?_⟩
  · rintro w outcome op next rfl hr stale rfl hrun
    simp [calm, hr, hrun] at h
  · rintro w rfl
    cases h

/-- The last attempt fails in its first step. -/
theorem attempts_bounded_spent : ∃ g, (workers oneStep).Reachable Orderly (initial (created [] 1 0) 0) g ∧
    g.store.job.state = .deadLetter ∧ executions g.store.history ≤ 1 ∧ owes 1 g.store.history = false := by
  have h := Protocol.Reachable.start.replay (P := workers oneStep) (s := initial (created [] 1 0) 0) orderly_calm
    [.arrive 1 .execute, .run 1 .ok, .run 1 .ok, .run 1 .ok, .run 1 (.error []), .run 1 .ok, .run 1 .ok] rfl
  obtain ⟨hbound, -, howes⟩ := attempts_bounded (by decide) rfl h
  exact ⟨_, h, rfl, hbound, howes 1 rfl⟩

def noSagas : Options := ⟨fun _ => none, 30000, 90000⟩

/-- A worker dies in a job that may be executed once, and the next one executes it again. A job
without a saga gets to dead_letter, and no one calls the hook. -/
theorem not_attempts_bounded :
    (∃ g, (workers oneStep).Reachable (fun _ _ => True) (initial (created [] 1 0) 0) g ∧
      executions g.store.history = 2) ∧
    ∃ g, (workers noSagas).Reachable (fun _ _ => True) (initial (created [] 1 0) 0) g ∧
      g.store.job.state = .deadLetter ∧ g.running 1 = .done ∧ owes 1 g.store.history = true :=
  ⟨⟨_, Protocol.Reachable.start.free
      [.arrive 1 .execute, .run 1 .ok, .run 1 .ok, .crash 1, .arrive 3 (.tick 30001), .run 3 .ok,
        .arrive 2 .execute, .run 2 .ok, .run 2 .ok] rfl, rfl⟩,
    _, Protocol.Reachable.start.free
      [.arrive 1 .execute, .run 1 .ok, .run 1 .ok, .run 1 .ok] rfl, rfl, rfl, rfl⟩

end Examples

end Corebase.JobAttempts
