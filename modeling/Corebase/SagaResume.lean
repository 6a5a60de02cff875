import Corebase.JobFencing

namespace Corebase.SagaResume

open Interleaving JobRunner JobFencing

def Completed (name : StepName) (past : List Event) : Prop := ∃ w, .complete w name ∈ past

/-- Each step starts after every earlier one of the saga has completed. -/
def Ordered (saga : List StepName) : List Event → Prop
  | [] => True
  | e :: past => Ordered saga past ∧
      ∀ w name, e = .start w name → ∀ prev ∈ saga.takeWhile (· ≠ name), Completed prev past

/-- The steps that have completed, each at its first time, the oldest first. -/
def firsts : List Event → List StepName
  | [] => []
  | .complete _ name :: past => if name ∈ firsts past then firsts past else firsts past ++ [name]
  | _ :: past => firsts past

section Lists

variable {α : Type} {pre rest l : List α} {a : α}

theorem prefix_eq (hnodup : (pre ++ a :: rest).Nodup) (hl : l <+: pre ++ a :: rest) (hall : ∀ x ∈ pre, x ∈ l)
    (ha : a ∉ l) : l = pre := by
  obtain ⟨hpre, -, hdisj⟩ := List.nodup_append.mp hnodup
  rcases List.prefix_or_prefix_of_prefix hl (List.prefix_append pre (a :: rest)) with ⟨t, rfl⟩ | ⟨t, rfl⟩
  · cases t with
    | nil => simp
    | cons y t =>
        have hy : y ∈ l := hall y (by simp)
        exact absurd rfl ((List.nodup_append.mp hpre).2.2 y hy y (by simp))
  · cases t with
    | nil => simp
    | cons y t =>
        have hhead := (List.prefix_append_right_inj pre).mp hl
        obtain rfl : y = a := (List.cons_prefix_cons.mp hhead).1
        exact absurd (by simp) ha

theorem prefix_all (hnodup : pre.Nodup) (hl : l <+: pre) (hall : ∀ x ∈ pre, x ∈ l) : l = pre := by
  obtain ⟨t, rfl⟩ := hl
  cases t with
  | nil => simp
  | cons y t => exact absurd rfl ((List.nodup_append.mp hnodup).2.2 y (hall y (by simp)) y (by simp))

theorem takeWhile_before [DecidableEq α] (hnodup : (pre ++ a :: rest).Nodup) :
    (pre ++ a :: rest).takeWhile (· ≠ a) = pre := by
  rw [List.takeWhile_append_of_pos, List.takeWhile_cons_of_neg (by simp), List.append_nil]
  intro x hx
  have hne : x ≠ a := (List.nodup_append.mp hnodup).2.2 x hx a (by simp)
  simpa using hne

end Lists

theorem firsts_complete (w : Worker) (name : StepName) (past : List Event) : firsts (.complete w name :: past) =
    if name ∈ firsts past then firsts past else firsts past ++ [name] := rfl

theorem mem_firsts {name : StepName} (past : List Event) : name ∈ firsts past ↔ Completed name past := by
  induction past with
  | nil => exact ⟨nofun, nofun⟩
  | cons e past ih =>
      have hcons : Completed name (e :: past) ↔ (∃ w, .complete w name = e) ∨ Completed name past := by
        simp only [Completed, List.mem_cons, exists_or]
      rw [hcons, ← ih]
      cases e with
      | complete w x =>
          rw [firsts_complete]
          split
          · simp only [Event.complete.injEq, exists_and_right]
            constructor
            · exact .inr
            · rintro (⟨-, rfl⟩ | h) <;> assumption
          · simp only [List.mem_append, List.mem_singleton, Event.complete.injEq]
            exact ⟨fun h => h.elim .inr fun h => .inl ⟨w, rfl, h⟩, fun h => h.elim (fun ⟨_, _, h⟩ => .inr h) .inl⟩
      | claim | start | save | deadLetter | hook => simp [firsts]

structure Inv (saga : List StepName) (jobType : JsText.Text) (s : Store) : Prop where
  jobType : s.job.jobType = jobType
  ordered : Ordered saga s.history
  firsts : firsts s.history <+: saga
  checkpoint : s.job.checkpoint.getD [] <+: saga
  saved : ∀ name ∈ s.job.checkpoint.getD [], Completed name s.history
  succeeded : s.job.state = .succeeded → SagaResume.firsts s.history = saga

def order (saga : List StepName) (jobType : JsText.Text) : Discipline Worker Store Op where
  Inv := Inv saga jobType
  Guar _ s s' := ∀ name, Completed name s.history → Completed name s'.history
  Idle _ _ := True
  Allowed _ _ _ := True

def AllCompleted (names : List StepName) (s : Store) : Prop := ∀ name ∈ names, Completed name s.history

section Steps

variable {saga : List StepName} {jobType : JsText.Text} {s s' : Store} {w : Worker}

theorem allCompleted_stable (w : Worker) (names : List StepName) :
    (order saga jobType).Stable w (AllCompleted names) :=
  fun _ _ _ _ _ hG h name hname => hG name (h name hname)

/-- A statement that starts, completes and saves no step. -/
theorem inv_quiet (h : Inv saga jobType s) (hpast : s'.history = s.history ∨ ∃ e, s'.history = e :: s.history ∧
      ∀ v name, e ≠ .start v name ∧ e ≠ .complete v name)
    (htype : s'.job.jobType = s.job.jobType) (hcheckpoint : s'.job.checkpoint = s.job.checkpoint)
    (hstate : s'.job.state = .succeeded → s.job.state = .succeeded) :
    Inv saga jobType s' ∧ ∀ name, Completed name s.history → Completed name s'.history := by
  have hmono : ∀ name, Completed name s.history → Completed name s'.history := by
    rintro name ⟨v, hv⟩
    rcases hpast with hpast | ⟨e, hpast, -⟩ <;> rw [hpast]
    · exact ⟨v, hv⟩
    · exact ⟨v, List.mem_cons_of_mem e hv⟩
  have hfirsts : firsts s'.history = firsts s.history := by
    rcases hpast with hpast | ⟨e, hpast, he⟩ <;> rw [hpast]
    cases e with
    | complete v name => exact absurd rfl (he v name).2
    | claim | start | save | deadLetter | hook => rfl
  refine ⟨⟨htype.trans h.jobType, ?_, ?_, ?_, ?_, ?_⟩, hmono⟩
  · rcases hpast with hpast | ⟨e, hpast, he⟩ <;> rw [hpast]
    · exact h.ordered
    · exact ⟨h.ordered, fun v name hs => absurd hs (he v name).1⟩
  · rw [hfirsts]
    exact h.firsts
  · rw [hcheckpoint]
    exact h.checkpoint
  · rw [hcheckpoint]
    exact fun name hname => hmono name (h.saved name hname)
  · rw [hfirsts]
    exact fun hs => h.succeeded (hstate hs)

theorem inv_start (h : Inv saga jobType s) {name : StepName} (hprev : AllCompleted (saga.takeWhile (· ≠ name)) s) :
    Inv saga jobType (s.log (.start w name)) where
  jobType := h.jobType
  ordered := ⟨h.ordered, fun _ _ he => by cases he; exact hprev⟩
  firsts := h.firsts
  checkpoint := h.checkpoint
  saved x hx := by
    obtain ⟨v, hv⟩ := h.saved x hx
    exact ⟨v, List.mem_cons_of_mem _ hv⟩
  succeeded := h.succeeded

theorem inv_complete (hnodup : saga.Nodup) (h : Inv saga jobType s) {pre rest : List StepName} {name : StepName}
    (hsaga : saga = pre ++ name :: rest) (hprev : AllCompleted pre s) :
    Inv saga jobType (s.log (.complete w name)) ∧ AllCompleted (pre ++ [name]) (s.log (.complete w name)) ∧
      ∀ x, Completed x s.history → Completed x (s.log (.complete w name)).history := by
  have hmono : ∀ x, Completed x s.history → Completed x (s.log (.complete w name)).history := by
    rintro x ⟨v, hv⟩
    exact ⟨v, List.mem_cons_of_mem _ hv⟩
  have hfirsts : firsts (s.log (.complete w name)).history <+: saga ∧
      (firsts s.history = saga → firsts (s.log (.complete w name)).history = saga) := by
    change firsts (.complete w name :: s.history) <+: saga ∧
      (firsts s.history = saga → firsts (.complete w name :: s.history) = saga)
    rw [firsts_complete]
    split
    · exact ⟨h.firsts, id⟩
    next hname =>
      rw [hsaga] at hnodup
      have hpre := prefix_eq hnodup (hsaga ▸ h.firsts) (fun x hx => (mem_firsts _).mpr (hprev x hx)) hname
      rw [hpre, hsaga]
      refine ⟨⟨rest, by simp⟩, fun heq => ?_⟩
      have hlen := congrArg List.length heq
      simp at hlen
  refine ⟨⟨h.jobType, ⟨h.ordered, nofun⟩, hfirsts.1, h.checkpoint, fun x hx => hmono x (h.saved x hx),
    fun hs => hfirsts.2 (h.succeeded hs)⟩, fun x hx => ?_, hmono⟩
  rcases List.mem_append.mp hx with hx | hx
  · exact hmono x (hprev x hx)
  · rw [List.mem_singleton.mp hx]
    exact ⟨w, List.mem_cons_self⟩

theorem inv_save (h : Inv saga jobType s) {done : List StepName} (hdone : done <+: saga)
    (hall : AllCompleted done s) :
    Inv saga jobType (s.saveCheckpoint w done) ∧
      ∀ x, Completed x s.history → Completed x (s.saveCheckpoint w done).history := by
  have hmono : ∀ x, Completed x s.history → Completed x (s.saveCheckpoint w done).history := by
    rintro x ⟨v, hv⟩
    exact ⟨v, List.mem_cons_of_mem _ hv⟩
  exact ⟨⟨h.jobType, ⟨h.ordered, nofun⟩, h.firsts, hdone, fun x hx => hmono x (hall x hx), h.succeeded⟩, hmono⟩

theorem inv_succeed (hnodup : saga.Nodup) (h : Inv saga jobType s) (hall : AllCompleted saga s) :
    Inv saga jobType (s.succeed w) where
  jobType := h.jobType
  ordered := h.ordered
  firsts := h.firsts
  checkpoint := h.checkpoint
  saved := h.saved
  succeeded _ := prefix_all hnodup h.firsts fun x hx => (mem_firsts _).mpr (hall x hx)

end Steps

section Programs

variable {saga : List StepName} {jobType : JsText.Text} (hnodup : saga.Nodup) (opts : Options) (w : Worker)

theorem meets_done (Q : Store → Prop) : (order saga jobType).Meets (workers opts) w .done Q := fun _ _ _ => trivial

/-- A statement after which the rest of the program stands on nothing. -/
theorem meets_quiet {op : Op} {next : Reply op → Program Op Reply} (Q : Store → Prop)
    (hquiet : ∀ s outcome r s', exec w outcome op s = some (r, s') →
      (s'.history = s.history ∨ ∃ e, s'.history = e :: s.history ∧
        ∀ v name, e ≠ .start v name ∧ e ≠ .complete v name) ∧ s'.job.jobType = s.job.jobType ∧
      s'.job.checkpoint = s.job.checkpoint ∧ (s'.job.state = .succeeded → s.job.state = .succeeded))
    (hnext : ∀ r, (order saga jobType).Meets (workers opts) w (next r) fun _ => True) :
    (order saga jobType).Meets (workers opts) w (.step op next) Q := by
  intro s outcome r s' hI _ _ hexec
  obtain ⟨hpast, htype, hcheckpoint, hstate⟩ := hquiet s outcome r s' hexec
  obtain ⟨hinv, hguar⟩ := inv_quiet hI hpast htype hcheckpoint hstate
  exact ⟨hinv, hguar, _, Discipline.stable_true, trivial, hnext r⟩

theorem quiet_fail {s : Store} {outcome : Outcome} {error : JsText.Text} {r : Reply (.fail error)} {s' : Store}
    (hexec : exec w outcome (.fail error) s = some (r, s')) :
    (s'.history = s.history ∨ ∃ e, s'.history = e :: s.history ∧
      ∀ v name, e ≠ .start v name ∧ e ≠ .complete v name) ∧ s'.job.jobType = s.job.jobType ∧
      s'.job.checkpoint = s.job.checkpoint ∧ (s'.job.state = .succeeded → s.job.state = .succeeded) := by
  cases outcome with
  | error message =>
      cases hexec
      exact ⟨.inl rfl, rfl, rfl, id⟩
  | ok =>
      cases hexec
      refine ⟨?_, by rw [fail_job]; rfl, by rw [fail_job]; rfl, fun hs => ?_⟩
      · exact (fail_history s w error).imp_right fun h => ⟨.deadLetter w, h, fun v name => ⟨nofun, nofun⟩⟩
      · rw [fail_job] at hs
        unfold JobRecord.fail at hs
        split at hs <;> cases hs

theorem meets_caught (error : JsText.Text) (Q : Store → Prop) :
    (order saga jobType).Meets (workers opts) w (caught error) Q := by
  apply meets_quiet
  · exact fun s outcome r s' => quiet_fail w
  rintro (_ | _ | _)
  · exact meets_done opts w _
  · exact meets_done opts w _
  · apply meets_quiet
    · intro s outcome r s' hexec
      obtain rfl := exec_onDeadLetter hexec
      exact ⟨.inr ⟨_, rfl, fun v name => ⟨nofun, nofun⟩⟩, rfl, rfl, id⟩
    · exact fun _ => meets_done opts w _

include hnodup in
theorem meets_runSteps (steps done : List StepName) (hdone : done <+: saga) (hsteps : steps <:+ saga)
    (hall : ∀ x ∈ saga, x ∉ steps → x ∈ done) :
    (order saga jobType).Meets (workers opts) w (runSteps steps done) (AllCompleted done) := by
  induction steps generalizing done with
  | nil =>
      intro s outcome r s' hI hQ _ hexec
      cases outcome with
      | ok =>
          cases hexec
          exact ⟨inv_succeed hnodup hI fun x hx => hQ x (hall x hx List.not_mem_nil), fun _ => id, _,
            Discipline.stable_true, trivial, meets_done opts w _⟩
      | error message =>
          cases hexec
          exact ⟨hI, fun _ => id, _, Discipline.stable_true, trivial, meets_caught opts w message _⟩
  | cons name steps ih =>
      obtain ⟨pre, hsaga⟩ := hsteps
      have hnot : (pre ++ name :: steps).Nodup := hsaga ▸ hnodup
      have hrest : steps <:+ saga := ⟨pre ++ [name], by simpa using hsaga⟩
      have hpre : ∀ x ∈ pre, x ∈ done := by
        intro x hx
        refine hall x (hsaga ▸ List.mem_append_left _ hx) fun hmem => ?_
        exact (List.nodup_append.mp hnot).2.2 x hx x hmem rfl
      unfold runSteps
      split
      next hname =>
        refine ih done hdone hrest fun x hx hxs => ?_
        by_cases hxn : x = name
        · exact hxn ▸ hname
        · exact hall x hx (by simp [hxn, hxs])
      next hname =>
        obtain rfl : done = pre := prefix_eq hnot (hsaga ▸ hdone) hpre hname
        intro s outcome r s' hI hQ _ hexec
        obtain rfl := exec_start hexec
        have hbefore : saga.takeWhile (· ≠ name) = done := by
          rw [← hsaga]
          exact takeWhile_before hnot
        have hmono : ∀ x, Completed x s.history → Completed x (s.log (.start w name)).history := by
          rintro x ⟨v, hv⟩
          exact ⟨v, List.mem_cons_of_mem _ hv⟩
        refine ⟨inv_start hI (hbefore ▸ hQ), hmono, _, allCompleted_stable w done, fun x hx => hmono x (hQ x hx), ?_⟩
        intro s outcome r s' hI hQ _ hexec
        cases outcome with
        | error message =>
            cases hexec
            exact ⟨hI, fun _ => id, _, Discipline.stable_true, trivial, meets_caught opts w message _⟩
        | ok =>
            cases hexec
            obtain ⟨hinv, hcompleted, hmono⟩ := inv_complete (w := w) hnodup hI hsaga.symm hQ
            refine ⟨hinv, hmono, _, allCompleted_stable w (done ++ [name]), hcompleted, ?_⟩
            intro s outcome r s' hI hQ _ hexec
            cases outcome with
            | error message =>
                cases hexec
                exact ⟨hI, fun _ => id, _, Discipline.stable_true, trivial, meets_caught opts w message _⟩
            | ok =>
                cases hexec
                have hnext : done ++ [name] <+: saga := ⟨steps, by simpa using hsaga⟩
                obtain ⟨hinv, hmono⟩ := inv_save (w := w) hI hnext hQ
                refine ⟨hinv, hmono, _, allCompleted_stable w _, fun x hx => hmono x (hQ x hx), ?_⟩
                refine ih _ hnext hrest fun x hx hxs => ?_
                by_cases hxn : x = name
                · simp [hxn]
                · exact List.mem_append_left _ (hall x hx (by simp [hxn, hxs]))

include hnodup in
theorem meets_execute (hs : opts.sagas jobType = some saga) :
    (order saga jobType).Meets (workers opts) w (execute opts.sagas opts.staleAfterMs) fun _ => True := by
  intro s outcome r s' hI _ _ hexec
  obtain ⟨hr, rfl⟩ := exec_byIdempotencyKey hexec
  refine ⟨hI, fun _ => id, _, Discipline.stable_true, trivial, ?_⟩
  rcases hr with rfl | rfl
  · exact meets_done opts w _
  dsimp only
  split
  · exact meets_done opts w _
  intro s outcome r s' hI _ _ hexec
  rcases exec_claim hexec with ⟨rfl, rfl⟩ | ⟨-, rfl, rfl⟩
  · exact ⟨hI, fun _ => id, _, Discipline.stable_true, trivial, meets_done opts w _⟩
  obtain ⟨hinv, hmono⟩ := inv_quiet hI (show (s.claim w).history = _ ∨ _ from
    .inr ⟨.claim w, rfl, fun v name => ⟨nofun, nofun⟩⟩) rfl rfl nofun
  have htype : (s.job.claim s.now).jobType = jobType := hI.jobType
  refine ⟨hinv, hmono, _, allCompleted_stable w _, fun x hx => hmono x (hI.saved x hx), ?_⟩
  simp only [htype, hs]
  exact meets_runSteps hnodup opts w saga _ hI.checkpoint List.suffix_rfl fun x hx hn => absurd hx hn

theorem meets_markEnqueued (Q : Store → Prop) :
    (order saga jobType).Meets (workers opts) w (.step .markEnqueued fun _ => .done) Q := by
  apply meets_quiet
  · intro s outcome r s' hexec
    cases outcome with
    | error message =>
        cases hexec
        exact ⟨.inl rfl, rfl, rfl, id⟩
    | ok =>
        cases hexec
        refine ⟨.inl rfl, ?_, markEnqueued_checkpoint s.job, fun hstate => ?_⟩
        · exact (apply_ite JobRecord.jobType _ _ _).trans (ite_self _)
        · by_cases hp : s.job.state = .pending
          · rw [show (s.withJob s.job.markEnqueued).job.state = .enqueued from
              congrArg JobRecord.state (if_pos hp)] at hstate
            cases hstate
          · rwa [show (s.withJob s.job.markEnqueued).job.state = s.job.state from
              congrArg JobRecord.state (markEnqueued_of_ne hp)] at hstate
  · exact fun _ => meets_done opts w _

theorem meets_row {op : Op} {next : Reply op → Program Op Reply}
    (hrow : ∀ s outcome r s', exec w outcome op s = some (r, s') → s'.history = s.history ∧
      s'.job.jobType = s.job.jobType ∧ s'.job.checkpoint = s.job.checkpoint ∧ s'.job.state = s.job.state)
    (hnext : ∀ r, (order saga jobType).Meets (workers opts) w (next r) fun _ => True) :
    (order saga jobType).Meets (workers opts) w (.step op next) fun _ => True := by
  refine meets_quiet opts w _ (fun s outcome r s' hexec => ?_) hnext
  obtain ⟨hpast, htype, hcheckpoint, hstate⟩ := hrow s outcome r s' hexec
  exact ⟨.inl hpast, htype, hcheckpoint, fun h => hstate ▸ h⟩

include hnodup in
theorem sound (hs : opts.sagas jobType = some saga) : (order saga jobType).Sound (workers opts) where
  idle _ := Discipline.stable_true
  abort _ _ hI _ := ⟨⟨hI.jobType, hI.ordered, hI.firsts, hI.checkpoint, hI.saved, hI.succeeded⟩, fun _ => id, trivial⟩
  program w q := by
    cases q with
    | execute => exact meets_execute hnodup opts w hs
    | markEnqueued => exact meets_markEnqueued opts w _
    | heartbeat | tick ms =>
        apply meets_row
        · intro s outcome r s' hexec
          cases outcome <;> cases hexec <;> exact ⟨rfl, rfl, rfl, rfl⟩
        · exact fun _ => meets_done opts w _
    | sweep =>
        apply meets_row
        · intro s outcome r s' hexec
          cases outcome <;> cases hexec <;> exact ⟨rfl, rfl, rfl, rfl⟩
        rintro (_ | _)
        · exact meets_done opts w _
        apply meets_row
        · intro s outcome r s' hexec
          cases outcome <;> cases hexec <;> exact ⟨rfl, rfl, rfl, rfl⟩
        rintro (_ | _)
        · exact meets_done opts w _
        · exact meets_markEnqueued opts w _

end Programs

theorem inv_created (saga : List StepName) (jobType : JsText.Text) (maxAttempts : Nat) (now : Time) :
    Inv saga jobType (initial (created jobType maxAttempts now) now) :=
  ⟨rfl, trivial, List.nil_prefix, List.nil_prefix, nofun, nofun⟩

section Examples

end Examples

end Corebase.SagaResume
