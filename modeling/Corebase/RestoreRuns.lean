import Corebase.SagaAttempts
import Corebase.SagaSteps

namespace Corebase.RestoreRuns

open Interleaving Sagas SagaRules SagaSteps SagaAttempts
open JobRunner (Worker JobState)

/-- The restored cluster. After the promotion has been asked for at the target it is promoting, until it is out of recovery. -/
inductive Phase
  | down | recovering | paused | promoting | out
deriving DecidableEq

structure World where
  /-- The restore has a target time. -/
  target : Bool
  pgVersion : Bool
  /-- A pgBackRest restore has run to completion into the volume. -/
  complete : Bool
  /-- The file recovery.signal. -/
  signal : Bool
  phase : Phase
  /-- Recovery has paused at the target. -/
  pausedAt : Bool
  restored : Bool
deriving DecidableEq

/-- How a run of pgBackRest ends. -/
inductive Ending
  | complete (signal : Bool)
  | cut (pgVersion : Bool)
deriving DecidableEq

/-- What the cluster does by itself. -/
inductive Motion
  | stay | pause | promote
deriving DecidableEq

structure Choice where
  ending : Ending
  motion : Motion
  /-- A cluster without the signal comes up. -/
  boots : Bool
  /-- How often the cluster is asked until the deadline. -/
  polls : Nat

inductive Act
  /-- Something that may throw, and that nothing here depends on. -/
  | prepare
  | probe
  | pgbackrestRestore
  | checkSignal
  | targetTime
  | startContainer
  | deadline
  | poll
  | walReplayResume
  | isInRecovery
  | alterRoles
  | markRestored
deriving DecidableEq

structure State where
  inRecovery : Bool
  paused : Bool
deriving DecidableEq

@[reducible] def Answer : Act → Type
  | .probe | .pgbackrestRestore | .checkSignal | .targetTime | .isInRecovery | .alterRoles => Bool
  | .deadline => Nat
  | .poll => Option State
  | .prepare | .startContainer | .walReplayResume | .markRestored => Unit

/-- Recovery pauses only at a target, and ends there or where the WAL does. -/
def World.advance (w : World) (motion : Motion) : World := match w.phase, motion with
  | .recovering, .pause => if w.target then { w with phase := .paused, pausedAt := true } else w
  | .recovering, .promote | .promoting, .promote => { w with phase := .out }
  | _, _ => w

def Phase.inRecovery : Phase → Bool
  | .recovering | .paused | .promoting => true
  | .down | .out => false

def World.state (w : World) : Option State :=
  if w.phase = .down then none else some ⟨w.phase.inRecovery, w.phase = .paused⟩

def apply (choice : Choice) : (a : Act) → World → Option (Answer a × World)
  | .prepare, w => some ((), w)
  | .probe, w => some (w.pgVersion, w)
  | .pgbackrestRestore, w => match choice.ending with
    | .complete signal => some (true, { w with pgVersion := true, complete := true, signal := signal })
    | .cut pgVersion => some (false, { w with pgVersion := w.pgVersion || pgVersion })
  | .checkSignal, w => some (w.signal, w)
  | .targetTime, w => some (w.target, w)
  | .startContainer, w =>
      if w.phase = .down then
        some ((), { w with phase := if w.signal then .recovering else if choice.boots then .out else .down })
      else some ((), w)
  | .deadline, w => some (choice.polls, w)
  | .poll, w => some ((w.advance choice.motion).state, w.advance choice.motion)
  | .walReplayResume, w => some ((), if w.phase = .paused then { w with phase := .promoting } else w)
  | .isInRecovery, w => some ((w.advance choice.motion).phase ≠ .out, w.advance choice.motion)
  | .alterRoles, w => some ((w.advance choice.motion).phase = .out, w.advance choice.motion)
  | .markRestored, w => some ((), { w with restored := true })

abbrev Steps := Body Act fun a => Option (Answer a)

def restoreIntoVolume : Steps :=
  attempt .prepare fun _ => attempt .probe fun already => if already then .ok
  else attempt .prepare fun _ => attempt .pgbackrestRestore fun exited => if !exited then .throw
  else attempt .checkSignal fun present => if !present then .throw
  else attempt .prepare fun _ => .ok

def recordReached : Steps := attempt .prepare fun _ => .ok

def awaitPromotion : Nat → Steps
  | 0 => recordReached
  | n + 1 => attempt .isInRecovery fun inRecovery => if inRecovery then awaitPromotion n else recordReached

/-- What the step makes of the last state of the cluster that it has seen. -/
def judge (target : Bool) : Option State → Steps
  | none => .throw
  | some state =>
      if target then
        if !state.inRecovery then .throw
        else if !state.paused then .throw
        else attempt .prepare fun _ => attempt .walReplayResume fun _ => awaitPromotion 60
      else recordReached

def pollUntil (target : Bool) : Nat → Option State → Steps
  | 0, state => judge target state
  | n + 1, state => .act .poll fun
      | some (some seen) => if !seen.inRecovery || seen.paused then judge target (some seen) else pollUntil target n (some seen)
      | _ => pollUntil target n state

def recoverToTarget : Steps :=
  attempt .targetTime fun target => attempt .prepare fun _ => attempt .startContainer fun _ => attempt .prepare fun _ =>
    attempt .deadline fun polls => pollUntil target polls none

def resetRestoredCredentials : Steps :=
  attempt .prepare fun _ => attempt .alterRoles fun altered => if altered then .ok else .throw

def markRestored : Steps := attempt .prepare fun _ => attempt .markRestored fun _ => attempt .prepare fun _ => .ok

def body : StepName → Steps
  | .restoreIntoVolume => restoreIntoVolume
  | .recoverToTarget => recoverToTarget
  | .resetRestoredCredentials => resetRestoredCredentials
  | .markRestored => markRestored
  | _ => attempt .prepare fun _ => .ok

def restores : Design Unit StepName World Act Empty (Outcome × Choice) Empty fun a => Option (Answer a) where
  sagas _ := steps .restoreProject
  body _ := body
  onDeadLetter _ := .ok
  others r := nomatch r
  perform := perform apply
  change x := nomatch x

/-- What a restore that is reported has behind it. -/
structure Sound (w : World) : Prop where
  complete : w.complete = true
  out : w.phase = .out
  target : w.target = true → w.pausedAt = true

structure Inv (w : World) : Prop where
  signal : w.signal = true → w.complete = true
  pgVersion : w.complete = true → w.pgVersion = true
  recovering : w.phase.inRecovery = true → w.complete = true
  paused : w.phase = .paused ∨ w.phase = .promoting → w.target = true ∧ w.pausedAt = true
  restored : w.restored = true → Sound w

/-- The cluster is up, past its target if it has one. -/
def Afloat (w : World) : Prop := w.phase = .out ∨ w.phase = .promoting ∨ w.phase = .recovering ∧ w.target = false

def Post (w : World) : StepName → Prop
  | .restoreIntoVolume => w.complete = true
  | .recoverToTarget => Afloat w ∧ (w.target = true → w.pausedAt = true)
  | .resetRestoredCredentials => w.phase = .out
  | .markRestored => w.restored = true
  | _ => True

/-- A data directory is taken for restored only when a restore has run to completion. -/
def legal : Act → World → Bool
  | .probe, w => !w.pgVersion || w.complete
  | _, _ => true

def contract : Contract Unit StepName World Act Empty where
  Inv := Inv
  Post _ name w := Post w name
  Rely w w' := w' = w
  Rest _ _ := True
  Legal a w := legal a w = true
  Timely _ _ := True
  Final _ _ _ := True

/-- No attempt can succeed any more: a restore that was cut off is taken for a complete one, or the cluster has left the
pause at its target, or has never come to it. -/
def Stuck (done : List StepName) (w : World) : Prop :=
  StepName.restoreIntoVolume ∉ done ∧ w.pgVersion = true ∧ w.complete = false ∨
    StepName.recoverToTarget ∉ done ∧ w.target = true ∧
      (w.phase = .promoting ∨ w.phase = .out ∨ w.phase = .down ∧ w.complete = true ∧ w.signal = false)

variable {w w' : World} {choice : Choice} {done : List StepName} {motion : Motion}

section Acts

theorem advance_cases (w : World) (motion : Motion) : w.advance motion = w ∨
    w.phase = .recovering ∧ w.target = true ∧ w.advance motion = { w with phase := .paused, pausedAt := true } ∨
    (w.phase = .recovering ∨ w.phase = .promoting) ∧ w.advance motion = { w with phase := .out } := by
  unfold World.advance
  split
  next hphase =>
    split
    next htarget => exact .inr (.inl ⟨hphase, htarget, rfl⟩)
    next => exact .inl rfl
  next hphase => exact .inr (.inr ⟨.inl hphase, rfl⟩)
  next hphase => exact .inr (.inr ⟨.inr hphase, rfl⟩)
  next => exact .inl rfl

theorem inv_advance (h : Inv w) : Inv (w.advance motion) ∧ ∀ name, Post w name → Post (w.advance motion) name := by
  rcases advance_cases w motion with heq | ⟨hphase, htarget, heq⟩ | ⟨hphase, heq⟩
  · rw [heq]
    exact ⟨h, fun _ => id⟩
  · have hcomplete : w.complete = true := h.recovering (by rw [hphase]; rfl)
    have hrestored : w.restored = false := by
      by_contra hrestored
      cases hphase.symm.trans (h.restored (by simpa using hrestored)).out
    rw [heq]
    refine ⟨⟨h.signal, h.pgVersion, fun _ => hcomplete, fun _ => ⟨htarget, rfl⟩, fun hr => ?_⟩, fun name hpost => ?_⟩
    · cases hrestored.symm.trans hr
    · cases name with
      | recoverToTarget =>
          obtain ⟨hout | hpromoting | ⟨-, hnone⟩, -⟩ := hpost
          · cases hphase.symm.trans hout
          · cases hphase.symm.trans hpromoting
          · cases htarget.symm.trans hnone
      | resetRestoredCredentials => cases hphase.symm.trans hpost
      | _ => exact hpost
  · have hcomplete : w.complete = true := h.recovering (by rcases hphase with heq | heq <;> rw [heq] <;> rfl)
    have hrestored : w.restored = false := by
      by_contra hrestored
      have hout := (h.restored (by simpa using hrestored)).out
      rcases hphase with heq | heq <;> cases heq.symm.trans hout
    rw [heq]
    refine ⟨⟨h.signal, h.pgVersion, fun hin => (by cases hin), fun hp => (by rcases hp with hp | hp <;> cases hp),
      fun hr => ?_⟩, fun name hpost => ?_⟩
    · cases hrestored.symm.trans hr
    · cases name with
      | recoverToTarget => exact ⟨.inl rfl, hpost.2⟩
      | resetRestoredCredentials => rfl
      | _ => exact hpost

/-- Every act keeps the invariant and what the steps that are done have left. -/
theorem apply_keeps {a : Act} {r : Answer a} (h : Inv w) (hsound : a = .markRestored → Sound w)
    (happly : apply choice a w = some (r, w')) : Inv w' ∧ ∀ name, Post w name → Post w' name := by
  cases a with
  | prepare | probe | checkSignal | targetTime | deadline =>
      cases happly
      exact ⟨h, fun _ => id⟩
  | poll | isInRecovery | alterRoles =>
      cases happly
      exact inv_advance h
  | pgbackrestRestore =>
      simp only [apply] at happly
      split at happly <;> cases happly
      · refine ⟨⟨fun _ => rfl, fun _ => rfl, fun _ => rfl, h.paused, fun hr => ?_⟩, fun name hpost => ?_⟩
        · exact ⟨rfl, (h.restored hr).out, (h.restored hr).target⟩
        · cases name with
          | restoreIntoVolume => rfl
          | _ => exact hpost
      · refine ⟨⟨h.signal, fun hc => ?_, h.recovering, h.paused, fun hr => ?_⟩, fun name hpost => ?_⟩
        · simp [h.pgVersion hc]
        · exact ⟨(h.restored hr).complete, (h.restored hr).out, (h.restored hr).target⟩
        · cases name <;> exact hpost
  | startContainer =>
      simp only [apply] at happly
      split at happly <;> cases happly
      next hdown =>
        have hrestored : w.restored = false := by
          by_contra hrestored
          cases hdown.symm.trans (h.restored (by simpa using hrestored)).out
        refine ⟨⟨h.signal, h.pgVersion, fun hin => ?_, fun hp => ?_, fun hr => ?_⟩, fun name hpost => ?_⟩
        · dsimp only at hin
          split at hin
          next hsignal => exact h.signal hsignal
          next => split at hin <;> cases hin
        · dsimp only at hp
          split at hp
          · rcases hp with hp | hp <;> cases hp
          · split at hp <;> rcases hp with hp | hp <;> cases hp
        · cases hrestored.symm.trans hr
        · cases name with
          | recoverToTarget =>
              obtain ⟨hout | hpromoting | ⟨hrecovering, -⟩, -⟩ := hpost
              · cases hdown.symm.trans hout
              · cases hdown.symm.trans hpromoting
              · cases hdown.symm.trans hrecovering
          | resetRestoredCredentials => cases hdown.symm.trans hpost
          | _ => exact hpost
      next => exact ⟨h, fun _ => id⟩
  | walReplayResume =>
      simp only [apply] at happly
      cases happly
      split
      next hpaused =>
        have hrestored : w.restored = false := by
          by_contra hrestored
          cases hpaused.symm.trans (h.restored (by simpa using hrestored)).out
        refine ⟨⟨h.signal, h.pgVersion, fun _ => h.recovering (by rw [hpaused]; rfl), fun _ => h.paused (.inl hpaused),
          fun hr => ?_⟩, fun name hpost => ?_⟩
        · cases hrestored.symm.trans hr
        · cases name with
          | recoverToTarget => exact ⟨.inr (.inl rfl), hpost.2⟩
          | resetRestoredCredentials => cases hpaused.symm.trans hpost
          | _ => exact hpost
      next => exact ⟨h, fun _ => id⟩
  | markRestored =>
      cases happly
      have hs := hsound rfl
      refine ⟨⟨h.signal, h.pgVersion, h.recovering, h.paused, fun _ => ⟨hs.complete, hs.out, hs.target⟩⟩, fun name hpost => ?_⟩
      cases name with
      | markRestored => rfl
      | _ => exact hpost

end Acts

section Saga

variable {Q Z : World → Prop} {target : Bool}

abbrev Posts (done : List StepName) : World → Prop := contract.Posts () done

theorem stable_eq {Q : World → Prop} : ∀ w w', Inv w → w' = w → Q w → Q w' := fun _ _ _ heq h => heq ▸ h

/-- An act, with what is known after it. -/
theorem carries_act {a : Act} {next : Answer a → Steps} (P : Answer a → World → Prop) (ha : a ≠ .markRestored)
    (hP : ∀ choice w r w', Inv w → legal a w = true → Posts done w → Q w → apply choice a w = some (r, w') → P r w')
    (hnext : ∀ r, contract.Carries (perform apply) (Posts done) (next r) (fun w => Posts done w ∧ P r w) Z) :
    contract.Carries (perform apply) (Posts done) (attempt a next) (fun w => Posts done w ∧ Q w) Z := by
  refine carries_attempt (fun r w => Posts done w ∧ P r w) (fun _ => And.left)
    (fun choice w r w' hI hQ hlegal happly => ?_) (fun _ => stable_eq) hnext
  obtain ⟨hI', hposts⟩ := apply_keeps hI (fun heq => absurd heq ha) happly
  have hposts' : Posts done w' := fun name hname => hposts name (hQ.1 name hname)
  exact ⟨hI', hposts', hposts', hP choice w r w' hI hlegal hQ.1 hQ.2 happly⟩

theorem carries_prepare {next : Unit → Steps}
    (hnext : contract.Carries (perform apply) (Posts done) (next ()) (fun w => Posts done w ∧ Q w) Z) :
    contract.Carries (perform apply) (Posts done) (attempt .prepare next) (fun w => Posts done w ∧ Q w) Z := by
  refine carries_act (fun _ => Q) nofun (fun choice w r w' _ _ _ hQ happly => ?_) fun _ => hnext
  cases happly
  exact hQ

theorem carries_done {name : StepName} (h : ∀ w, Inv w → Q w → Post w name) :
    contract.Carries (perform apply) (Posts done) (.ok : Steps) (fun w => Posts done w ∧ Q w) (Posts (done ++ [name])) := by
  intro w hI hw n hn
  rcases List.mem_append.mp hn with hn | hn
  · exact hw.1 n hn
  · obtain rfl := List.mem_singleton.mp hn
    exact h w hI hw.2

theorem carries_restoreIntoVolume : contract.Carries (perform apply) (Posts done) restoreIntoVolume
    (fun w => Posts done w ∧ True) (Posts (done ++ [.restoreIntoVolume])) := by
  refine carries_prepare ?_
  refine carries_act (fun already w => already = true → w.complete = true) nofun
    (fun choice w r w' _ hlegal _ _ happly => ?_) fun already => ?_
  · cases happly
    intro hversion
    simpa [legal, hversion] using hlegal
  split
  next halready => exact carries_done fun w _ h => h halready
  refine carries_prepare ?_
  refine carries_act (fun _ _ => True) nofun (fun _ _ _ _ _ _ _ _ _ => trivial) fun exited => ?_
  split
  · trivial
  refine carries_act (fun present w => present = true → w.complete = true) nofun
    (fun choice w r w' hI _ _ _ happly => ?_) fun present => ?_
  · cases happly
    exact hI.signal
  split
  · trivial
  next hpresent =>
    refine carries_prepare ?_
    exact carries_done fun w _ h => h (by simpa using hpresent)

/-- What the step leaves once recovery is past the target, or nothing has been asked for. -/
abbrev Recovered (w : World) : Prop := Post w .recoverToTarget

theorem carries_recordReached : contract.Carries (perform apply) (Posts done) recordReached
    (fun w => Posts done w ∧ Recovered w) (Posts (done ++ [.recoverToTarget])) :=
  carries_prepare (carries_done fun _ _ h => h)

theorem carries_awaitPromotion (n : Nat) : contract.Carries (perform apply) (Posts done) (awaitPromotion n)
    (fun w => Posts done w ∧ Recovered w) (Posts (done ++ [.recoverToTarget])) := by
  induction n with
  | zero => exact carries_recordReached
  | succ n ih =>
      refine carries_act (fun _ => Recovered) nofun (fun choice w r w' hI _ _ hQ happly => ?_) fun inRecovery => ?_
      · cases happly
        exact (inv_advance hI).2 _ hQ
      · split
        · exact ih
        · exact carries_recordReached

/-- The cluster is up, and a state that has been seen at the pause is the one that it is in. -/
def Seen (target : Bool) (state : Option State) (w : World) : Prop :=
  w.target = target ∧ ∀ seen, state = some seen → w.phase ≠ .down ∧ (seen.paused = true → w.phase = .paused)

theorem carries_judge (state : Option State) : contract.Carries (perform apply) (Posts done) (judge target state)
    (fun w => Posts done w ∧ Seen target state w) (Posts (done ++ [.recoverToTarget])) := by
  cases state with
  | none => trivial
  | some seen =>
      unfold judge
      dsimp only
      split
      next htarget =>
        split
        · trivial
        split
        · trivial
        next hpaused =>
          have hpaused' : seen.paused = true := by simpa using hpaused
          refine carries_prepare ?_
          refine carries_act (fun _ => Recovered) nofun (fun choice w r w' hI _ _ hQ happly => ?_)
            fun _ => carries_awaitPromotion 60
          have hphase := (hQ.2 seen rfl).2 hpaused'
          simp only [apply, hphase, if_true] at happly
          cases happly
          exact ⟨.inr (.inl rfl), fun _ => (hI.paused (.inl hphase)).2⟩
      next htarget =>
        refine carries_recordReached.mono fun w hI hw => ⟨hw.1, ?_, fun h => absurd (hw.2.1.symm.trans h) htarget⟩
        have hnone : w.target = false := by simpa [hw.2.1] using htarget
        have hup := (hw.2.2 seen rfl).1
        cases hphase : w.phase with
        | down => exact absurd hphase hup
        | out => exact .inl hphase
        | recovering => exact .inr (.inr ⟨hphase, hnone⟩)
        | paused => cases hnone.symm.trans (hI.paused (.inl hphase)).1
        | promoting => exact .inr (.inl hphase)

theorem advance_up (h : w.phase ≠ .down) : (w.advance motion).phase ≠ .down := by
  rcases advance_cases w motion with heq | ⟨-, -, heq⟩ | ⟨-, heq⟩ <;> rw [heq]
  · exact h
  · nofun
  · nofun

theorem advance_target (w : World) (motion : Motion) : (w.advance motion).target = w.target := by
  rcases advance_cases w motion with heq | ⟨-, -, heq⟩ | ⟨-, heq⟩ <;> rw [heq]

theorem Seen.advance {state : Option State} (h : Seen target state w) (hstate : ∀ seen, state = some seen → seen.paused = false) :
    Seen target state (w.advance motion) := by
  refine ⟨(advance_target w motion).trans h.1, fun seen hseen => ⟨advance_up (h.2 seen hseen).1, fun hpaused => ?_⟩⟩
  cases (hstate seen hseen).symm.trans hpaused

theorem seen_state {seen : State} (h : w.state = some seen) : w.phase ≠ .down ∧ (seen.paused = true → w.phase = .paused) := by
  simp only [World.state] at h
  split at h <;> cases h
  next hup => exact ⟨hup, fun hpaused => by simpa using hpaused⟩

theorem carries_pollUntil (polls : Nat) (state : Option State) (hstate : ∀ seen, state = some seen → seen.paused = false) :
    contract.Carries (perform apply) (Posts done) (pollUntil target polls state)
      (fun w => Posts done w ∧ Seen target state w) (Posts (done ++ [.recoverToTarget])) := by
  induction polls generalizing state with
  | zero => exact carries_judge state
  | succ polls ih =>
      intro choice w answer w' hI hQ _ hperform
      obtain ⟨⟨seen, w₁⟩, happly, heq⟩ := Option.map_eq_some_iff.mp hperform
      cases happly
      obtain ⟨hI', hposts⟩ : Inv (w.advance choice.2.motion) ∧ _ := inv_advance hI
      have hposts' : Posts done (w.advance choice.2.motion) := fun name hname => hposts name (hQ.1 name hname)
      cases houtcome : choice.1 with
      | failed =>
          simp only [houtcome] at heq
          cases heq
          exact ⟨hI, hQ.1, _, stable_eq, hQ, ih state hstate⟩
      | lost =>
          simp only [houtcome] at heq
          cases heq
          exact ⟨hI', hposts', _, stable_eq, ⟨hposts', hQ.2.advance hstate⟩, ih state hstate⟩
      | done =>
          simp only [houtcome] at heq
          cases heq
          cases hseen : (w.advance choice.2.motion).state with
          | none => exact ⟨hI', hposts', _, stable_eq, ⟨hposts', hQ.2.advance hstate⟩, ih state hstate⟩
          | some seen =>
              refine ⟨hI', hposts', fun w => Posts done w ∧ Seen target (some seen) w, stable_eq,
                ⟨hposts', (advance_target w _).trans hQ.2.1, fun seen' heq => ?_⟩, ?_⟩
              · obtain rfl := Option.some.inj heq
                exact seen_state hseen
              · dsimp only
                split
                · exact carries_judge _
                next hmore =>
                  refine ih _ fun seen' heq => ?_
                  obtain rfl := Option.some.inj heq
                  exact (Bool.or_eq_false_iff.mp (Bool.eq_false_iff.mpr hmore)).2

theorem carries_recoverToTarget : contract.Carries (perform apply) (Posts done) recoverToTarget
    (fun w => Posts done w ∧ True) (Posts (done ++ [.recoverToTarget])) := by
  refine carries_act (fun target w => w.target = target) nofun (fun choice w r w' _ _ _ _ happly => ?_) fun target => ?_
  · cases happly
    rfl
  refine carries_prepare ?_
  refine carries_act (fun _ w => w.target = target) nofun (fun choice w r w' _ _ _ hQ happly => ?_) fun _ => ?_
  · simp only [apply] at happly
    split at happly <;> cases happly <;> exact hQ
  refine carries_prepare ?_
  refine carries_act (fun _ w => w.target = target) nofun (fun choice w r w' _ _ _ hQ happly => ?_) fun polls => ?_
  · cases happly
    exact hQ
  exact (carries_pollUntil polls none nofun).mono fun w _ hw => ⟨hw.1, hw.2, nofun⟩

theorem carries_resetRestoredCredentials : contract.Carries (perform apply) (Posts done) resetRestoredCredentials
    (fun w => Posts done w ∧ True) (Posts (done ++ [.resetRestoredCredentials])) := by
  refine carries_prepare ?_
  refine carries_act (fun altered w => altered = true → w.phase = .out) nofun (fun choice w r w' _ _ _ _ happly => ?_)
    fun altered => ?_
  · cases happly
    intro hout
    simpa using hout
  split
  next haltered => exact carries_done fun w _ h => h haltered
  next => trivial

theorem carries_markRestored (hrestored : StepName.restoreIntoVolume ∈ done) (hrecovered : StepName.recoverToTarget ∈ done)
    (hreset : StepName.resetRestoredCredentials ∈ done) : contract.Carries (perform apply) (Posts done) markRestored
      (fun w => Posts done w ∧ True) (Posts (done ++ [.markRestored])) := by
  refine carries_prepare ?_
  refine carries_attempt (fun _ w => Posts done w ∧ w.restored = true) (fun _ => And.left)
    (fun choice w r w' hI hQ _ happly => ?_) (fun _ => stable_eq) fun _ => ?_
  · have hsound : Sound w := ⟨hQ.1 _ hrestored, hQ.1 _ hreset, (hQ.1 _ hrecovered).2⟩
    obtain ⟨hI', hposts⟩ := apply_keeps hI (fun _ => hsound) happly
    cases happly
    have hposts' : Posts done { w with restored := true } := fun name hname => hposts name (hQ.1 name hname)
    exact ⟨hI', hposts', hposts', rfl⟩
  refine carries_prepare ?_
  exact carries_done fun w _ h => h

theorem kept : contract.Kept restores where
  refl _ := rfl
  post _ _ _ _ _ heq h := heq ▸ h
  step kind name _ done hbefore _ := by
    have hstart : ∀ {body : Steps}, contract.Carries (perform apply) (Posts done) body (fun w => Posts done w ∧ True)
        (Posts (done ++ [name])) → contract.Carries (perform apply) (Posts done) body (Posts done) (Posts (done ++ [name])) :=
      fun h => h.mono fun w _ hw => ⟨hw, trivial⟩
    cases name with
    | restoreIntoVolume => exact hstart carries_restoreIntoVolume
    | recoverToTarget => exact hstart carries_recoverToTarget
    | resetRestoredCredentials => exact hstart carries_resetRestoredCredentials
    | markRestored =>
        have hearlier : ∀ n ∈ (steps .restoreProject).takeWhile (· ≠ StepName.markRestored), n ∈ done := hbefore
        exact hstart (carries_markRestored (hearlier _ (by decide)) (hearlier _ (by decide)) (hearlier _ (by decide)))
    | _ => exact hstart (carries_prepare (carries_done fun _ _ _ => trivial))
  succeed _ _ _ _ _ _ _ := trivial
  fail _ _ _ _ _ _ _ _ := trivial
  other := ⟨fun _ => False, nofun, fun _ => trivial, fun _ _ _ _ _ hforeign => hforeign.elim⟩
  change _ x := nomatch x

end Saga

section Attempts

abbrev quiet (a : Act) : Prop := a ≠ .probe ∧ a ≠ .pgbackrestRestore

theorem only_awaitPromotion (n : Nat) : (awaitPromotion n).Only quiet := by
  induction n with
  | zero => exact only_attempt (by decide) fun _ => trivial
  | succ n ih =>
      refine only_attempt (by decide) fun inRecovery => ?_
      split
      · exact ih
      · exact only_attempt (by decide) fun _ => trivial

theorem only_judge (target : Bool) (state : Option State) : (judge target state).Only quiet := by
  unfold judge
  split
  · trivial
  · split
    · split
      · trivial
      split
      · trivial
      exact only_attempt (by decide) fun _ => only_attempt (by decide) fun _ => only_awaitPromotion 60
    · exact only_attempt (by decide) fun _ => trivial

theorem only_pollUntil (target : Bool) (polls : Nat) (state : Option State) : (pollUntil target polls state).Only quiet := by
  induction polls generalizing state with
  | zero => exact only_judge target state
  | succ polls ih =>
      refine ⟨by decide, fun answer => ?_⟩
      dsimp only
      split
      · split
        · exact only_judge target _
        · exact ih _
      · exact ih state

/-- Only the restore into the volume looks for one, or runs one. -/
theorem only_body {name : StepName} (hname : name ≠ .restoreIntoVolume) : (body name).Only quiet := by
  cases name with
  | restoreIntoVolume => exact absurd rfl hname
  | recoverToTarget =>
      refine only_attempt (by decide) fun target => only_attempt (by decide) fun _ => only_attempt (by decide) fun _ => ?_
      exact only_attempt (by decide) fun _ => only_attempt (by decide) fun polls => only_pollUntil target polls none
  | resetRestoredCredentials =>
      refine only_attempt (by decide) fun _ => only_attempt (by decide) fun altered => ?_
      split <;> trivial
  | markRestored =>
      exact only_attempt (by decide) fun _ => only_attempt (by decide) fun _ => only_attempt (by decide) fun _ => trivial
  | _ => exact only_attempt (by decide) fun _ => trivial

theorem returns_restoreIntoVolume (h : Returns (perform apply) restoreIntoVolume w w') :
    w.pgVersion = true ∧ w' = w ∨ w.pgVersion = false ∧ w'.phase = w.phase ∧ w'.target = w.target := by
  obtain ⟨_, _, _, hprepare, h⟩ := returns_attempt.mp h
  cases hprepare
  obtain ⟨_, already, _, hprobe, h⟩ := returns_attempt.mp h
  cases hprobe
  cases hversion : w.pgVersion with
  | true =>
      rw [hversion, if_pos rfl] at h
      exact .inl ⟨rfl, h⟩
  | false =>
      rw [hversion, if_neg (by decide)] at h
      obtain ⟨_, _, _, hprepare, h⟩ := returns_attempt.mp h
      cases hprepare
      obtain ⟨choice, exited, w₁, hrestore, h⟩ := returns_attempt.mp h
      split at h
      · cases h
      next hexited =>
        simp only [apply] at hrestore
        split at hrestore <;> cases hrestore
        · obtain ⟨_, present, _, hsignal, h⟩ := returns_attempt.mp h
          cases hsignal
          split at h
          · cases h
          · obtain ⟨_, _, _, hprepare, h⟩ := returns_attempt.mp h
            cases hprepare
            obtain rfl := h
            exact .inr ⟨rfl, rfl, rfl⟩
        · exact absurd rfl hexited

def Half (w : World) : Prop := w.pgVersion = true ∧ w.complete = false

/-- The cluster has been asked to leave the pause at its target, or comes up without one. -/
def Past (w : World) : Prop :=
  w.target = true ∧ (w.phase = .promoting ∨ w.phase = .out ∨ w.phase = .down ∧ w.pgVersion = true ∧ w.signal = false)

theorem half_keeps {a : Act} {r : Answer a} (ha : quiet a) (h : Half w) (happly : apply choice a w = some (r, w')) : Half w' := by
  cases a with
  | probe => exact absurd rfl ha.1
  | pgbackrestRestore => exact absurd rfl ha.2
  | poll | isInRecovery | alterRoles =>
      cases happly
      rcases advance_cases w choice.motion with heq | ⟨-, -, heq⟩ | ⟨-, heq⟩ <;> rw [heq] <;> exact h
  | startContainer =>
      simp only [apply] at happly
      split at happly <;> cases happly <;> exact h
  | walReplayResume =>
      cases happly
      split <;> exact h
  | prepare | checkSignal | targetTime | deadline | markRestored =>
      cases happly
      exact h

theorem past_advance (h : Past w) : Past (w.advance motion) := by
  rcases advance_cases w motion with heq | ⟨hphase, -, heq⟩ | ⟨-, heq⟩
  · rw [heq]
    exact h
  · rcases h.2 with h | h | ⟨h, -⟩ <;> cases hphase.symm.trans h
  · rw [heq]
    exact ⟨h.1, .inr (.inl rfl)⟩

theorem past_keeps {a : Act} {r : Answer a} (ha : quiet a) (h : Past w) (happly : apply choice a w = some (r, w')) : Past w' := by
  cases a with
  | probe => exact absurd rfl ha.1
  | pgbackrestRestore => exact absurd rfl ha.2
  | poll | isInRecovery | alterRoles =>
      cases happly
      exact past_advance h
  | startContainer =>
      simp only [apply] at happly
      split at happly <;> cases happly
      next hdown =>
        rcases h.2 with hphase | hphase | ⟨-, hversion, hsignal⟩
        · cases hdown.symm.trans hphase
        · cases hdown.symm.trans hphase
        · refine ⟨h.1, ?_⟩
          dsimp only
          rw [if_neg (by simp [hsignal])]
          split
          · exact .inr (.inl rfl)
          · exact .inr (.inr ⟨rfl, hversion, hsignal⟩)
      next => exact h
  | walReplayResume =>
      cases happly
      rw [if_neg]
      · exact h
      · intro hpaused
        rcases h.2 with h | h | ⟨h, -⟩ <;> cases hpaused.symm.trans h
  | prepare | checkSignal | targetTime | deadline | markRestored =>
      cases happly
      exact h

/-- The cluster is seen past the pause, and the step throws. -/
theorem pollUntil_past (polls : Nat) {state : Option State} (hstate : ∀ seen, state = some seen → seen.paused = false)
    (h : Past w) : ¬ Returns (perform apply) (pollUntil true polls state) w w' := by
  have hjudge : ∀ {state : Option State} {w w' : World}, (∀ seen, state = some seen → seen.paused = false) →
      ¬ Returns (perform apply) (judge true state) w w' := by
    intro state w w' hstate hreturns
    cases state with
    | none => cases hreturns
    | some seen =>
        simp only [judge, if_true, hstate seen rfl, Bool.not_false] at hreturns
        split at hreturns <;> cases hreturns
  induction polls generalizing w state with
  | zero => exact hjudge hstate
  | succ polls ih =>
      rintro ⟨⟨outcome, choice⟩, answer, w₁, hperform, hreturns⟩
      have hpast : Past (w.advance choice.motion) := past_advance h
      cases outcome with
      | failed =>
          cases hperform
          exact ih hstate h hreturns
      | lost =>
          cases hperform
          exact ih hstate hpast hreturns
      | done =>
          cases hperform
          dsimp only at hreturns
          split at hreturns
          next seen hseen =>
            have hseen' : ∀ seen', some seen = some seen' → seen'.paused = false := by
              intro seen' heq
              obtain rfl := Option.some.inj heq
              cases hpaused : seen.paused with
              | false => rfl
              | true =>
                  have hphase := (seen_state (Option.some.inj hseen)).2 hpaused
                  rcases hpast.2 with h | h | ⟨h, -⟩ <;> cases hphase.symm.trans h
            split at hreturns
            · exact hjudge hseen' hreturns
            · exact ih hseen' hpast hreturns
          next => exact ih hstate hpast hreturns

theorem recoverToTarget_past (h : Past w) : ¬ Returns (perform apply) recoverToTarget w w' := by
  intro hreturns
  obtain ⟨_, target, _, htarget, hreturns⟩ := returns_attempt.mp hreturns
  cases htarget
  obtain ⟨_, _, _, hprepare, hreturns⟩ := returns_attempt.mp hreturns
  cases hprepare
  obtain ⟨choice, _, w₁, hstart, hreturns⟩ := returns_attempt.mp hreturns
  have hpast : Past w₁ := past_keeps (by decide) h hstart
  obtain ⟨_, _, _, hprepare, hreturns⟩ := returns_attempt.mp hreturns
  cases hprepare
  obtain ⟨_, polls, _, hdeadline, hreturns⟩ := returns_attempt.mp hreturns
  cases hdeadline
  rw [h.1] at hreturns
  have hunseen : ∀ seen, (none : Option State) = some seen → seen.paused = false := nofun
  exact pollUntil_past _ hunseen hpast hreturns

theorem half_body {name : StepName} (h : Half w) (hreturns : Returns (perform apply) (body name) w w') : Half w' := by
  by_cases hname : name = .restoreIntoVolume
  · subst hname
    rcases returns_restoreIntoVolume hreturns with ⟨-, rfl⟩ | ⟨hversion, -⟩
    · exact h
    · cases hversion.symm.trans h.1
  · exact hreturns.keeps (fun choice a w r w' ha h hperform =>
      perform_keeps h (fun _ _ happly => half_keeps ha h happly) hperform) (only_body hname) h

theorem past_body {name : StepName} (h : Past w) (hreturns : Returns (perform apply) (body name) w w') : Past w' := by
  by_cases hname : name = .restoreIntoVolume
  · subst hname
    rcases returns_restoreIntoVolume hreturns with ⟨-, rfl⟩ | ⟨hversion, hphase, htarget⟩
    · exact h
    · refine ⟨htarget.trans h.1, ?_⟩
      rw [hphase]
      rcases h.2 with h | h | ⟨-, hversion', -⟩
      · exact .inl h
      · exact .inr (.inl h)
      · cases hversion.symm.trans hversion'
  · exact hreturns.keeps (fun choice a w r w' ha h hperform =>
      perform_keeps h (fun _ _ happly => past_keeps ha h happly) hperform) (only_body hname) h

theorem not_completes_stuck (hI : Inv w) (hstuck : Stuck done w) :
    ¬ ∃ w', Completes restores () (steps .restoreProject) done w w' ∧ Sound w' := by
  rintro ⟨w', hcompletes, hsound⟩
  rcases hstuck with ⟨-, hhalf⟩ | ⟨hnew, htarget, hpast⟩
  · have hhalf' : Half w' := (hcompletes.keeps (I := Half) (fun name _ w w' => half_body) hhalf).1
    cases hhalf'.2.symm.trans hsound.complete
  · have hpast : Past w := by
      refine ⟨htarget, ?_⟩
      rcases hpast with h | h | ⟨hdown, hcomplete, hsignal⟩
      · exact .inl h
      · exact .inr (.inl h)
      · exact .inr (.inr ⟨hdown, hI.pgVersion hcomplete, hsignal⟩)
    obtain ⟨w₁, w₂, hpast₁, hreturns⟩ :=
      (hcompletes.keeps (I := Past) (fun name _ w w' => past_body) hpast).2 .recoverToTarget (by decide) hnew
    exact recoverToTarget_past hpast₁ hreturns

/-- What an attempt that goes well has before each of its steps. -/
structure Fit (done : List StepName) (w : World) : Prop where
  inv : Inv w
  posts : Posts done w
  free : ¬ Stuck done w

theorem not_stuck_append {name : StepName} (h : ¬ Stuck done w) : ¬ Stuck (done ++ [name]) w := by
  rintro (⟨hnew, hstuck⟩ | ⟨hnew, hstuck⟩)
  · exact h (.inl ⟨fun hdone => hnew (List.mem_append_left _ hdone), hstuck⟩)
  · exact h (.inr ⟨fun hdone => hnew (List.mem_append_left _ hdone), hstuck⟩)

theorem not_stuck_past (hrestored : StepName.restoreIntoVolume ∈ done) (hrecovered : StepName.recoverToTarget ∈ done) :
    ¬ Stuck done w := by
  rintro (⟨hnew, -⟩ | ⟨hnew, -⟩)
  · exact hnew hrestored
  · exact hnew hrecovered

/-- A choice for the acts that take none. -/
def any : Choice := ⟨.complete true, .stay, true, 1⟩

theorem returns_prepare {next : Unit → Steps} (h : Returns (perform apply) (next ()) w w') :
    Returns (perform apply) (attempt .prepare next) w w' :=
  returns_attempt.mpr ⟨any, (), w, rfl, h⟩

theorem returns_restored (h : Fit done w) (hnew : StepName.restoreIntoVolume ∉ done) :
    ∃ w', Returns (perform apply) restoreIntoVolume w w' ∧ Fit (done ++ [.restoreIntoVolume]) w' := by
  cases hversion : w.pgVersion with
  | true =>
      have hcomplete : w.complete = true := by
        by_contra hcomplete
        exact h.free (.inl ⟨hnew, hversion, by simpa using hcomplete⟩)
      refine ⟨w, returns_prepare (returns_attempt.mpr ⟨any, true, w, by rw [← hversion]; rfl, rfl⟩), h.inv, ?_,
        not_stuck_append h.free⟩
      exact carries_done (fun _ _ h => h) w h.inv ⟨h.posts, hcomplete⟩
  | false =>
      have happly : apply any .pgbackrestRestore w =
          some (true, { w with pgVersion := true, complete := true, signal := true }) := rfl
      obtain ⟨hI', hposts⟩ := apply_keeps (a := .pgbackrestRestore) h.inv nofun happly
      refine ⟨_, returns_prepare (returns_attempt.mpr ⟨any, false, w, by rw [← hversion]; rfl, ?_⟩), hI', ?_, ?_⟩
      · refine returns_prepare (returns_attempt.mpr ⟨any, true, _, happly, ?_⟩)
        exact returns_attempt.mpr ⟨any, true, _, rfl, returns_prepare rfl⟩
      · exact carries_done (fun _ _ h => h) _ hI' ⟨fun name hname => hposts name (h.posts name hname), rfl⟩
      · rintro (⟨-, -, hcomplete⟩ | ⟨hrecovered, htarget, hphase⟩)
        · cases hcomplete
        · refine h.free (.inr ⟨fun hdone => hrecovered (List.mem_append_left _ hdone), htarget, ?_⟩)
          rcases hphase with hphase | hphase | ⟨-, -, hsignal⟩
          · exact .inl hphase
          · exact .inr (.inl hphase)
          · cases hsignal

theorem returns_awaitPromotion (hphase : w.phase = .promoting) (n : Nat) :
    Returns (perform apply) (awaitPromotion (n + 1)) w { w with phase := .out } := by
  have hpromoted : w.advance .promote = { w with phase := .out } := by simp [World.advance, hphase]
  refine returns_attempt.mpr ⟨{ any with motion := .promote }, false, _, ?_, returns_prepare rfl⟩
  simp [apply, hpromoted]

theorem returns_polled {target : Bool} {seen : State} (hseen : (w.advance motion).state = some seen)
    (h : Returns (perform apply) (judge target (some seen)) (w.advance motion) w') :
    Returns (perform apply) (pollUntil target 1 none) w w' := by
  refine ⟨(.done, { any with motion := motion }), some (some seen), w.advance motion, by simp [perform, apply, hseen], ?_⟩
  dsimp only
  split
  · exact h
  · exact h

theorem returns_started {w₁ : World} (hstart : apply any .startContainer w = some ((), w₁))
    (h : Returns (perform apply) (pollUntil w.target 1 none) w₁ w') : Returns (perform apply) recoverToTarget w w' := by
  refine returns_attempt.mpr ⟨any, w.target, w, rfl, returns_prepare (returns_attempt.mpr ⟨any, (), w₁, hstart, ?_⟩)⟩
  exact returns_prepare (returns_attempt.mpr ⟨any, 1, w₁, rfl, h⟩)

/-- The cluster comes up, before its target if it has one. -/
theorem started (h : Fit done w) (hrestored : StepName.restoreIntoVolume ∈ done) (hnew : StepName.recoverToTarget ∉ done) :
    ∃ w₁, apply any .startContainer w = some ((), w₁) ∧ w₁.phase ≠ .down ∧ w₁.target = w.target ∧
      (w.target = true → w₁.phase = .recovering ∨ w₁.phase = .paused) := by
  have hbefore : w.target = true →
      ¬ (w.phase = .promoting ∨ w.phase = .out ∨ w.phase = .down ∧ w.complete = true ∧ w.signal = false) :=
    fun htarget hstuck => h.free (.inr ⟨hnew, htarget, hstuck⟩)
  by_cases hdown : w.phase = .down
  · refine ⟨{ w with phase := if w.signal then .recovering else .out }, by rw [apply, if_pos hdown]; rfl, ?_, rfl,
      fun htarget => ?_⟩
    · dsimp only
      split
      · nofun
      · nofun
    · cases hsignal : w.signal with
      | true => exact .inl rfl
      | false => exact absurd (.inr (.inr ⟨hdown, h.posts _ hrestored, hsignal⟩)) (hbefore htarget)
  · refine ⟨w, by rw [apply, if_neg hdown], hdown, rfl, fun htarget => ?_⟩
    cases hphase : w.phase with
    | down => exact absurd hphase hdown
    | recovering => exact .inl rfl
    | paused => exact .inr rfl
    | promoting => exact absurd (.inl hphase) (hbefore htarget)
    | out => exact absurd (.inr (.inl hphase)) (hbefore htarget)

theorem returns_recovered (h : Fit done w) (hrestored : StepName.restoreIntoVolume ∈ done)
    (hnew : StepName.recoverToTarget ∉ done) : ∃ w', Returns (perform apply) recoverToTarget w w' := by
  obtain ⟨w₁, hstart, hup, htarget₁, hbefore⟩ := started h hrestored hnew
  cases htarget : w.target with
  | false =>
      have hstay : w₁.advance .stay = w₁ := by
        unfold World.advance
        split <;> first | rfl | contradiction
      obtain ⟨seen, hseen⟩ : ∃ seen, (w₁.advance .stay).state = some seen := by
        rw [hstay, World.state, if_neg hup]
        exact ⟨_, rfl⟩
      refine ⟨w₁.advance .stay, returns_started hstart ?_⟩
      rw [htarget]
      exact returns_polled hseen (returns_prepare rfl)
  | true =>
      obtain ⟨w₂, hpause, hpaused⟩ : ∃ w₂, w₁.advance .pause = w₂ ∧ w₂.phase = .paused := by
        rcases hbefore htarget with hphase | hphase
        · exact ⟨{ w₁ with phase := .paused, pausedAt := true }, by simp [World.advance, hphase, htarget₁, htarget], rfl⟩
        · exact ⟨w₁, by simp [World.advance, hphase], hphase⟩
      have hseen : (w₁.advance .pause).state = some ⟨true, true⟩ := by
        rw [hpause]
        simp [World.state, hpaused, Phase.inRecovery]
      have hjudge : Returns (perform apply) (judge true (some ⟨true, true⟩)) w₂ { w₂ with phase := .out } := by
        refine returns_prepare (returns_attempt.mpr ⟨any, (), { w₂ with phase := .promoting }, ?_, ?_⟩)
        · simp [apply, hpaused]
        · exact returns_awaitPromotion rfl 59
      refine ⟨{ w₂ with phase := .out }, returns_started hstart ?_⟩
      rw [htarget]
      exact returns_polled hseen (hpause ▸ hjudge)

theorem returns_reset (h : Fit done w) (hrecovered : StepName.recoverToTarget ∈ done) :
    ∃ w', Returns (perform apply) resetRestoredCredentials w w' := by
  have hout : (w.advance .promote).phase = .out := by
    obtain ⟨hout | hpromoting | ⟨hrecovering, -⟩, -⟩ := h.posts _ hrecovered
    · simp [World.advance, hout]
    · simp [World.advance, hpromoting]
    · simp [World.advance, hrecovering]
  refine ⟨w.advance .promote, returns_prepare (returns_attempt.mpr ⟨{ any with motion := .promote }, true, _, ?_, rfl⟩)⟩
  simp [apply, hout]

/-- A step that returns keeps what the next ones need. -/
theorem Fit.next {name : StepName} (h : Fit done w) (hmem : name ∈ steps .restoreProject)
    (hbefore : ∀ n ∈ (steps .restoreProject).takeWhile (· ≠ name), n ∈ done) (hnew : name ∉ done)
    (hname : name ≠ .restoreIntoVolume) (hfree : ¬ Stuck (done ++ [name]) w')
    (hreturns : Returns (perform apply) (body name) w w') : Fit (done ++ [name]) w' := by
  have hlegal : (body name).Only fun a => ∀ w, contract.Legal a w :=
    (only_body hname).mono fun a ha w => by cases a <;> first | rfl | exact absurd rfl ha.1
  obtain ⟨hI, hposts⟩ := hreturns.carried (kept.step () name hmem done hbefore hnew) hlegal h.inv h.posts
  exact ⟨hI, hposts, hfree⟩

theorem fit_step (name : StepName) (hmem : name ∈ steps .restoreProject) (done : List StepName) (w : World)
    (hbefore : ∀ n ∈ (steps .restoreProject).takeWhile (· ≠ name), n ∈ done) (hnew : name ∉ done) (h : Fit done w) :
    ∃ w', Returns (perform apply) (body name) w w' ∧ Fit (done ++ [name]) w' := by
  have hquiet : name ≠ .restoreIntoVolume → Returns (perform apply) (body name) w w →
      ∃ w', Returns (perform apply) (body name) w w' ∧ Fit (done ++ [name]) w' :=
    fun hname hreturns => ⟨w, hreturns, h.next hmem hbefore hnew hname (not_stuck_append h.free) hreturns⟩
  have hlater : ∀ {w'}, StepName.restoreIntoVolume ∈ done → StepName.recoverToTarget ∈ done ++ [name] →
      name ≠ .restoreIntoVolume → Returns (perform apply) (body name) w w' →
      ∃ w', Returns (perform apply) (body name) w w' ∧ Fit (done ++ [name]) w' :=
    fun hrestored hrecovered hname hreturns => ⟨_, hreturns, h.next hmem hbefore hnew hname
      (not_stuck_past (List.mem_append_left _ hrestored) hrecovered) hreturns⟩
  cases name with
  | restoreIntoVolume => exact returns_restored h hnew
  | recoverToTarget =>
      obtain ⟨w', hreturns⟩ := returns_recovered h (hbefore _ (by decide)) hnew
      exact hlater (hbefore _ (by decide)) (by simp) (by decide) hreturns
  | resetRestoredCredentials =>
      have hrecovered : StepName.recoverToTarget ∈ done := hbefore _ (by decide)
      obtain ⟨w', hreturns⟩ := returns_reset h hrecovered
      exact hlater (hbefore _ (by decide)) (List.mem_append_left _ hrecovered) (by decide) hreturns
  | markRestored =>
      have hreturns : Returns (perform apply) markRestored w { w with restored := true } :=
        returns_prepare (returns_attempt.mpr ⟨any, (), _, rfl, returns_prepare rfl⟩)
      exact hlater (hbefore _ (by decide)) (List.mem_append_left _ (hbefore _ (by decide))) (by decide) hreturns
  | _ => exact hquiet (by decide) (returns_prepare rfl)

/-- An attempt can succeed just when none of the two things has happened that no attempt gets over. -/
theorem completes_iff (h : Inv w) (hposts : Posts done w) :
    (∃ w', Completes restores () (steps .restoreProject) done w w' ∧ w'.restored = true ∧ Sound w') ↔ ¬ Stuck done w := by
  constructor
  · rintro ⟨w', hcompletes, -, hsound⟩ hstuck
    exact not_completes_stuck h hstuck ⟨w', hcompletes, hsound⟩
  · intro hfree
    have hsaga : restores.sagas () = [] ++ steps .restoreProject := rfl
    obtain ⟨w', done', hcompletes, hall, hfit⟩ :=
      completes_of_steps fit_step hsaga (fun _ hn => absurd hn List.not_mem_nil) ⟨h, hposts, hfree⟩
    have hrestored : w'.restored = true := hfit.posts .markRestored (hall _ (by decide))
    exact ⟨w', hcompletes, hrestored, hfit.inv.restored hrestored⟩

end Attempts

/-- A restore that has not begun. -/
structure Unrestored (s : Store Unit StepName World) (maxAttempts : Nat) (target : Bool) : Prop where
  jobs : s.jobs = [⟨(), .pending, 0, maxAttempts, []⟩]
  working : ∀ c, s.working c = none
  world : s.world = ⟨target, false, false, false, .down, false, false⟩

variable {s : Store Unit StepName World} {maxAttempts : Nat} {target : Bool} {c : Worker} {j : JobId}
  {job : Job Unit StepName}
  {g : Config Worker (Store Unit StepName World) (Op StepName Act Empty) (Reply Unit StepName fun a => Option (Answer a))}

theorem Unrestored.good (h : Unrestored s maxAttempts target) : contract.Good s := by
  have hI : Inv s.world := by
    rw [h.world]
    exact ⟨nofun, nofun, nofun, by simp, nofun⟩
  refine ⟨hI, fun j job hj _ => ?_, fun j j' job job' hj hj' _ _ => ?_, by simp [h.working], by simp [h.working],
    fun _ => trivial⟩
  · rw [h.jobs, List.getElem?_singleton] at hj
    split at hj <;> cases hj
    exact fun _ hname => absurd hname List.not_mem_nil
  · rw [h.jobs, List.getElem?_singleton] at hj hj'
    split at hj <;> split at hj' <;> simp_all

/-- The next attempt can succeed. -/
def Restorable (c : Worker) (j : JobId) (s : Store Unit StepName World) : Prop :=
  ∃ s', restores.protocol.Ends c (restores.execute j) s s' ∧ Succeeded j s' ∧ s'.world.restored = true ∧ Sound s'.world

theorem restorable_iff (hs : Unrestored s maxAttempts target)
    (h : restores.protocol.Reachable (Protocol.Statements contract.Allowed) s g) (hjob : g.store.jobs[j]? = some job)
    (hclaim : job.claimable (g.store.stale j) = true) : Restorable c j g.store ↔ ¬ Stuck job.done g.store.world := by
  have hgood := Contract.good_of_reachable kept hs.good hs.working h
  refine (succeeds_iff (Outcome.done, any) (Q := fun w => w.restored = true ∧ Sound w) hjob hclaim).trans ?_
  exact completes_iff hgood.world (hgood.posts j job hjob (Contract.claimable_unfinished hclaim))

section Examples

def fresh (target : Bool) : Store Unit StepName World where
  jobs := [⟨(), .pending, 0, 5, []⟩]
  stale := fun _ => false
  working := fun _ => none
  world := ⟨target, false, false, false, .down, false, false⟩

theorem unrestored_fresh (target : Bool) : Unrestored (fresh target) 5 target := ⟨rfl, fun _ => rfl, rfl⟩

def run (ending : Ending) (motion : Motion) (n : Nat) : List (Move Worker (Chance (Outcome × Choice)) (Request Empty Empty)) :=
  List.replicate n (.run 0 ⟨(.done, ⟨ending, motion, true, 1⟩), false⟩)

def watch : Worker → Op StepName Act Empty → Store Unit StepName World → Bool :=
  Contract.watched legal (fun _ _ => true) fun _ _ _ => true

theorem allowed_watch (g : Config Worker (Store Unit StepName World) (Op StepName Act Empty)
      (Reply Unit StepName fun a => Option (Answer a))) (m : Move Worker (Chance (Outcome × Choice)) (Request Empty Empty))
    (hm : Protocol.watch watch g m = true) : Protocol.Statements contract.Allowed g m :=
  Protocol.statements_watch (Contract.allowed_watched (fun _ _ h => h) (fun x _ _ => nomatch x) fun _ _ _ _ => trivial) g m hm

end Examples

end Corebase.RestoreRuns
