import Mathlib.Data.List.Induction
import Mathlib.Data.List.TakeWhile

namespace Corebase.ResumeMachine

structure ResumeState where
  asked : Bool
  sawResuming : Bool
  sawReady : Bool
  deriving DecidableEq

def initialResumeState : ResumeState := ⟨false, false, false⟩

structure ResumeDecision where
  next : ResumeState
  ask : Bool
  toastResumed : Bool
  deriving DecidableEq

def onStatus (state : ResumeState) (status : Option String) : ResumeDecision :=
  let sawResuming := state.sawResuming || status = some "resuming"
  let sawReady := state.sawReady || status = some "ready"
  if status = some "paused" && !state.asked && !state.sawReady then
    ⟨⟨true, sawResuming, sawReady⟩, true, false⟩
  else if status = some "ready" && state.sawResuming then
    ⟨⟨false, false, true⟩, false, true⟩
  else ⟨{ state with sawResuming, sawReady }, false, false⟩

def isDeliberatelyPaused (state : ResumeState) (status : Option String) : Bool :=
  status = some "paused" && !state.asked

inductive Outcome
  | ok
  | conflict
  | error
  deriving DecidableEq

def onResumeSettled (state : ResumeState) : Outcome → ResumeState
  | .error => { state with asked := false }
  | .ok | .conflict => state

inductive Event
  | polled (status : Option String)
  | settled (outcome : Outcome)
  deriving DecidableEq

namespace Event

def paused : Event := polled (some "paused")

def resuming : Event := polled (some "resuming")

def ready : Event := polled (some "ready")

def failed : Event := settled .error

end Event

open Event

def next (state : ResumeState) : Event → ResumeState
  | polled status => (onStatus state status).next
  | settled outcome => onResumeSettled state outcome

def after (es : List Event) : ResumeState := es.foldl next initialResumeState

/-- The event makes the machine post a resume. -/
def Asks (es : List Event) (e : Event) : Prop :=
  ∃ status, e = polled status ∧ (onStatus (after es) status).ask = true

def Announces (es : List Event) (e : Event) : Prop :=
  ∃ status, e = polled status ∧ (onStatus (after es) status).toastResumed = true

/-- What has happened since the project was last polled ready, or since the visit began. -/
def sinceReady (es : List Event) : List Event := es.reverse.takeWhile (· ≠ ready)

/-- A paused project becomes ready only by being resumed. -/
def FollowsResume (es : List Event) : Prop := paused ∈ sinceReady es ∨ resuming ∈ sinceReady es

/-- What the page promises about one visit. -/
structure Sound (es : List Event) : Prop where
  asks_once : ∀ pre e mid e', pre ++ e :: mid ++ [e'] <+: es → Asks pre e → Asks (pre ++ e :: mid) e' →
    failed ∈ mid
  settled : ∀ pre e, pre ++ [e] <+: es → ready ∈ pre → ¬ Asks pre e
  announced : ∀ pre e, pre ++ [e] <+: es → (Announces pre e ↔ e = ready ∧ FollowsResume pre)
  deliberate : ∀ pre, pre ++ [paused] <+: es → ready ∈ pre →
    isDeliberatelyPaused (after (pre ++ [paused])) (some "paused") = true ∧ ¬ Asks pre paused

/-- No resume is missed between two polls. -/
def Watched (es : List Event) : Prop :=
  ∀ pre, pre ++ [ready] <+: es → paused ∈ sinceReady pre → resuming ∈ sinceReady pre

theorem after_concat (es : List Event) (e : Event) : after (es ++ [e]) = next (after es) e := by
  simp [after]

theorem sinceReady_ready (es : List Event) : sinceReady (es ++ [ready]) = [] := by
  simp [sinceReady]

theorem sinceReady_concat {e : Event} (es : List Event) (h : e ≠ ready) :
    sinceReady (es ++ [e]) = e :: sinceReady es := by
  simp [sinceReady, h]

theorem ask_iff (s : ResumeState) (status : Option String) :
    (onStatus s status).ask = true ↔ polled status = paused ∧ s.asked = false ∧ s.sawReady = false := by
  by_cases hp : status = some "paused"
  · subst hp
    cases ha : s.asked <;> cases hr : s.sawReady <;> simp [onStatus, paused, ha, hr]
  · by_cases hr : status = some "ready" <;> cases hs : s.sawResuming <;>
      simp [onStatus, paused, hp, hr, hs]

theorem toast_iff (s : ResumeState) (status : Option String) :
    (onStatus s status).toastResumed = true ↔ polled status = ready ∧ s.sawResuming = true := by
  by_cases hr : status = some "ready"
  · subst hr
    cases hs : s.sawResuming <;> simp [onStatus, ready, hs]
  · by_cases hp : status = some "paused" <;> cases ha : s.asked <;> cases hs : s.sawReady <;>
      simp [onStatus, ready, hp, hr, ha, hs]

theorem next_sawReady (s : ResumeState) (e : Event) :
    (next s e).sawReady = true ↔ s.sawReady = true ∨ e = ready := by
  cases e with
  | polled status =>
      by_cases hr : status = some "ready"
      · subst hr
        cases hs : s.sawResuming <;> simp [next, onStatus, ready, hs]
      · by_cases hp : status = some "paused" <;> cases ha : s.asked <;> cases hs : s.sawReady <;>
          simp [next, onStatus, ready, hp, hr, ha, hs]
  | settled o => cases o <;> simp [next, onResumeSettled, ready]

theorem next_sawResuming (s : ResumeState) (e : Event) :
    (next s e).sawResuming = true ↔ e ≠ ready ∧ (s.sawResuming = true ∨ e = resuming) := by
  cases e with
  | polled status =>
      by_cases hr : status = some "ready"
      · subst hr
        cases hs : s.sawResuming <;> simp [next, onStatus, ready, hs]
      · by_cases hp : status = some "paused" <;> cases ha : s.asked <;> cases hs : s.sawReady <;>
          simp [next, onStatus, ready, resuming, hp, hr, ha, hs]
  | settled o => cases o <;> simp [next, onResumeSettled, ready, resuming]

/-- The ask stands until it fails or the resume has been watched to its end. -/
theorem next_asked (s : ResumeState) (e : Event) :
    (next s e).asked = true ↔
      (e = paused ∧ s.asked = false ∧ s.sawReady = false) ∨
        (s.asked = true ∧ e ≠ failed ∧ ¬ (e = ready ∧ s.sawResuming = true)) := by
  cases e with
  | polled status =>
      by_cases hr : status = some "ready"
      · subst hr
        cases hs : s.sawResuming <;> simp [next, onStatus, ready, paused, failed, hs]
      · by_cases hp : status = some "paused" <;> cases ha : s.asked <;> cases hs : s.sawReady <;>
          simp [next, onStatus, ready, paused, failed, hp, hr, ha, hs]
  | settled o => cases o <;> simp [next, onResumeSettled, ready, paused, failed]

theorem sawReady_iff (es : List Event) : (after es).sawReady = true ↔ ready ∈ es := by
  induction es using List.reverseRecOn with
  | nil => simp [after, initialResumeState]
  | append_singleton es e ih =>
      rw [after_concat, next_sawReady, ih, List.mem_append, List.mem_singleton, eq_comm (a := e)]

theorem sawResuming_iff (es : List Event) : (after es).sawResuming = true ↔ resuming ∈ sinceReady es := by
  induction es using List.reverseRecOn with
  | nil => simp [after, initialResumeState, sinceReady]
  | append_singleton es e ih =>
      rw [after_concat, next_sawResuming, ih]
      by_cases he : e = ready
      · subst he
        simp [sinceReady_ready]
      · rw [sinceReady_concat es he, List.mem_cons, eq_comm (a := e)]
        tauto

theorem asks_iff (es : List Event) (e : Event) :
    Asks es e ↔ e = paused ∧ (after es).asked = false ∧ ready ∉ es := by
  rw [← sawReady_iff, Bool.not_eq_true]
  constructor
  · rintro ⟨status, rfl, h⟩
    exact (ask_iff _ _).mp h
  · rintro ⟨rfl, h⟩
    exact ⟨_, rfl, (ask_iff _ _).mpr ⟨rfl, h⟩⟩

theorem announces_iff (es : List Event) (e : Event) :
    Announces es e ↔ e = ready ∧ resuming ∈ sinceReady es := by
  rw [← sawResuming_iff]
  constructor
  · rintro ⟨status, rfl, h⟩
    exact (toast_iff _ _).mp h
  · rintro ⟨rfl, h⟩
    exact ⟨_, rfl, (toast_iff _ _).mpr ⟨rfl, h⟩⟩

/-- Once posted, a resume that does not fail is not posted again: it stands, or ready has been seen. -/
theorem stands {pre mid : List Event} {e : Event} (h : Asks pre e) (hf : failed ∉ mid) :
    (after (pre ++ e :: mid)).asked = true ∨ ready ∈ pre ++ e :: mid := by
  induction mid using List.reverseRecOn with
  | nil =>
      left
      rw [after_concat, next_asked]
      exact .inl ⟨((asks_iff _ _).mp h).1, ((asks_iff _ _).mp h).2.1,
        Bool.eq_false_iff.mpr (mt (sawReady_iff pre).mp ((asks_iff _ _).mp h).2.2)⟩
  | append_singleton mid d ih =>
      have hsplit : pre ++ e :: (mid ++ [d]) = (pre ++ e :: mid) ++ [d] := by simp
      rw [hsplit]
      by_cases hd : d = ready
      · exact .inr (by simp [hd])
      · rcases ih fun hm => hf (List.mem_append_left _ hm) with ha | hr
        · left
          rw [after_concat, next_asked]
          refine .inr ⟨ha, ?_, fun hc => hd hc.1⟩
          rintro rfl
          exact hf (List.mem_append_right _ (List.mem_singleton_self _))
        · exact .inr (List.mem_append_left _ hr)

/-- While no resume is missed, an ask stands only before the project is first seen ready. -/
theorem asked_fresh {es : List Event} (h : Watched es) {pre : List Event} (hp : pre <+: es)
    (ha : (after pre).asked = true) : ready ∉ pre ∧ paused ∈ sinceReady pre := by
  induction pre using List.reverseRecOn with
  | nil => cases ha
  | append_singleton pre e ih =>
      have hpre : pre <+: es := (List.prefix_append pre [e]).trans hp
      rw [after_concat, next_asked] at ha
      rcases ha with ⟨rfl, -, hr⟩ | ⟨ha, -, hd⟩
      · have hn : ready ∉ pre := by rw [← sawReady_iff, hr]; exact Bool.false_ne_true
        rw [sinceReady_concat pre (by decide)]
        refine ⟨fun hm => ?_, List.mem_cons_self ..⟩
        rcases List.mem_append.mp hm with hm | hm
        · exact hn hm
        · exact absurd (List.mem_singleton.mp hm) (by decide)
      · obtain ⟨hn, hs⟩ := ih hpre ha
        have he : e ≠ ready := by
          rintro rfl
          exact hd ⟨rfl, (sawResuming_iff pre).mpr (h pre hp hs)⟩
        rw [sinceReady_concat pre he]
        exact ⟨by simp [hn, Ne.symm he], List.mem_cons_of_mem _ hs⟩

/-- The page keeps its promises in a visit exactly when it misses no resume. -/
theorem sound_iff (es : List Event) : Sound es ↔ Watched es := by
  constructor
  · intro h pre hp hs
    have ha := (h.announced pre ready hp).mpr ⟨rfl, .inl hs⟩
    exact ((announces_iff _ _).mp ha).2
  · intro h
    constructor
    · intro pre e mid e' _ ha hb
      by_contra hf
      obtain ⟨-, hasked, hready⟩ := (asks_iff _ _).mp hb
      rcases stands ha hf with hs | hr
      · rw [hs] at hasked
        cases hasked
      · exact hready hr
    · intro pre e _ hr ha
      exact ((asks_iff _ _).mp ha).2.2 hr
    · intro pre e hp
      rw [announces_iff]
      constructor
      · rintro ⟨rfl, hs⟩
        exact ⟨rfl, .inr hs⟩
      · rintro ⟨rfl, hs | hs⟩
        · exact ⟨rfl, h pre hp hs⟩
        · exact ⟨rfl, hs⟩
    · intro pre hp hr
      have hasked : (after (pre ++ [paused])).asked = false := by
        by_contra ha
        have hn := (asked_fresh h hp (by simpa using ha)).1
        exact hn (List.mem_append_left _ hr)
      constructor
      · simp [isDeliberatelyPaused, hasked]
      · intro ha
        exact ((asks_iff _ _).mp ha).2.2 hr

/-- Arriving at a paused project, missing the resume, and then pausing it by hand. -/
theorem pause_undone : ¬ Sound [paused, settled .ok, ready, paused] := by
  intro h
  have hd := (h.deliberate [paused, settled .ok, ready] (List.prefix_refl _) (by decide)).1
  exact Bool.false_ne_true hd

end Corebase.ResumeMachine
