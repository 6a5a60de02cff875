import Mathlib.Algebra.Order.Field.Rat
import Mathlib.Order.Monotone.Basic

namespace Corebase.DiskLadder

inductive DiskState
  | ok
  | warn
  | critical
  | read_only
deriving DecidableEq

def DiskState.rung : DiskState → Nat
  | .ok => 0
  | .warn => 1
  | .critical => 2
  | .read_only => 3

structure Ladder where
  warn : ℚ
  critical : ℚ
  readOnly : ℚ
  lift : ℚ

def LADDER : Ladder := ⟨80, 90, 95, 90⟩

def rungFor (pct : ℚ) (current : DiskState) : DiskState :=
  if LADDER.readOnly ≤ pct then .read_only
  else if current = .read_only ∧ LADDER.lift ≤ pct then .read_only
  else if LADDER.critical ≤ pct then .critical
  else if LADDER.warn ≤ pct then .warn
  else .ok

/-- Every operation on numbers rounds. The cap in bytes is exact. -/
def percent (round : ℚ → ℚ) (limitMb used : Nat) : ℚ :=
  round (round (round used / (limitMb * 1024 * 1024 : Nat)) * 100)

/-- The rung in the control plane and the setting of the project's database. -/
structure Project where
  stored : DiskState
  readOnly : Bool
deriving DecidableEq

def Project.Agree (p : Project) : Prop := p.stored = .read_only ↔ p.readOnly = true

instance (p : Project) : Decidable p.Agree := inferInstanceAs (Decidable (_ ↔ _))

/-- A statement to the control plane: answered, without effect, or with an effect and no answer. The last
two are also what a worker leaves that dies before or after it. -/
inductive Fate
  | done
  | refused
  | lost
deriving DecidableEq

def Fate.takes : Fate → Bool
  | .refused => false
  | _ => true

/-- A connection of `setReadOnly` with one password, and whether its `ALTER DATABASE` took effect when it
did not go through. -/
inductive Login
  | applied
  | failed (altered : Bool)
  | crashed (altered : Bool)
deriving DecidableEq

inductive Ending
  | returned
  | threw
  | crashed
deriving DecidableEq

def setReadOnly (on : Bool) : List Login → Bool → Bool × Ending
  | [], setting => (setting, .threw)
  | .applied :: _, _ => (on, .returned)
  | .failed altered :: rest, setting => setReadOnly on rest (if altered then on else setting)
  | .crashed altered :: _, setting => (if altered then on else setting, .crashed)

/-- What a sweep meets at one project. There are no logins when the passwords cannot be had. -/
structure Sweep where
  measured : Option Nat
  limitMb : Nat
  recorded : Fate
  logins : List Login
  restored : Fate

def Sweep.next (round : ℚ → ℚ) (w : Sweep) (p : Project) (used : Nat) : DiskState :=
  rungFor (percent round w.limitMb used) p.stored

/-- The state that is left, and whether the sweep of the project was completed. -/
def sweep (round : ℚ → ℚ) (w : Sweep) (p : Project) : Project × Bool :=
  match w.measured with
  | none => (p, true)
  | some used =>
    let next := w.next round p used
    match w.recorded with
    | .refused => (p, false)
    | .lost => ({ p with stored := next }, false)
    | .done =>
      if next = p.stored then ({ p with stored := next }, true)
      else if next = .read_only ∨ p.stored = .read_only then
        match setReadOnly (next = .read_only) w.logins p.readOnly with
        | (setting, .returned) => (⟨next, setting⟩, true)
        | (setting, .crashed) => (⟨next, setting⟩, false)
        | (setting, .threw) => (⟨if w.restored.takes then p.stored else next, setting⟩, w.restored = .done)
      else ({ p with stored := next }, true)

/-- The states after the sweeps of a run. -/
def trail (round : ℚ → ℚ) : List Sweep → Project → List (Project × Bool)
  | [], _ => []
  | w :: ws, p => sweep round w p :: trail round ws (sweep round w p).1

/-- Some login that was tried had its `ALTER DATABASE` take effect. -/
def altered : List Login → Bool
  | [] => false
  | .applied :: _ => true
  | .failed a :: rest => a || altered rest
  | .crashed a :: _ => a

def ending : List Login → Ending
  | [] => .threw
  | .applied :: _ => .returned
  | .failed _ :: rest => ending rest
  | .crashed _ :: _ => .crashed

def Sweep.crosses (round : ℚ → ℚ) (w : Sweep) (p : Project) : Bool :=
  w.measured.any fun used =>
    w.next round p used ≠ p.stored && (w.next round p used = .read_only || p.stored = .read_only)

/-- The worker is not stopped between the record and the `ALTER DATABASE`, and puts the record back exactly
when the `ALTER DATABASE` did not take effect. -/
def Sweep.whole (w : Sweep) : Bool :=
  match w.recorded with
  | .refused => true
  | .lost => false
  | .done => match ending w.logins with
    | .returned => true
    | .crashed => altered w.logins
    | .threw => altered w.logins = !w.restored.takes

def Whole (round : ℚ → ℚ) : List Sweep → Project → Prop
  | [], _ => True
  | w :: ws, p => (w.crosses round p = true → w.whole = true) ∧ Whole round ws (sweep round w p).1

instance Whole.decide (round : ℚ → ℚ) : ∀ ws p, Decidable (Whole round ws p)
  | [], _ => .isTrue trivial
  | _ :: ws, _ => @instDecidableAnd _ _ _ (Whole.decide round ws _)

theorem rungFor_readOnly (pct : ℚ) (current : DiskState) :
    rungFor pct current = .read_only ↔ 95 ≤ pct ∨ current = .read_only ∧ 90 ≤ pct := by
  change (if 95 ≤ pct then DiskState.read_only else if current = .read_only ∧ 90 ≤ pct then .read_only
    else if 90 ≤ pct then .critical else if 80 ≤ pct then .warn else .ok) = _ ↔ _
  by_cases h95 : 95 ≤ pct
  · simp [h95]
  by_cases hheld : current = .read_only ∧ 90 ≤ pct
  · simp [h95, hheld]
  · rw [if_neg h95, if_neg hheld]
    split_ifs <;> simp [h95, hheld]

/-- Off the read-only rung, the rung is the number of lines that are passed. -/
theorem rungFor_rung {pct : ℚ} {current : DiskState} (h : rungFor pct current ≠ .read_only) :
    (rungFor pct current).rung = if 90 ≤ pct then 2 else if 80 ≤ pct then 1 else 0 := by
  rw [ne_eq, rungFor_readOnly, not_or] at h
  change (if 95 ≤ pct then DiskState.read_only else if current = .read_only ∧ 90 ≤ pct then .read_only
    else if 90 ≤ pct then .critical else if 80 ≤ pct then .warn else .ok).rung = _
  rw [if_neg h.1, if_neg h.2]
  split_ifs <;> rfl

theorem rungFor_mono {a b : ℚ} (hab : a ≤ b) (current : DiskState) :
    (rungFor a current).rung ≤ (rungFor b current).rung := by
  by_cases hb : rungFor b current = .read_only
  · rw [hb]
    cases rungFor a current <;> decide
  have ha : rungFor a current ≠ .read_only := by
    rw [rungFor_readOnly] at hb
    rw [ne_eq, rungFor_readOnly]
    rintro (h | ⟨hc, h⟩)
    · exact hb (.inl (h.trans hab))
    · exact hb (.inr ⟨hc, h.trans hab⟩)
  have h90 : 90 ≤ a → 90 ≤ b := fun h => h.trans hab
  have h80 : 80 ≤ a → 80 ≤ b := fun h => h.trans hab
  rw [rungFor_rung ha, rungFor_rung hb]
  split_ifs <;> simp_all

theorem percent_mono {round : ℚ → ℚ} (hround : Monotone round) (limitMb : Nat) {a b : Nat} (hab : a ≤ b) :
    percent round limitMb a ≤ percent round limitMb b := by
  have hused : round a ≤ round b := hround (by exact_mod_cast hab)
  have hshare : round (round a / (limitMb * 1024 * 1024 : Nat)) ≤ round (round b / (limitMb * 1024 * 1024 : Nat)) :=
    hround (div_le_div_of_nonneg_right hused (Nat.cast_nonneg _))
  exact hround (mul_le_mul_of_nonneg_right hshare (by decide))

theorem setReadOnly_eq (on : Bool) (ls : List Login) (setting : Bool) :
    setReadOnly on ls setting = (if altered ls then on else setting, ending ls) := by
  induction ls generalizing setting with
  | nil => rfl
  | cons l rest ih =>
      cases l with
      | applied => rfl
      | failed a =>
          rw [setReadOnly, ih]
          cases a <;> simp [altered, ending]
      | crashed a => rfl

theorem altered_of_returned {ls : List Login} (h : ending ls = .returned) : altered ls = true := by
  induction ls with
  | nil => cases h
  | cons l rest ih =>
      cases l with
      | applied => rfl
      | failed a => simp [altered, ih h]
      | crashed a => cases h

theorem sweep_agree (round : ℚ → ℚ) (w : Sweep) {p : Project} (h : p.Agree) :
    (sweep round w p).1.Agree ↔ (w.crosses round p = true → w.whole = true) := by
  obtain ⟨stored, setting⟩ := p
  unfold Sweep.crosses
  cases hm : w.measured with
  | none => simp [sweep, hm, h]
  | some used =>
      simp only [sweep, hm, Option.any_some, setReadOnly_eq]
      generalize w.next round ⟨stored, setting⟩ used = next
      by_cases hsame : next = stored
      · cases w.recorded <;> simp_all [Project.Agree]
      by_cases hcross : next = .read_only ∨ stored = .read_only
      · -- exactly one of the two rungs is read-only, and the setting agrees with the stored one
        have hturn : next = .read_only ↔ setting = false := by
          rcases hcross with rfl | rfl <;> cases setting <;> simp_all [Project.Agree]
        have hstored : stored = .read_only ↔ setting = true := h
        simp only [hsame, hcross, Sweep.whole]
        cases w.recorded with
        | refused => simp [Project.Agree, hstored]
        | lost => cases setting <;> simp_all [Project.Agree]
        | done =>
            cases he : ending w.logins with
            | returned =>
                have ha := altered_of_returned he
                cases setting <;> simp_all [Project.Agree]
            | threw =>
                cases altered w.logins <;> cases w.restored <;> cases setting <;>
                  simp_all [Project.Agree, Fate.takes]
            | crashed => cases altered w.logins <;> cases setting <;> simp_all [Project.Agree]
      · cases w.recorded <;> simp_all [Project.Agree]

theorem trail_agree (round : ℚ → ℚ) (ws : List Sweep) {p : Project} (h : p.Agree) :
    (∀ q ∈ trail round ws p, q.1.Agree) ↔ Whole round ws p := by
  induction ws generalizing p with
  | nil => simp [trail, Whole]
  | cons w ws ih =>
      simp only [trail, Whole, List.forall_mem_cons]
      constructor
      · rintro ⟨hfirst, hrest⟩
        exact ⟨(sweep_agree round w h).1 hfirst, (ih hfirst).1 hrest⟩
      · rintro ⟨hfirst, hrest⟩
        have hagree := (sweep_agree round w h).2 hfirst
        exact ⟨hagree, (ih hagree).2 hrest⟩

theorem ladder_agrees (round : ℚ → ℚ) (hround : Monotone round) :
    (∀ limitMb current a b, a ≤ b →
      (rungFor (percent round limitMb a) current).rung ≤ (rungFor (percent round limitMb b) current).rung) ∧
    (∀ pct, rungFor pct .read_only ≠ .read_only ↔ pct < 90) ∧
    (∀ pct current, current ≠ .read_only → (rungFor pct current = .read_only ↔ 95 ≤ pct)) ∧
    ∀ ws p, p.Agree → ((∀ q ∈ trail round ws p, q.1.Agree) ↔ Whole round ws p) := by
  refine ⟨?_, ?_, ?_, fun ws p hp => trail_agree round ws hp⟩
  · intro limitMb current a b hab
    exact rungFor_mono (percent_mono hround limitMb hab) current
  · intro pct
    rw [ne_eq, rungFor_readOnly, ← not_le]
    refine not_congr ⟨?_, fun h => .inr ⟨rfl, h⟩⟩
    rintro (h | ⟨-, h⟩)
    · exact le_trans (by decide) h
    · exact h
  · intro pct current hcurrent
    simp [rungFor_readOnly, hcurrent]

/-- Up at 96 %, held at 92 %, and down at 89 %. -/
def seesaw : List Sweep :=
  [⟨some 503316480, 500, .done, [.failed false, .applied], .done⟩, ⟨some 482344960, 500, .done, [], .done⟩,
   ⟨some 466616320, 500, .done, [.applied], .done⟩]

theorem seesaw_agrees : Monotone (id : ℚ → ℚ) ∧ Whole id seesaw ⟨.ok, false⟩ ∧
    ∀ q ∈ trail id seesaw ⟨.ok, false⟩, q.1.Agree := by
  have h : Whole id seesaw ⟨.ok, false⟩ := by decide +kernel
  exact ⟨monotone_id, h, ((ladder_agrees id monotone_id).2.2.2 seesaw ⟨.ok, false⟩ (by decide)).2 h⟩

/-- The worker dies once the rung is recorded, and the next sweep sees no change of rung. -/
theorem crash_unrepaired : ¬ ∀ ws p, p.Agree → ∀ q ∈ trail id ws p, q.2 = true → q.1.Agree := by
  intro h
  have hbad := h [⟨some 503316480, 500, .done, [.crashed false], .done⟩, ⟨some 503316480, 500, .done, [], .done⟩]
    ⟨.ok, false⟩ (by decide) (⟨.read_only, false⟩, true) (by decide +kernel) rfl
  exact absurd hbad (by decide)

end Corebase.DiskLadder
