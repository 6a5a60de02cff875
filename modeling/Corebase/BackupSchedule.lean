import Corebase.JsText

namespace Corebase.BackupSchedule

open JsText

/-! Times are milliseconds since the epoch -/

def MINUTE : Nat := 60000

def HOUR : Nat := 3600000

def DAY : Nat := 86400000

structure Window where
  startHour : Nat
  endHour : Nat
  inDay : endHour ≤ 24
deriving DecidableEq

def WINDOW : Window := ⟨3, 6, by decide⟩

def always : Window := ⟨0, 24, by decide⟩

inductive BackupType
  | full | incr
deriving DecidableEq

inductive Plan
  | free | pro | team | enterprise
deriving DecidableEq

structure Schedule where
  fullEveryDays : Nat
  incrEveryDays : Nat

def scheduleFor : Plan → Schedule
  | .free => ⟨1, 0⟩
  | .pro | .team | .enterprise => ⟨7, 1⟩

structure Project where
  id : Text
  plan : Plan
deriving DecidableEq

structure DueInput where
  project : Project
  now : Nat
  lastFullAt : Option Nat
  lastAnyAt : Option Nat
  window : Window

section Decision

/-! The first two bytes of the digest of an id, and what the local clock is ahead of UTC. -/

variable (digest : Text → Nat) (zone : Nat)

def slotMinuteFor (projectId : Text) (windowMinutes : Nat) : Nat := digest projectId % max 1 windowMinutes

def getHours (now : Nat) : Nat := (now + zone) / HOUR % 24

def getMinutes (now : Nat) : Nat := (now + zone) / MINUTE % 60

def Window.minutes (w : Window) : Nat := (w.endHour - w.startHour) * 60

def slotWidthMinutes : Nat := 30

def inSlot (projectId : Text) (now : Nat) (window : Window) : Bool :=
  let hour := getHours zone now
  if window.startHour = 0 ∧ window.endHour = 24 then true
  else if hour < window.startHour ∨ window.endHour ≤ hour then false
  else
    let minuteOfWindow := (hour - window.startHour) * 60 + getMinutes zone now
    let slot := slotMinuteFor digest projectId window.minutes
    slot ≤ minuteOfWindow && minuteOfWindow < slot + slotWidthMinutes

def decideBackup (a : DueInput) : Option BackupType :=
  let sched := scheduleFor a.project.plan
  match a.lastFullAt with
  | none => some .full
  | some lastFull =>
      if lastFull + sched.fullEveryDays * 2 * DAY ≤ a.now then some .full
      else if inSlot digest zone a.project.id a.now a.window = false then none
      else if lastFull + sched.fullEveryDays * DAY ≤ a.now then some .full
      else if 0 < sched.incrEveryDays ∧ a.lastAnyAt.getD lastFull + sched.incrEveryDays * DAY ≤ a.now then some .incr
      else none

/-- A plan with a full backup every night. -/
def Plan.nightly (plan : Plan) : Prop := (scheduleFor plan).fullEveryDays = 1

variable {digest zone} {a : DueInput}

theorem scheduleFor_pos (plan : Plan) : 1 ≤ (scheduleFor plan).fullEveryDays := by
  cases plan <;> decide

theorem Plan.nightly.free {plan : Plan} (h : plan.nightly) : plan = .free := by
  cases plan with
  | free => rfl
  | pro | team | enterprise => cases h

/-- A backup of either type is due only a day after the last full. -/
theorem decideBackup_day {type : BackupType} {lastFull : Nat} (hfull : a.lastFullAt = some lastFull)
    (hany : ∀ t, a.lastAnyAt = some t → lastFull ≤ t) (h : decideBackup digest zone a = some type) : lastFull + DAY ≤ a.now := by
  have hpos := scheduleFor_pos a.project.plan
  have hscale : DAY ≤ (scheduleFor a.project.plan).fullEveryDays * DAY := Nat.le_mul_of_pos_left _ hpos
  unfold decideBackup at h
  rw [hfull] at h
  dsimp only at h
  split at h
  next hover =>
    have hdouble := Nat.mul_le_mul_right DAY (Nat.le_mul_of_pos_right (scheduleFor a.project.plan).fullEveryDays Nat.two_pos)
    omega
  next =>
    split at h
    next => cases h
    next =>
      split at h
      next hdue => omega
      next =>
        split at h
        next hincr =>
          have hlast : lastFull ≤ a.lastAnyAt.getD lastFull := by
            cases hlastAny : a.lastAnyAt with
            | none => exact Nat.le_refl _
            | some t => exact hany t hlastAny
          have hscale := Nat.le_mul_of_pos_left DAY hincr.1
          omega
        next => cases h

/-- With a nightly plan nothing but a full backup is due, and it is a day after the last in its slot, or after two. -/
theorem decideBackup_nightly (hnightly : a.project.plan.nightly) {type : BackupType} :
    decideBackup digest zone a = some type ↔ type = .full ∧ ∀ lastFull, a.lastFullAt = some lastFull →
      lastFull + 2 * DAY ≤ a.now ∨ lastFull + DAY ≤ a.now ∧ inSlot digest zone a.project.id a.now a.window = true := by
  have hfree := hnightly.free
  unfold decideBackup
  rw [hfree]
  cases hfull : a.lastFullAt with
  | none => cases type <;> simp
  | some lastFull =>
      simp only [scheduleFor, Nat.one_mul, Option.some.injEq, forall_eq']
      cases hslot : inSlot digest zone a.project.id a.now a.window with
      | false => by_cases hover : lastFull + 2 * DAY ≤ a.now <;> cases type <;> simp [hover]
      | true =>
          by_cases hdue : lastFull + DAY ≤ a.now
          · by_cases hover : lastFull + 2 * DAY ≤ a.now <;> cases type <;> simp [hover, hdue]
          · have hover : ¬ lastFull + 2 * DAY ≤ a.now := by omega
            simp [hover, hdue]

end Decision

/-! Nights -/

section Nights

variable (zone : Nat) (w : Window)

/-- How long the window is open, also where it ends on the next day. -/
def Window.hours : Nat := if w.startHour < w.endHour then w.endHour - w.startHour else 24 + w.endHour - w.startHour

/-- The time is in the window that opens on the day. -/
def InNight (n : Nat) (t : Nat) : Prop :=
  n * DAY + w.startHour * HOUR ≤ t + zone ∧ t + zone < n * DAY + w.startHour * HOUR + w.hours * HOUR

instance (n : Nat) (t : Nat) : Decidable (InNight zone w n t) := inferInstanceAs (Decidable (_ ∧ _))

variable {zone w} {n : Nat} {t u : Nat}

theorem Window.hours_le : w.hours ≤ 24 := by
  have hday := w.inDay
  unfold Window.hours
  split <;> omega

theorem InNight.lt (ht : InNight zone w n t) (hu : InNight zone w n u) : u < t + DAY := by
  have hhours := Nat.mul_le_mul_right HOUR (Window.hours_le (w := w))
  have hday : 24 * HOUR = DAY := rfl
  have hlow := ht.1
  have hhigh := hu.2
  omega

variable (digest : Text → Nat) (projectId : Text)

/-- Where the slot ends in the night, in local time. -/
def slotEnd (w : Window) (n : Nat) : Nat :=
  n * DAY + w.startHour * HOUR + min (slotMinuteFor digest projectId w.minutes + slotWidthMinutes) w.minutes * MINUTE

/-- The last five minutes of a slot that begins five minutes before the window closes are in it. -/
theorem inSlot_last (hwindow : w.startHour < w.endHour) (hslot : slotMinuteFor digest projectId w.minutes + 5 ≤ w.minutes)
    (hlow : slotEnd digest projectId w n ≤ t + zone + 5 * MINUTE) (hhigh : t + zone < slotEnd digest projectId w n) :
    inSlot digest zone projectId t w = true ∧ InNight zone w n t := by
  have hends : 5 ≤ min (slotMinuteFor digest projectId w.minutes + slotWidthMinutes) w.minutes :=
    Nat.le_min.mpr ⟨Nat.le_add_left_of_le (by decide), by omega⟩
  have hwide := Nat.min_le_left (slotMinuteFor digest projectId w.minutes + slotWidthMinutes) w.minutes
  have hopen := Nat.min_le_right (slotMinuteFor digest projectId w.minutes + slotWidthMinutes) w.minutes
  have hfive : slotMinuteFor digest projectId w.minutes + 5 ≤
      min (slotMinuteFor digest projectId w.minutes + slotWidthMinutes) w.minutes :=
    Nat.le_min.mpr ⟨Nat.add_le_add_left (by decide) _, hslot⟩
  have hday := w.inDay
  unfold slotEnd at hlow hhigh
  unfold inSlot InNight getHours getMinutes Window.hours
  unfold Window.minutes slotWidthMinutes MINUTE HOUR DAY at *
  generalize min (slotMinuteFor digest projectId ((w.endHour - w.startHour) * 60) + 30) ((w.endHour - w.startHour) * 60) = e at *
  generalize slotMinuteFor digest projectId ((w.endHour - w.startHour) * 60) = s at *
  generalize t + zone = x at *
  obtain ⟨y, hy⟩ : ∃ y, x / 60000 = n * 1440 + w.startHour * 60 + y := ⟨x / 60000 - (n * 1440 + w.startHour * 60), by omega⟩
  have hyLow : e ≤ y + 5 := by omega
  have hyHigh : y < e := by omega
  have hyHour : y / 60 < w.endHour - w.startHour := by omega
  have hhour : x / 3600000 % 24 = w.startHour + y / 60 := by
    have hscale : x / 3600000 = x / 60000 / 60 := by rw [Nat.div_div_eq_div_mul]
    rw [hscale, hy]
    omega
  have hminute : x / 60000 % 60 = y % 60 := by
    rw [hy]
    omega
  have hminuteOfWindow : (w.startHour + y / 60 - w.startHour) * 60 + y % 60 = y := by omega
  constructor
  · dsimp only
    rw [hhour, hminute, hminuteOfWindow]
    split
    · rfl
    · have hinside : ¬ (w.startHour + y / 60 < w.startHour ∨ w.endHour ≤ w.startHour + y / 60) := by omega
      rw [if_neg hinside]
      simp only [Bool.and_eq_true, decide_eq_true_eq]
      omega
  · rw [if_pos hwindow]
    have hclosed : y < (w.endHour - w.startHour) * 60 := Nat.lt_of_lt_of_le hyHigh hopen
    clear hlow hhigh hopen hwide hfive hslot hends hhour hminute hminuteOfWindow hyLow hyHigh hyHour
    generalize w.endHour - w.startHour = hours at hclosed ⊢
    omega

end Nights

end Corebase.BackupSchedule
