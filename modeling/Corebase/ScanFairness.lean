import Corebase.Rotation

namespace Corebase.ScanFairness

open Rotation

inductive Status
  | ready
  | paused
  | pausing
  | other
deriving DecidableEq

/-- A project with its database, and when each scan has last had to do with it. -/
structure Project where
  id : Nat
  status : Status
  /-- The status of the database is `running`. -/
  running : Bool
  diskCheckedAt : Option Nat
  createdAt : Nat
  lastActiveAt : Option Nat
  free : Bool
  lastPassed : Option Nat
  /-- The end of the last backup that succeeded. -/
  lastAnyAt : Option Nat
deriving DecidableEq

def day : Nat := 86400

namespace Project

variable (p : Project)

def live : Bool := p.status = .ready && p.running

def idleSince : Nat := p.lastActiveAt.getD p.createdAt

def floorDays : Nat := if p.free then 90 else 30

end Project

/-- The reading of a project's disk, or what comes in its way. -/
inductive DiskVisit
  | unreachable
  | measured
  | threw (recorded : Bool)
deriving DecidableEq

def diskScan : Queue Nat Project DiskVisit where
  ident p := p.id
  stands p := p.live
  due _ p := p.live
  key p := p.diskCheckedAt
  visit now o p := match o with
    | .unreachable | .threw false => p
    | .measured | .threw true => { p with diskCheckedAt := some now }
  stops o := match o with
    | .threw _ => true
    | _ => false
  moves o := match o with
    | .unreachable | .threw false => false
    | .measured | .threw true => true
  drift _ p := p

inductive IdleVisit
  | unreachable
  | active
  /-- There is a job with the project's key already. -/
  | alreadyScheduled
  | paused
  | threw (active pausing : Bool)
deriving DecidableEq

def idleScan (idleDays : Nat) : Queue Nat Project IdleVisit where
  ident p := p.id
  stands p := p.live
  due now p := p.live && p.idleSince + idleDays * day < now
  key p := some p.idleSince
  visit now o p := match o with
    | .unreachable | .alreadyScheduled | .threw false false => p
    | .active | .threw true false => { p with lastActiveAt := some now }
    | .paused | .threw false true => { p with status := .pausing }
    | .threw true true => { p with lastActiveAt := some now, status := .pausing }
  stops o := match o with
    | .threw _ _ => true
    | _ => false
  moves o := match o with
    | .unreachable | .alreadyScheduled | .threw false false => false
    | _ => true
  drift _ p := p

inductive VerifyVisit
  | noCipherPass
  | passed
  | failed
  | threw (passed : Bool)
deriving DecidableEq

def verifyScan : Queue Nat Project VerifyVisit where
  ident p := p.id
  stands p := p.status = .ready || p.status = .paused
  due now p := (p.status = .ready || p.status = .paused) && p.lastPassed.all (· + p.floorDays * day < now)
  key p := p.lastPassed
  visit now o p := match o with
    | .noCipherPass | .failed | .threw false => p
    | .passed | .threw true => { p with lastPassed := some now }
  stops o := match o with
    | .threw _ => true
    | _ => false
  moves o := match o with
    | .noCipherPass | .failed | .threw false => false
    | .passed | .threw true => true
  drift _ p := p

/-- A project that is not due for a backup, or has one already, is skipped. -/
inductive BackupVisit
  | skipped
  | created (succeeded : Bool)
  | threw
deriving DecidableEq

/-- The backup that a visit creates succeeds before the next sweep or not. Others succeed between two sweeps. -/
def backupScan : Queue Nat Project BackupVisit where
  ident p := p.id
  stands p := p.live
  due _ p := p.live
  key p := p.lastAnyAt
  visit now o p := match o with
    | .skipped | .created false | .threw => p
    | .created true => { p with lastAnyAt := some now }
  stops o := match o with
    | .threw => true
    | _ => false
  moves o := match o with
    | .skipped | .created false | .threw => false
    | .created true => true
  drift now p := { p with lastAnyAt := some now }

theorem keeps_self {Outcome : Type} (R : Queue Nat Project Outcome) (now : Nat) (p : Project) : R.Keeps now p p :=
  ⟨rfl, id, .inl rfl⟩

theorem disk_lawful : diskScan.Lawful where
  stands _ _ h := h
  later _ _ _ _ h := h
  visit now o p := by
    rcases o with _ | _ | (_ | _)
    · exact keeps_self _ now p
    · exact ⟨rfl, id, .inr rfl⟩
    · exact keeps_self _ now p
    · exact ⟨rfl, id, .inr rfl⟩
  drift now p := keeps_self _ now p
  moves now o p h := by
    rcases o with _ | _ | (_ | _)
    · cases h
    · exact .inr rfl
    · cases h
    · exact .inr rfl

theorem idle_lawful (idleDays : Nat) : (idleScan idleDays).Lawful where
  stands _ p h := by
    simp only [idleScan, Bool.and_eq_true] at h
    exact h.1
  later _ _ p hle h := by
    simp only [idleScan, Bool.and_eq_true, decide_eq_true_eq] at h ⊢
    exact ⟨h.1, h.2.trans_le hle⟩
  visit now o p := by
    rcases o with _ | _ | _ | _ | ⟨_ | _, _ | _⟩
    · exact keeps_self _ now p
    · exact ⟨rfl, id, .inr rfl⟩
    · exact keeps_self _ now p
    · exact ⟨rfl, fun h => (by cases h), .inl rfl⟩
    · exact keeps_self _ now p
    · exact ⟨rfl, fun h => (by cases h), .inl rfl⟩
    · exact ⟨rfl, id, .inr rfl⟩
    · exact ⟨rfl, fun h => (by cases h), .inr rfl⟩
  drift now p := keeps_self _ now p
  moves now o p h := by
    rcases o with _ | _ | _ | _ | ⟨_ | _, _ | _⟩
    · cases h
    · exact .inr rfl
    · cases h
    · exact .inl rfl
    · cases h
    · exact .inl rfl
    · exact .inr rfl
    · exact .inl rfl

theorem verify_lawful : verifyScan.Lawful where
  stands _ p h := by
    simp only [verifyScan, Bool.and_eq_true] at h
    exact h.1
  later now now' p hle h := by
    simp only [verifyScan, Bool.and_eq_true] at h ⊢
    refine ⟨h.1, ?_⟩
    have hfloor := h.2
    cases hp : p.lastPassed with
    | none => rfl
    | some t =>
        rw [hp, Option.all_some, decide_eq_true_eq] at hfloor
        rw [Option.all_some, decide_eq_true_eq]
        exact hfloor.trans_le hle
  visit now o p := by
    rcases o with _ | _ | _ | (_ | _)
    · exact keeps_self _ now p
    · exact ⟨rfl, id, .inr rfl⟩
    · exact keeps_self _ now p
    · exact keeps_self _ now p
    · exact ⟨rfl, id, .inr rfl⟩
  drift now p := keeps_self _ now p
  moves now o p h := by
    rcases o with _ | _ | _ | (_ | _)
    · cases h
    · exact .inr rfl
    · cases h
    · cases h
    · exact .inr rfl

theorem backup_lawful : backupScan.Lawful where
  stands _ _ h := h
  later _ _ _ _ h := h
  visit now o p := by
    rcases o with _ | (_ | _) | _
    · exact keeps_self _ now p
    · exact keeps_self _ now p
    · exact ⟨rfl, id, .inr rfl⟩
    · exact keeps_self _ now p
  drift _ _ := ⟨rfl, id, .inr rfl⟩
  moves now o p h := by
    rcases o with _ | (_ | _) | _
    · cases h
    · cases h
    · exact .inr rfl
    · cases h

variable {Outcome : Type}

/-- From any state, every project that is due is examined in any run of sweeps with as many places in their batches as
there are projects, and one more for each place that `spare` does not count. -/
def Fair (R : Queue Nat Project Outcome) (batch : Nat)
    (spare : Nat → List (Sweep Nat Outcome) → List Project → Nat) : Prop :=
  ∀ clock projects sweeps p, R.Past clock projects → p ∈ projects → R.due (clock + 1) p = true →
    (∀ w ∈ sweeps, w.ends p.id = none) → projects.length + spare clock sweeps projects ≤ sweeps.length * batch →
    R.Served batch p.id clock sweeps projects

theorem fair_of_lawful {R : Queue Nat Project Outcome} (hR : R.Lawful) (hident : R.ident = Project.id) (batch : Nat) :
    Fair R batch (R.allStays batch) := by
  intro clock projects sweeps p hpast hp hdue hends hplaces
  rw [← hident] at hends ⊢
  exact Queue.served_of_places hR sweeps hpast hp hdue hends hplaces

/-- A project that has never been verified. -/
def unverified (id : Nat) : Project := ⟨id, .ready, true, none, 0, none, true, none, none⟩

/-- The first project fails its verification. -/
def failing : Sweep Nat VerifyVisit := ⟨0, fun _ => none, 0, fun _ => 0, fun id => if id = 0 then .failed else .passed⟩

end Corebase.ScanFairness
