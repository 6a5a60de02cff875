import Corebase.JsText
import Mathlib.Data.List.Nodup

namespace Corebase.StorageSweep

open JsText

structure StoredObject where
  key : Text
  size : Nat
  lastModified : Nat
deriving DecidableEq

/-- What the object store holds under the prefix of a project. -/
structure Inventory where
  objects : List StoredObject
  distinct : (objects.map (·.key)).Nodup

def Inventory.delete (s : Inventory) (key : Text) : Inventory where
  objects := s.objects.filter fun o => o.key ≠ key
  distinct := s.distinct.sublist (List.filter_sublist.map _)

def total (objects : List StoredObject) : Nat := (objects.map (·.size)).sum

/-- A row of storage.objects, with the name of its bucket. -/
structure ObjectRow where
  bucket : Text
  name : Text
  size : Nat
  etag : Text
deriving DecidableEq

structure UploadIntent where
  id : Nat
  bucket : Text
  name : Text
  expiresAt : Nat
deriving DecidableEq

structure Usage where
  totalBytes : Nat
  objectCount : Nat
deriving DecidableEq

structure MissingObject where
  bucket : Text
  name : Text
  expectedSize : Nat
  etag : Text
  seenCount : Nat
  resolved : Bool
deriving DecidableEq

structure Project where
  ref : Text
  stored : Inventory
  objects : List ObjectRow
  intents : List UploadIntent
  usage : Usage
  missing : List MissingObject

structure SweepReport where
  orphansDeleted : Nat
  bytesReclaimed : Nat
  intentsExpired : Nat
  missingObjects : Nat
  quotaCorrected : Nat
deriving DecidableEq

/-- What becomes of a delete: it may take effect without an answer. -/
inductive Deletion
  | done | lost | refused
deriving DecidableEq

/-- The clock of the worker, and that of the database at the two reads of the intents. -/
structure Clock where
  now : Nat
  liveAt : Nat
  expiredAt : Nat
deriving DecidableEq

def DRIFT_BYTES : Nat := 100 * 1024 * 1024

def apart (a b : Nat) : Nat := (a - b) + (b - a)

/-- The counter has drifted. The quotient is compared exactly: rounding could only matter for counters
that the first threshold has already decided on. -/
def drifted (counted trueBytes : Nat) : Bool :=
  DRIFT_BYTES < apart trueBytes counted || (0 < counted && counted < 100 * apart trueBytes counted)

namespace Project

variable (p : Project) (graceMs : Nat) (clock : Clock)

def pathPrefix : Text := "projects/".toList ++ p.ref ++ ['/']

def keyOf (bucket name : Text) : Text := p.pathPrefix ++ bucket ++ '/' :: name

def rowKeys : List Text := p.objects.map fun o => p.keyOf o.bucket o.name

def live : List UploadIntent := p.intents.filter fun i => clock.liveAt < i.expiresAt

def expired : List UploadIntent := p.intents.filter fun i => i.expiresAt ≤ clock.expiredAt

def known : List Text := p.rowKeys ++ (p.live clock).map fun i => p.keyOf i.bucket i.name

def orphans : List StoredObject :=
  p.stored.objects.filter fun o => o.key ∉ p.known clock && o.lastModified + graceMs < clock.now

/-- The listing without the orphans. -/
def remaining : List StoredObject :=
  p.stored.objects.filter fun o => !(p.orphans graceMs clock).any fun x => x.key = o.key

end Project

section Passes

variable (deletion : Text → Deletion)

/-- The first pass, which a failed delete ends. -/
def collect : List StoredObject → Inventory → SweepReport → Inventory × SweepReport × Bool
  | [], s, report => (s, report, true)
  | o :: orphans, s, report =>
      match deletion o.key with
      | .done => collect orphans (s.delete o.key) { report with
          orphansDeleted := report.orphansDeleted + 1, bytesReclaimed := report.bytesReclaimed + o.size }
      | .lost => (s.delete o.key, report, false)
      | .refused => (s, report, false)

/-- The second pass, which takes no notice of what becomes of its deletes. -/
def expire : List UploadIntent → Project → SweepReport → Project × SweepReport
  | [], p, report => (p, report)
  | e :: expired, p, report =>
      let key := p.keyOf e.bucket e.name
      expire expired { p with
        stored := if deletion key = .refused then p.stored else p.stored.delete key
        intents := p.intents.filter fun i => i.id ≠ e.id } { report with intentsExpired := report.intentsExpired + 1 }

end Passes

/-- A row without an object, seen once or once more. -/
def quarantine (o : ObjectRow) (missing : List MissingObject) : List MissingObject :=
  if missing.any fun m => m.bucket = o.bucket && m.name = o.name then
    missing.map fun m =>
      if m.bucket = o.bucket && m.name = o.name then { m with seenCount := m.seenCount + 1, resolved := false } else m
  else missing ++ [⟨o.bucket, o.name, o.size, o.etag, 1, false⟩]

/-- The sweep of a project whose listing has succeeded, and whether it has come to its end. -/
def sweepProject (graceMs : Nat) (clock : Clock) (deletion : Text → Deletion) (p : Project) (report : SweepReport) :
    Project × SweepReport × Bool :=
  match collect deletion (p.orphans graceMs clock) p.stored report with
  | (stored, report, false) => ({ p with stored }, report, false)
  | (stored, report, true) =>
      let (q, report) := expire deletion (p.expired clock) { p with stored } report
      let absent := p.objects.filter fun o => !p.stored.objects.any fun x => x.key = p.keyOf o.bucket o.name
      let q := { q with missing := absent.foldl (fun missing o => quarantine o missing) q.missing }
      let report := { report with missingObjects := report.missingObjects + absent.length }
      let remaining := p.remaining graceMs clock
      if drifted p.usage.totalBytes (total remaining) then
        ({ q with usage := ⟨total remaining, remaining.length⟩ },
          { report with quotaCorrected := report.quotaCorrected + 1 }, true)
      else (q, report, true)

/-! What a sweep is to leave behind -/

section Results

variable (graceMs : Nat) (clock : Clock) (deletion : Text → Deletion)

def Project.intentKeys (p : Project) : List Text := p.intents.map fun i => p.keyOf i.bucket i.name

/-- The figure is within both thresholds of what there is. -/
def Within (figure actual : Nat) : Prop := apart figure actual ≤ DRIFT_BYTES ∧ 100 * apart figure actual ≤ figure

structure Trued (p after : Project) : Prop where
  usage : Within after.usage.totalBytes (total after.stored.objects)
  owned : ∀ o ∈ p.stored.objects, o.key ∈ p.rowKeys → o ∈ after.stored.objects
  young : ∀ o ∈ p.stored.objects, o.key ∉ p.rowKeys → o.key ∉ p.intentKeys → clock.now ≤ o.lastModified + graceMs →
    o ∈ after.stored.objects
  old : ∀ o ∈ p.stored.objects, o.key ∉ p.known clock → o.lastModified + graceMs < clock.now →
    o ∉ after.stored.objects
  spent : ∀ i ∈ after.intents, clock.expiredAt < i.expiresAt

/-- The delete of an expired intent takes effect on the key. -/
def Project.goes (p : Project) (key : Text) : Bool :=
  deletion key ≠ .refused && (p.expired clock).any fun e => p.keyOf e.bucket e.name = key

/-- The bytes that are counted and go with the expired intents. -/
def Project.counted (p : Project) : Nat :=
  total ((p.remaining graceMs clock).filter fun o => p.goes clock deletion o.key)

/-- The bytes that stay. -/
def Project.kept (p : Project) : Nat :=
  total ((p.remaining graceMs clock).filter fun o => !p.goes clock deletion o.key)

/-- A counter that is set to what stays and what goes is close to what stays, and so is one that is left as it is. -/
def Close (figure stays goes : Nat) : Prop :=
  if drifted figure (stays + goes) then goes ≤ DRIFT_BYTES ∧ 100 * goes ≤ stays + goes
  else Within figure stays

structure Harmless (p : Project) : Prop where
  unowned : ∀ o ∈ p.stored.objects, o.key ∈ p.rowKeys → p.goes clock deletion o.key = false
  close : Close p.usage.totalBytes (p.kept graceMs clock deletion) (p.counted graceMs clock deletion)

variable {graceMs clock deletion} {p after : Project} {report report' : SweepReport}

theorem apart_add (a b : Nat) : apart (a + b) a = b := by
  unfold apart
  omega

theorem total_filter (objects : List StoredObject) (f : StoredObject → Bool) :
    total objects = total (objects.filter fun o => !f o) + total (objects.filter f) := by
  induction objects with
  | nil => rfl
  | cons o objects ih =>
      cases hf : f o <;> simp only [total, List.filter_cons, hf, List.map_cons, List.sum_cons, Bool.not_true,
        Bool.not_false, if_true, if_false, Bool.false_eq_true] at ih ⊢ <;> omega

theorem not_any_cons {α β : Type} [DecidableEq β] (f : α → β) (x : α) (xs : List α) (k : β) :
    (!(x :: xs).any fun y => f y = k) = ((!xs.any fun y => f y = k) && decide (k ≠ f x)) := by
  rw [List.any_cons, Bool.not_or, Bool.and_comm, ← decide_not]
  congr 1
  exact decide_eq_decide.mpr ne_comm

theorem collect_objects {orphans : List StoredObject} {s s' : Inventory}
    (h : collect deletion orphans s report = (s', report', true)) :
    s'.objects = s.objects.filter fun o => !orphans.any fun x => x.key = o.key := by
  induction orphans generalizing s report with
  | nil =>
      cases h
      exact (List.filter_eq_self.mpr fun _ _ => rfl).symm
  | cons orphan orphans ih =>
      rw [collect] at h
      cases hdeletion : deletion orphan.key with
      | lost | refused =>
          rw [hdeletion] at h
          cases h
      | done =>
          rw [hdeletion] at h
          rw [ih h, Inventory.delete, List.filter_filter]
          exact List.filter_congr fun o _ => (not_any_cons StoredObject.key orphan orphans o.key).symm

theorem keyOf_with (p : Project) (stored : Inventory) (intents : List UploadIntent) :
    ({ p with stored, intents } : Project).keyOf = p.keyOf := rfl

theorem expire_fst (deletion : Text → Deletion) (expired : List UploadIntent) (p : Project) (report : SweepReport) :
    (expire deletion expired p report).1.stored.objects = p.stored.objects.filter (fun o =>
        !(deletion o.key ≠ .refused && expired.any fun e => p.keyOf e.bucket e.name = o.key)) ∧
      (expire deletion expired p report).1.intents = p.intents.filter (fun i => !expired.any fun e => e.id = i.id) ∧
      (expire deletion expired p report).1.usage = p.usage := by
  induction expired generalizing p report with
  | nil =>
      refine ⟨(List.filter_eq_self.mpr fun o _ => ?_).symm, (List.filter_eq_self.mpr fun _ _ => rfl).symm, rfl⟩
      rw [List.any_nil, Bool.and_false, Bool.not_false]
  | cons e expired ih =>
      rw [expire]
      obtain ⟨hobjects, hintents, husage⟩ := ih { p with
        stored := if deletion (p.keyOf e.bucket e.name) = .refused then p.stored else p.stored.delete (p.keyOf e.bucket e.name)
        intents := p.intents.filter fun i => i.id ≠ e.id } { report with intentsExpired := report.intentsExpired + 1 }
      refine ⟨?_, ?_, husage⟩
      · rw [hobjects, keyOf_with]
        by_cases hrefused : deletion (p.keyOf e.bucket e.name) = .refused
        · rw [if_pos hrefused]
          apply List.filter_congr
          intro o _
          rw [List.any_cons]
          by_cases hkey : p.keyOf e.bucket e.name = o.key
          · have hspared : deletion o.key = .refused := hkey ▸ hrefused
            simp [hspared]
          · rw [decide_eq_false hkey, Bool.false_or]
        · rw [if_neg hrefused, Inventory.delete, List.filter_filter]
          apply List.filter_congr
          intro o _
          rw [List.any_cons]
          by_cases hkey : p.keyOf e.bucket e.name = o.key
          · simp [← hkey, hrefused]
          · simp [hkey, Ne.symm hkey]
      · rw [hintents, List.filter_filter]
        exact List.filter_congr fun i _ => (not_any_cons UploadIntent.id e expired i.id).symm

/-- A sweep that comes to its end takes the orphans and what expired intents name, and sets a counter that has drifted. -/
theorem sweepProject_end (h : sweepProject graceMs clock deletion p report = (after, report', true)) :
    after.stored.objects = (p.remaining graceMs clock).filter (fun o => !p.goes clock deletion o.key) ∧
      after.intents = p.intents.filter (fun i => !(p.expired clock).any fun e => e.id = i.id) ∧
      after.usage.totalBytes = if drifted p.usage.totalBytes (total (p.remaining graceMs clock)) then
        total (p.remaining graceMs clock) else p.usage.totalBytes := by
  unfold sweepProject at h
  cases hcollect : collect deletion (p.orphans graceMs clock) p.stored report with
  | mk stored rest =>
      obtain ⟨report₁, ok⟩ := rest
      rw [hcollect] at h
      cases ok with
      | false => cases h
      | true =>
          have hstored := collect_objects hcollect
          obtain ⟨hobjects, hintents, husage⟩ := expire_fst deletion (p.expired clock) { p with stored } report₁
          rw [show p.stored.objects.filter _ = p.remaining graceMs clock from rfl] at hstored
          dsimp only at h
          split at h
          next hdrifted =>
            cases h
            refine ⟨?_, hintents, (if_pos hdrifted).symm⟩
            rw [hobjects, hstored]
            rfl
          next hdrifted =>
            cases h
            refine ⟨?_, hintents, ?_⟩
            · rw [hobjects, hstored]
              rfl
            · rw [if_neg hdrifted, husage]

theorem mem_remaining {o : StoredObject} (ho : o ∈ p.stored.objects) :
    o ∈ p.remaining graceMs clock ↔ ¬ (o.key ∉ p.known clock ∧ o.lastModified + graceMs < clock.now) := by
  simp only [Project.remaining, Project.orphans, List.mem_filter, ho, true_and, Bool.not_eq_true', List.any_eq_false,
    Bool.and_eq_true, decide_eq_true_eq]
  constructor
  · intro hnone hold
    exact hnone o ⟨ho, hold⟩ rfl
  · rintro hnot x ⟨hx, hold⟩ hkey
    obtain rfl := List.inj_on_of_nodup_map p.stored.distinct hx ho hkey
    exact hnot hold

theorem goes_key {key : Text} (h : p.goes clock deletion key = true) : key ∈ p.intentKeys := by
  rw [Project.goes, Bool.and_eq_true, List.any_eq_true] at h
  obtain ⟨-, e, he, hkey⟩ := h
  exact List.mem_map.mpr ⟨e, List.mem_of_mem_filter he, of_decide_eq_true hkey⟩

theorem mem_known {key : Text} (h : key ∈ p.known clock) : key ∈ p.rowKeys ∨ key ∈ p.intentKeys := by
  rcases List.mem_append.mp h with hrow | hlive
  · exact .inl hrow
  · obtain ⟨i, hi, hkey⟩ := List.mem_map.mp hlive
    exact .inr (List.mem_map.mpr ⟨i, List.mem_of_mem_filter hi, hkey⟩)

/-- A sweep sets things right exactly when what it deletes for the expired intents is harmless. -/
theorem trued_iff (h : sweepProject graceMs clock deletion p report = (after, report', true)) :
    Trued graceMs clock p after ↔ Harmless graceMs clock deletion p := by
  obtain ⟨hobjects, hintents, husage⟩ := sweepProject_end h
  have hsum : total (p.remaining graceMs clock) = p.kept graceMs clock deletion + p.counted graceMs clock deletion :=
    total_filter _ _
  have hactual : total after.stored.objects = p.kept graceMs clock deletion := by
    rw [hobjects]
    rfl
  have hwithin : Within after.usage.totalBytes (total after.stored.objects) ↔
      Close p.usage.totalBytes (p.kept graceMs clock deletion) (p.counted graceMs clock deletion) := by
    rw [hactual, husage, hsum, Close]
    split
    · rw [Within, apart_add]
    · exact Iff.rfl
  have howned : ∀ o ∈ p.stored.objects, o.key ∈ p.rowKeys →
      (o ∈ after.stored.objects ↔ p.goes clock deletion o.key = false) := by
    intro o ho hrow
    rw [hobjects, List.mem_filter, mem_remaining ho, Bool.not_eq_true']
    exact and_iff_right fun hold => hold.1 (List.mem_append_left _ hrow)
  have hfree : ∀ o ∈ p.stored.objects, o.key ∉ p.rowKeys → o.key ∉ p.intentKeys →
      (o ∈ after.stored.objects ↔ ¬ o.lastModified + graceMs < clock.now) := by
    intro o ho hrow hintent
    have hgoes : p.goes clock deletion o.key = false := Bool.eq_false_iff.mpr fun hgoes => hintent (goes_key hgoes)
    rw [hobjects, List.mem_filter, mem_remaining ho, hgoes, Bool.not_false, and_iff_left rfl,
      and_iff_right fun hknown => (mem_known hknown).elim hrow hintent]
  constructor
  · intro htrued
    exact ⟨fun o ho hrow => (howned o ho hrow).mp (htrued.owned o ho hrow), hwithin.mp htrued.usage⟩
  · intro hharmless
    refine ⟨hwithin.mpr hharmless.close, fun o ho hrow => (howned o ho hrow).mpr (hharmless.unowned o ho hrow), ?_, ?_, ?_⟩
    · intro o ho hrow hintent hyoung
      exact (hfree o ho hrow hintent).mpr (Nat.not_lt.mpr hyoung)
    · intro o ho hknown hold hstays
      rw [hobjects, List.mem_filter, mem_remaining ho] at hstays
      exact hstays.1 ⟨hknown, hold⟩
    · intro i hi
      rw [hintents, List.mem_filter, Bool.not_eq_true', List.any_eq_false] at hi
      by_contra hnot
      exact hi.2 i (List.mem_filter.mpr ⟨hi.1, decide_eq_true (Nat.not_lt.mp hnot)⟩) (decide_eq_true rfl)

end Results

/-! An intent that has expired next to a row of its name -/

def bucket : Text := ['b']

def image : StoredObject := ⟨"projects/p/b/a".toList, 7, 90⟩

def sample (expiresAt : Nat) : Project where
  ref := ['p']
  stored := ⟨[image], List.nodup_singleton _⟩
  objects := [⟨bucket, ['a'], 7, []⟩]
  intents := [⟨1, bucket, ['a'], expiresAt⟩]
  usage := ⟨7, 1⟩
  missing := []

def noon : Clock := ⟨100, 100, 100⟩

def swept (p : Project) : Project × SweepReport × Bool := sweepProject 24 noon (fun _ => .done) p ⟨0, 0, 0, 0, 0⟩

theorem trued_iff_sample : (swept (sample 200)).2.2 = true ∧
    (Trued 24 noon (sample 200) (swept (sample 200)).1 ↔ Harmless 24 noon (fun _ => .done) (sample 200)) :=
  ⟨by decide, trued_iff (p := sample 200) (show swept (sample 200) = (_, _, true) from rfl)⟩

/-- The sweep deletes the bytes of the row. -/
theorem not_trued : ¬ ∀ (graceMs : Nat) (clock : Clock) (deletion : Text → Deletion) (p after : Project)
    (report report' : SweepReport), sweepProject graceMs clock deletion p report = (after, report', true) →
      Trued graceMs clock p after := by
  intro h
  have htrued := h 24 noon (fun _ => .done) (sample 50) (swept (sample 50)).1 ⟨0, 0, 0, 0, 0⟩ (swept (sample 50)).2.1 rfl
  have howned := htrued.owned image List.mem_cons_self (by decide)
  exact absurd howned (by decide)

end Corebase.StorageSweep
