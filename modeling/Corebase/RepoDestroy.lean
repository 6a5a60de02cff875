import Corebase.Interleaving
import Corebase.JsText
import Mathlib.Data.List.Sort
import Mathlib.Data.List.Nodup

namespace Corebase.RepoDestroy

open Interleaving JsText

abbrev Worker := Nat

/-- A row of `project_repos`, with the project's `ref` and organization. -/
structure Repo where
  project : Nat
  ref : Text
  org : Nat
  repoPath : Text
  destroyAfter : Option Nat
  destroyedAt : Option Nat
  objectsDeleted : Nat
  attempts : Nat
  lastError : Option Text
deriving DecidableEq

structure AuditLog where
  org : Nat
  project : Nat
  ref : Text
  repoPath : Text
  objectsDeleted : Nat
deriving DecidableEq

structure Store where
  /-- The keys in the bucket. -/
  keys : List Text
  repos : List Repo
  audit : List AuditLog
  /-- The project that a worker has marked destroyed and not yet recorded. -/
  owing : Worker → Option Nat

/-- The prefix as S3 sees it. -/
def prefixOf (repoPath : Text) : Text := (match repoPath with | '/' :: rest => rest | path => path) ++ ['/']

def Store.list (s : Store) (pre : Text) : List Text := s.keys.filter pre.isPrefixOf

def Repo.due (now : Nat) (r : Repo) : Bool := r.destroyedAt.isNone && r.destroyAfter.any (· ≤ now)

/-- The order of the table decides between equal deadlines. -/
def Store.selected (s : Store) (batchSize now : Nat) : List Repo :=
  ((s.repos.filter (·.due now)).insertionSort fun a b => a.destroyAfter.getD 0 ≤ b.destroyAfter.getD 0).take batchSize

inductive Op
  | due (batchSize : Nat)
  | list (pre : Text)
  | deleteBatch (keys : List Text)
  | deleteObject (key : Text)
  | mark (project deleted : Nat)
  | record (log : AuditLog)
  | fault (project : Nat) (message : Text)

@[reducible] def Out : Op → Type
  | .due _ => List Repo
  | .list _ | .deleteBatch _ => List Text
  | .deleteObject _ | .mark _ _ | .record _ | .fault _ _ => Unit

/-- A failed call is answered by the message of what it throws. -/
abbrev Reply (op : Op) : Type := Except Text (Out op)

structure Chance where
  now : Nat
  error : Option Text
  /-- A failed statement has had its effect. -/
  effect : Bool
  /-- The keys that a batch response reports as failed. -/
  reported : Text → Bool
  /-- The keys that are left by a request that fails for them. -/
  survives : Text → Bool

def Store.update (s : Store) (project : Nat) (f : Repo → Repo) : Store :=
  { s with repos := s.repos.map fun r => if r.project = project then f r else r }

def Store.remove (s : Store) (gone : Text → Bool) : Store := { s with keys := s.keys.filter fun k => !gone k }

def Store.mark (s : Store) (c : Worker) (now project deleted : Nat) : Store :=
  { s.update project (fun r => { r with
      destroyedAt := some now
      objectsDeleted := deleted
      lastError := none
      attempts := r.attempts + 1 }) with owing := Function.update s.owing c (some project) }

def Store.record (s : Store) (c : Worker) (log : AuditLog) : Store :=
  { s with audit := s.audit ++ [log], owing := Function.update s.owing c none }

def faulted (message : Text) (r : Repo) : Repo := { r with lastError := some message, attempts := r.attempts + 1 }

/-- What the statement does when it takes effect. -/
def effect (c : Worker) (x : Chance) : Op → Store → Store
  | .due _, s | .list _, s => s
  | .deleteBatch keys, s => s.remove fun k => k ∈ keys && !(x.reported k && x.survives k)
  | .deleteObject key, s => s.remove (· = key)
  | .mark project deleted, s => s.mark c x.now project deleted
  | .record log, s => s.record c log
  | .fault project message, s => s.update project (faulted message)

/-- What is left of it when it fails. -/
def wreck (c : Worker) (x : Chance) : Op → Store → Store
  | .deleteBatch keys, s => s.remove fun k => k ∈ keys && !x.survives k
  | op, s => if x.effect then effect c x op s else s

def answer (x : Chance) : (op : Op) → Store → Out op
  | .due batchSize, s => s.selected batchSize x.now
  | .list pre, s => s.list pre
  | .deleteBatch keys, _ => keys.filter x.reported
  | .deleteObject _, _ | .mark _ _, _ | .record _, _ | .fault _ _, _ => ()

def exec (c : Worker) (x : Chance) (op : Op) (s : Store) : Option (Reply op × Store) :=
  match x.error with
  | some e => some (.error e, wreck c x op s)
  | none => some (.ok (answer x op s), effect c x op s)

abbrev Steps := Program Op Reply

def attempt (op : Op) (fail : Text → Steps) (next : Out op → Steps) : Steps :=
  .step op fun r => match r with
    | .error e => fail e
    | .ok v => next v

section Destruction

variable (fail : Text → Steps)

def deleteEach (next : Nat → Steps) : List Text → Nat → Steps
  | [], deleted => next deleted
  | key :: keys, deleted => attempt (.deleteObject key) fail fun _ => deleteEach next keys (deleted + 1)

/-- Slices of a thousand. -/
def batches (keys : List Text) : List (List Text) :=
  (List.range ((keys.length + 999) / 1000)).map fun i => (keys.drop (1000 * i)).take 1000

def deleteBatches (next : Nat → Steps) : List (List Text) → Nat → Steps
  | [], deleted => next deleted
  | batch :: rest, deleted => attempt (.deleteBatch batch) fail fun failedKeys =>
      deleteEach fail (deleteBatches next rest) failedKeys (deleted + (batch.length - failedKeys.length))

def deleteRounds (pre : Text) (next : Nat → Steps) : Nat → Nat → Steps
  | 0, deleted => next deleted
  | rounds + 1, deleted => attempt (.list pre) fail fun keys =>
      if keys = [] then next deleted else deleteBatches fail (deleteRounds pre next rounds) (batches keys) deleted

end Destruction

def remainingText (remaining deleted : Nat) (pre : Text) : Text :=
  Nat.toDigits 10 remaining ++ " objects still under ".toList ++ pre ++ " after deleting ".toList ++
    Nat.toDigits 10 deleted ++ " — not marking this repo destroyed".toList

def destroyRepository (repo : Repo) (next : Steps) : Steps :=
  let pre := prefixOf repo.repoPath
  let fail message := Program.step (.fault repo.project (slice message 0 1000)) fun r => match r with
    | .error _ => .done
    | .ok _ => next
  deleteRounds fail pre (fun deleted =>
    attempt (.list pre) fail fun remaining =>
      if remaining ≠ [] then fail (remainingText remaining.length deleted pre)
      else attempt (.mark repo.project deleted) fail fun _ =>
        attempt (.record ⟨repo.org, repo.project, repo.ref, repo.repoPath, deleted⟩) fail fun _ => next) 200 0

/-- Without an object store nothing is done. -/
def scanOnce (s3 : Bool) (batchSize : Nat) : Steps :=
  if !s3 then .done
  else attempt (.due batchSize) (fun _ => .done) fun due => due.foldr destroyRepository .done

/-- The configuration of a scan. -/
structure Scan where
  s3 : Bool
  batchSize : Nat

def destroyer : Protocol Worker Store Op Chance Scan Reply where
  exec := exec
  abort _ s := s
  program q := scanOnce q.s3 q.batchSize

/-- What is listed of a destroyed repository is nothing. -/
def Store.Emptied (s : Store) : Prop :=
  ∀ r ∈ s.repos, r.destroyedAt.isSome = true → s.list (prefixOf r.repoPath) = []

def Store.Audited (s : Store) (project : Nat) : Prop := ∃ log ∈ s.audit, log.project = project

def Store.Recorded (s : Store) : Prop :=
  ∀ r ∈ s.repos, r.destroyedAt.isSome = true → s.Audited r.project ∨ ∃ c, s.owing c = some r.project

/-- The worker owes no record, or it is there. -/
def Settled (c : Worker) (s : Store) : Prop := ∀ project, s.owing c = some project → s.Audited project

def Store.paths (s : Store) : List (Nat × Text) := s.repos.map fun r => (r.project, r.repoPath)

/-- Rows of one project are the same row. -/
def Store.Keyed (s : Store) : Prop := (s.paths.map Prod.fst).Nodup

/-- Without `strict` only the prefixes count. -/
def discipline (strict : Prop) : Discipline Worker Store Op where
  Inv s := s.Emptied ∧ (strict → s.Recorded) ∧ s.Keyed
  Guar c s s' := (∀ k ∈ s'.keys, k ∈ s.keys) ∧ s'.paths = s.paths ∧ (∀ d, d ≠ c → s'.owing d = s.owing d) ∧
    ∀ project, s.Audited project → s'.Audited project
  Idle c s := strict → Settled c s
  Allowed c op s := strict → match op with
    | .fault _ _ => Settled c s
    | _ => True
  Mortal c s := strict → Settled c s

/-- What is there before a statement. -/
def Safe (strict : Prop) (c : Worker) (s : Store) : Op → Prop
  | .mark project _ => (∀ r ∈ s.repos, r.project = project → s.list (prefixOf r.repoPath) = []) ∧ (strict → Settled c s)
  | .record log => strict → ∀ project, s.owing c = some project → project = log.project
  | _ => True

variable {strict : Prop} {c : Worker} {s s' : Store} {x : Chance} {op : Op}

theorem list_nil {s s' : Store} {pre : Text} (hkeys : ∀ k ∈ s'.keys, k ∈ s.keys) (h : s.list pre = []) :
    s'.list pre = [] := by
  simp only [Store.list, List.filter_eq_nil_iff] at h ⊢
  exact fun k hk => h k (hkeys k hk)

theorem update_paths (project : Nat) {f : Repo → Repo} (hf : ∀ r, (f r).project = r.project ∧ (f r).repoPath = r.repoPath) :
    (s.update project f).paths = s.paths := by
  simp only [Store.paths, Store.update, List.map_map]
  refine List.map_congr_left fun r _ => ?_
  by_cases hr : r.project = project <;> simp [hr, hf]

theorem keyed_of_paths (h : s'.paths = s.paths) (hkeyed : s.Keyed) : s'.Keyed := by
  rw [Store.Keyed, h]
  exact hkeyed

theorem mem_update {project : Nat} {f : Repo → Repo} {r : Repo} (h : r ∈ (s.update project f).repos) :
    ∃ r₀ ∈ s.repos, r = if r₀.project = project then f r₀ else r₀ := by
  obtain ⟨r₀, hr₀, rfl⟩ := List.mem_map.mp h
  exact ⟨r₀, hr₀, rfl⟩

theorem exec_cases {r : Reply op} (h : exec c x op s = some (r, s')) :
    s' = s ∨ (∃ gone, s' = s.remove gone) ∨
    (∃ project deleted, op = .mark project deleted ∧ s' = s.mark c x.now project deleted) ∨
    (∃ log, op = .record log ∧ s' = s.record c log) ∨
    ∃ project message, op = .fault project message ∧ s' = s.update project (faulted message) := by
  have hs' : s' = effect c x op s ∨ s' = wreck c x op s := by
    unfold exec at h
    cases hx : x.error with
    | none => rw [hx] at h; cases h; exact .inl rfl
    | some e => rw [hx] at h; cases h; exact .inr rfl
  have hwreck : s' = effect c x op s ∨ s' = s ∨ ∃ gone, s' = s.remove gone := by
    rcases hs' with h | h
    · exact .inl h
    · cases op with
      | deleteBatch keys => exact .inr (.inr ⟨_, h⟩)
      | _ =>
          simp only [wreck] at h
          split at h
          · exact .inl h
          · exact .inr (.inl h)
  rcases hwreck with h | h | h
  · cases op with
    | due | list => exact .inl h
    | deleteBatch keys => exact .inr (.inl ⟨_, h⟩)
    | deleteObject key => exact .inr (.inl ⟨_, h⟩)
    | mark project deleted => exact .inr (.inr (.inl ⟨project, deleted, rfl, h⟩))
    | record log => exact .inr (.inr (.inr (.inl ⟨log, rfl, h⟩)))
    | fault project message => exact .inr (.inr (.inr (.inr ⟨project, message, rfl, h⟩)))
  · exact .inl h
  · exact .inr (.inl h)

theorem keeps_refl (hI : (discipline strict).Inv s) : (discipline strict).Inv s ∧ (discipline strict).Guar c s s :=
  ⟨hI, fun _ => id, rfl, fun _ _ => rfl, fun _ => id⟩

theorem keeps_remove (gone : Text → Bool) (hI : (discipline strict).Inv s) :
    (discipline strict).Inv (s.remove gone) ∧ (discipline strict).Guar c s (s.remove gone) := by
  have hkeys : ∀ k ∈ (s.remove gone).keys, k ∈ s.keys := fun k hk => (List.mem_filter.mp hk).1
  exact ⟨⟨fun r hr hdestroyed => list_nil hkeys (hI.1 r hr hdestroyed), hI.2⟩, hkeys, rfl, fun _ _ => rfl, fun _ => id⟩

theorem keeps_fault (project : Nat) (message : Text) (hI : (discipline strict).Inv s) :
    (discipline strict).Inv (s.update project (faulted message)) ∧
      (discipline strict).Guar c s (s.update project (faulted message)) := by
  have hrow : ∀ r ∈ (s.update project (faulted message)).repos, ∃ r₀ ∈ s.repos, r₀.project = r.project ∧
      r₀.repoPath = r.repoPath ∧ r₀.destroyedAt = r.destroyedAt := by
    intro r hr
    obtain ⟨r₀, hr₀, rfl⟩ := mem_update hr
    refine ⟨r₀, hr₀, ?_⟩
    split <;> exact ⟨rfl, rfl, rfl⟩
  have hpaths : (s.update project (faulted message)).paths = s.paths := update_paths project fun _ => ⟨rfl, rfl⟩
  refine ⟨⟨fun r hr hdestroyed => ?_, fun hstrict r hr hdestroyed => ?_, keyed_of_paths hpaths hI.2.2⟩, fun _ => id,
    hpaths, fun _ _ => rfl, fun _ => id⟩
  · obtain ⟨r₀, hr₀, -, hpath, hat⟩ := hrow r hr
    rw [← hpath]
    exact hI.1 r₀ hr₀ (hat ▸ hdestroyed)
  · obtain ⟨r₀, hr₀, hproject, -, hat⟩ := hrow r hr
    rw [← hproject]
    exact hI.2.1 hstrict r₀ hr₀ (hat ▸ hdestroyed)

theorem keeps_record (log : AuditLog) (hI : (discipline strict).Inv s) (hsafe : Safe strict c s (.record log)) :
    (discipline strict).Inv (s.record c log) ∧ (discipline strict).Guar c s (s.record c log) := by
  have hgrows : ∀ project, s.Audited project → (s.record c log).Audited project := by
    rintro project ⟨l, hl, hproject⟩
    exact ⟨l, List.mem_append_left _ hl, hproject⟩
  refine ⟨⟨hI.1, fun hstrict r hr hdestroyed => ?_, hI.2.2⟩, fun _ => id, rfl, fun d hd => Function.update_of_ne hd _ _, hgrows⟩
  rcases hI.2.1 hstrict r hr hdestroyed with haudit | ⟨d, hd⟩
  · exact .inl (hgrows _ haudit)
  · by_cases hdc : d = c
    · subst hdc
      exact .inl ⟨log, List.mem_append_right _ (List.mem_singleton_self log), (hsafe hstrict _ hd).symm⟩
    · exact .inr ⟨d, by rw [← hd]; exact Function.update_of_ne hdc _ _⟩

theorem keeps_mark (now project deleted : Nat) (hI : (discipline strict).Inv s)
    (hsafe : Safe strict c s (.mark project deleted)) :
    (discipline strict).Inv (s.mark c now project deleted) ∧
      (discipline strict).Guar c s (s.mark c now project deleted) := by
  have hrow : ∀ r ∈ (s.mark c now project deleted).repos, ∃ r₀ ∈ s.repos, r₀.project = r.project ∧
      r₀.repoPath = r.repoPath ∧ (r₀.project ≠ project → r₀.destroyedAt = r.destroyedAt) := by
    intro r hr
    obtain ⟨r₀, hr₀, rfl⟩ := mem_update hr
    refine ⟨r₀, hr₀, ?_⟩
    split
    next hp => exact ⟨rfl, rfl, fun hne => absurd hp hne⟩
    next => exact ⟨rfl, rfl, fun _ => rfl⟩
  have hpaths : (s.mark c now project deleted).paths = s.paths := update_paths project fun _ => ⟨rfl, rfl⟩
  refine ⟨⟨fun r hr hdestroyed => ?_, fun hstrict r hr hdestroyed => ?_, keyed_of_paths hpaths hI.2.2⟩, fun _ => id,
    hpaths, fun d hd => Function.update_of_ne hd _ _, fun _ => id⟩
  · obtain ⟨r₀, hr₀, hproject, hpath, hat⟩ := hrow r hr
    rw [← hpath]
    by_cases hp : r₀.project = project
    · exact hsafe.1 r₀ hr₀ hp
    · exact hI.1 r₀ hr₀ (hat hp ▸ hdestroyed)
  · obtain ⟨r₀, hr₀, hproject, -, hat⟩ := hrow r hr
    rw [← hproject]
    by_cases hp : r₀.project = project
    · exact .inr ⟨c, by rw [hp]; exact Function.update_self _ _ _⟩
    · rcases hI.2.1 hstrict r₀ hr₀ (hat hp ▸ hdestroyed) with haudit | ⟨d, hd⟩
      · exact .inl haudit
      · by_cases hdc : d = c
        · subst hdc
          exact .inl (hsafe.2 hstrict _ hd)
        · exact .inr ⟨d, by rw [← hd]; exact Function.update_of_ne hdc _ _⟩

/-- Every statement keeps the discipline where it is safe. -/
theorem exec_keeps {r : Reply op} (hI : (discipline strict).Inv s) (hsafe : Safe strict c s op)
    (h : exec c x op s = some (r, s')) : (discipline strict).Inv s' ∧ (discipline strict).Guar c s s' := by
  rcases exec_cases h with rfl | ⟨gone, rfl⟩ | ⟨project, deleted, rfl, rfl⟩ | ⟨log, rfl, rfl⟩ | ⟨project, message, rfl, rfl⟩
  · exact keeps_refl hI
  · exact keeps_remove gone hI
  · exact keeps_mark x.now project deleted hI hsafe
  · exact keeps_record log hI hsafe
  · exact keeps_fault project message hI

section Meets

variable {N : List (Nat × Text) → Prop}

theorem stable_settled : (discipline strict).Stable c fun s => strict → Settled c s := by
  intro d hd s s' _ hG h hstrict project howing
  exact hG.2.2.2 project (h hstrict project (by rw [← hG.2.2.1 c hd.symm]; exact howing))

theorem stable_owing (project : Nat) : (discipline strict).Stable c fun s => ∀ p, s.owing c = some p → p = project := by
  intro d hd s s' _ hG h p howing
  exact h p (by rw [← hG.2.2.1 c hd.symm]; exact howing)

theorem stable_paths : (discipline strict).Stable c fun s => N s.paths := by
  intro d hd s s' _ hG h
  rw [hG.2.1]
  exact h

theorem stable_list (pre : Text) : (discipline strict).Stable c fun s => s.list pre = [] :=
  fun _ _ _ _ _ hG h => list_nil hG.1 h

/-- A call that fails leaves what is true of the paths, and one that goes through its own answer besides. -/
theorem meets_attempt {fail : Text → Steps} {next : Out op → Steps} {Q : Store → Prop} (R : Out op → Store → Prop)
    (hsafe : ∀ s, N s.paths → Q s → Safe strict c s op)
    (hok : ∀ s x, N s.paths → Q s → R (answer x op s) (effect c x op s))
    (hR : ∀ v, (discipline strict).Stable c (R v))
    (hfail : ∀ e, (discipline strict).Meets destroyer c (fail e) fun s => N s.paths)
    (hnext : ∀ v, (discipline strict).Meets destroyer c (next v) fun s => N s.paths ∧ R v s) :
    (discipline strict).Meets destroyer c (attempt op fail next) fun s => N s.paths ∧ Q s := by
  intro s x r s' hI hQ _ hexec
  obtain ⟨hinv, hG⟩ := exec_keeps hI (hsafe s hQ.1 hQ.2) hexec
  have hN : N s'.paths := by rw [hG.2.1]; exact hQ.1
  refine ⟨hinv, hG, ?_⟩
  change exec c x op s = some (r, s') at hexec
  unfold exec at hexec
  cases hx : x.error with
  | some e =>
      rw [hx] at hexec
      cases hexec
      exact ⟨_, stable_paths, hN, hfail e⟩
  | none =>
      rw [hx] at hexec
      cases hexec
      exact ⟨_, stable_paths.and (hR _), ⟨hN, hok s x hQ.1 hQ.2⟩, hnext _⟩

/-- A call that leaves what the worker owes. -/
theorem meets_calm {fail : Text → Steps} {next : Out op → Steps} (hsafe : ∀ s, Safe strict c s op)
    (hcalm : ∀ s x, Settled c s → Settled c (effect c x op s))
    (hfail : ∀ e, (discipline strict).Meets destroyer c (fail e) fun s => N s.paths)
    (hnext : ∀ v, (discipline strict).Meets destroyer c (next v) fun s => N s.paths ∧ (strict → Settled c s)) :
    (discipline strict).Meets destroyer c (attempt op fail next) fun s => N s.paths ∧ (strict → Settled c s) :=
  meets_attempt (fun _ s => strict → Settled c s) (fun s _ _ => hsafe s)
    (fun s x _ h hstrict => hcalm s x (h hstrict)) (fun _ => stable_settled) hfail hnext

variable {fail : Text → Steps} {next : Nat → Steps}
  (hfail : ∀ e, (discipline strict).Meets destroyer c (fail e) fun s => N s.paths)
  (hnext : ∀ n, (discipline strict).Meets destroyer c (next n) fun s => N s.paths ∧ (strict → Settled c s))

include hfail hnext

theorem meets_deleteEach (keys : List Text) (n : Nat) :
    (discipline strict).Meets destroyer c (deleteEach fail next keys n) fun s => N s.paths ∧ (strict → Settled c s) := by
  induction keys generalizing n with
  | nil => exact hnext n
  | cons key keys ih => exact meets_calm (fun _ => trivial) (fun _ _ h => h) hfail fun _ => ih (n + 1)

theorem meets_deleteBatches (bs : List (List Text)) (n : Nat) :
    (discipline strict).Meets destroyer c (deleteBatches fail next bs n) fun s => N s.paths ∧ (strict → Settled c s) := by
  induction bs generalizing n with
  | nil => exact hnext n
  | cons b bs ih =>
      exact meets_calm (fun _ => trivial) (fun _ _ h => h) hfail fun failedKeys =>
        meets_deleteEach hfail ih failedKeys _

theorem meets_deleteRounds (pre : Text) (rounds n : Nat) :
    (discipline strict).Meets destroyer c (deleteRounds fail pre next rounds n)
      fun s => N s.paths ∧ (strict → Settled c s) := by
  induction rounds generalizing n with
  | zero => exact hnext n
  | succ rounds ih =>
      refine meets_calm (fun _ => trivial) (fun _ _ h => h) hfail fun keys => ?_
      split
      · exact hnext n
      · exact meets_deleteBatches hfail ih (batches keys) n

end Meets

/-- The paths of the repositories are those the worker has read. -/
def Named (due : List Repo) (paths : List (Nat × Text)) : Prop :=
  ∀ repo ∈ due, ∀ p ∈ paths, p.1 = repo.project → p.2 = repo.repoPath

theorem meets_destroyRepository {repo : Repo} {next : Steps} {N : List (Nat × Text) → Prop}
    (hN : ∀ paths, N paths → ∀ p ∈ paths, p.1 = repo.project → p.2 = repo.repoPath)
    (hnext : (discipline strict).Meets destroyer c next fun s => N s.paths ∧ (strict → Settled c s)) :
    (discipline strict).Meets destroyer c (destroyRepository repo next)
      fun s => N s.paths ∧ (strict → Settled c s) := by
  have hfail : ∀ message, (discipline strict).Meets destroyer c
      (Program.step (.fault repo.project (slice message 0 1000)) fun r => match r with
        | .error _ => .done
        | .ok _ => next) fun s => N s.paths := by
    intro message s x r s' hI hpaths hallowed hexec
    obtain ⟨hinv, hG⟩ := @exec_keeps strict c s s' x (.fault repo.project (slice message 0 1000)) r hI trivial hexec
    have hsettled : strict → Settled c s' := by
      intro hstrict
      rcases exec_cases hexec with rfl | ⟨gone, rfl⟩ | ⟨_, _, h, -⟩ | ⟨_, h, -⟩ | ⟨project, message, -, rfl⟩
      · exact hallowed hstrict
      · exact hallowed hstrict
      · cases h
      · cases h
      · exact hallowed hstrict
    refine ⟨hinv, hG, fun s => N s.paths ∧ (strict → Settled c s), stable_paths.and stable_settled,
      ⟨by rw [hG.2.1]; exact hpaths, hsettled⟩, ?_⟩
    cases r with
    | error e => exact fun _ _ h => h.2
    | ok v => exact hnext
  refine meets_deleteRounds hfail (fun deleted => ?_) (prefixOf repo.repoPath) 200 0
  refine meets_attempt (fun remaining s => (strict → Settled c s) ∧ (remaining = [] → s.list (prefixOf repo.repoPath) = []))
    (fun _ _ _ => trivial) (fun s x _ h => ⟨h, id⟩) (fun remaining => stable_settled.and ?_) hfail fun remaining => ?_
  · exact fun d hd s s' hI hG h hnone => stable_list _ d hd s s' hI hG (h hnone)
  split
  next => exact (hfail _).mono fun _ _ h => h.1
  next hnone =>
    rw [ne_eq, not_not] at hnone
    refine meets_attempt (fun _ s => ∀ p, s.owing c = some p → p = repo.project) (fun s hpaths h => ⟨?_, h.1⟩)
      (fun s x _ _ p howing => ?_) (fun _ => stable_owing repo.project) hfail fun _ => ?_
    · intro r hr hproject
      have hpath := hN s.paths hpaths (r.project, r.repoPath) (List.mem_map_of_mem hr) hproject
      rw [show r.repoPath = repo.repoPath from hpath]
      exact h.2 hnone
    · have hself : (s.mark c x.now repo.project deleted).owing c = some repo.project := Function.update_self _ _ _
      exact Option.some.inj (howing.symm.trans hself)
    · refine meets_attempt (fun _ s => strict → Settled c s) (fun s _ h _ => h) (fun s x _ _ _ p howing => ?_)
        (fun _ => stable_settled) hfail fun _ => hnext
      have hself : (s.record c ⟨repo.org, repo.project, repo.ref, repo.repoPath, deleted⟩).owing c = none :=
        Function.update_self _ _ _
      exact absurd (howing.symm.trans hself) (Option.some_ne_none p)

theorem meets_scan (due all : List Repo) (hsub : ∀ repo ∈ due, repo ∈ all) :
    (discipline strict).Meets destroyer c (due.foldr destroyRepository .done)
      fun s => Named all s.paths ∧ (strict → Settled c s) := by
  induction due with
  | nil => exact fun _ _ h => h.2
  | cons repo due ih =>
      have hrest := ih fun r hr => hsub r (List.mem_cons_of_mem _ hr)
      exact meets_destroyRepository (fun paths h => h repo (hsub repo List.mem_cons_self)) hrest

theorem selected_sub (batchSize now : Nat) : ∀ r ∈ s.selected batchSize now, r ∈ s.repos ∧ r.due now = true := by
  intro r hr
  have hsorted := List.mem_of_mem_take hr
  rw [List.mem_insertionSort, List.mem_filter] at hsorted
  exact hsorted

theorem named_selected (hkeyed : s.Keyed) (batchSize now : Nat) : Named (s.selected batchSize now) s.paths := by
  intro repo hrepo p hp hproject
  have hmem : (repo.project, repo.repoPath) ∈ s.paths := List.mem_map_of_mem (selected_sub batchSize now repo hrepo).1
  exact congrArg Prod.snd (List.inj_on_of_nodup_map hkeyed hp hmem hproject)

theorem meets_scanOnce (s3 : Bool) (batchSize : Nat) :
    (discipline strict).Meets destroyer c (scanOnce s3 batchSize) fun s => strict → Settled c s := by
  cases s3 with
  | false => exact fun _ _ h => h
  | true =>
      intro s x r s' hI hsettled _ hexec
      obtain ⟨hinv, hG⟩ := @exec_keeps strict c s s' x (.due batchSize) r hI trivial hexec
      change exec c x (.due batchSize) s = some (r, s') at hexec
      unfold exec at hexec
      have hsame : wreck c x (.due batchSize) s = s := by simp [wreck, effect]
      cases hx : x.error with
      | some e =>
          rw [hx] at hexec
          cases hexec
          exact ⟨hinv, hG, _, stable_settled, by rw [hsame]; exact hsettled, fun _ _ h => h⟩
      | none =>
          rw [hx] at hexec
          cases hexec
          exact ⟨hinv, hG, _, stable_paths.and stable_settled, ⟨named_selected hI.2.2 batchSize x.now, hsettled⟩,
            meets_scan _ _ fun _ => id⟩

theorem sound : (discipline strict).Sound destroyer where
  idle _ := stable_settled
  abort _ _ hI hmortal := ⟨hI, (keeps_refl hI).2, hmortal⟩
  program _ q := meets_scanOnce q.s3 q.batchSize

/-- Nothing is destroyed yet. -/
structure Store.Fresh (s : Store) : Prop where
  keyed : s.Keyed
  intact : ∀ r ∈ s.repos, r.destroyedAt = none
  clear : ∀ c, s.owing c = none

theorem Store.Fresh.inv (h : s.Fresh) : (discipline strict).Inv s := by
  refine ⟨fun r hr hdestroyed => ?_, fun _ r hr hdestroyed => ?_, h.keyed⟩
  · simp [h.intact r hr] at hdestroyed
  · simp [h.intact r hr] at hdestroyed

theorem Store.Fresh.idle (h : s.Fresh) (c : Worker) : (discipline strict).Idle c s :=
  fun _ _ howing => absurd (howing.symm.trans (h.clear c)) (Option.some_ne_none _)

/-- No worker stops or fails between its mark and its record: when it dies or comes to the statement of the catch,
it owes none. -/
def Uninterrupted (g : Config Worker Store Op Reply) (m : Move Worker Chance Scan) : Prop :=
  Protocol.Statements (discipline True).Allowed g m ∧ Protocol.Deaths (discipline True).Mortal g m

theorem grants_uninterrupted : (discipline True).Grants Uninterrupted where
  allowed _ c x op next hr hok := hok.1 c x op next rfl hr
  mortal _ c hok := hok.2 c rfl

theorem emptied_of_reachable {ok : Config Worker Store Op Reply → Move Worker Chance Scan → Prop}
    {g : Config Worker Store Op Reply} (hs : s.Fresh) (h : destroyer.Reachable ok s g) : g.store.Emptied :=
  (sound.reachable (Discipline.grants_all (D := discipline False) (fun _ _ _ hfalse => hfalse.elim)
    fun _ _ hfalse => hfalse.elim) hs.inv hs.idle h).1.1

theorem recorded_of_reachable {g : Config Worker Store Op Reply} (hs : s.Fresh)
    (h : destroyer.Reachable Uninterrupted s g) : ∀ r ∈ g.store.repos, r.destroyedAt.isSome = true →
      g.store.Audited r.project ∨ ∃ c, g.running c ≠ .done ∧ g.store.owing c = some r.project := by
  obtain ⟨hI, hholds⟩ := sound.reachable grants_uninterrupted hs.inv hs.idle h
  intro r hr hdestroyed
  rcases hI.2.1 trivial r hr hdestroyed with haudit | ⟨c, howing⟩
  · exact .inl haudit
  by_cases hdone : g.running c = .done
  · obtain ⟨Q, -, hQ, hmeets⟩ := hholds c
    rw [hdone] at hmeets
    exact .inl (hmeets g.store hI hQ trivial r.project howing)
  · exact .inr ⟨c, hdone, howing⟩

section Progress

/-- The repository is marked destroyed and recorded, and its prefix is empty. -/
def Store.Gone (s : Store) (repo : Repo) : Prop :=
  (∀ r ∈ s.repos, r.project = repo.project → r.destroyedAt.isSome = true) ∧ s.Audited repo.project ∧
    s.list (prefixOf repo.repoPath) = []

/-- No call fails, and the statements run at a time. -/
def Smooth (now : Nat) (x : Chance) : Prop := x.error = none ∧ x.now = now

variable {now : Nat} {repo : Repo}

theorem gone_remove (gone : Text → Bool) (h : s.Gone repo) : (s.remove gone).Gone repo :=
  ⟨h.1, h.2.1, list_nil (fun _ hk => (List.mem_filter.mp hk).1) h.2.2⟩

theorem marked (c : Worker) (now project deleted : Nat) : ∀ r ∈ (s.mark c now project deleted).repos,
    r.project = project → r.destroyedAt.isSome = true := by
  intro r hr hproject
  obtain ⟨r₀, hr₀, rfl⟩ := mem_update hr
  by_cases hp : r₀.project = project
  · simp [hp]
  · rw [if_neg hp] at hproject
    exact absurd hproject hp

theorem gone_mark (c : Worker) (now project deleted : Nat) (h : s.Gone repo) : (s.mark c now project deleted).Gone repo := by
  refine ⟨fun r hr hproject => ?_, h.2.1, h.2.2⟩
  obtain ⟨r₀, hr₀, rfl⟩ := mem_update hr
  by_cases hp : r₀.project = project
  · simp [hp]
  · rw [if_neg hp] at hproject ⊢
    exact h.1 r₀ hr₀ hproject

theorem audited_record (c : Worker) (log : AuditLog) {project : Nat} (h : s.Audited project) :
    (s.record c log).Audited project := by
  obtain ⟨l, hl, hproject⟩ := h
  exact ⟨l, List.mem_append_left _ hl, hproject⟩

theorem gone_record (c : Worker) (log : AuditLog) (h : s.Gone repo) : (s.record c log).Gone repo :=
  ⟨h.1, audited_record c log h.2.1, h.2.2⟩

theorem mem_batches {keys : List Text} {k : Text} (h : k ∈ keys) : ∃ b ∈ batches keys, k ∈ b := by
  obtain ⟨j, hj, rfl⟩ := List.mem_iff_getElem.mp h
  refine ⟨(keys.drop (1000 * (j / 1000))).take 1000, List.mem_map.mpr ⟨j / 1000, ?_, rfl⟩, ?_⟩
  · rw [List.mem_range]
    omega
  · rw [List.mem_take_iff_getElem]
    have hmod : 1000 * (j / 1000) + j % 1000 = j := Nat.div_add_mod j 1000
    have hlt : j % 1000 < 1000 := Nat.mod_lt j (by decide)
    refine ⟨j % 1000, by rw [List.length_drop]; omega, ?_⟩
    simp only [List.getElem_drop, hmod]

variable {Q : Store → Prop}

theorem finishes_attempt {fail : Text → Steps} {next : Out op → Steps}
    (h : ∀ x, Smooth now x → destroyer.Finishes c (Smooth now) Q (next (answer x op s)) (effect c x op s)) :
    destroyer.Finishes c (Smooth now) Q (attempt op fail next) s := by
  intro x hx
  refine ⟨.ok (answer x op s), effect c x op s, ?_, h x hx⟩
  change exec c x op s = _
  rw [exec, hx.1]

variable {fail : Text → Steps} {next : Nat → Steps} {K : Store → Prop} (hK : ∀ s gone, K s → K (s.remove gone))

include hK

theorem finishes_deleteEach {gone : List Text} (keys : List Text) (n : Nat)
    (hnext : ∀ n s, K s → (∀ k ∈ s.keys, k ∉ gone ∧ k ∉ keys) → destroyer.Finishes c (Smooth now) Q (next n) s)
    (h : K s) (hgone : ∀ k ∈ s.keys, k ∉ gone) :
    destroyer.Finishes c (Smooth now) Q (deleteEach fail next keys n) s := by
  induction keys generalizing n s gone with
  | nil => exact hnext n s h fun k hk => ⟨hgone k hk, List.not_mem_nil⟩
  | cons key keys ih =>
      refine finishes_attempt fun x _ => ?_
      have hless : ∀ k ∈ (s.remove (· = key)).keys, k ∉ key :: gone := by
        intro k hk
        simp only [Store.remove, List.mem_filter, Bool.not_eq_true', decide_eq_false_iff_not] at hk
        simp only [List.mem_cons, not_or]
        exact ⟨hk.2, hgone k hk.1⟩
      refine ih (n + 1) (fun n s hs hk => ?_) (hK s _ h) hless
      refine hnext n s hs fun k hmem => ?_
      have hboth := hk k hmem
      simp only [List.mem_cons, not_or] at hboth ⊢
      exact ⟨hboth.1.2, hboth.1.1, hboth.2⟩

theorem finishes_deleteBatches {gone : List Text} (bs : List (List Text)) (n : Nat)
    (hnext : ∀ n s, K s → (∀ k ∈ s.keys, k ∉ gone ∧ ∀ b ∈ bs, k ∉ b) → destroyer.Finishes c (Smooth now) Q (next n) s)
    (h : K s) (hgone : ∀ k ∈ s.keys, k ∉ gone) :
    destroyer.Finishes c (Smooth now) Q (deleteBatches fail next bs n) s := by
  induction bs generalizing n s gone with
  | nil => exact hnext n s h fun k hk => ⟨hgone k hk, List.forall_mem_nil _⟩
  | cons b bs ih =>
      refine finishes_attempt fun x _ => ?_
      -- what the batch response does not report is gone, and the rest is deleted key by key
      have hfirst : ∀ k ∈ (effect c x (.deleteBatch b) s).keys, k ∉ b.filter (!x.reported ·) ++ gone := by
        intro k hk
        simp only [effect, Store.remove, List.mem_filter] at hk
        simp only [List.mem_append, List.mem_filter, not_or, Bool.not_eq_true']
        refine ⟨fun hb => ?_, hgone k hk.1⟩
        simp [hb.1, hb.2] at hk
      refine finishes_deleteEach hK (b.filter x.reported) _ (fun n s hs hk => ?_) (hK s _ h) hfirst
      have hless : ∀ k ∈ s.keys, k ∉ b ++ gone := by
        intro k hmem
        have hboth := hk k hmem
        simp only [List.mem_append, List.mem_filter, not_or, Bool.not_eq_true'] at hboth ⊢
        refine ⟨fun hb => ?_, hboth.1.2⟩
        cases hreported : x.reported k with
        | false => exact hboth.1.1 ⟨hb, hreported⟩
        | true => exact hboth.2 ⟨hb, hreported⟩
      refine ih n (fun n s hs hk => ?_) hs hless
      refine hnext n s hs fun k hmem => ?_
      have hboth := hk k hmem
      simp only [List.mem_append, not_or] at hboth
      exact ⟨hboth.1.2, List.forall_mem_cons.mpr ⟨hboth.1.1, hboth.2⟩⟩

theorem finishes_deleteRounds {pre : Text} (rounds n : Nat)
    (hnext : ∀ n s, K s → s.list pre = [] → destroyer.Finishes c (Smooth now) Q (next n) s) (h : K s) :
    destroyer.Finishes c (Smooth now) Q (deleteRounds fail pre next (rounds + 2) n) s := by
  refine finishes_attempt fun x _ => ?_
  change destroyer.Finishes c (Smooth now) Q (if s.list pre = [] then next n else
    deleteBatches fail (deleteRounds fail pre next (rounds + 1)) (batches (s.list pre)) n) s
  by_cases hnone : s.list pre = []
  · rw [if_pos hnone]
    exact hnext n s h hnone
  · rw [if_neg hnone]
    -- the second round finds nothing
    have hkept : ∀ s' gone, (K s' ∧ ∀ k ∈ s'.keys, k ∈ s.keys) →
        K (s'.remove gone) ∧ ∀ k ∈ (s'.remove gone).keys, k ∈ s.keys :=
      fun s' gone h => ⟨hK s' gone h.1, fun k hk => h.2 k (List.mem_filter.mp hk).1⟩
    refine finishes_deleteBatches hkept (batches (s.list pre)) n (fun n s' hs' hk => ?_) ⟨h, fun _ => id⟩
      fun _ _ => List.not_mem_nil
    have hnone : s'.list pre = [] := by
      rw [Store.list, List.filter_eq_nil_iff]
      intro k hmem hpre
      obtain ⟨b, hb, hkb⟩ := mem_batches (List.mem_filter.mpr ⟨hs'.2 k hmem, hpre⟩)
      exact (hk k hmem).2 b hb hkb
    refine finishes_attempt fun x _ => ?_
    change destroyer.Finishes c (Smooth now) Q (if s'.list pre = [] then next n else _) s'
    rw [if_pos hnone]
    exact hnext n s' hs'.1 hnone

omit hK

/-- A scan that fails nowhere destroys each of its repositories. -/
theorem finishes_scan (due : List Repo) (fin : List Repo) (h : ∀ repo ∈ fin, s.Gone repo) :
    destroyer.Finishes c (Smooth now) (fun s => (∀ repo ∈ fin, s.Gone repo) ∧ ∀ repo ∈ due, s.Gone repo)
      (due.foldr destroyRepository .done) s := by
  induction due generalizing s fin with
  | nil => exact ⟨h, List.forall_mem_nil _⟩
  | cons repo due ih =>
      have hkept : ∀ (s : Store) gone, (∀ repo ∈ fin, s.Gone repo) → ∀ repo ∈ fin, (s.remove gone).Gone repo :=
        fun s gone h repo hrepo => gone_remove gone (h repo hrepo)
      refine finishes_deleteRounds hkept 198 0 (fun deleted s h hnone => ?_) h
      refine finishes_attempt fun x _ => ?_
      change destroyer.Finishes c (Smooth now) _ (if s.list (prefixOf repo.repoPath) ≠ [] then _ else _) s
      rw [if_neg (not_not.mpr hnone)]
      refine finishes_attempt fun x _ => finishes_attempt fun y _ => ?_
      have hgone : ∀ r ∈ repo :: fin, ((s.mark c x.now repo.project deleted).record c
          ⟨repo.org, repo.project, repo.ref, repo.repoPath, deleted⟩).Gone r := by
        intro r hr
        rcases List.mem_cons.mp hr with rfl | hr
        · exact ⟨marked c x.now r.project deleted,
            ⟨_, List.mem_append_right _ (List.mem_singleton_self _), rfl⟩, hnone⟩
        · exact gone_record c _ (gone_mark c x.now repo.project deleted (h r hr))
      refine (ih (repo :: fin) hgone).mono fun s' hs' => ?_
      obtain ⟨hrepo, hfin⟩ := List.forall_mem_cons.mp hs'.1
      exact ⟨hfin, List.forall_mem_cons.mpr ⟨hrepo, hs'.2⟩⟩

end Progress

/-- What is marked destroyed is empty in every run. In a run whose workers are not interrupted between the mark and
the record it is recorded, or about to be. And whatever a run has left due, a scan that fails nowhere destroys with
its record. -/
theorem destruction_recorded (s : Store) (hs : s.Fresh) :
    (∀ g, destroyer.Reachable (fun _ _ => True) s g → g.store.Emptied) ∧
    (∀ g, destroyer.Reachable Uninterrupted s g → ∀ r ∈ g.store.repos, r.destroyedAt.isSome = true →
      g.store.Audited r.project ∨ ∃ c, g.running c ≠ .done ∧ g.store.owing c = some r.project) ∧
    ∀ g, destroyer.Reachable (fun _ _ => True) s g → ∀ batchSize now c, ∀ repo ∈ g.store.selected batchSize now,
      destroyer.Finishes c (Smooth now) (fun s' => s'.Gone repo) (scanOnce true batchSize) g.store := by
  refine ⟨fun g h => emptied_of_reachable hs h, fun g h => recorded_of_reachable hs h, fun g _ batchSize now c repo hrepo => ?_⟩
  refine finishes_attempt fun x hx => ?_
  change destroyer.Finishes c (Smooth now) _ ((g.store.selected batchSize x.now).foldr destroyRepository .done) g.store
  rw [hx.2]
  exact (finishes_scan _ [] (List.forall_mem_nil _)).mono fun s' h => h.2 repo hrepo

section Examples

def purged : Repo := ⟨7, ['r'], 1, "/p".toList, some 30, none, 0, 0, none⟩

def full : Store := ⟨["p/a".toList, "p/b".toList, "q/a".toList], [purged], [], fun _ => none⟩

theorem full_fresh : full.Fresh := ⟨by unfold Store.Keyed; decide, by decide, fun _ => rfl⟩

abbrev Run := List (Move Worker Chance Scan)

def scan : Run := [.arrive 0 ⟨true, 5⟩]

def call : Run := [.run 0 ⟨40, none, false, fun _ => false, fun _ => false⟩]

def failing : Run := [.run 0 ⟨40, some ['e'], false, fun _ => false, fun _ => false⟩]

def settled (g : Config Worker Store Op Reply) : Move Worker Chance Scan → Bool
  | .crash c => (g.store.owing c).isNone
  | .run c _ => match g.running c with
    | .step (.fault _ _) _ => (g.store.owing c).isNone
    | _ => true
  | .arrive _ _ => true

theorem uninterrupted_settled (g : Config Worker Store Op Reply) (m : Move Worker Chance Scan) (h : settled g m = true) :
    Uninterrupted g m := by
  have hnone : ∀ c, (g.store.owing c).isNone = true → Settled c g.store := by
    intro c hc project howing
    rw [howing] at hc
    cases hc
  constructor
  · rintro c x op next rfl hr -
    cases op with
    | fault project message =>
        simp only [settled, hr] at h
        exact hnone c h
    | _ => trivial
  · rintro c rfl -
    exact hnone c h

/-- The first scan fails at its second listing. -/
theorem destruction_recorded_retried : ∃ g, destroyer.Reachable Uninterrupted full g ∧ g.running 0 = .done ∧
    g.store.keys = ["q/a".toList] ∧ ∀ r ∈ g.store.repos, r.destroyedAt.isSome = true →
      g.store.Audited r.project ∨ ∃ c, g.running c ≠ .done ∧ g.store.owing c = some r.project := by
  have h := Protocol.Reachable.start.replay (P := destroyer) (s := full) uninterrupted_settled
    (scan ++ call ++ call ++ call ++ failing ++ call ++ scan ++ call ++ call ++ call ++ call ++ call) rfl
  exact ⟨_, h, rfl, rfl, (destruction_recorded full full_fresh).2.1 _ h⟩

/-- The worker dies between the mark and the record, and the next scan finds nothing due. -/
theorem destruction_unrecorded : ¬ ∀ s, s.Fresh → ∀ g, destroyer.Reachable (fun _ _ => True) s g →
    (∀ c, g.running c = .done) → ∀ r ∈ g.store.repos, r.destroyedAt.isSome = true → g.store.Audited r.project := by
  intro h
  have hrun := Protocol.Reachable.start.free (P := destroyer) (s := full)
    (scan ++ call ++ call ++ call ++ call ++ call ++ call ++ [.crash 0] ++ scan ++ call) rfl
  have hidle := h full full_fresh _ hrun (fun c => by cases c <;> rfl) _ List.mem_cons_self rfl
  obtain ⟨log, hlog, -⟩ := hidle
  cases hlog

end Examples

end Corebase.RepoDestroy
