import Corebase.ProjectRequests

namespace Corebase.ProjectLifecycle

open Interleaving RowLocks ProvisioningJobs ProjectRequests
open JobRunner (Time JobState)

variable {c d : Client} {s s' : Store} {p q : ProjectId} {key key' : Key} {kind : JobType} {job : Job} {k : Kind}
  {chance : Chance} {Q : Store → Prop} {before after : Option ProjectStatus} {old : Option Job}

/-- The key holds an unfinished job of the project that a request has asked for. -/
def Active (s : Store) (kind : JobType) (p : ProjectId) (key : Key) : Prop :=
  ∃ job, s.jobs.committed key = some job ∧ job.project = p ∧ job.kind = kind ∧ job.unfinished = true ∧
    requested p kind key = true

/-- The key holds a build of the project. -/
def Builds (s : Store) (p : ProjectId) (key : Key) : Prop :=
  ∃ job, s.jobs.committed key = some job ∧ job.project = p ∧ building job.kind = true

/-- A request that is taken up makes its move and leaves one job of its kind, and any other one changes nothing. A
deletion leaves its job in both cases. -/
def lawful (o : Outcome) : Bool :=
  if o.taken then o.kind.moves o.before o.after && (o.jobsAfter.filter (active o.kind o.project)).length = 1
  else o.before = o.after && o.jobsBefore = o.jobsAfter &&
    (o.kind ≠ .delete || o.jobsAfter.any fun row => row.1 = .delete o.project)

structure Inv (s : Store) : Prop where
  home : ∀ key job, s.jobs.committed key = some job → s.projects.committed job.project ≠ none
  one : ∀ kind p key key', Active s kind p key → Active s kind p key' → key = key'
  build : ∀ p key key', Builds s p key → Builds s p key' → key = key'
  asked : ∀ key job, s.jobs.committed key = some job → building job.kind = true →
    requested job.project job.kind key = true
  outcomes : ∀ o ∈ s.outcomes, lawful o = true

structure Guar (c : Client) (s s' : Store) : Prop where
  projects : ∀ d, d ≠ c → Table.Undisturbed d s.projects s'.projects
  jobs : ∀ d, d ≠ c → Table.Undisturbed d s.jobs s'.jobs
  /-- Nobody asks for a job of a project that another client holds. -/
  quiet : ∀ d p v, d ≠ c → s.projects.lock p = some (d, v) → ∀ kind key, Active s' kind p key → Active s kind p key
  kept : ∀ key, s.jobs.committed key ≠ none → s'.jobs.committed key ≠ none

/-- A job that has ended is left to the requests. -/
def fenced (_ : Client) : Op → Store → Bool
  | .work key state, s => (s.jobs.committed key).any Job.unfinished || state ∈ [.succeeded, .failed, .deadLetter]
  | _, _ => true

def discipline : Discipline Client Store Op where
  Inv := Inv
  Guar := Guar
  Idle c s := s.projects.Out c ∧ s.jobs.Out c
  Allowed c op s := fenced c op s = true

section Tables

theorem mem_committedRows {t : Table Client Key Job} : (key, job) ∈ committedRows t ↔ t.committed key = some job := by
  simp only [committedRows, List.mem_filterMap, List.mem_dedup, Option.map_eq_some_iff, Prod.mk.injEq]
  constructor
  · rintro ⟨_, _, _, h, rfl, rfl⟩
    exact h
  · exact fun h => ⟨key, t.mem_keys key (.inl (by simp [h])), job, h, rfl, rfl⟩

theorem nodup_committedRows (t : Table Client Key Job) : (committedRows t).Nodup := by
  refine List.Nodup.filterMap (fun j k row hj hk => ?_) t.keys.nodup_dedup
  simp only [Option.mem_def, Option.map_eq_some_iff] at hj hk
  obtain ⟨_, _, rfl⟩ := hj
  obtain ⟨_, _, heq⟩ := hk
  exact (congrArg Prod.fst heq).symm

/-- The rows that a predicate picks are one, if one row is as it says and no other one. -/
theorem length_filter_committedRows {t : Table Client Key Job} {P : Key × Job → Bool} (hjob : t.committed key = some job)
    (hP : P (key, job) = true) (honly : ∀ key' job', t.committed key' = some job' → P (key', job') = true → key' = key) :
    ((committedRows t).filter P).length = 1 := by
  have hperm : ((committedRows t).filter P).Perm [(key, job)] := by
    refine (List.perm_ext_iff_of_nodup ((nodup_committedRows t).filter P) (List.nodup_singleton _)).mpr ?_
    rintro ⟨key', job'⟩
    rw [List.mem_filter, mem_committedRows, List.mem_singleton]
    constructor
    · rintro ⟨hjob', hP'⟩
      obtain rfl := honly key' job' hjob' hP'
      rw [Option.some.inj (hjob.symm.trans hjob')]
    · intro heq
      cases heq
      exact ⟨hjob, hP⟩
  exact hperm.length_eq

theorem committedRows_congr {t t' : Table Client Key Job} (hkeys : t'.keys = t.keys)
    (hcommitted : t'.committed = t.committed) : committedRows t' = committedRows t := by
  rw [committedRows, committedRows, hkeys, hcommitted]

end Tables

section Changes

/-- One job is written, which is new or stays with its project and type. -/
theorem Inv.change (job : Job) (hI : Inv s) (hprojects : ∀ q, s.projects.committed q ≠ none → s'.projects.committed q ≠ none)
    (hhome : s'.projects.committed job.project ≠ none)
    (hjobs : s'.jobs.committed = Function.update s.jobs.committed key (some job))
    (houtcomes : ∀ o ∈ s'.outcomes, o ∈ s.outcomes ∨ lawful o = true)
    (hone : job.unfinished = true → requested job.project job.kind key = true →
      ∀ key', Active s job.kind job.project key' → key' = key)
    (hbuild : building job.kind = true → requested job.project job.kind key = true ∧
      ∀ key', Builds s job.project key' → key' = key) : Inv s' := by
  have hactive : ∀ {kind p key'}, Active s' kind p key' → key' ≠ key → Active s kind p key' := by
    rintro kind p key' ⟨job', hjob', h⟩ hne
    rw [hjobs, Function.update_of_ne hne] at hjob'
    exact ⟨job', hjob', h⟩
  have hself : ∀ {kind p}, Active s' kind p key → ∀ key', Active s kind p key' → key' = key := by
    rintro kind p ⟨job', hjob', rfl, rfl, hunfinished, hasked⟩
    rw [hjobs, Function.update_self] at hjob'
    cases hjob'
    exact hone hunfinished hasked
  refine ⟨fun key' job' h => ?_, fun kind p key₁ key₂ h₁ h₂ => ?_, fun p key₁ key₂ h₁ h₂ => ?_, fun key' job' h hb => ?_,
    fun o ho => (houtcomes o ho).elim (hI.outcomes o) id⟩
  · by_cases hk : key' = key
    · rw [hk, hjobs, Function.update_self] at h
      cases h
      exact hhome
    · rw [hjobs, Function.update_of_ne hk] at h
      exact hprojects _ (hI.home key' job' h)
  · by_cases hk₁ : key₁ = key
    · by_cases hk₂ : key₂ = key
      · rw [hk₁, hk₂]
      · exact absurd (hself (hk₁ ▸ h₁) key₂ (hactive h₂ hk₂)) hk₂
    · by_cases hk₂ : key₂ = key
      · exact absurd (hself (hk₂ ▸ h₂) key₁ (hactive h₁ hk₁)) hk₁
      · exact hI.one kind p key₁ key₂ (hactive h₁ hk₁) (hactive h₂ hk₂)
  · have hold : ∀ {key'}, Builds s' p key' → key' ≠ key → Builds s p key' := by
      rintro key' ⟨job', hjob', h⟩ hne
      rw [hjobs, Function.update_of_ne hne] at hjob'
      exact ⟨job', hjob', h⟩
    have hnew : Builds s' p key → ∀ key', Builds s p key' → key' = key := by
      rintro ⟨job', hjob', rfl, hb⟩
      rw [hjobs, Function.update_self] at hjob'
      cases hjob'
      exact (hbuild hb).2
    by_cases hk₁ : key₁ = key
    · by_cases hk₂ : key₂ = key
      · rw [hk₁, hk₂]
      · exact absurd (hnew (hk₁ ▸ h₁) key₂ (hold h₂ hk₂)) hk₂
    · by_cases hk₂ : key₂ = key
      · exact absurd (hnew (hk₂ ▸ h₂) key₁ (hold h₁ hk₁)) hk₁
      · exact hI.build p key₁ key₂ (hold h₁ hk₁) (hold h₂ hk₂)
  · by_cases hk : key' = key
    · rw [hk, hjobs, Function.update_self] at h
      cases h
      rw [hk]
      exact (hbuild hb).1
    · rw [hjobs, Function.update_of_ne hk] at h
      exact hI.asked key' job' h hb

/-- The jobs are left as they are. -/
theorem Inv.same (hI : Inv s) (hprojects : ∀ q, s.projects.committed q ≠ none → s'.projects.committed q ≠ none)
    (hjobs : s'.jobs.committed = s.jobs.committed) (houtcomes : ∀ o ∈ s'.outcomes, o ∈ s.outcomes ∨ lawful o = true) :
    Inv s' where
  home key job h := hprojects _ (hI.home key job (hjobs ▸ h))
  one kind p key key' h h' := hI.one kind p key key' (by simpa only [Active, hjobs] using h)
    (by simpa only [Active, hjobs] using h')
  build p key key' h h' := hI.build p key key' (by simpa only [Builds, hjobs] using h)
    (by simpa only [Builds, hjobs] using h')
  asked key job h := hI.asked key job (hjobs ▸ h)
  outcomes o ho := (houtcomes o ho).elim (hI.outcomes o) id

end Changes

section Rely

theorem guar_refl : Guar c s s := ⟨fun _ _ => .refl, fun _ _ => .refl, fun _ _ _ _ _ _ _ => id, fun _ => id⟩

theorem guar_project {status : Option ProjectStatus} (hfree : s.projects.free c p = true) :
    Guar c s { s with projects := s.projects.write c p status } :=
  ⟨fun _ hd => Table.undisturbed_write hd hfree, fun _ _ => .refl, fun _ _ _ _ _ _ _ => id, fun _ => id⟩

theorem guar_job {v : Option Job} (hfree : s.jobs.free c key = true) :
    Guar c s { s with jobs := s.jobs.write c key v } :=
  ⟨fun _ _ => .refl, fun _ hd => Table.undisturbed_write hd hfree, fun _ _ _ _ _ _ _ => id, fun _ => id⟩

theorem guar_rolledBack : Guar c s { s with projects := s.projects.rollback c, jobs := s.jobs.rollback c } :=
  ⟨fun _ hd => Table.undisturbed_rollback hd, fun _ hd => Table.undisturbed_rollback hd, fun _ _ _ _ _ _ _ => id,
    fun _ => id⟩

theorem stable_projects {A : Table Client ProjectId ProjectStatus → Prop}
    (hA : ∀ t t', A t → Table.Undisturbed c t t' → A t') : discipline.Stable c fun s => A s.projects :=
  fun _ hd _ _ _ hG h => hA _ _ h (hG.projects c hd.symm)

theorem stable_jobs {A : Table Client Key Job → Prop} (hA : ∀ t t', A t → Table.Undisturbed c t t' → A t') :
    discipline.Stable c fun s => A s.jobs :=
  fun _ hd _ _ _ hG h => hA _ _ h (hG.jobs c hd.symm)

theorem stable_idle : discipline.Stable c (discipline.Idle c) :=
  (stable_projects fun _ _ => Table.Out.stable).and (stable_jobs fun _ _ => Table.Out.stable)

/-- The client has the project locked, and no job is in the way. -/
def Clear (c : Client) (kinds : List JobType) (p : ProjectId) (before after : Option ProjectStatus) (s : Store) : Prop :=
  s.projects.Wrote c p before after ∧ ∀ kind ∈ kinds, ∀ key, ¬ Active s kind p key

theorem clear_nil (h : s.projects.Wrote c p before after) : Clear c [] p before after s :=
  ⟨h, fun _ hkind => absurd hkind List.not_mem_nil⟩

theorem stable_clear {kinds : List JobType} : discipline.Stable c (Clear c kinds p before after) := by
  rintro d hd s s' - hG ⟨hp, hclear⟩
  refine ⟨hp.stable (hG.projects c hd.symm), fun kind hkind key h => hclear kind hkind key ?_⟩
  exact hG.quiet c p after hd.symm hp.lock kind key h

theorem meets_rolledBack : discipline.Meets requests c rolledBack Q := by
  intro s chance r s' hI _ _ hexec
  cases hexec
  exact ⟨hI.same (fun _ => id) rfl fun _ => .inl, guar_rolledBack, _, stable_idle,
    ⟨Table.out_rollback, Table.out_rollback⟩, fun _ _ h => h⟩

/-- The end of a request that has found its work done or under way. -/
theorem meets_kept (hk : k ≠ .delete ∨ ∀ s, Q s → s.jobs.committed (.delete p) ≠ none)
    (hQ : ∀ s, Q s → s.projects.Untouched c ∧ s.jobs.Out c) : discipline.Meets requests c (committed k p false) Q := by
  intro s chance r s' hI hs _ hexec
  obtain ⟨hprojects, hjobs⟩ := hQ s hs
  cases hexec
  have hp : (s.projects.commit c).committed = s.projects.committed := hprojects.commit
  have hj : (s.jobs.commit c).committed = s.jobs.committed := hjobs.untouched.commit
  refine ⟨hI.same (fun q hq => by rwa [hp]) hj fun o ho => ?_, ⟨fun d hd => Table.undisturbed_commit hd,
    fun d hd => Table.undisturbed_commit hd, fun _ _ _ _ _ kind key h => by simpa only [Active, hj] using h,
    fun key hkey => by rwa [hj]⟩, _, stable_idle, ⟨Table.out_commit, Table.out_commit⟩, fun _ _ h => h⟩
  rcases List.mem_cons.mp ho with rfl | ho
  · refine .inr ?_
    have hrows : committedRows (s.jobs.commit c) = committedRows s.jobs := committedRows_congr rfl hj
    simp only [lawful, hp, hrows, if_neg Bool.false_ne_true, decide_true, Bool.true_and, Bool.or_eq_true,
      decide_eq_true_eq, List.any_eq_true]
    refine hk.imp id fun hk => ?_
    obtain ⟨job, hjob⟩ := Option.ne_none_iff_exists'.mp (hk s hs)
    exact ⟨(.delete p, job), mem_committedRows.mpr hjob, rfl⟩
  · exact .inl ho

/-- The job that a request leaves is the only one of its kind. -/
structure Sole (k : Kind) (p : ProjectId) (key : Key) (s : Store) : Prop where
  active : ∀ kind ∈ k.jobTypes, ∀ key', Active s kind p key' → key' = key
  builds : ∀ kind ∈ k.jobTypes, building kind = true → ∀ key', Builds s p key' → key' = key

/-- The end of a request that is taken up. -/
theorem meets_taken (job : Job) (hmoves : k.moves before after = true) (hafter : after ≠ none) (hproject : job.project = p)
    (hkind : job.kind ∈ k.jobTypes) (hunfinished : job.unfinished = true) (hasked : requested p job.kind key = true)
    (hQ : ∀ s, Inv s → Q s → s.projects.Wrote c p before after ∧ s.jobs.Wrote c key old (some job) ∧ Sole k p key s) :
    discipline.Meets requests c (committed k p true) Q := by
  intro s chance r s' hI hs _ hexec
  obtain ⟨hprojects, hjobs, hsole⟩ := hQ s hI hs
  subst hproject
  cases hexec
  have hp : (s.projects.commit c).committed = Function.update s.projects.committed job.project after := hprojects.commit
  have hj : (s.jobs.commit c).committed = Function.update s.jobs.committed key (some job) := hjobs.commit
  have hone : ((committedRows (s.jobs.commit c)).filter (active k job.project)).length = 1 := by
    have hself : (s.jobs.commit c).committed key = some job := by rw [hj, Function.update_self]
    refine length_filter_committedRows hself ?_ fun key' job' hjob' hactive => ?_
    · simp [active, hkind, hunfinished, hasked]
    · by_contra hne
      rw [hj, Function.update_of_ne hne] at hjob'
      simp only [active, Bool.and_eq_true, decide_eq_true_eq] at hactive
      obtain ⟨⟨⟨hproject', hkind'⟩, hunfinished'⟩, hasked'⟩ := hactive
      exact hne (hsole.active _ hkind' key' ⟨job', hjob', hproject', rfl, hunfinished', hasked'⟩)
  refine ⟨hI.change job (fun q hq => ?_) ?_ hj (fun o ho => ?_) (fun _ _ => hsole.active _ hkind)
    (fun hb => ⟨hasked, hsole.builds _ hkind hb⟩), ⟨fun d hd => Table.undisturbed_commit hd,
    fun d hd => Table.undisturbed_commit hd, fun d q v hd hlock kind key' h => ?_, fun key' hkey' => ?_⟩, _, stable_idle,
    ⟨Table.out_commit, Table.out_commit⟩, fun _ _ h => h⟩
  · by_cases hq' : q = job.project
    · rw [hp, hq', Function.update_self]
      exact hafter
    · rwa [hp, Function.update_of_ne hq']
  · rw [hp, Function.update_self]
    exact hafter
  · rcases List.mem_cons.mp ho with rfl | ho
    · refine .inr ?_
      simp only [lawful, if_true, hprojects.committed, hp, Function.update_self, hmoves, hone, decide_true, Bool.and_self]
    · exact .inl ho
  · obtain ⟨job', hjob', hproject', h⟩ := h
    by_cases hk' : key' = key
    · rw [hk', hj, Function.update_self] at hjob'
      cases hjob'
      rw [hproject'] at hprojects
      cases hprojects.lock.symm.trans hlock
      exact absurd rfl hd
    · rw [hj, Function.update_of_ne hk'] at hjob'
      exact ⟨job', hjob', hproject', h⟩
  · by_cases hk' : key' = key
    · rw [hk', hj, Function.update_self]
      exact Option.some_ne_none job
    · rwa [hj, Function.update_of_ne hk']

end Rely

section Statements

/-- The client has the project locked as it is, and has written no job. -/
def Held (c : Client) (p : ProjectId) (status : ProjectStatus) (s : Store) : Prop :=
  s.projects.Wrote c p (some status) (some status) ∧ s.jobs.Out c

variable {status : ProjectStatus} {kinds : List JobType}

theorem stable_held : discipline.Stable c (Held c p status) :=
  (stable_projects fun _ _ => Table.Wrote.stable).and (stable_jobs fun _ _ => Table.Out.stable)

theorem free_of_lock {Row : Type} {Id : Type} {t : Table Client Id Row} {i : Id} {v : Option Row}
    (h : t.lock i = some (c, v)) : t.free c i = true := by
  simp [Table.free, h]

theorem untouched_of_wrote {t : Table Client ProjectId ProjectStatus} (h : t.Wrote c p before before) : t.Untouched c := by
  intro q v hq
  rcases h.others q v hq with rfl | heq
  · cases h.lock.symm.trans hq
    exact h.committed.symm
  · exact heq

theorem meets_read {op : Op} {next : Reply op → Program Op Reply} (hstable : discipline.Stable c Q)
    (hread : ∀ chance s r s', exec c chance op s = some (r, s') → s' = s)
    (hnext : ∀ r, discipline.Meets requests c (next r) Q) : discipline.Meets requests c (.step op next) Q := by
  intro s chance r s' hI hs _ hexec
  obtain rfl := hread chance s r s' hexec
  exact ⟨hI, guar_refl, _, hstable, hs, hnext r⟩

theorem meets_lockProject {next : Option ProjectStatus → Program Op Reply} (hnone : next none = rolledBack)
    (hsome : ∀ status, status ≠ .deleted → discipline.Meets requests c (next (some status)) (Held c p status)) :
    discipline.Meets requests c (.step (.lockProject p) next) (discipline.Idle c) := by
  intro s chance r s' hI ⟨hprojects, hjobs⟩ _ hexec
  have hgone : discipline.Meets requests c (next none) fun _ => True := hnone ▸ meets_rolledBack
  simp only [requests, exec] at hexec
  split at hexec
  next =>
    cases hexec
    exact ⟨hI, guar_refl, _, Discipline.stable_true, trivial, hgone⟩
  next status hview =>
    split at hexec
    next hfree =>
      split at hexec <;> cases hexec
      next => exact ⟨hI, guar_refl, _, Discipline.stable_true, trivial, hgone⟩
      next halive =>
        have hcommitted : s.projects.committed p = some status := hprojects.untouched.view.symm.trans hview
        have hwrote := hprojects.untouched.write (k := p) (some status)
        rw [hcommitted] at hwrote
        exact ⟨hI.same (fun _ => id) rfl fun _ => .inl, guar_project hfree, _, stable_held, ⟨hwrote, hjobs⟩,
          hsome status halive⟩
    next => cases hexec

theorem meets_inflight {next : Bool → Program Op Reply} (hfound : discipline.Meets requests c (next true) (Held c p status))
    (hclear : discipline.Meets requests c (next false)
      fun s => Clear c [kind] p (some status) (some status) s ∧ s.jobs.Out c) :
    discipline.Meets requests c (.step (.inflight p kind) next) (Held c p status) := by
  rintro s chance found s' hI hheld - hexec
  cases hexec
  cases hany : (s.jobs.rows c).any fun row => row.2.project = p && row.2.kind = kind && row.2.unfinished with
  | true => exact ⟨hI, guar_refl, _, stable_held, hheld, hfound⟩
  | false =>
      refine ⟨hI, guar_refl, _, stable_clear.and (stable_jobs fun _ _ => Table.Out.stable),
        ⟨⟨hheld.1, fun kind' hkind' key hactive => ?_⟩, hheld.2⟩, hclear⟩
      obtain rfl := List.mem_singleton.mp hkind'
      obtain ⟨job, hjob, rfl, rfl, hunfinished, -⟩ := hactive
      have hrow : (key, job) ∈ s.jobs.rows c := Table.mem_rows.mpr (hheld.2.untouched.view.trans hjob)
      simpa [hunfinished] using List.any_eq_false.mp hany _ hrow

theorem meets_setProject {after' : ProjectStatus} {next : Unit → Program Op Reply}
    (hnext : discipline.Meets requests c (next ()) fun s => Clear c kinds p before (some after') s ∧ s.jobs.Out c) :
    discipline.Meets requests c (.step (.setProject p after') next)
      fun s => Clear c kinds p before after s ∧ s.jobs.Out c := by
  rintro s chance r s' hI ⟨⟨hp, hclear⟩, hjobs⟩ - hexec
  cases hexec
  exact ⟨hI.same (fun _ => id) rfl fun _ => .inl, guar_project (free_of_lock hp.lock), _,
    stable_clear.and (stable_jobs fun _ _ => Table.Out.stable), ⟨⟨hp.write _, hclear⟩, hjobs⟩, hnext⟩

theorem meets_insertAndCommit (kinds : List JobType) {jobType : JobType} (hmoves : k.moves before after = true) (hafter : after ≠ none)
    (hkind : jobType ∈ k.jobTypes) (hasked : requested p jobType key = true)
    (hsole : ∀ s, Inv s → Clear c kinds p before after s → Sole k p key s) :
    discipline.Meets requests c (insertAndCommit k p key jobType)
      fun s => Clear c kinds p before after s ∧ s.jobs.Out c := by
  rintro s chance inserted s' hI ⟨hclear, hjobs⟩ - hexec
  simp only [requests, exec] at hexec
  split at hexec
  next =>
    cases hexec
    exact ⟨hI, guar_refl, _, Discipline.stable_true, trivial, meets_rolledBack⟩
  next hnone =>
    split at hexec <;> cases hexec
    next hfree =>
      have hnew : s.jobs.committed key = none :=
        hjobs.untouched.view.symm.trans (Option.not_isSome_iff_eq_none.mp hnone)
      refine ⟨hI.same (fun _ => id) rfl fun _ => .inl, guar_job hfree, _,
        stable_clear.and (stable_jobs fun _ _ => Table.Wrote.stable), ⟨hclear, hnew ▸ hjobs.untouched.write _⟩, ?_⟩
      exact meets_taken _ hmoves hafter rfl hkind rfl hasked fun s hI hs => ⟨hs.1.1, hs.2, hsole s hI hs.1⟩

end Statements

section Programs

theorem sole_of_clear (hbuild : ∀ kind ∈ k.jobTypes, building kind = false)
    (h : Clear c k.jobTypes p before after s) : Sole k p key s where
  active kind hkind key' hactive := absurd hactive (h.2 kind hkind key')
  builds kind hkind hb := by simp [hbuild kind hkind] at hb

/-- A project that is not there yet has no jobs. -/
theorem sole_of_new (hI : Inv s) (h : s.projects.committed p = none) : Sole k p key s where
  active := by
    rintro kind - key' ⟨job, hjob, rfl, -⟩
    exact absurd h (hI.home key' job hjob)
  builds := by
    rintro kind - - key' ⟨job, hjob, rfl, -⟩
    exact absurd h (hI.home key' job hjob)

theorem sole_delete : Sole .delete p (.delete p) s where
  active := by
    rintro kind hkind key' ⟨job, -, -, -, -, hasked⟩
    obtain rfl := List.mem_singleton.mp hkind
    cases key' with
    | delete q => simpa [requested] using hasked
    | repair | idlePause | restoreExpiry | purge | restore | numbered | other => simp [requested] at hasked
  builds kind hkind hb := by
    obtain rfl := List.mem_singleton.mp hkind
    cases hb

theorem meets_insertProject {status : ProjectStatus} {next : ProjectId → Program Op Reply}
    (hnext : ∀ p, discipline.Meets requests c (next p) fun s => Clear c [] p none (some status) s ∧ s.jobs.Out c) :
    discipline.Meets requests c (.step (.insertProject status) next)
      fun s => s.projects.Untouched c ∧ s.jobs.Out c := by
  rintro s chance p s' hI ⟨hprojects, hjobs⟩ - hexec
  simp only [requests, exec] at hexec
  split at hexec <;> cases hexec
  next hfresh =>
    simp only [Bool.or_eq_true, not_or, Option.not_isSome_iff_eq_none] at hfresh
    have hwrote := hprojects.write (k := chance.id) (some status)
    rw [hfresh.1] at hwrote
    exact ⟨hI.same (fun _ => id) rfl fun _ => .inl, guar_project (by simp [Table.free, hfresh.2]), _,
      stable_clear.and (stable_jobs fun _ _ => Table.Out.stable), ⟨clear_nil hwrote, hjobs⟩, hnext chance.id⟩

theorem meets_createProject (text : JsText.Text) :
    discipline.Meets requests c (createProject (.other text)) (discipline.Idle c) := by
  refine meets_read stable_idle (fun _ _ _ _ h => by cases h; rfl) fun seen => ?_
  cases seen with
  | true => exact fun _ _ h => h
  | false =>
      refine (meets_insertProject fun p => ?_).mono fun _ _ h => ⟨h.1.untouched, h.2⟩
      exact meets_insertAndCommit _ rfl (Option.some_ne_none _) List.mem_cons_self rfl fun s hI h =>
        sole_of_new hI h.1.committed

theorem meets_requestRotation : discipline.Meets requests c (requestRotation p) (discipline.Idle c) := by
  refine meets_lockProject rfl fun status _ => ?_
  refine meets_inflight ((meets_kept (.inl (by decide)) fun _ => id).mono fun s _ h => ⟨untouched_of_wrote h.1, h.2⟩) ?_
  change discipline.Meets requests c (if status ≠ .ready then rolledBack else _) _
  split
  next => exact meets_rolledBack
  next hready =>
    obtain rfl := Classical.not_not.mp hready
    refine meets_read (stable_clear.and (stable_jobs fun _ _ => Table.Out.stable)) (fun _ _ _ _ h => by cases h; rfl)
      fun n => ?_
    exact meets_insertAndCommit _ rfl (Option.some_ne_none _) List.mem_cons_self (by simp [requested]) fun s _ h =>
      sole_of_clear (by simp [Kind.jobTypes, building]) h

theorem meets_requestLifecycle {start to' : ProjectStatus} (hk : k ≠ .delete) (htypes : k.jobTypes = [kind])
    (hmoves : k.moves (some start) (some to') = true) (hbuild : building kind = false)
    (hasked : ∀ n, requested p kind (.numbered kind p n) = true) :
    discipline.Meets requests c (requestLifecycle p k kind start to') (discipline.Idle c) := by
  refine meets_lockProject rfl fun status _ => ?_
  refine meets_inflight ((meets_kept (.inl hk) fun _ => id).mono fun s _ h => ⟨untouched_of_wrote h.1, h.2⟩) ?_
  change discipline.Meets requests c (if status ≠ start then rolledBack else _) _
  split
  next => exact meets_rolledBack
  next hstart =>
    obtain rfl := Classical.not_not.mp hstart
    refine meets_read (stable_clear.and (stable_jobs fun _ _ => Table.Out.stable)) (fun _ _ _ _ h => by cases h; rfl)
      fun n => meets_setProject ?_
    refine meets_insertAndCommit _ hmoves (Option.some_ne_none _) (htypes ▸ List.mem_cons_self) (hasked _) fun s _ h => ?_
    exact sole_of_clear (by simp [htypes, hbuild]) (htypes ▸ h)

theorem meets_requestDelete : discipline.Meets requests c (requestDelete p) (discipline.Idle c) := by
  refine meets_lockProject rfl fun status halive => ?_
  rintro s chance found s' hI hheld - hexec
  cases hexec
  cases hfound : (s.jobs.view c (.delete p)).isSome with
  | true =>
      have hkept : discipline.Stable c fun s => s.jobs.committed (.delete p) ≠ none :=
        fun _ _ _ _ _ hG h => hG.kept _ h
      refine ⟨hI, guar_refl, _, stable_held.and hkept, ⟨hheld, ?_⟩, ?_⟩
      · rw [← hheld.2.untouched.view]
        exact Option.isSome_iff_ne_none.mp hfound
      · exact meets_kept (.inr fun _ h => h.2) fun _ h => ⟨untouched_of_wrote h.1.1, h.1.2⟩
  | false =>
      refine ⟨hI, guar_refl, _, stable_held, hheld, ?_⟩
      have hmoves : Kind.delete.moves (some status) (some .deleting) = true := by simp [Kind.moves, halive]
      exact (meets_setProject (meets_insertAndCommit [] hmoves (Option.some_ne_none _) List.mem_cons_self
        (by simp [requested]) fun _ _ _ => sole_delete)).mono fun s _ h => ⟨clear_nil h.1, h.2⟩

theorem meets_requestRestore : discipline.Meets requests c (requestRestore p) (discipline.Idle c) := by
  refine meets_lockProject rfl fun status _ => ?_
  change discipline.Meets requests c (if status ∉ [ProjectStatus.ready, .paused, .restored] then rolledBack else _) _
  split
  next => exact meets_rolledBack
  next =>
    refine meets_read stable_held (fun _ _ _ _ h => by cases h; rfl) fun below => ?_
    cases below with
    | false => exact meets_rolledBack
    | true =>
        refine (meets_insertProject fun q => ?_).mono fun _ _ h => ⟨untouched_of_wrote h.1, h.2⟩
        exact meets_insertAndCommit _ rfl (Option.some_ne_none _) List.mem_cons_self (by simp [requested]) fun s hI h =>
          sole_of_new hI h.1.committed

/-- The dead build that is chosen is locked as it is. -/
theorem deadBuild_cases (chance : Chance) {r : Option Key} (hjobs : s.jobs.Out c) (h : exec c chance (.deadBuild p) s = some (r, s')) :
    (r = none ∧ s' = s) ∨ ∃ key job, r = some key ∧ s.jobs.committed key = some job ∧ job.project = p ∧
      building job.kind = true ∧ s.jobs.free c key = true ∧ s' = { s with jobs := s.jobs.write c key (some job) } := by
  simp only [exec] at h
  split at h
  next =>
    cases h
    exact .inl ⟨rfl, rfl⟩
  next row rest hrows =>
    split at h <;> cases h
    next hfree =>
      have hmem : row ∈ deadBuilds c p s := hrows ▸ List.mem_cons_self
      obtain ⟨hrow, hdead⟩ := List.mem_filter.mp ((List.perm_insertionSort _ _).subset hmem)
      simp only [Bool.and_eq_true, decide_eq_true_eq] at hdead
      exact .inr ⟨row.1, row.2, rfl, hjobs.untouched.view.symm.trans (Table.mem_rows.mp hrow), hdead.1.1, hdead.1.2, hfree,
        rfl⟩

/-- The only build of the project is made pending again. -/
theorem sole_retry (hI : Inv s) (hjob : s.jobs.committed key = some job) (hproject : job.project = p)
    (hb : building job.kind = true) : Sole .retry p key s where
  active := by
    rintro kind hkind key' ⟨job', hjob', hproject', rfl, -⟩
    have hb' : building job'.kind = true := by
      rcases List.mem_cons.mp hkind with h | h
      · rw [h]
        rfl
      · rw [List.mem_singleton.mp h]
        rfl
    exact hI.build p key' key ⟨job', hjob', hproject', hb'⟩ ⟨job, hjob, hproject, hb⟩
  builds kind _ _ key' h := hI.build p key' key h ⟨job, hjob, hproject, hb⟩

theorem meets_requestRetry : discipline.Meets requests c (requestRetry p) (discipline.Idle c) := by
  refine meets_lockProject rfl fun status _ => ?_
  change discipline.Meets requests c (if status ≠ .failed then rolledBack else _) _
  split
  next => exact meets_rolledBack
  next hfailed =>
    obtain rfl := Classical.not_not.mp hfailed
    rintro s chance r s' hI ⟨hp, hjobs⟩ - hexec
    obtain ⟨rfl, rfl⟩ | ⟨key, job, rfl, hjob, rfl, hb, hfree, rfl⟩ := deadBuild_cases chance hjobs hexec
    · exact ⟨hI, guar_refl, _, Discipline.stable_true, trivial, meets_rolledBack⟩
    have hasked := hI.asked key job hjob hb
    have hlocked : (s.jobs.write c key (some job)).Wrote c key (some job) (some job) := by
      have h := hjobs.untouched.write (k := key) (some job)
      rwa [hjob] at h
    have hstable : ∀ v w, discipline.Stable c fun s : Store => s.projects.Wrote c job.project (some .failed) v ∧
        s.jobs.Wrote c key (some job) w := fun v w =>
      (stable_projects fun _ _ => Table.Wrote.stable).and (stable_jobs fun _ _ => Table.Wrote.stable)
    refine ⟨hI.same (fun _ => id) rfl fun _ => .inl, guar_job hfree, _, hstable _ _, ⟨hp, hlocked⟩, ?_⟩
    rintro s chance r s' hI ⟨hp, hjobs⟩ - hexec
    simp only [requests, exec, free_of_lock hjobs.lock, if_true, Table.view_of_lock hjobs.lock] at hexec
    cases hexec
    refine ⟨hI.same (fun _ => id) rfl fun _ => .inl, guar_job (free_of_lock hjobs.lock), _, hstable _ _,
      ⟨hp, hjobs.write _⟩, ?_⟩
    rintro s chance r s' hI ⟨hp, hjobs⟩ - hexec
    cases hexec
    refine ⟨hI.same (fun _ => id) rfl fun _ => .inl, guar_project (free_of_lock hp.lock), _, hstable _ _,
      ⟨hp.write _, hjobs⟩, ?_⟩
    refine meets_taken { job with state := .pending } rfl (Option.some_ne_none _) rfl ?_ rfl hasked fun s hI h =>
      ⟨h.1, h.2, sole_retry hI h.2.committed rfl hb⟩
    cases hkind : job.kind <;> simp [hkind, building, Kind.jobTypes] at hb ⊢

theorem guar_wrote {t : Table Client Key Job} (hfree : s.jobs.free c key = true) (hout : s.jobs.Out c) {job : Job}
    (ht : t = (s.jobs.write c key (some job)).commit c)
    (hquiet : job.unfinished = true → requested job.project job.kind key = true →
      Active s job.kind job.project key) : Guar c s { s with jobs := t } := by
  have hcommitted : t.committed = Function.update s.jobs.committed key (some job) :=
    ht ▸ (hout.untouched.write (some job)).commit
  refine ⟨fun _ _ => .refl, fun d hd => ?_, fun d q v _ _ kind key' h => ?_, fun key' hkey' => ?_⟩
  · rw [ht]
    exact (Table.undisturbed_write hd hfree).trans (Table.undisturbed_commit hd)
  · obtain ⟨job', hjob', hproject, hkind, hunfinished, hasked⟩ := h
    by_cases hk : key' = key
    · subst hk
      rw [hcommitted, Function.update_self] at hjob'
      cases hjob'
      subst hproject hkind
      exact hquiet hunfinished hasked
    · rw [hcommitted, Function.update_of_ne hk] at hjob'
      exact ⟨job', hjob', hproject, hkind, hunfinished, hasked⟩
  · by_cases hk : key' = key
    · rw [hcommitted, hk, Function.update_self]
      exact Option.some_ne_none job
    · rwa [hcommitted, Function.update_of_ne hk]

theorem meets_work (state : JobState) :
    discipline.Meets requests c (.step (.work key state) fun _ => .done) (discipline.Idle c) := by
  rintro s chance r s' hI ⟨hprojects, hjobs⟩ hfenced hexec
  simp only [requests, exec] at hexec
  split at hexec <;> cases hexec
  next hfree =>
    cases hjob : s.jobs.committed key with
    | none => exact ⟨hI, guar_refl, _, stable_idle, ⟨hprojects, hjobs⟩, fun _ _ h => h⟩
    | some job =>
        have hcommitted : ((s.jobs.write c key (some { job with state := state })).commit c).committed =
            Function.update s.jobs.committed key (some { job with state := state }) := (hjobs.untouched.write _).commit
        have hold : ({ job with state := state } : Job).unfinished = true → job.unfinished = true := by
          simp only [discipline, fenced, hjob, Option.any_some, Bool.or_eq_true, decide_eq_true_eq] at hfenced
          rcases hfenced with hold | hended
          · exact fun _ => hold
          · intro hnew
            cases state <;> simp [Job.unfinished] at hended hnew
        have hactive : ({ job with state := state } : Job).unfinished = true →
            requested job.project job.kind key = true → Active s job.kind job.project key :=
          fun hnew hasked => ⟨job, hjob, rfl, rfl, hold hnew, hasked⟩
        refine ⟨hI.change { job with state := state } (fun _ => id) (hI.home key job hjob) hcommitted (fun _ => .inl) (fun hnew hasked key' h => ?_)
          (fun hb => ⟨hI.asked key job hjob hb, fun key' h => ?_⟩), guar_wrote hfree hjobs rfl hactive, _, stable_idle,
          ⟨hprojects, Table.out_commit⟩, fun _ _ h => h⟩
        · exact hI.one _ _ _ _ h (hactive hnew hasked)
        · exact hI.build _ _ _ h ⟨job, hjob, rfl, hb⟩

theorem meets_setStatus (status : ProjectStatus) :
    discipline.Meets requests c (.step (.setStatus p status) fun _ => .done) (discipline.Idle c) := by
  rintro s chance r s' hI ⟨hprojects, hjobs⟩ - hexec
  simp only [requests, exec] at hexec
  split at hexec <;> cases hexec
  next hfree =>
    cases hproject : s.projects.committed p with
    | none => exact ⟨hI, guar_refl, _, stable_idle, ⟨hprojects, hjobs⟩, fun _ _ h => h⟩
    | some old =>
        have hcommitted : ((s.projects.write c p (some status)).commit c).committed =
            Function.update s.projects.committed p (some status) := (hprojects.untouched.write _).commit
        refine ⟨hI.same (fun q hq => ?_) rfl fun _ => .inl, ⟨fun d hd => ?_, fun _ _ => .refl, fun _ _ _ _ _ _ _ => id,
          fun _ => id⟩, _, stable_idle, ⟨Table.out_commit, hjobs⟩, fun _ _ h => h⟩
        · by_cases hqp : q = p
          · rw [hcommitted, hqp, Function.update_self]
            exact Option.some_ne_none status
          · rwa [hcommitted, Function.update_of_ne hqp]
        · exact (Table.undisturbed_write hd hfree).trans (Table.undisturbed_commit hd)

theorem meets_schedule (hkey : requested p kind key = false) (hb : building kind = false) :
    discipline.Meets requests c (.step (.schedule key p kind) fun _ => .done) (discipline.Idle c) := by
  rintro s chance r s' hI ⟨hprojects, hjobs⟩ - hexec
  simp only [requests, exec] at hexec
  split at hexec
  next =>
    cases hexec
    exact ⟨hI, guar_refl, _, stable_idle, ⟨hprojects, hjobs⟩, fun _ _ h => h⟩
  next hnew =>
    simp only [Bool.or_eq_true, not_or, Option.isNone_iff_eq_none] at hnew
    split at hexec <;> cases hexec
    next hfree =>
      refine ⟨hI.change _ (fun _ => id) hnew.1 (hjobs.untouched.write _).commit (fun _ => .inl) (fun _ hasked => ?_)
        (fun hb' => ?_), guar_wrote hfree hjobs rfl fun _ hasked => ?_, _, stable_idle, ⟨hprojects, Table.out_commit⟩,
        fun _ _ h => h⟩
      · cases hkey.symm.trans hasked
      · cases hb.symm.trans hb'
      · cases hkey.symm.trans hasked

theorem sound : discipline.Sound requests where
  idle _ := stable_idle
  abort c s hI _ := ⟨hI.same (fun _ => id) rfl fun _ => .inl, guar_rolledBack, Table.out_rollback, Table.out_rollback⟩
  program c q := by
    cases q with
    | create text => exact meets_createProject text
    | pause p => exact meets_requestLifecycle (by decide) rfl rfl rfl fun _ => by simp [requested]
    | resume p => exact meets_requestLifecycle (by decide) rfl rfl rfl fun _ => by simp [requested]
    | retry p => exact meets_requestRetry
    | rotate p => exact meets_requestRotation
    | restore source => exact meets_requestRestore
    | delete p => exact meets_requestDelete
    | work key state => exact meets_work state
    | setStatus p status => exact meets_setStatus status
    | schedule key p kind =>
        change discipline.Meets requests c (if requested p kind key || building kind then _ else _) _
        split
        next => exact fun _ _ h => h
        next hfree =>
          simp only [Bool.or_eq_true, not_or, Bool.not_eq_true] at hfree
          exact meets_schedule hfree.1 hfree.2

end Programs

section Runs

variable {g g' : Config Client Store Op Reply}

/-- The moves of runs in which no worker ends a job that has ended before. -/
def Fenced : Config Client Store Op Reply → Move Client Chance Request → Prop :=
  Protocol.Statements fun c op s => fenced c op s = true

theorem grants_fenced : discipline.Grants Fenced := Discipline.grants_statements fun _ _ => trivial

/-- The statements that others see at once. -/
def publishes : Op → Bool
  | .commit .. | .work .. | .setStatus .. | .schedule .. => true
  | _ => false

theorem committed_exec (chance : Chance) {op : Op} {r : Reply op} (hop : publishes op = false)
    (h : exec c chance op s = some (r, s')) :
    s'.projects.committed = s.projects.committed ∧ s'.jobs.committed = s.jobs.committed := by
  cases op with
  | commit | work | setStatus | schedule => cases hop
  | inflight | count | findJob | belowLimit | setProject | rollback =>
      cases h
      exact ⟨rfl, rfl⟩
  | insertProject status =>
      simp only [exec] at h
      split at h <;> cases h
      exact ⟨rfl, rfl⟩
  | lockProject p =>
      simp only [exec] at h
      split at h
      next =>
        cases h
        exact ⟨rfl, rfl⟩
      next =>
        split at h
        next => split at h <;> cases h <;> exact ⟨rfl, rfl⟩
        next => cases h
  | deadBuild p =>
      simp only [exec] at h
      split at h
      next =>
        cases h
        exact ⟨rfl, rfl⟩
      next =>
        split at h <;> cases h
        exact ⟨rfl, rfl⟩
  | insertJob key p kind =>
      simp only [exec] at h
      split at h
      next =>
        cases h
        exact ⟨rfl, rfl⟩
      next =>
        split at h <;> cases h
        exact ⟨rfl, rfl⟩
  | resetJob key =>
      simp only [exec] at h
      split at h <;> cases h
      split <;> exact ⟨rfl, rfl⟩

/-- A store between all transactions. -/
structure Settled (s : Store) : Prop where
  inv : Inv s
  projects : ∀ p, s.projects.lock p = none
  jobs : ∀ key, s.jobs.lock key = none

theorem Settled.holds (hs : Settled s) (h : requests.Reachable Fenced s g) : discipline.Holds requests g :=
  sound.reachable grants_fenced hs.inv
    (fun _ => ⟨fun p v => by simp [hs.projects p], fun key v => by simp [hs.jobs key]⟩) h

/-- A project that nobody deletes yet can be deleted. -/
def Deletable (g : Config Client Store Op Reply) : Prop :=
  ∀ c p status chance, g.running c = .done → g.store.projects.committed p = some status → status ≠ .deleted →
    g.store.projects.lock p = none → g.store.jobs.committed (.delete p) = none → g.store.jobs.lock (.delete p) = none →
    ∃ g', requests.replay (fun _ _ => true) g (.arrive c (.delete p) :: List.replicate 5 (.run c chance)) = some g' ∧
      g'.store.projects.committed p = some .deleting ∧
      g'.store.jobs.committed (.delete p) = some ⟨p, .deleteProject, .pending, chance.now⟩

theorem deletable (h : discipline.Holds requests g) : Deletable g := by
  intro c p status chance hidle hstatus halive hlock hjob hjoblock
  obtain ⟨Q, -, hQ, hmeets⟩ := h.2 c
  rw [hidle] at hmeets
  obtain ⟨hprojects, hjobs⟩ := hmeets g.store h.1 hQ
  let s := g.store
  let t₁ := s.projects.write c p (some status)
  let t₂ := t₁.write c p (some .deleting)
  let u := s.jobs.write c (.delete p) (some ⟨p, .deleteProject, .pending, chance.now⟩)
  have hview : s.projects.view c p = some status := hprojects.untouched.view.trans hstatus
  have hnone : s.jobs.view c (.delete p) = none := hjobs.untouched.view.trans hjob
  have hlocked : requests.exec c chance (.lockProject p) s = some (some status, { s with projects := t₁ }) := by
    have hfree : s.projects.free c p = true := by simp [Table.free, s, hlock]
    simp only [requests, exec, hview, hfree, if_true, if_neg halive, t₁]
  have hfound : requests.exec c chance (.findJob (.delete p)) { s with projects := t₁ } =
      some (false, { s with projects := t₁ }) := by
    simp only [requests, exec, hnone, Option.isSome_none]
  have hinserted : requests.exec c chance (.insertJob (.delete p) p .deleteProject) { s with projects := t₂ } =
      some (true, { s with projects := t₂, jobs := u }) := by
    have hfree : s.jobs.free c (.delete p) = true := by simp [Table.free, s, hjoblock]
    simp only [requests, exec, hnone, hfree, Option.isSome_none, if_true, if_neg Bool.false_ne_true, u]
  have hp : (t₂.commit c).committed p = some .deleting := Table.view_of_lock Table.lock_write_self
  have hj : (u.commit c).committed (.delete p) = some ⟨p, .deleteProject, .pending, chance.now⟩ :=
    Table.view_of_lock Table.lock_write_self
  let o : Outcome := ⟨.delete, p, true, t₂.committed p, (t₂.commit c).committed p, committedRows u,
    committedRows (u.commit c)⟩
  refine ⟨⟨⟨t₂.commit c, u.commit c, o :: s.outcomes⟩, Function.update g.running c .done⟩, ?_, hp, hj⟩
  refine Protocol.replay_arrive hidle rfl (Protocol.replay_run rfl rfl hlocked ?_)
  refine Protocol.replay_run rfl rfl hfound (Protocol.replay_run rfl rfl rfl ?_)
  exact Protocol.replay_run rfl rfl hinserted (Protocol.replay_run rfl rfl rfl rfl)

/-- The requests and their jobs agree in every run in which no worker ends a job that has ended before. -/
theorem requests_agree (hs : Settled s) (h : requests.Reachable Fenced s g) :
    (∀ o ∈ g.store.outcomes, lawful o = true) ∧
    (∀ c chance op next, g.running c = .step op next → publishes op = false →
      ∀ g', requests.move g (.run c chance) = some g' →
        g'.store.projects.committed = g.store.projects.committed ∧ g'.store.jobs.committed = g.store.jobs.committed) ∧
    (∀ kind p key key', Active g.store kind p key → Active g.store kind p key' → key = key') ∧ Deletable g := by
  have hholds := hs.holds h
  refine ⟨hholds.1.outcomes, fun c chance op next hrun hop g' hmove => ?_, hholds.1.one, deletable hholds⟩
  simp only [Protocol.move, hrun] at hmove
  obtain ⟨⟨r, s'⟩, hexec, rfl⟩ := Option.map_eq_some_iff.mp hmove
  exact committed_exec chance hop hexec

end Runs

section Examples

def empty : Store := ⟨.empty, .empty, []⟩

theorem settled_empty : Settled empty where
  inv := by
    refine ⟨fun _ _ h => ?_, fun _ _ _ _ h => ?_, fun _ _ _ h => ?_, fun _ _ h => ?_, fun o ho => absurd ho List.not_mem_nil⟩
    · cases h
    · obtain ⟨_, h, -⟩ := h
      cases h
    · obtain ⟨_, h, -⟩ := h
      cases h
    · cases h
  projects _ := rfl
  jobs _ := rfl

def luck : Chance := ⟨7, 0, false⟩

def move (q : Request) (n : Nat) : List (Move Client Chance Request) := .arrive 0 q :: List.replicate n (.run 0 luck)

/-- Project 7 is created and becomes ready. -/
def launch : List (Move Client Chance Request) :=
  move (.create ['k']) 4 ++ move (.work (.other ['k']) .succeeded) 1 ++ move (.setStatus 7 .ready) 1

theorem fenced_watch (g : Config Client Store Op Reply) (m : Move Client Chance Request)
    (hm : Protocol.watch fenced g m = true) : Fenced g m := Protocol.statements_watch (fun _ _ _ => id) g m hm

theorem requests_agree_pause : ∃ g, requests.Reachable Fenced empty g ∧
    (g.store.outcomes.map Outcome.kind = [.pause, .create] ∧ ∀ o ∈ g.store.outcomes, lawful o = true) ∧
    g.store.jobs.committed (.numbered .pauseProject 7 1) = some ⟨7, .pauseProject, .pending, 0⟩ ∧ Deletable g := by
  have h := Protocol.Reachable.start.replay (P := requests) (s := empty) fenced_watch (launch ++ move (.pause 7) 6) rfl
  have hagree := requests_agree settled_empty h
  exact ⟨_, h, ⟨rfl, hagree.1⟩, rfl, hagree.2.2.2⟩

/-- A rotation changes no status, and a pause is taken up beside it. A deletion that was given up is not taken up again,
and the project stays where no request moves it. A worker that was given up makes a finished pause pending again. -/
theorem not_requests_agree :
    (∃ g, requests.Reachable Fenced empty g ∧ g.store.projects.committed 7 = some .pausing ∧
      g.store.jobs.committed (.numbered .rotateCredentials 7 1) = some ⟨7, .rotateCredentials, .pending, 0⟩ ∧
      g.store.jobs.committed (.numbered .pauseProject 7 1) = some ⟨7, .pauseProject, .pending, 0⟩ ∧
      g.store.outcomes.map (fun o => (o.kind, o.before, o.after)) =
        [(.pause, some .ready, some .pausing), (.rotate, some .ready, some .ready), (.create, none, some .creating)]) ∧
    (∃ g, requests.Reachable Fenced empty g ∧ g.store.projects.committed 7 = some .deleting ∧
      (committedRows g.store.jobs).all (fun row => !row.2.unfinished) = true ∧
      g.store.outcomes.map (fun o => (o.kind, o.taken)) = [(.delete, false), (.delete, true), (.create, true)]) ∧
    ∃ g, requests.Reachable (fun _ _ => True) empty g ∧
      g.store.jobs.committed (.numbered .pauseProject 7 1) = some ⟨7, .pauseProject, .pending, 0⟩ ∧
      g.store.jobs.committed (.numbered .pauseProject 7 2) = some ⟨7, .pauseProject, .pending, 0⟩ := by
  refine ⟨⟨_, Protocol.Reachable.start.replay (P := requests) (s := empty) fenced_watch
    (launch ++ move (.rotate 7) 5 ++ move (.pause 7) 6) rfl, rfl, rfl, rfl, rfl⟩,
    ⟨_, Protocol.Reachable.start.replay (P := requests) (s := empty) fenced_watch
      (launch ++ move (.delete 7) 5 ++ move (.work (.delete 7) .deadLetter) 1 ++ move (.delete 7) 3) rfl, rfl, rfl, rfl⟩,
    _, Protocol.Reachable.start.free (P := requests) (s := empty)
      (launch ++ move (.pause 7) 6 ++ move (.work (.numbered .pauseProject 7 1) .succeeded) 1 ++
        move (.setStatus 7 .ready) 1 ++ move (.pause 7) 6 ++ move (.work (.numbered .pauseProject 7 1) .pending) 1) rfl,
    rfl, rfl⟩

end Examples

end Corebase.ProjectLifecycle
