import Corebase.OrgProjects

namespace Corebase.OrgRemoval

open Interleaving RowLocks OrgProjects
open Organizations (OrgId UserId InviteId Slug Role Invite)
open ProvisioningJobs (ProjectStatus)

variable {c d : Client} {s s' : Store} {org o : OrgId} {p : ProjectId} {chance : Chance} {Q : Store → Prop}

/-- The organization, its members and its invites are gone, and nothing else. -/
structure Gone (e : Removal) : Prop where
  organizations : e.after.organizations = Function.update e.before.organizations e.org none
  members : ∀ k, e.after.members k = if k.1 = e.org then none else e.before.members k
  invites : ∀ i, e.after.invites i = (e.before.invites i).filter fun invite => invite.organizationId ≠ e.org
  projects : e.after.projects = e.before.projects
  unreferred : ∀ p row, e.before.projects p = some row → row.organization ≠ e.org

/-- What each outcome tells. -/
def Sound (e : Removal) : Prop := match e.outcome with
  | .removed => e.counted = [] ∧ Gone e
  | .notEmpty n => n = live e.counted ∧ 0 < n ∧ e.after = e.before
  | .restricted => e.counted ≠ [] ∧ live e.counted = 0 ∧ e.after = e.before

def Populated (s : Store) (org : OrgId) : Prop := ∃ p row, s.projects.committed p = some row ∧ row.organization = org

structure Inv (s : Store) : Prop where
  refs : Referring s.rows
  /-- A row of a project that is held keeps its organization, or is new and holds it. -/
  pending : ∀ p c v, s.projects.lock p = some (c, v) → ∃ row, v = some row ∧
    ((∃ old, s.projects.committed p = some old ∧ old.organization = row.organization) ∨
      s.projects.committed p = none ∧ c ∈ s.shares row.organization)
  shared : ∀ org c, c ∈ s.shares org →
    s.organizations.committed org ≠ none ∧ ∀ d v, s.organizations.lock org = some (d, v) → d = c
  log : ∀ e ∈ s.log, Sound e

structure Guar (c : Client) (s s' : Store) : Prop where
  tables : ∀ d, d ≠ c → Table.Undisturbed d s.organizations s'.organizations ∧ Table.Undisturbed d s.members s'.members ∧
    Table.Undisturbed d s.invites s'.invites ∧ Table.Undisturbed d s.projects s'.projects
  own : ∀ d, d ≠ c → s'.counted d = s.counted d ∧ ∀ org, d ∈ s'.shares org ↔ d ∈ s.shares org
  gone : ∀ org, s.organizations.committed org = none → s'.organizations.committed org = none
  members : ∀ k, s'.members.committed k = none ∨ s'.members.committed k = s.members.committed k
  invites : ∀ k, s'.invites.committed k = none ∨ s'.invites.committed k = s.invites.committed k
  /-- An organization that another client holds, or that is gone, gets no project. -/
  frozen : ∀ org, (s.organizations.committed org = none ∨ ∃ d v, d ≠ c ∧ s.organizations.lock org = some (d, v)) →
    (Populated s' org ↔ Populated s org)

/-- The client has no share of an organization and holds no row of a project. -/
def Unshared (c : Client) (s : Store) : Prop := s.projects.Out c ∧ ∀ org, c ∉ s.shares org

def discipline : Discipline Client Store Op where
  Inv := Inv
  Guar := Guar
  Idle c s := (s.organizations.Out c ∧ s.members.Out c ∧ s.invites.Out c) ∧ Unshared c s
  Allowed _ _ _ := True

section Rely

theorem Inv.keep (h : Inv s) (hrows : s'.rows = s.rows) (hlog : ∀ e ∈ s'.log, e ∈ s.log ∨ Sound e)
    (hpending : ∀ p c v, s'.projects.lock p = some (c, v) → ∃ row, v = some row ∧
      ((∃ old, s.projects.committed p = some old ∧ old.organization = row.organization) ∨
        s.projects.committed p = none ∧ c ∈ s'.shares row.organization))
    (hshared : ∀ org c, c ∈ s'.shares org →
      s.organizations.committed org ≠ none ∧ ∀ d v, s'.organizations.lock org = some (d, v) → d = c) : Inv s' := by
  have horgs : s'.organizations.committed = s.organizations.committed := congrArg Rows.organizations hrows
  have hprojects : s'.projects.committed = s.projects.committed := congrArg Rows.projects hrows
  constructor
  · rw [hrows]
    exact h.refs
  · rw [hprojects]
    exact hpending
  · rw [horgs]
    exact hshared
  · exact fun e he => (hlog e he).elim (h.log e) id

theorem Guar.keep (hrows : s'.rows = s.rows)
    (htables : ∀ d, d ≠ c → Table.Undisturbed d s.organizations s'.organizations ∧ Table.Undisturbed d s.members s'.members ∧
      Table.Undisturbed d s.invites s'.invites ∧ Table.Undisturbed d s.projects s'.projects)
    (hown : ∀ d, d ≠ c → s'.counted d = s.counted d ∧ ∀ org, d ∈ s'.shares org ↔ d ∈ s.shares org) : Guar c s s' := by
  have horgs : s'.organizations.committed = s.organizations.committed := congrArg Rows.organizations hrows
  have hprojects : s'.projects.committed = s.projects.committed := congrArg Rows.projects hrows
  have hmembers : s'.members.committed = s.members.committed := congrArg Rows.members hrows
  have hinvites : s'.invites.committed = s.invites.committed := congrArg Rows.invites hrows
  refine ⟨htables, hown, fun org h => by rw [horgs, h], fun k => .inr (by rw [hmembers]), fun k => .inr (by rw [hinvites]),
    fun org _ => ?_⟩
  rw [Populated, Populated, hprojects]

theorem stable_unshared : discipline.Stable c (Unshared c) := by
  intro d hd s s' _ hguar ⟨hout, hshares⟩
  obtain ⟨-, -, -, hprojects⟩ := hguar.tables c hd.symm
  exact ⟨hout.stable hprojects, fun org hmem => hshares org (((hguar.own c hd.symm).2 org).mp hmem)⟩

/-- The client holds nothing but projects and shares. -/
def Outside (c : Client) (s : Store) : Prop := s.organizations.Out c ∧ s.members.Out c ∧ s.invites.Out c

theorem stable_outside : discipline.Stable c (Outside c) := by
  intro d hd s s' _ hguar ⟨horgs, hmembers, hinvites⟩
  obtain ⟨horgs', hmembers', hinvites', -⟩ := hguar.tables c hd.symm
  exact ⟨horgs.stable horgs', hmembers.stable hmembers', hinvites.stable hinvites'⟩

theorem stable_idle : discipline.Stable c (discipline.Idle c) := stable_outside.and stable_unshared

theorem mem_statuses {status : ProjectStatus} (hout : s.projects.Out c) :
    status ∈ statuses c s org ↔ ∃ p row, s.projects.committed p = some row ∧ row.organization = org ∧ row.status = status := by
  simp only [statuses, List.mem_map, List.mem_filter, decide_eq_true_eq]
  constructor
  · rintro ⟨⟨p, row⟩, ⟨hmem, horg⟩, hstatus⟩
    exact ⟨p, row, hout.untouched.view.symm.trans (Table.mem_rows.mp hmem), horg, hstatus⟩
  · rintro ⟨p, row, hrow, horg, hstatus⟩
    exact ⟨(p, row), ⟨Table.mem_rows.mpr (hout.untouched.view.trans hrow), horg⟩, hstatus⟩

theorem populated_iff (hout : s.projects.Out c) : Populated s org ↔ statuses c s org ≠ [] := by
  rw [List.ne_nil_iff_exists_cons]
  constructor
  · rintro ⟨p, row, hrow, horg⟩
    have hmem : row.status ∈ statuses c s org := (mem_statuses hout).mpr ⟨p, row, hrow, horg, rfl⟩
    cases hstatuses : statuses c s org with
    | nil =>
        rw [hstatuses] at hmem
        cases hmem
    | cons status rest => exact ⟨status, rest, rfl⟩
  · rintro ⟨status, rest, hstatuses⟩
    have hmem : status ∈ statuses c s org := by rw [hstatuses]; exact List.mem_cons_self
    obtain ⟨p, row, hrow, horg, -⟩ := (mem_statuses hout).mp hmem
    exact ⟨p, row, hrow, horg⟩

end Rely

section Ends

theorem released_sub {Key Row : Type} {t : Table Client Key Row} {k : Key} {v : Option Row}
    (h : t.released c k = some (d, v)) : t.lock k = some (d, v) := (Table.released_eq.mp h).1

theorem mem_unshared {shares : List Client} : d ∈ shares.filter (· ≠ c) ↔ d ∈ shares ∧ d ≠ c := by
  simp [List.mem_filter]

/-- A transaction that is undone, with what it tells of a removal. -/
theorem keep_rollback (hI : Inv s) {log : List Removal} (hlog : ∀ e ∈ log, e ∈ s.log ∨ Sound e) :
    let s' := { abort c s with log := log }
    Inv s' ∧ Guar c s s' ∧ discipline.Idle c s' := by
  refine ⟨hI.keep rfl hlog (fun p d v hp => ?_) fun org d hmem => ?_, Guar.keep rfl (fun d hd => ?_) fun d hd => ⟨rfl, fun org => ?_⟩,
    ⟨Table.out_rollback, Table.out_rollback, Table.out_rollback⟩, Table.out_rollback, fun org hmem => ?_⟩
  · obtain ⟨hlock, hne⟩ := Table.released_eq.mp hp
    obtain ⟨row, rfl, hrow⟩ := hI.pending p d v hlock
    exact ⟨row, rfl, hrow.imp_right fun h => ⟨h.1, mem_unshared.mpr ⟨h.2, hne⟩⟩⟩
  · obtain ⟨hcommitted, hlock⟩ := hI.shared org d (mem_unshared.mp hmem).1
    exact ⟨hcommitted, fun e v he => hlock e v (released_sub he)⟩
  · exact ⟨Table.undisturbed_rollback hd, Table.undisturbed_rollback hd, Table.undisturbed_rollback hd, Table.undisturbed_rollback hd⟩
  · exact mem_unshared.trans ⟨And.left, fun h => ⟨h, hd⟩⟩
  · exact (mem_unshared.mp hmem).2 rfl

theorem meets_rolledBack {removal : Option (OrgId × Outcome)}
    (hsound : ∀ s org outcome rows, Inv s → Q s → removal = some (org, outcome) → rows = s.rows →
      Sound ⟨org, s.counted c, outcome, s.rows, rows⟩) :
    discipline.Meets organizations c (rolledBack removal) Q := by
  intro s chance r s' hI hQ _ hexec
  cases hexec
  have hlog : ∀ e ∈ (removal.map fun r => ⟨r.1, s.counted c, r.2, s.rows, (abort c s).rows⟩).toList ++ s.log,
      e ∈ s.log ∨ Sound e := by
    intro e he
    rcases List.mem_append.mp he with he | he
    · cases removal with
      | none => cases he
      | some removal =>
          obtain rfl := List.mem_singleton.mp he
          exact .inr (hsound s _ _ _ hI hQ rfl rfl)
    · exact .inl he
  obtain ⟨hI', hguar, hidle⟩ := keep_rollback (c := c) hI hlog
  exact ⟨hI', hguar, _, stable_idle, hidle, fun _ _ h => h⟩

/-- What the projects that the client holds become. -/
theorem committed_project (hI : Inv s) {row : Project} (hrow : s.projects.view c p = some row) :
    (∃ old, s.projects.committed p = some old ∧ old.organization = row.organization) ∨
      s.projects.committed p = none ∧ c ∈ s.shares row.organization := by
  by_cases hlock : ∃ v, s.projects.lock p = some (c, v)
  · obtain ⟨v, hv⟩ := hlock
    obtain ⟨row', rfl, hcase⟩ := hI.pending p c v hv
    rw [Table.view_of_lock hv] at hrow
    cases hrow
    exact hcase
  · rw [Table.view_of_other fun v hv => hlock ⟨v, hv⟩] at hrow
    exact .inl ⟨row, hrow, rfl⟩

theorem meets_committed (hQ : ∀ s, Inv s → Q s → Outside c s) : discipline.Meets organizations c (committed none) Q := by
  intro s chance r s' hI hs _ hexec
  obtain ⟨horgs, hmembers, hinvites⟩ := hQ s hI hs
  cases hexec
  have horgs' : (s.organizations.commit c).committed = s.organizations.committed := horgs.untouched.commit
  have hmembers' : (s.members.commit c).committed = s.members.committed := hmembers.untouched.commit
  have hinvites' : (s.invites.commit c).committed = s.invites.committed := hinvites.untouched.commit
  refine ⟨⟨⟨?_, ?_, fun p row hrow => ?_⟩, fun p d v hp => ?_, fun org d hmem => ?_, hI.log⟩,
    ⟨fun d hd => ?_, fun d hd => ⟨rfl, fun org => ?_⟩, fun org h => ?_, fun k => ?_, fun k => ?_, fun org hheld => ?_⟩,
    _, stable_idle, ⟨⟨Table.out_commit, Table.out_commit, Table.out_commit⟩, Table.out_commit, fun org hmem => ?_⟩, fun _ _ h => h⟩
  · simp only [Store.rows, horgs', hmembers']
    exact hI.refs.members
  · simp only [Store.rows, horgs', hinvites']
    exact hI.refs.invites
  · simp only [Store.rows, horgs'] at hrow ⊢
    rcases committed_project hI hrow with ⟨old, hold, horg⟩ | ⟨-, hshare⟩
    · rw [← horg]
      exact hI.refs.projects p old hold
    · exact (hI.shared _ _ hshare).1
  · obtain ⟨hlock, hne⟩ := Table.released_eq.mp hp
    obtain ⟨row, rfl, hcase⟩ := hI.pending p d v hlock
    have hview : (s.projects.commit c).committed p = s.projects.committed p := by
      refine Table.view_of_other fun w hw => hne ?_
      cases hw.symm.trans hlock
      rfl
    refine ⟨row, rfl, ?_⟩
    simp only [hview]
    exact hcase.imp_right fun h => ⟨h.1, mem_unshared.mpr ⟨h.2, hne⟩⟩
  · obtain ⟨hcommitted, hlock⟩ := hI.shared org d (mem_unshared.mp hmem).1
    refine ⟨?_, fun e v he => hlock e v (released_sub he)⟩
    simp only [horgs']
    exact hcommitted
  · exact ⟨Table.undisturbed_commit hd, Table.undisturbed_commit hd, Table.undisturbed_commit hd, Table.undisturbed_commit hd⟩
  · exact mem_unshared.trans ⟨And.left, fun h => ⟨h, hd⟩⟩
  · simp only [horgs', h]
  · exact .inr (by simp only [hmembers'])
  · exact .inr (by simp only [hinvites'])
  · constructor
    · rintro ⟨p, row, hrow, horg⟩
      rcases committed_project hI hrow with ⟨old, hold, hsame⟩ | ⟨-, hshare⟩
      · exact ⟨p, old, hold, hsame.trans horg⟩
      -- a new project has a share of its organization, which nobody can hold
      · rw [horg] at hshare
        obtain ⟨hthere, hfree⟩ := hI.shared org c hshare
        rcases hheld with hnone | ⟨d, v, hd, hlock⟩
        · exact absurd hnone hthere
        · exact absurd (hfree d v hlock) hd
    · rintro ⟨p, row, hrow, horg⟩
      by_cases hlock : ∃ v, s.projects.lock p = some (c, v)
      · obtain ⟨v, hv⟩ := hlock
        obtain ⟨row', rfl, ⟨old, hold, hsame⟩ | ⟨hnone, -⟩⟩ := hI.pending p c v hv
        · cases hrow.symm.trans hold
          exact ⟨p, row', Table.view_of_lock hv, hsame.symm.trans horg⟩
        · cases hrow.symm.trans hnone
      · exact ⟨p, row, (Table.view_of_other fun v hv => hlock ⟨v, hv⟩).trans hrow, horg⟩
  · exact (mem_unshared.mp hmem).2 rfl

end Ends

section Projects

/-- A project that is written keeps its organization, or takes a share of it. -/
theorem keep_write (row : Project) (shares : OrgId → List Client) (hI : Inv s) (hfree : s.projects.free c p = true)
    (hrow : (∃ old, s.projects.committed p = some old ∧ old.organization = row.organization) ∨
      s.projects.committed p = none ∧ c ∈ shares row.organization)
    (hshares : ∀ org d, d ∈ shares org ↔ d ∈ s.shares org ∨ d = c ∧ shares org ≠ s.shares org)
    (hshared : ∀ org, shares org ≠ s.shares org →
      s.organizations.committed org ≠ none ∧ ∀ d v, s.organizations.lock org = some (d, v) → d = c) :
    let s' := { s with projects := s.projects.write c p (some row), shares := shares }
    Inv s' ∧ Guar c s s' := by
  refine ⟨hI.keep rfl (fun _ => .inl) (fun q d v hq => ?_) fun org d hmem => ?_,
    Guar.keep rfl (fun d hd => ⟨.refl, .refl, .refl, Table.undisturbed_write hd hfree⟩) fun d hd => ⟨rfl, fun org => ?_⟩⟩
  · by_cases hqp : q = p
    · subst hqp
      rw [Table.lock_write_self] at hq
      cases hq
      exact ⟨row, rfl, hrow⟩
    · rw [Table.lock_write_of_ne hqp] at hq
      obtain ⟨row', rfl, hcase⟩ := hI.pending q d v hq
      exact ⟨row', rfl, hcase.imp_right fun h => ⟨h.1, (hshares _ _).mpr (.inl h.2)⟩⟩
  · rcases (hshares org d).mp hmem with hmem | ⟨rfl, hne⟩
    · exact hI.shared org d hmem
    · exact hshared org hne
  · exact (hshares org d).trans ⟨fun h => h.resolve_right fun h => hd h.1, .inl⟩

theorem meets_insertProject {status : ProjectStatus} :
    discipline.Meets organizations c (insertProject org status) (Outside c) := by
  intro s chance r s' hI hout _ hexec
  simp only [organizations, exec] at hexec
  split at hexec
  · cases hexec
  next hnew =>
    simp only [Bool.or_eq_true, not_or, Bool.not_eq_true, Option.isSome_eq_false_iff, Option.isNone_iff_eq_none] at hnew
    split at hexec
    next hfree =>
      split at hexec
      · cases hexec
        exact ⟨hI, Guar.keep rfl (fun _ _ => ⟨.refl, .refl, .refl, .refl⟩) fun _ _ => ⟨rfl, fun _ => Iff.rfl⟩, _, stable_outside,
          hout, meets_rolledBack fun _ _ _ _ _ _ h => by cases h⟩
      next slug hview =>
        cases hexec
        rw [hout.1.untouched.view] at hview
        have hkeep := keep_write (c := c) (p := chance) ⟨org, status⟩ (Function.update s.shares org (c :: s.shares org)) hI
          (by simp [Table.free, hnew.2]) (.inr ⟨hnew.1, by simp⟩) (fun o d => ?_) fun o hne => ?_
        · exact ⟨hkeep.1, hkeep.2, _, stable_outside, hout, meets_committed fun _ _ h => h⟩
        · by_cases ho : o = org
          · subst ho
            simp [or_comm]
          · simp [Function.update_of_ne ho]
        · by_cases ho : o = org
          · subst ho
            refine ⟨by simp [hview], fun d v hlock => ?_⟩
            simpa [Table.free, hlock] using hfree
          · exact absurd (Function.update_of_ne ho ..) hne
    next => cases hexec

theorem meets_requestRestore {source : ProjectId} {limit : Option Nat} :
    discipline.Meets organizations c (requestRestore source limit) (Outside c) := by
  intro s chance r s' hI hout _ hexec
  have hundone : ∀ {Q : Store → Prop}, discipline.Meets organizations c (rolledBack none) Q :=
    fun {_} => meets_rolledBack fun _ _ _ _ _ _ h => by cases h
  simp only [organizations, exec] at hexec
  split at hexec
  next hfree =>
    split at hexec
    next row hrow =>
      cases hexec
      have hkeep := keep_write (c := c) (p := source) row s.shares hI hfree (committed_project hI hrow)
        (fun _ _ => by simp) fun _ hne => absurd rfl hne
      refine ⟨hkeep.1, hkeep.2, _, stable_outside, hout, ?_⟩
      dsimp only
      split
      · exact hundone
      · cases limit with
        | none => exact meets_insertProject
        | some limit =>
            intro s chance n s' hI hout _ hexec
            cases hexec
            refine ⟨hI.keep rfl (fun _ => .inl) hI.pending hI.shared,
              Guar.keep rfl (fun _ _ => ⟨.refl, .refl, .refl, .refl⟩) fun d hd => ⟨Function.update_of_ne hd .., fun _ => Iff.rfl⟩,
              _, stable_outside, hout, ?_⟩
            dsimp only
            split
            · exact hundone
            · exact meets_insertProject
    next =>
      cases hexec
      exact ⟨hI, Guar.keep rfl (fun _ _ => ⟨.refl, .refl, .refl, .refl⟩) fun _ _ => ⟨rfl, fun _ => Iff.rfl⟩, _, stable_outside,
        hout, hundone⟩
  next => cases hexec

theorem meets_setStatus {froms : List ProjectStatus} {status : ProjectStatus} :
    discipline.Meets organizations c (setStatus p froms status) (Outside c) := by
  intro s chance r s' hI hout _ hexec
  have hsame : Guar c s s := Guar.keep rfl (fun _ _ => ⟨.refl, .refl, .refl, .refl⟩) fun _ _ => ⟨rfl, fun _ => Iff.rfl⟩
  have hdone : discipline.Meets organizations c (committed none) (Outside c) := meets_committed fun _ _ h => h
  simp only [organizations, exec] at hexec
  split at hexec
  next hfree =>
    cases hexec
    split
    next row hrow =>
      split
      · have horg := committed_project hI hrow
        have hkeep := keep_write (c := c) (p := p) { row with status := status } s.shares hI hfree horg (fun _ _ => by simp)
          fun _ hne => absurd rfl hne
        exact ⟨hkeep.1, hkeep.2, _, stable_outside, hout, hdone⟩
      · exact ⟨hI, hsame, _, stable_outside, hout, hdone⟩
    next => exact ⟨hI, hsame, _, stable_outside, hout, hdone⟩
  next => cases hexec

end Projects

section Removals

variable {counted : List ProjectStatus}

/-- The organization that a removal holds, if it is there. -/
def Locked (c : Client) (org : OrgId) (s : Store) : Prop :=
  s.members.Out c ∧ s.invites.Out c ∧ Unshared c s ∧
    ((∃ slug, s.organizations.lock org = some (c, some slug) ∧ s.organizations.Untouched c) ∨
      s.organizations.committed org = none ∧ s.organizations.Out c)

theorem stable_locked : discipline.Stable c (Locked c org) := by
  intro d hd s s' hI hguar ⟨hmembers, hinvites, hunshared, horg⟩
  obtain ⟨horgs', hmembers', hinvites', -⟩ := hguar.tables c hd.symm
  refine ⟨hmembers.stable hmembers', hinvites.stable hinvites', stable_unshared d hd s s' hI hguar hunshared, ?_⟩
  rcases horg with ⟨slug, hlock, huntouched⟩ | ⟨hnone, hout⟩
  · exact .inl ⟨slug, (horgs' _ _).1.mpr hlock, huntouched.stable horgs'⟩
  · exact .inr ⟨hguar.gone org hnone, hout.stable horgs'⟩

/-- What a removal has counted are the projects that there are until its end. -/
def Counted (c : Client) (org : OrgId) (counted : List ProjectStatus) (s : Store) : Prop :=
  Locked c org s ∧ s.counted c = counted ∧ (Populated s org ↔ counted ≠ [])

theorem stable_counted : discipline.Stable c (Counted c org counted) := by
  intro d hd s s' hI hguar ⟨hlocked, hcounted, hpopulated⟩
  refine ⟨stable_locked d hd s s' hI hguar hlocked, (hguar.own c hd.symm).1.trans hcounted, (hguar.frozen org ?_).trans hpopulated⟩
  rcases hlocked.2.2.2 with ⟨slug, hlock, -⟩ | ⟨hnone, -⟩
  · exact .inr ⟨c, _, hd.symm, hlock⟩
  · exact .inl hnone

/-- The organization and what refers to it, about to go. -/
def Deleted (c : Client) (org : OrgId) (s : Store) : Prop :=
  Unshared c s ∧ s.counted c = [] ∧ ¬ Populated s org ∧
    ((∃ slug, s.organizations.Wrote c org (some slug) none) ∧ s.members.Cleared c (ofMember org) ∧
        s.invites.Cleared c (ofInvite org) ∨
      s.organizations.committed org = none ∧ Outside c s)

theorem stable_deleted : discipline.Stable c (Deleted c org) := by
  intro d hd s s' hI hguar ⟨hunshared, hcounted, hpopulated, horg⟩
  obtain ⟨horgs', hmembers', hinvites', -⟩ := hguar.tables c hd.symm
  refine ⟨stable_unshared d hd s s' hI hguar hunshared, (hguar.own c hd.symm).1.trans hcounted, ?_, ?_⟩
  · refine fun h => hpopulated ((hguar.frozen org ?_).mp h)
    rcases horg with ⟨⟨slug, hwrote⟩, -, -⟩ | ⟨hnone, -⟩
    · exact .inr ⟨c, _, hd.symm, hwrote.lock⟩
    · exact .inl hnone
  · rcases horg with ⟨⟨slug, hwrote⟩, hmembers, hinvites⟩ | ⟨hnone, hout⟩
    · exact .inl ⟨⟨slug, hwrote.stable horgs'⟩, hmembers.stable hmembers' hguar.members, hinvites.stable hinvites' hguar.invites⟩
    · exact .inr ⟨hguar.gone org hnone, stable_outside d hd s s' hI hguar hout⟩

theorem clearable_free {Key Row : Type} {t : Table Client Key Row} {p : Key → Row → Bool} (h : clearable t c p = true) (k : Key)
    (hk : (t.view c k).any (p k) = true) : t.free c k = true := by
  have hmem : k ∈ t.keys := by
    refine t.mem_keys k ?_
    by_cases hlock : t.lock k = none
    · refine .inl fun hnone => ?_
      simp [Table.view, hlock, hnone] at hk
    · exact .inr hlock
  have hfree := List.all_eq_true.mp h k hmem
  simpa [hk] using hfree

theorem Deleted.gone (hI : Inv s) (h : Deleted c org s) : Gone ⟨org, [], .removed, s.rows,
    ⟨(s.organizations.commit c).committed, (s.members.commit c).committed, (s.invites.commit c).committed,
      (s.projects.commit c).committed⟩⟩ := by
  obtain ⟨⟨hprojects, -⟩, -, hpopulated, ⟨⟨slug, hwrote⟩, hmembers, hinvites⟩ | ⟨hnone, horgs, hmembers, hinvites⟩⟩ := h
  · constructor
    · exact hwrote.commit
    · intro k
      refine (hmembers.commit k).trans ?_
      cases hrow : s.members.committed k with
      | none => simp [Store.rows, hrow]
      | some role => simp [Store.rows, hrow, ofMember]
    · intro i
      refine (hinvites.commit i).trans ?_
      cases hrow : s.invites.committed i with
      | none => simp [Store.rows, hrow]
      | some invite => by_cases horg : invite.organizationId = org <;> simp [Store.rows, hrow, ofInvite, horg, Option.filter]
    · exact hprojects.untouched.commit
    · exact fun p row hrow horg => hpopulated ⟨p, row, hrow, horg⟩
  -- where the organization is not there, nothing refers to it
  · constructor
    · refine horgs.untouched.commit.trans ?_
      funext o
      by_cases ho : o = org
      · subst ho
        simp [hnone]
      · simp [Store.rows, Function.update_of_ne ho]
    · intro k
      refine (congrFun hmembers.untouched.commit k).trans ?_
      dsimp only
      split
      next hk =>
        cases hrow : s.members.committed k with
        | none => rfl
        | some role =>
            refine absurd ?_ (hI.refs.members k role hrow)
            rw [hk]
            exact hnone
      next => rfl
    · intro i
      refine (congrFun hinvites.untouched.commit i).trans ?_
      cases hrow : s.invites.committed i with
      | none => simp [Store.rows, hrow]
      | some invite =>
          have horg : invite.organizationId ≠ org := by
            rintro rfl
            exact hI.refs.invites i invite hrow hnone
          simp [Store.rows, hrow, horg, Option.filter]
    · exact hprojects.untouched.commit
    · exact fun p row hrow horg => hpopulated ⟨p, row, hrow, horg⟩

theorem meets_commitRemoval : discipline.Meets organizations c (committed (some org)) (Deleted c org) := by
  intro s chance r s' hI hdeleted _ hexec
  have hgone := hdeleted.gone hI
  have horgs : (s.organizations.commit c).committed = Function.update s.organizations.committed org none := hgone.organizations
  have hmembers : ∀ k, (s.members.commit c).committed k = if k.1 = org then none else s.members.committed k := hgone.members
  have hinvites : ∀ i, (s.invites.commit c).committed i = (s.invites.committed i).filter fun invite => invite.organizationId ≠ org :=
    hgone.invites
  have hprojects : (s.projects.commit c).committed = s.projects.committed := hgone.projects
  cases hexec
  refine ⟨⟨⟨fun k role hrow => ?_, fun i invite hrow => ?_, fun p row hrow => ?_⟩, fun p d v hp => ?_, fun o d hmem => ?_, fun e he => ?_⟩,
    ⟨fun d hd => ?_, fun d hd => ⟨rfl, fun org => ?_⟩, fun o h => ?_, fun k => ?_, fun i => ?_, fun o _ => ?_⟩,
    _, stable_idle, ⟨⟨Table.out_commit, Table.out_commit, Table.out_commit⟩, Table.out_commit, fun org hmem => ?_⟩, fun _ _ h => h⟩
  · simp only [Store.rows, horgs, hmembers] at hrow ⊢
    split at hrow
    · cases hrow
    next hk =>
      rw [Function.update_of_ne hk]
      exact hI.refs.members k role hrow
  · simp only [Store.rows, horgs, hinvites] at hrow ⊢
    obtain ⟨hrow, hk⟩ := Option.filter_eq_some_iff.mp hrow
    rw [Function.update_of_ne (by simpa using hk)]
    exact hI.refs.invites i invite hrow
  · simp only [Store.rows, horgs, hprojects] at hrow ⊢
    rw [Function.update_of_ne (hgone.unreferred p row hrow)]
    exact hI.refs.projects p row hrow
  · obtain ⟨hlock, hne⟩ := Table.released_eq.mp hp
    obtain ⟨row, rfl, hcase⟩ := hI.pending p d v hlock
    refine ⟨row, rfl, ?_⟩
    simp only [hprojects]
    exact hcase.imp_right fun h => ⟨h.1, mem_unshared.mpr ⟨h.2, hne⟩⟩
  · obtain ⟨hmem, hne⟩ := mem_unshared.mp hmem
    obtain ⟨hthere, hlock⟩ := hI.shared o d hmem
    refine ⟨?_, fun e v he => hlock e v (released_sub he)⟩
    have ho : o ≠ org := by
      rintro rfl
      rcases hdeleted.2.2.2 with ⟨⟨slug, hwrote⟩, -⟩ | ⟨hnone, -⟩
      · exact hne (hlock c none hwrote.lock).symm
      · exact hthere hnone
    simp only [horgs, Function.update_of_ne ho]
    exact hthere
  · rcases List.mem_append.mp he with he | he
    · obtain rfl := List.mem_singleton.mp he
      rw [hdeleted.2.1]
      exact ⟨rfl, hgone⟩
    · exact hI.log e he
  · exact ⟨Table.undisturbed_commit hd, Table.undisturbed_commit hd, Table.undisturbed_commit hd, Table.undisturbed_commit hd⟩
  · exact mem_unshared.trans ⟨And.left, fun h => ⟨h, hd⟩⟩
  · simp only [horgs]
    by_cases ho : o = org
    · rw [ho, Function.update_self]
    · rw [Function.update_of_ne ho, h]
  · simp only [hmembers]
    split
    · exact .inl rfl
    · exact .inr rfl
  · simp only [hinvites]
    cases s.invites.committed i with
    | none => exact .inl rfl
    | some invite => by_cases horg : invite.organizationId = org <;> simp [Option.filter, horg]
  · simp only [Populated, hprojects]
  · exact (mem_unshared.mp hmem).2 rfl

theorem meets_deleteOrg : discipline.Meets organizations c
    (.step (.deleteOrg org) fun deleted => if deleted then committed (some org) else rolledBack (some (org, .restricted)))
    fun s => Counted c org counted s ∧ live counted = 0 := by
  intro s chance r s' hI ⟨⟨⟨hmembers, hinvites, hunshared, horg⟩, hcounted, hpopulated⟩, hlive⟩ _ hexec
  have hsame : Guar c s s := Guar.keep rfl (fun _ _ => ⟨.refl, .refl, .refl, .refl⟩) fun _ _ => ⟨rfl, fun _ => Iff.rfl⟩
  simp only [organizations, exec] at hexec
  split at hexec
  next hview =>
    cases hexec
    rcases horg with ⟨slug, hlock, -⟩ | ⟨hnone, hout⟩
    · rw [Table.view_of_lock hlock] at hview
      cases hview
    have hempty : ¬ Populated s org := by
      rintro ⟨p, row, hrow, rfl⟩
      exact hI.refs.projects p row hrow hnone
    have hcounted' : s.counted c = [] := by
      rw [hcounted]
      by_contra hne
      exact hempty (hpopulated.mpr hne)
    exact ⟨hI, hsame, _, stable_deleted, ⟨hunshared, hcounted', hempty, .inr ⟨hnone, hout, hmembers, hinvites⟩⟩, meets_commitRemoval⟩
  next slug hview =>
    rcases horg.symm with ⟨hnone, hout⟩ | ⟨slug, hlock, huntouched⟩
    · rw [hout.untouched.view, hnone] at hview
      cases hview
    have hslug : s.organizations.committed org = some slug := (huntouched _ _ hlock).symm
    split at hexec
    next hfree =>
      simp only [Bool.and_eq_true] at hfree
      split at hexec
      next hrows =>
        cases hexec
        refine ⟨hI, hsame, _, stable_counted, ⟨⟨hmembers, hinvites, hunshared, .inl ⟨slug, hlock, huntouched⟩⟩, hcounted, hpopulated⟩,
          meets_rolledBack fun s o outcome rows hI hs heq hrows' => ?_⟩
        cases heq
        have hne := hpopulated.mp ((populated_iff hunshared.1).mpr hrows)
        exact ⟨by rw [hs.2.1]; exact hne, by rw [hs.2.1]; exact hlive, hrows'⟩
      next hrows =>
        cases hexec
        have hempty : ¬ Populated s org := fun h => hrows ((populated_iff hunshared.1).mp h)
        have hcounted' : s.counted c = [] := by
          rw [hcounted]
          by_contra hne
          exact hempty (hpopulated.mpr hne)
        refine ⟨hI.keep rfl (fun _ => .inl) hI.pending fun o d hmem => ?_, Guar.keep rfl (fun d hd => ?_) fun _ _ => ⟨rfl, fun _ => Iff.rfl⟩,
          _, stable_deleted, ⟨hunshared, hcounted', hempty, .inl ⟨⟨slug, ?_⟩, hmembers.clear, hinvites.clear⟩⟩, meets_commitRemoval⟩
        · obtain ⟨hthere, hholder⟩ := hI.shared o d hmem
          refine ⟨hthere, fun e v he => ?_⟩
          by_cases ho : o = org
          · subst ho
            rw [Table.lock_write_self] at he
            cases he
            exact hholder _ _ hlock
          · rw [Table.lock_write_of_ne ho] at he
            exact hholder e v he
        · exact ⟨Table.undisturbed_write hd hfree.1.1, Table.undisturbed_clear hd (clearable_free hfree.1.2),
            Table.undisturbed_clear hd (clearable_free hfree.2), .refl⟩
        · have hwrote := huntouched.write (k := org) none
          rwa [hslug] at hwrote
    next => cases hexec

theorem meets_remove : discipline.Meets organizations c (remove org) (discipline.Idle c) := by
  have hcount : discipline.Meets organizations c (.step (.countLive org) fun n =>
      if 0 < n then rolledBack (some (org, .notEmpty n))
      else .step (.deleteOrg org) fun deleted =>
        if deleted then committed (some org) else rolledBack (some (org, .restricted))) (Locked c org) := by
    intro s chance n s' hI hlocked _ hexec
    cases hexec
    refine ⟨hI.keep rfl (fun _ => .inl) hI.pending hI.shared,
      Guar.keep rfl (fun _ _ => ⟨.refl, .refl, .refl, .refl⟩) fun d hd => ⟨Function.update_of_ne hd .., fun _ => Iff.rfl⟩,
      Counted c org (statuses c s org), stable_counted, ⟨hlocked, Function.update_self .., populated_iff hlocked.2.2.1.1⟩, ?_⟩
    dsimp only
    split
    next hlive =>
      refine meets_rolledBack fun s' o outcome rows hI hs heq hrows => ?_
      cases heq
      exact ⟨by rw [hs.2.1], hlive, hrows⟩
    next hlive => exact meets_deleteOrg.mono fun s' _ h => ⟨h, Nat.eq_zero_of_not_pos hlive⟩
  intro s chance r s' hI ⟨⟨horgs, hmembers, hinvites⟩, hunshared⟩ _ hexec
  simp only [organizations, exec] at hexec
  split at hexec
  next hfree =>
    simp only [Bool.and_eq_true, List.all_eq_true, decide_eq_true_eq] at hfree
    have hview : s.organizations.view c org = s.organizations.committed org := horgs.untouched.view
    split at hexec
    next slug hslug =>
      cases hexec
      refine ⟨hI.keep rfl (fun _ => .inl) hI.pending fun o d hmem => ?_,
        Guar.keep rfl (fun d hd => ⟨Table.undisturbed_write hd hfree.1, .refl, .refl, .refl⟩) fun _ _ => ⟨rfl, fun _ => Iff.rfl⟩,
        Locked c org, stable_locked, ⟨hmembers, hinvites, hunshared, .inl ⟨slug, Table.lock_write_self, ?_⟩⟩, hcount⟩
      · obtain ⟨hthere, hholder⟩ := hI.shared o d hmem
        refine ⟨hthere, fun e v he => ?_⟩
        by_cases ho : o = org
        · subst ho
          rw [Table.lock_write_self] at he
          cases he
          exact (hfree.2 d hmem).symm
        · rw [Table.lock_write_of_ne ho] at he
          exact hholder e v he
      · have hlocked := horgs.untouched.locked (k := org)
        rwa [← hview, hslug] at hlocked
    next hnone =>
      cases hexec
      exact ⟨hI, Guar.keep rfl (fun _ _ => ⟨.refl, .refl, .refl, .refl⟩) fun _ _ => ⟨rfl, fun _ => Iff.rfl⟩, Locked c org, stable_locked,
        ⟨hmembers, hinvites, hunshared, .inr ⟨hview.symm.trans hnone, horgs⟩⟩, hcount⟩
  next => cases hexec

end Removals

theorem sound : discipline.Sound organizations where
  idle _ := stable_idle
  abort c s hI _ := keep_rollback hI fun _ => .inl
  program c request := by
    cases request with
    | remove org => exact meets_remove
    | createProject org => exact meets_insertProject.mono fun _ _ h => h.1
    | requestRestore source limit => exact meets_requestRestore.mono fun _ _ h => h.1
    | setStatus p froms status => exact meets_setStatus.mono fun _ _ h => h.1

/-- A removal goes through exactly where every project is deleted, and takes the members and the invites with it, or is refused
and leaves everything as it was. -/
def Exact (e : Removal) : Prop :=
  (e.outcome = .removed ↔ ∀ status ∈ e.counted, status = .deleted) ∧ (e.outcome = .removed → Gone e) ∧
    (e.outcome ≠ .removed → e.outcome = .notEmpty (live e.counted) ∧ e.after = e.before)

theorem live_eq_zero {statuses : List ProjectStatus} : live statuses = 0 ↔ ∀ status ∈ statuses, status = .deleted := by
  simp [live, List.filter_eq_nil_iff]

theorem Sound.exact_live {e : Removal} (h : Sound e) : Exact e ↔ e.counted = [] ∨ 0 < live e.counted := by
  cases houtcome : e.outcome with
  | removed =>
      simp only [Sound, houtcome] at h
      refine ⟨fun _ => .inl h.1, fun _ => ⟨?_, fun _ => h.2, fun hne => absurd houtcome hne⟩⟩
      simp [houtcome, h.1]
  | notEmpty n =>
      simp only [Sound, houtcome] at h
      obtain ⟨hn, hpos, hsame⟩ := h
      rw [hn] at hpos
      refine ⟨fun _ => .inr hpos, fun _ => ⟨?_, fun hremoved => ?_, fun _ => ⟨by rw [houtcome, hn], hsame⟩⟩⟩
      · rw [houtcome, ← live_eq_zero]
        constructor
        · intro hremoved
          cases hremoved
        · intro hzero
          omega
      · cases houtcome.symm.trans hremoved
  | restricted =>
      simp only [Sound, houtcome] at h
      obtain ⟨hne, hzero, -⟩ := h
      constructor
      · intro hexact
        cases houtcome.symm.trans (hexact.1.mpr (live_eq_zero.mp hzero))
      · rintro (hnil | hpos)
        · exact absurd hnil hne
        · omega

/-- A removal is exact but for an organization all of whose projects are deleted. -/
theorem removals_exact {g : Config Client Store Op Reply} (hstill : s.Still) (hrefs : Referring s.rows) (hlog : s.log = [])
    (h : organizations.Reachable (fun _ _ => True) s g) :
    ∀ e ∈ g.store.log, Exact e ↔ e.counted = [] ∨ 0 < live e.counted := by
  have hI : Inv s := by
    refine ⟨hrefs, fun p c v hp => ?_, fun org c hmem => ?_, fun e he => ?_⟩
    · rw [hstill.projects] at hp
      cases hp
    · rw [hstill.shares] at hmem
      cases hmem
    · rw [hlog] at he
      cases he
  have hidle : ∀ c, discipline.Idle c s := by
    refine fun c => ⟨⟨fun k v hk => ?_, fun k v hk => ?_, fun k v hk => ?_⟩, fun k v hk => ?_, fun org hmem => ?_⟩
    · cases (hstill.organizations k).symm.trans hk
    · cases (hstill.members k).symm.trans hk
    · cases (hstill.invites k).symm.trans hk
    · cases (hstill.projects k).symm.trans hk
    · rw [hstill.shares] at hmem
      cases hmem
  intro e he
  exact ((sound.reachable (Discipline.grants_all (fun _ _ _ => trivial) fun _ _ => trivial) hI hidle h).1.log e he).exact_live

section Examples

/-- An organization with its owner and no project. -/
def fresh : Store where
  organizations := .single 0 10
  members := .single (0, 1) .owner
  invites := .empty
  projects := .empty
  shares _ := []
  counted _ := []
  log := []

theorem still_fresh : fresh.Still := ⟨fun _ => rfl, fun _ => rfl, fun _ => rfl, fun _ => rfl, fun _ => rfl⟩

theorem referring_fresh : Referring fresh.rows := by
  constructor
  · intro k role hrow
    by_cases hk : k = (0, 1)
    · subst hk
      exact fun hnone => by cases hnone
    · simp [fresh, Store.rows, Table.single, hk] at hrow
  · intro i invite hrow
    cases hrow
  · intro p row hrow
    cases hrow

/-- While a project is created a removal waits, and is then refused. -/
def refused : List (Move Client Chance Request) :=
  [.arrive 1 (.createProject 0), .run 1 7, .arrive 2 (.remove 0), .run 1 7, .run 2 7, .run 2 7, .run 2 7]

theorem removals_exact_refused : ∃ g, organizations.Reachable (fun _ _ => True) fresh g ∧ ∃ e ∈ g.store.log,
    e.outcome = .notEmpty 1 ∧ Exact e := by
  have h := Protocol.Reachable.start.free (P := organizations) (s := fresh) refused rfl
  refine ⟨_, h, _, List.mem_cons_self, rfl, ?_⟩
  exact (removals_exact still_fresh referring_fresh rfl h _ List.mem_cons_self).mpr (.inr (by decide))

/-- A project is created and purged, and its organization is removed. -/
def purged : List (Move Client Chance Request) :=
  [.arrive 1 (.createProject 0), .run 1 7, .run 1 7, .arrive 1 (.setStatus 7 [.creating] .deleted), .run 1 7, .run 1 7,
    .arrive 2 (.remove 0), .run 2 7, .run 2 7, .run 2 7, .run 2 7]

theorem not_removals_exact :
    ¬ ∀ g, organizations.Reachable (fun _ _ => True) fresh g → ∀ e ∈ g.store.log, Exact e := by
  intro h
  have hrun := Protocol.Reachable.start.free (P := organizations) (s := fresh) purged rfl
  have hexact := h _ hrun _ List.mem_cons_self
  cases hexact.1.mpr (by decide)

end Examples

end Corebase.OrgRemoval
