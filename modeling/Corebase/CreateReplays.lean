import Corebase.ProjectCreation

namespace Corebase.CreateReplays

open Interleaving ProjectCreation
open JsText (Text)
open Organizations (Role OrgId UserId)

/-- An answer with a project is to a create of an organization of the caller, and a create that was taken up
for an organization of the caller is answered with its project. -/
def Proper (a : Answer) : Prop :=
  (∀ p, a.response.project = some p → ∃ e ∈ a.created, some e.key = a.key ∧ e.project = p ∧ e.org ∈ a.belonged) ∧
  ∀ e ∈ a.created, some e.key = a.key → e.org ∈ a.belonged → a.response.project = some e.project

/-- The creates have distinct keys, and each of them its job and its project. -/
structure Lawful (s : Store) : Prop where
  distinct : s.created.Pairwise fun e e' => e.key ≠ e'.key
  jobs : ∀ e ∈ s.created, s.job e.key = some ⟨e.key, .provisionProject, e.project⟩
  projects : ∀ e ∈ s.created, ∃ p ∈ s.projects, p.id = e.project ∧ p.org = e.org
  belonged : ∀ d u, s.callers d = some u → s.orgsOf u ⊆ s.belonged d

/-- A key that is looked up has no job, or that of a create of the caller's organization, and a key is
used for a create while no other request has missed it. -/
def unshared (c : Client) : Op → Store → Bool
  | .findByIdempotencyKey key, s =>
      (s.projectOf key).isNone || s.created.any fun e => e.key = key && e.org ∈ s.belonged c
  | .createProject _ key .., s => s.missed.all fun m => m.1 = c || m.2 ≠ key
  | _, _ => true

def unused (key : Text) (s : Store) : Prop := ∀ e ∈ s.created, e.key ≠ key

def discipline (strict : Prop) : Discipline Client Store Op where
  Inv s := Lawful s ∧ (strict → ∀ a ∈ s.answers, Proper a)
  Guar c s s' := s.created ⊆ s'.created ∧ ∀ d, d ≠ c → s'.callers d = s.callers d ∧ s.belonged d ⊆ s'.belonged d ∧
    ∀ key, (d, key) ∈ s.missed → (d, key) ∈ s'.missed ∧ (strict → unused key s → unused key s')
  Idle _ _ := True
  Allowed c op s := strict → unshared c op s = true

variable {strict : Prop} {c d : Client} {s s' : Store} {key : Text} {caller : Option UserId} {org : OrgId} {p : ProjectId}
  {limit : Nat} {uuid : ProjectId} {Q : Store → Prop}

section Stores

theorem Lawful.same (h : Lawful s) (hcreated : s'.created = s.created) (hjobs : s'.jobs = s.jobs)
    (hprojects : ∀ p ∈ s.projects, ∃ p' ∈ s'.projects, p'.id = p.id ∧ p'.org = p.org) (hmembers : s'.members = s.members)
    (hcallers : s'.callers = s.callers) (hbelonged : s'.belonged = s.belonged) : Lawful s' := by
  refine ⟨hcreated ▸ h.distinct, fun e he => ?_, fun e he => ?_, fun d u hu org horg => ?_⟩
  · rw [Store.job, hjobs]
    exact h.jobs e (hcreated ▸ he)
  · obtain ⟨p, hp, hid, horg⟩ := h.projects e (hcreated ▸ he)
    obtain ⟨p', hp', hid', horg'⟩ := hprojects p hp
    exact ⟨p', hp', hid'.trans hid, horg'.trans horg⟩
  · rw [hbelonged]
    refine h.belonged d u (hcallers ▸ hu) ?_
    rwa [Store.orgsOf, hmembers] at horg

/-- More jobs, the older ones under their keys. -/
theorem job_cons {job found : Job} (hnew : s.job job.key = none) (hjobs : s'.jobs = job :: s.jobs)
    (h : s.job key = some found) : s'.job key = some found := by
  unfold Store.job
  rw [hjobs, List.find?_cons_of_neg]
  · exact h
  · rintro hkey
    rw [decide_eq_true_eq] at hkey
    rw [hkey] at hnew
    cases hnew.symm.trans h

theorem Lawful.projectOf_created (h : Lawful s) {e : Created} (he : e ∈ s.created) : s.projectOf e.key = some e.project := by
  obtain ⟨p, hp, hid, -⟩ := h.projects e he
  have hany : ∃ p ∈ s.projects, p.id = e.project := ⟨p, hp, hid⟩
  simp [Store.projectOf, h.jobs e he, hany]

theorem Lawful.eq_of_key (h : Lawful s) {e e' : Created} (he : e ∈ s.created) (he' : e' ∈ s.created)
    (hkey : e.key = e'.key) : e.project = e'.project := by
  have hproject := h.projectOf_created he
  rw [hkey, h.projectOf_created he'] at hproject
  exact (Option.some.inj hproject).symm

theorem roleOf_mem {u : UserId} {role : Role} (h : s.roleOf u org = some role) : org ∈ s.orgsOf u := by
  obtain ⟨m, hm, -⟩ := Option.map_eq_some_iff.mp h
  have hp := List.find?_some hm
  simp only [Bool.and_eq_true, decide_eq_true_eq] at hp
  exact List.mem_map.mpr ⟨m, List.mem_filter.mpr ⟨List.mem_of_find?_eq_some hm, by simpa using hp.1⟩, hp.2⟩

/-- A statement that inserts a project and a job under a new key. -/
theorem Lawful.addProject (h : Lawful s) (project : Project) (job : Job) (hnew : s.job job.key = none) :
    Lawful (s.addProject project job) := by
  refine ⟨h.distinct, fun e he => job_cons hnew rfl (h.jobs e he), fun e he => ?_, h.belonged⟩
  obtain ⟨p, hp, hpe⟩ := h.projects e he
  exact ⟨p, List.mem_cons_of_mem _ hp, hpe⟩

theorem Lawful.create (h : Lawful s) (project : Project) (hnew : s.job key = none) :
    Lawful { s.addProject project ⟨key, .provisionProject, project.id⟩ with
      created := ⟨project.org, key, project.id⟩ :: s.created } := by
  have hadd := h.addProject project ⟨key, .provisionProject, project.id⟩ hnew
  refine ⟨List.pairwise_cons.mpr ⟨fun e he hkey => ?_, h.distinct⟩, fun e he => ?_, fun e he => ?_, h.belonged⟩
  · dsimp only at hkey
    rw [hkey] at hnew
    cases hnew.symm.trans (h.jobs e he)
  · rcases List.mem_cons.mp he with rfl | he
    · exact List.find?_cons_of_pos (by simp)
    · exact hadd.jobs e he
  · rcases List.mem_cons.mp he with rfl | he
    · exact ⟨project, List.mem_cons_self, rfl, rfl⟩
    · exact hadd.projects e he

theorem conflicts_false {id : ProjectId} (h : ¬ s.conflicts id key = true) : s.job key = none := by
  simp only [Store.conflicts, Bool.or_eq_true, not_or, Option.not_isSome_iff_eq_none] at h
  exact h.2

end Stores

section Rely

theorem guar_same (hcreated : s'.created = s.created) (hcallers : s'.callers = s.callers)
    (hbelonged : s'.belonged = s.belonged) (hmissed : ∀ d, d ≠ c → ∀ key, (d, key) ∈ s.missed → (d, key) ∈ s'.missed) :
    (discipline strict).Guar c s s' := by
  refine ⟨hcreated ▸ List.Subset.refl _, fun d hd => ⟨congrFun hcallers d, hbelonged ▸ List.Subset.refl _, fun key hkey =>
    ⟨hmissed d hd key hkey, fun _ hunused => ?_⟩⟩⟩
  rwa [unused, hcreated]

theorem guar_refl : (discipline strict).Guar c s s := guar_same rfl rfl rfl fun _ _ _ => id

/-- The request has found the project under its key. -/
def Found (strict : Prop) (c : Client) (key : Text) (p : ProjectId) (s : Store) : Prop :=
  strict → ∃ e ∈ s.created, e.key = key ∧ e.project = p ∧ e.org ∈ s.belonged c

/-- The request has not found its key, and it is still unused. -/
def Missed (strict : Prop) (c : Client) (key : Text) (s : Store) : Prop := (c, key) ∈ s.missed ∧ (strict → unused key s)

theorem stable_calls : (discipline strict).Stable c fun s => s.callers c = caller :=
  fun _ hd _ _ _ hG h => (hG.2 c hd.symm).1.trans h

theorem stable_belongs : (discipline strict).Stable c fun s => org ∈ s.belonged c :=
  fun _ hd _ _ _ hG h => (hG.2 c hd.symm).2.1 h

theorem stable_found : (discipline strict).Stable c (Found strict c key p) := by
  rintro d hd s s' - hG h hstrict
  obtain ⟨e, he, hkey, hp, horg⟩ := h hstrict
  exact ⟨e, hG.1 he, hkey, hp, (hG.2 c hd.symm).2.1 horg⟩

theorem stable_missed : (discipline strict).Stable c (Missed strict c key) := by
  rintro d hd s s' - hG ⟨hmissed, hunused⟩
  obtain ⟨hmissed', hkeep⟩ := (hG.2 c hd.symm).2.2 key hmissed
  exact ⟨hmissed', fun hstrict => hkeep hstrict (hunused hstrict)⟩

theorem Found.proper {status : Nat} (h : Found strict c key p s) (hs : Lawful s) (hstrict : strict) :
    Proper ⟨c, some key, .ok status p, s.belonged c, s.created⟩ := by
  obtain ⟨e, he, hkey, hp, horg⟩ := h hstrict
  refine ⟨fun q hq => ?_, fun e' he' hkey' _ => ?_⟩
  · cases hq
    exact ⟨e, he, congrArg some hkey, hp, horg⟩
  · have hsame := hs.eq_of_key he he' (hkey.trans (Option.some.inj hkey').symm)
    exact congrArg some (hp.symm.trans hsame)

theorem Missed.proper {e : ApiError} (h : Missed strict c key s) (hstrict : strict) :
    Proper ⟨c, some key, .refused e, s.belonged c, s.created⟩ :=
  ⟨fun _ hq => (by cases hq), fun e he hkey _ => absurd (Option.some.inj hkey) (h.2 hstrict e he)⟩

end Rely

section Programs

theorem meets_done : (discipline strict).Meets (creation limit) c .done Q := fun _ _ _ => trivial

theorem meets_respond {key : Option Text} {r : Response}
    (hproper : ∀ s, Lawful s → Q s → strict → Proper ⟨c, key, r, s.belonged c, s.created⟩) :
    (discipline strict).Meets (creation limit) c (respond key r) Q := by
  rintro s uuid _ s' ⟨hs, hanswers⟩ hQ - hexec
  cases hexec
  refine ⟨⟨⟨hs.distinct, hs.jobs, hs.projects, hs.belonged⟩, fun hstrict a ha => ?_⟩, guar_same rfl rfl rfl ?_,
    _, Discipline.stable_true, trivial, meets_done⟩
  · rcases List.mem_cons.mp ha with rfl | ha
    · exact hproper s hs hQ hstrict
    · exact hanswers hstrict a ha
  · exact fun d hd key hkey => List.mem_filter.mpr ⟨hkey, by simpa using hd⟩

theorem meets_refuse {status : Nat} {code : Code} {message : String} (hQ : ∀ s, Q s → Missed strict c key s) :
    (discipline strict).Meets (creation limit) c (refuse key status code message) Q :=
  meets_respond fun s _ h => (hQ s h).proper

/-- A request without a legal key is refused. -/
theorem meets_refuse_none {status : Nat} {code : Code} {message : String} :
    (discipline strict).Meets (creation limit) c (refuse none status code message) Q :=
  meets_respond fun _ _ _ _ => ⟨fun _ hq => (by cases hq), fun _ _ hkey => by cases hkey⟩

/-- A statement that reads. -/
theorem meets_read {op : Op} {next : Reply op → Program Op Reply} {R : Reply op → Store → Prop}
    (hread : ∀ uuid s r s', exec c uuid op s = some (r, s') → s' = s ∧ (Lawful s → Q s → R r s))
    (hR : ∀ r, (discipline strict).Stable c (R r))
    (hnext : ∀ r, (discipline strict).Meets (creation limit) c (next r) (R r)) :
    (discipline strict).Meets (creation limit) c (.step op next) Q := by
  intro s uuid r s' hI hQ _ hexec
  obtain ⟨rfl, hr⟩ := hread uuid s r s' hexec
  exact ⟨hI, guar_refl, R r, hR r, hr hI.1 hQ, hnext r⟩

theorem meets_requireAuth (caller : Option UserId) {next : Unit → Program Op Reply}
    (hnext : ∀ r, (discipline strict).Meets (creation limit) c (next r) fun s => s.callers c = caller) :
    (discipline strict).Meets (creation limit) c (.step (.requireAuth caller) next) Q := by
  rintro s uuid _ s' ⟨hs, hanswers⟩ - - hexec
  cases hexec
  refine ⟨⟨⟨hs.distinct, hs.jobs, hs.projects, fun d u hu org horg => ?_⟩, hanswers⟩, ⟨List.Subset.refl _, fun d hd => ?_⟩,
    _, stable_calls, Function.update_self .., hnext ()⟩
  · by_cases hd : d = c
    · subst hd
      dsimp only at hu ⊢
      rw [Function.update_self] at hu ⊢
      subst hu
      exact horg
    · dsimp only at hu ⊢
      rw [Function.update_of_ne hd] at hu ⊢
      exact hs.belonged d u hu horg
  · refine ⟨Function.update_of_ne hd .., ?_, fun _ hkey => ⟨hkey, fun _ => id⟩⟩
    dsimp only
    rw [Function.update_of_ne hd]
    exact List.Subset.refl _

theorem meets_findByIdempotencyKey {next : Option ProjectId → Program Op Reply}
    (hfound : ∀ p, (discipline strict).Meets (creation limit) c (next (some p)) (Found strict c key p))
    (hmissed : (discipline strict).Meets (creation limit) c (next none)
      fun s => s.callers c = caller ∧ Missed strict c key s) :
    (discipline strict).Meets (creation limit) c (.step (.findByIdempotencyKey key) next)
      fun s => s.callers c = caller := by
  rintro s uuid r s' ⟨hs, hanswers⟩ hcaller hok hexec
  simp only [creation, exec] at hexec
  split at hexec <;> cases hexec
  next p hp =>
    refine ⟨⟨hs, hanswers⟩, guar_refl, _, stable_found, fun hstrict => ?_, hfound p⟩
    have hunshared := hok hstrict
    simp only [unshared, hp, Option.isNone_some, Bool.false_or, List.any_eq_true, Bool.and_eq_true,
      decide_eq_true_eq] at hunshared
    obtain ⟨e, he, rfl, horg⟩ := hunshared
    have hproject := (hs.projectOf_created he).symm.trans hp
    exact ⟨e, he, rfl, Option.some.inj hproject, horg⟩
  next hnone =>
    refine ⟨⟨⟨hs.distinct, hs.jobs, hs.projects, hs.belonged⟩, hanswers⟩,
      guar_same rfl rfl rfl fun _ _ _ => List.mem_cons_of_mem _, _, stable_calls.and stable_missed,
      ⟨hcaller, List.mem_cons_self, fun _ e he hkey => ?_⟩, hmissed⟩
    subst hkey
    cases hnone.symm.trans (hs.projectOf_created he)

theorem meets_create {id : ProjectId} {name region plan : Text} {next : Bool → Program Op Reply}
    (hcreated : (discipline strict).Meets (creation limit) c (next true) (Found strict c key id))
    (hrefused : (discipline strict).Meets (creation limit) c (next false) (Missed strict c key)) :
    (discipline strict).Meets (creation limit) c (.step (.createProject id key org name region plan) next)
      fun s => Missed strict c key s ∧ org ∈ s.belonged c := by
  rintro s uuid r s' ⟨hs, hanswers⟩ ⟨hmissed, horg⟩ hok hexec
  simp only [creation, exec] at hexec
  split at hexec <;> cases hexec
  next => exact ⟨⟨hs, hanswers⟩, guar_refl, _, stable_missed, hmissed, hrefused⟩
  next hnew =>
    refine ⟨⟨hs.create ⟨id, org, name, region, plan, .creating⟩ (conflicts_false hnew), hanswers⟩,
      ⟨List.subset_cons_self _ _, fun d hd => ⟨rfl, List.Subset.refl _, fun key' hkey' => ⟨hkey', fun hstrict hunused => ?_⟩⟩⟩,
      _, stable_found, fun _ => ⟨_, List.mem_cons_self, rfl, rfl, horg⟩, hcreated⟩
    have hother := List.all_eq_true.mp (hok hstrict) _ hkey'
    simp only [hd, decide_false, Bool.false_or, decide_eq_true_eq] at hother
    exact List.forall_mem_cons.mpr ⟨Ne.symm hother, hunused⟩

theorem meets_place {body : NewProject} : (discipline strict).Meets (creation limit) c (place limit key body org)
    fun s => Missed strict c key s ∧ org ∈ s.belonged c := by
  have hstable : (discipline strict).Stable c fun s => Missed strict c key s ∧ org ∈ s.belonged c :=
    stable_missed.and stable_belongs
  apply meets_read (fun _ _ _ _ h => by cases h; exact ⟨rfl, fun _ => id⟩) fun _ => hstable
  intro live
  beta_reduce
  split
  next => exact meets_refuse fun _ => And.left
  next =>
    apply meets_read (fun _ _ _ _ h => by cases h; exact ⟨rfl, fun _ => id⟩) fun _ => hstable
    intro taken
    beta_reduce
    split
    next => exact meets_refuse fun _ => And.left
    next =>
      apply meets_read (fun _ _ _ _ h => by cases h; exact ⟨rfl, fun _ => id⟩) fun _ => hstable
      intro id
      apply meets_create
      · exact meets_respond fun _ hs h => h.proper hs
      · exact meets_refuse fun _ h => h

theorem meets_memberOf {user : UserId} {next : OrgId → Role → Program Op Reply}
    (hnext : ∀ role, (discipline strict).Meets (creation limit) c (next org role)
      fun s => Missed strict c key s ∧ org ∈ s.belonged c) :
    (discipline strict).Meets (creation limit) c (memberOf key user org next)
      fun s => s.callers c = some user ∧ Missed strict c key s := by
  refine meets_read (R := fun r s => Missed strict c key s ∧ (r ≠ none → org ∈ s.belonged c)) (fun _ s r _ h => ?_)
    (fun r => stable_missed.and fun d hd s s' hI hG h hr => stable_belongs d hd s s' hI hG (h hr)) fun r => ?_
  · cases h
    refine ⟨rfl, fun hs hQ => ⟨hQ.2, fun hr => ?_⟩⟩
    obtain ⟨role, hrole⟩ := Option.ne_none_iff_exists'.mp hr
    exact hs.belonged c user hQ.1 (roleOf_mem hrole)
  · cases r with
    | none => exact meets_refuse fun _ => And.left
    | some role => exact (hnext role).mono fun s _ h => ⟨h.1, h.2 (Option.some_ne_none _)⟩

theorem meets_scope {q : Create} {next : OrgId → Role → Program Op Reply}
    (hnext : ∀ org role, (discipline strict).Meets (creation limit) c (next org role)
      fun s => Missed strict c key s ∧ org ∈ s.belonged c) :
    (discipline strict).Meets (creation limit) c (scope key q next)
      fun s => s.callers c = q.caller ∧ Missed strict c key s := by
  unfold scope
  split
  next => exact meets_refuse fun _ => And.right
  next => exact meets_refuse fun _ => And.right
  next user org hcaller _ =>
    rw [hcaller]
    exact meets_memberOf (hnext org)
  next user hcaller _ =>
    rw [hcaller]
    apply meets_read (fun _ _ _ _ h => by cases h; exact ⟨rfl, fun _ => id⟩) fun _ => stable_calls.and stable_missed
    intro orgs
    beta_reduce
    split
    next => exact meets_refuse fun _ => And.right
    next org => exact meets_memberOf (hnext org)
    next => exact meets_refuse fun _ => And.right

theorem meets_createProject {q : Create} :
    (discipline strict).Meets (creation limit) c (createProject limit q) Q := by
  apply meets_requireAuth q.caller
  intro _
  beta_reduce
  split
  next => exact meets_refuse_none
  next key _ =>
    split
    next => exact meets_refuse_none
    split
    next => exact meets_refuse_none
    apply meets_findByIdempotencyKey
    · exact fun p => meets_respond fun _ hs h => h.proper hs
    dsimp only
    split
    next => exact meets_refuse fun _ => And.right
    next body _ =>
      apply meets_scope
      intro org role
      split
      next => exact meets_refuse fun _ => And.left
      next => exact meets_place

/-- The statements of the other requests. -/
def Other : Op → Prop
  | .requireAuth _ | .findByIdempotencyKey _ | .createProject .. | .respond .. => False
  | _ => True

theorem other_request {q : Request} (hq : ∀ create, q ≠ .create create) : (q.program limit).Only Other := by
  cases q with
  | create create => exact absurd rfl (hq create)
  | schedule | setStatus | setMember => exact ⟨trivial, fun _ => trivial⟩
  | restore source target =>
      refine ⟨trivial, fun found => ?_⟩
      cases found with
      | none => exact ⟨trivial, fun _ => trivial⟩
      | some project =>
          dsimp only
          split
          next => exact ⟨trivial, fun _ => trivial⟩
          next =>
            refine ⟨trivial, fun live => ?_⟩
            beta_reduce
            split
            next => exact ⟨trivial, fun _ => trivial⟩
            next => exact ⟨trivial, fun _ => ⟨trivial, fun _ => trivial⟩⟩

theorem inv_other (uuid : ProjectId) {op : Op} {r : Reply op} (hop : Other op) (hI : (discipline strict).Inv s)
    (hexec : exec c uuid op s = some (r, s')) : (discipline strict).Inv s' ∧ (discipline strict).Guar c s s' := by
  obtain ⟨hs, hanswers⟩ := hI
  have hkeep : ∀ p ∈ s.projects, ∃ p' ∈ s.projects, p'.id = p.id ∧ p'.org = p.org := fun p hp => ⟨p, hp, rfl, rfl⟩
  cases op with
  | requireAuth | findByIdempotencyKey | createProject | respond => cases hop
  | listForUser | roleOf | countProjectsInOrg | findByName | uuid =>
      cases hexec
      exact ⟨⟨hs, hanswers⟩, guar_refl⟩
  | lockProject p =>
      simp only [exec] at hexec
      split at hexec
      next => cases hexec
      next =>
        split at hexec <;> cases hexec
        next => exact ⟨⟨hs, hanswers⟩, guar_refl⟩
        next => exact ⟨⟨hs.same rfl rfl hkeep rfl rfl rfl, hanswers⟩, guar_same rfl rfl rfl fun _ _ _ => id⟩
  | restoreProject id org name region plan =>
      simp only [exec] at hexec
      split at hexec <;> cases hexec
      next => exact ⟨⟨hs.same rfl rfl hkeep rfl rfl rfl, hanswers⟩, guar_same rfl rfl rfl fun _ _ _ h => h⟩
      next hnew =>
        have hadd := hs.addProject ⟨id, org, name, region, plan, .restoring⟩ ⟨restoreKey id, .restoreProject, id⟩
          (conflicts_false hnew)
        exact ⟨⟨hadd.same rfl rfl (fun p hp => ⟨p, hp, rfl, rfl⟩) rfl rfl rfl, hanswers⟩, guar_same rfl rfl rfl fun _ _ _ h => h⟩
  | rollback =>
      cases hexec
      exact ⟨⟨hs.same rfl rfl hkeep rfl rfl rfl, hanswers⟩, guar_same rfl rfl rfl fun _ _ _ => id⟩
  | insertJob key kind p =>
      simp only [exec] at hexec
      split at hexec <;> cases hexec
      next => exact ⟨⟨hs, hanswers⟩, guar_refl⟩
      next hnew =>
        simp only [Bool.or_eq_true, not_or, Option.not_isSome_iff_eq_none] at hnew
        exact ⟨⟨⟨hs.distinct, fun e he => job_cons hnew.1 rfl (hs.jobs e he), hs.projects, hs.belonged⟩, hanswers⟩,
          guar_same rfl rfl rfl fun _ _ _ => id⟩
  | setStatus p status =>
      simp only [exec] at hexec
      split at hexec <;> cases hexec
      refine ⟨⟨hs.same rfl rfl (fun project hproject => ⟨_, List.mem_map_of_mem hproject, ?_⟩) rfl rfl rfl, hanswers⟩,
        guar_same rfl rfl rfl fun _ _ _ => id⟩
      split <;> exact ⟨rfl, rfl⟩
  | setMember user org role =>
      have hothers : ∀ u, ((s.members.filter fun m => m.user ≠ user || m.org ≠ org).filter
          fun m => m.user = u).map Membership.org ⊆ s.orgsOf u := fun u =>
        List.map_subset _ fun m hm => List.mem_filter.mpr
          ⟨(List.mem_filter.mp (List.mem_filter.mp hm).1).1, (List.mem_filter.mp hm).2⟩
      cases role with
      | none =>
          cases hexec
          exact ⟨⟨⟨hs.distinct, hs.jobs, hs.projects, fun d u hu => List.Subset.trans (hothers u) (hs.belonged d u hu)⟩, hanswers⟩,
            guar_same rfl rfl rfl fun _ _ _ => id⟩
      | some role =>
          cases hexec
          refine ⟨⟨⟨hs.distinct, hs.jobs, hs.projects, fun d u hu org' horg' => ?_⟩, hanswers⟩, List.Subset.refl _,
            fun d hd => ⟨rfl, ?_, fun _ hkey => ⟨hkey, fun _ => id⟩⟩⟩
          · dsimp only
            obtain ⟨m, hm, rfl⟩ := List.mem_map.mp horg'
            obtain ⟨hm, hmu⟩ := List.mem_filter.mp hm
            rw [decide_eq_true_eq] at hmu
            rcases List.mem_cons.mp hm with rfl | hm
            · obtain rfl : user = u := hmu
              rw [if_pos hu]
              exact List.mem_cons_self
            · have hold := hs.belonged d u hu (hothers u (List.mem_map.mpr ⟨m, List.mem_filter.mpr ⟨hm, by simpa using hmu⟩, rfl⟩))
              split
              next => exact List.mem_cons_of_mem _ hold
              next => exact hold
          · dsimp only
            split
            next => exact List.subset_cons_self _ _
            next => exact List.Subset.refl _

theorem meets_other {q : Request} (hq : ∀ create, q ≠ .create create) :
    (discipline strict).Meets (creation limit) c (q.program limit) Q :=
  Discipline.Meets.of_only (other_request hq) (fun _ _ => trivial)
    (fun uuid _ _ _ _ hop hI _ hexec => inv_other uuid hop hI hexec) Q

theorem sound : (discipline strict).Sound (creation limit) where
  idle _ := Discipline.stable_true
  abort c s hI _ := by
    refine ⟨⟨hI.1.same rfl rfl (fun p hp => ⟨p, hp, rfl, rfl⟩) rfl rfl rfl, hI.2⟩, guar_same rfl rfl rfl ?_, trivial⟩
    exact fun d hd key hkey => List.mem_filter.mpr ⟨hkey, by simpa using hd⟩
  program c q := by
    by_cases hq : ∃ create, q = .create create
    · obtain ⟨create, rfl⟩ := hq
      exact meets_createProject
    · exact meets_other fun create h => hq ⟨create, h⟩

end Programs

section Runs

variable {g : Config Client Store Op Reply}

/-- The moves of runs in which no key is shared. -/
def Unshared : Config Client Store Op Reply → Move Client ProjectId Request → Prop :=
  Protocol.Statements fun c op s => unshared c op s = true

theorem grants_unshared : (discipline True).Grants Unshared where
  allowed _ c choice op next hr hok _ := hok c choice op next rfl hr
  mortal _ _ _ := trivial

/-- In every run an organization gets at most one project for a key, and that one is its own. In the runs in
which no key is shared, a create is answered with the project that was taken up for it, and with no other. -/
theorem creates_replayed (hs : Lawful s) (hanswers : s.answers = []) (h : (creation limit).Reachable (fun _ _ => True) s g) :
    (g.store.created.Pairwise fun e e' => ¬ (e.org = e'.org ∧ e.key = e'.key)) ∧
    (∀ e ∈ g.store.created, ∃ p ∈ g.store.projects, p.id = e.project ∧ p.org = e.org) ∧
    ((creation limit).Reachable Unshared s g → ∀ a ∈ g.store.answers, Proper a) := by
  have hloose : (discipline False).Grants fun (_ : Config Client Store Op Reply) (_ : Move Client ProjectId Request) => True :=
    Discipline.grants_all (fun _ _ _ => False.elim) fun _ _ => trivial
  have hlawful : Lawful g.store := (sound.reachable hloose ⟨hs, False.elim⟩ (fun _ => trivial) h).1.1
  refine ⟨hlawful.distinct.imp fun hkey hsame => hkey hsame.2, hlawful.projects, fun h => ?_⟩
  refine (sound.reachable grants_unshared ⟨hs, fun _ => ?_⟩ (fun _ => trivial) h).1.2 trivial
  rw [hanswers]
  exact fun a ha => absurd ha List.not_mem_nil

end Runs

section Examples

/-- Two organizations with a member each. -/
def fresh : Store where
  projects := []
  jobs := []
  members := [⟨1, 1, .owner⟩, ⟨2, 2, .owner⟩]
  locks := []
  callers := fun _ => none
  belonged := fun _ => []
  missed := []
  created := []
  answers := []

theorem lawful_fresh : Lawful fresh where
  distinct := .nil
  jobs _ he := absurd he List.not_mem_nil
  projects _ he := absurd he List.not_mem_nil
  belonged _ _ hu := by cases hu

def sevens : Text := List.replicate 8 '7'

def create (user : UserId) (name : Char) : Request :=
  .create ⟨some user, some sevens, .ok ⟨[name], [], []⟩, some (.ok user)⟩

def move (c : Client) (q : Request) (n : Nat) : List (Move Client ProjectId Request) :=
  .arrive c q :: List.replicate n (.run c ['p'])

theorem unshared_watch (g : Config Client Store Op Reply) (m : Move Client ProjectId Request)
    (hm : Protocol.watch unshared g m = true) : Unshared g m := Protocol.statements_watch (fun _ _ _ => id) g m hm

theorem creates_replayed_twice : ∃ g, (creation 20).Reachable Unshared fresh g ∧
    g.store.answers.map Answer.response = [.ok 200 ['p'], .ok 202 ['p']] ∧ ∀ a ∈ g.store.answers, Proper a := by
  have h := Protocol.Reachable.start.replay (P := creation 20) (s := fresh) unshared_watch
    (move 0 (create 1 'a') 8 ++ move 0 (create 1 'a') 3) rfl
  exact ⟨_, h, rfl, (creates_replayed lawful_fresh rfl (h.mono fun _ _ _ => trivial)).2.2 h⟩

/-- The key of one organization gives another one its project. Of two requests of one organization with the same
key the later one fails. -/
theorem not_creates_replayed :
    (¬ ∀ g, (creation 20).Reachable (fun _ _ => True) fresh g → ∀ a ∈ g.store.answers, Proper a) ∧
    ∃ g, (creation 20).Reachable (fun _ _ => True) fresh g ∧
      g.store.answers.map (fun a => (a.client, a.response.project)) = [(1, none), (0, some ['p'])] := by
  refine ⟨fun h => ?_, _, Protocol.Reachable.start.free (P := creation 20) (s := fresh)
    (move 0 (create 1 'a') 2 ++ move 1 (create 1 'b') 5 ++ List.replicate 6 (.run 0 ['p']) ++
      List.replicate 3 (.run 1 ['q'])) rfl, rfl⟩
  have hrun := Protocol.Reachable.start.free (P := creation 20) (s := fresh)
    (move 0 (create 1 'a') 8 ++ move 1 (create 2 'b') 3) rfl
  obtain ⟨e, he, -, -, horg⟩ := (h _ hrun ⟨1, some sevens, .ok 200 ['p'], [2], [⟨1, sevens, ['p']⟩]⟩ List.mem_cons_self).1 _ rfl
  obtain rfl := List.mem_singleton.mp he
  exact absurd horg (by decide)

end Examples

end Corebase.CreateReplays
