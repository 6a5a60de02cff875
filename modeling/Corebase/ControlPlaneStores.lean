import Corebase.ControlPlane

namespace Corebase.ControlPlane

open JsText (Text)
open ProvisioningJobs (JobType ProjectStatus)

section Runs

variable (d : Database)

/-- The database may answer so, one call after the other. -/
def Serves : List Call → Store → List Answer → Prop
  | [], _, answers => answers = []
  | call :: calls, s, answers => ∃ a s' rest, answers = a :: rest ∧ (a, s') ∈ s.serve d call ∧ Serves calls s' rest

def serveAll : List Call → Memory → List Answer
  | [], _ => []
  | call :: calls, m => (m.serve call).1 :: serveAll calls (m.serve call).2

/-- The ref has no other spelling among the projects. -/
def Spelled (m : Memory) (ref : Text) : Prop :=
  storable ref = true ∧ ∀ p ∈ m.projects, d.lower p.ref = d.lower ref → p.ref = ref

/-- The calls that the memory serves as the database does. -/
def Alike (m : Memory) : Call → Prop
  | .createProject c =>
      (c.organization = none ∨ c.organization = some (.id .home)) ∧
      storable c.name = true ∧ storable c.region = true ∧ c.plan ∈ plans ∧ validRef c.ref = true ∧
      (∀ p ∈ m.projects, d.lower p.ref ≠ d.lower c.ref) ∧
      c.key.storable = true ∧ c.key.indexes d = true ∧ ∀ job ∈ m.jobs, job.key ≠ c.key
  | .findByIdempotencyKey key => key.storable = true ∧ ∀ job ∈ m.jobs, job.key = key → job.kind = .provisionProject
  | .getProject ref | .getProjectDetail ref | .requestDelete ref => Spelled d m ref
  | .listProjects => m.projects.length ≤ 1
  | .listProjectsPage limit cursor organization =>
      -1 ≤ limit ∧ limit + 1 < 2 ^ 63 ∧ castable organization = true ∧
      ∀ c, cursor = some c → ∃ values, c.values = some values ∧
        ((m.sorted organization).filter fun p => c.texts p.number).take (limit + 1).toNat =
          ((m.sorted organization).filter fun p => values p.number).take (limit + 1).toNat
  | .markStatus ref status => Spelled d m ref ∧ ((∃ p ∈ m.projects, p.ref = ref) → statusHolds status = true)
  | .findByName name organization => storable name = true ∧ castable organization = true ∧
      ∀ p ∈ m.projects, ∀ q ∈ m.projects, p.name = name → admits organization p.organization = true →
        q.name = name → admits organization q.organization = true → p = q
  | .jobs => True
  | .requestLifecycle .. | .requestRotation _ | .requestRetry _ | .countProjectsInOrg _ => False

def Attended : List Call → Memory → Prop
  | [], _ => True
  | call :: calls, m => Alike d m call ∧ Attended calls (m.serve call).2

end Runs

variable {d : Database} {m : Memory} {s : Store} {c : Creation} {call : Call} {ref : Text} {p q : Project}

/-- The two stores have the same rows, and no two of them for one ref or one key. -/
structure Agree (d : Database) (m : Memory) (s : Store) : Prop where
  projects : s.projects = m.projects
  jobs : m.jobs = s.jobs.map jobFromDb
  next : s.next = m.next
  live : ∀ p ∈ m.projects, p.status ≠ .deleted
  refs : (m.projects.map fun p => d.lower p.ref).Nodup
  named : ∀ p ∈ m.projects, p.ref ≠ []
  ordered : (m.projects.map Project.number).Pairwise (· < ·)
  bound : ∀ p ∈ m.projects, p.number < m.next
  keys : (m.jobs.map JobRow.key).Nodup
  owned : ∀ job ∈ m.jobs, ∃ p ∈ m.projects, p.number = job.project
  seen : ∀ key ref, m.byIdempotency key = some ref ↔ ∃ job ∈ m.jobs, job.key = key ∧ job.kind = .provisionProject ∧
    ∃ p ∈ m.projects, p.number = job.project ∧ p.ref = ref

theorem find?_unique {α : Type} {l : List α} {f : α → Bool} {a : α}
    (h : ∀ x ∈ l, ∀ y ∈ l, f x = true → f y = true → x = y) : l.find? f = some a ↔ a ∈ l ∧ f a = true := by
  constructor
  · exact fun hfind => ⟨List.mem_of_find?_eq_some hfind, List.find?_some hfind⟩
  · rintro ⟨hmem, hf⟩
    cases hfind : l.find? f with
    | none => exact absurd hf (List.find?_eq_none.mp hfind a hmem)
    | some b =>
        rw [h b (List.mem_of_find?_eq_some hfind) a hmem (List.find?_some hfind) hf]

namespace Agree

theorem eq_of_lower (h : Agree d m s) (hp : p ∈ m.projects) (hq : q ∈ m.projects) (heq : d.lower p.ref = d.lower q.ref) :
    p = q :=
  List.inj_on_of_nodup_map h.refs hp hq heq

theorem eq_of_ref (h : Agree d m s) (hp : p ∈ m.projects) (hq : q ∈ m.projects) (heq : p.ref = q.ref) : p = q :=
  h.eq_of_lower hp hq (congrArg d.lower heq)

theorem numbers (h : Agree d m s) : (m.projects.map Project.number).Nodup := h.ordered.imp fun hlt => Nat.ne_of_lt hlt

theorem eq_of_number (h : Agree d m s) (hp : p ∈ m.projects) (hq : q ∈ m.projects) (heq : p.number = q.number) : p = q :=
  List.inj_on_of_nodup_map h.numbers hp hq heq

theorem eq_of_key (h : Agree d m s) {i j : JobRow} (hi : i ∈ m.jobs) (hj : j ∈ m.jobs) (heq : i.key = j.key) : i = j :=
  List.inj_on_of_nodup_map h.keys hi hj heq

theorem filter_live (h : Agree d m s) : m.projects.filter (·.status ≠ .deleted) = m.projects :=
  List.filter_eq_self.mpr fun p hp => decide_eq_true (h.live p hp)

theorem visible (h : Agree d m s) : s.visible = m.projects := by
  rw [Store.visible, h.projects, h.filter_live]

theorem memory_get (h : Agree d m s) : m.get ref = some p ↔ p ∈ m.projects ∧ p.ref = ref := by
  have hunique := find?_unique (a := p) (l := m.projects) (f := (·.ref = ref)) fun x hx y hy hxr hyr =>
    h.eq_of_ref hx hy ((of_decide_eq_true hxr).trans (of_decide_eq_true hyr).symm)
  simpa [Memory.get] using hunique

theorem store_get (h : Agree d m s) : s.get d ref = some p ↔ p ∈ m.projects ∧ d.lower p.ref = d.lower ref := by
  have hunique := find?_unique (a := p) (l := m.projects) (f := fun p => d.lower p.ref = d.lower ref)
    fun x hx y hy hxr hyr => h.eq_of_lower hx hy ((of_decide_eq_true hxr).trans (of_decide_eq_true hyr).symm)
  simpa [Store.get, h.visible] using hunique

/-- The two lookups find the same project exactly if the ref is spelled as it was given. -/
theorem get_iff (h : Agree d m s) :
    s.get d ref = m.get ref ↔ ∀ p ∈ m.projects, d.lower p.ref = d.lower ref → p.ref = ref := by
  constructor
  · intro heq p hp hlower
    exact (h.memory_get.mp (heq ▸ h.store_get.mpr ⟨hp, hlower⟩)).2
  · intro hspelled
    apply Option.ext
    intro p
    rw [h.store_get, h.memory_get]
    exact ⟨fun ⟨hp, hlower⟩ => ⟨hp, hspelled p hp hlower⟩, fun ⟨hp, href⟩ => ⟨hp, congrArg d.lower href⟩⟩

theorem find_key (h : Agree d m s) (key : Key) :
    m.jobs.find? (·.key = key) = (s.jobs.find? (·.key = key)).map jobFromDb := by
  rw [h.jobs, List.find?_map]
  rfl

theorem all_key (h : Agree d m s) (key : Key) : (s.jobs.all (·.key ≠ key)) = true ↔ ∀ job ∈ m.jobs, job.key ≠ key := by
  rw [h.jobs]
  simp [jobFromDb]

theorem jobs_length (h : Agree d m s) : m.jobs.length = s.jobs.length := by
  rw [h.jobs, List.length_map]

theorem seen_eq (h : Agree d m s) (key : Key) : m.seen key = m.byIdempotency key := by
  cases hseen : m.byIdempotency key with
  | none => simp [Memory.seen, hseen]
  | some ref =>
      obtain ⟨-, -, -, -, p, hp, -, rfl⟩ := (h.seen key ref).mp hseen
      simp [Memory.seen, hseen, h.named p hp]

theorem unseen (h : Agree d m s) {key : Key} (hfree : ∀ job ∈ m.jobs, job.key ≠ key) : m.seen key = none := by
  rw [h.seen_eq]
  apply Option.eq_none_iff_forall_ne_some.mpr
  intro ref hseen
  obtain ⟨job, hjob, hkey, -⟩ := (h.seen key ref).mp hseen
  exact hfree job hjob hkey

end Agree

section Answers

theorem create_iff (h : Agree d m s) : (s.createProject d c).1 = (m.createProject c).1 ↔ Alike d m (.createProject c) := by
  have htakes : s.takes d c = true ↔ storable c.name = true ∧ storable c.region = true ∧ c.plan ∈ plans ∧
      validRef c.ref = true ∧ (∀ p ∈ m.projects, d.lower p.ref ≠ d.lower c.ref) ∧
      c.key.storable = true ∧ c.key.indexes d = true ∧ ∀ job ∈ m.jobs, job.key ≠ c.key := by
    rw [Store.takes, h.projects]
    simp only [Bool.and_eq_true, h.all_key, List.all_eq_true, decide_eq_true_eq, and_assoc]
  have hreturns : (m.createProject c).1 ≠ .thrown := by
    unfold Memory.createProject
    split
    next ref hseen =>
      rw [h.seen_eq] at hseen
      obtain ⟨-, -, -, -, p, hp, -, href⟩ := (h.seen _ ref).mp hseen
      simp [h.memory_get.mpr ⟨hp, href⟩]
    · nofun
  unfold Store.createProject
  rw [Alike, ← htakes]
  cases horganization : Store.organizationOf d c.organization with
  | none =>
      refine iff_of_false hreturns.symm fun hcond => ?_
      rcases hcond.1 with hnone | hhome
      · rw [hnone] at horganization
        cases horganization
      · rw [hhome] at horganization
        cases horganization
  | some organization =>
      by_cases ht : s.takes d c = true
      · have hfresh : m.seen c.key = none := h.unseen (htakes.mp ht).2.2.2.2.2.2.2
        simp only [ht, if_true, and_true, Memory.createProject, hfresh, h.next, h.jobs_length, jobFromDb, Answer.created.injEq,
          Project.mk.injEq, true_and]
        constructor
        · rintro rfl
          unfold Store.organizationOf at horganization
          split at horganization
          · exact .inl (by assumption)
          · exact .inr (by assumption)
          · split at horganization <;> cases horganization
          · cases horganization
          · cases horganization
        · rintro (hnone | hhome)
          · rw [hnone] at horganization
            exact (Option.some.inj horganization).symm
          · rw [hhome] at horganization
            exact (Option.some.inj horganization).symm
      · dsimp only
        rw [if_neg ht]
        exact iff_of_false hreturns.symm fun hcond => ht hcond.2

theorem findByIdempotencyKey_iff (h : Agree d m s) (key : Key) :
    s.findByIdempotencyKey key = m.findByIdempotencyKey key ↔ ∀ job ∈ m.jobs, job.key = key → job.kind = .provisionProject := by
  rw [Store.findByIdempotencyKey, Memory.findByIdempotencyKey, h.projects]
  cases hfind : s.jobs.find? (·.key = key) with
  | none =>
      have hfree : ∀ job ∈ m.jobs, job.key ≠ key := by
        apply h.all_key key |>.mp
        simpa using hfind
      rw [h.unseen hfree]
      exact iff_of_true rfl fun job hjob hkey => absurd hkey (hfree job hjob)
  | some job =>
      have hrow : m.jobs.find? (·.key = key) = some (jobFromDb job) := by rw [h.find_key, hfind, Option.map_some]
      have hmem := List.mem_of_find?_eq_some hrow
      have hkey : job.key = key := of_decide_eq_true (List.find?_some (p := fun j : Job => decide (j.key = key)) hfind)
      obtain ⟨p, hp, hnumber⟩ := h.owned _ hmem
      have hproject : m.projects.find? (·.number = job.project) = some p :=
        (find?_unique fun x hx y hy hxn hyn =>
          h.eq_of_number hx hy ((of_decide_eq_true hxn).trans (of_decide_eq_true hyn).symm)).mpr ⟨hp, decide_eq_true hnumber⟩
      rw [Option.bind_some, hproject, h.seen_eq]
      constructor
      · intro heq job' hjob' hkey'
        rw [h.eq_of_key hjob' hmem (hkey'.trans hkey.symm)]
        cases hseen : m.byIdempotency key with
        | none => simp [hseen] at heq
        | some ref =>
            obtain ⟨job'', hjob'', hkey'', hkind, -⟩ := (h.seen key ref).mp hseen
            rwa [h.eq_of_key hmem hjob'' (hkey.trans hkey''.symm)]
      · intro hkinds
        have hseen := (h.seen key p.ref).mpr ⟨_, hmem, hkey, hkinds _ hmem hkey, p, hp, hnumber, rfl⟩
        rw [hseen, Option.bind_some, h.memory_get.mpr ⟨hp, rfl⟩]

theorem listProjects_iff (h : Agree d m s) : Keyset.sorted Project.number s.visible = m.projects ↔ m.projects.length ≤ 1 := by
  rw [h.visible]
  constructor
  · intro heq
    have hdown := Keyset.sorted_strict h.numbers
    have hup := List.pairwise_map.mp h.ordered
    rw [heq] at hdown
    match hlist : m.projects with
    | [] | [_] => simp
    | p :: q :: rest =>
        rw [hlist] at hdown hup
        have hpq := List.rel_of_pairwise_cons hup (List.mem_cons_self (a := q) (l := rest))
        have hqp := List.rel_of_pairwise_cons hdown (List.mem_cons_self (a := q) (l := rest))
        exact absurd hpq (Nat.lt_asymm hqp)
  · intro hlen
    match hlist : m.projects with
    | [] | [_] => rfl
    | _ :: _ :: _ => simp [hlist] at hlen

theorem listProjectsPage_iff (h : Agree d m s) (limit : Int) (cursor : Option Cursor) (organization : Option OrgText) :
    s.listProjectsPage limit cursor organization = .listed (m.listProjectsPage limit cursor organization) ↔
      Alike d m (.listProjectsPage limit cursor organization) := by
  have hsorted : Keyset.sorted Project.number (m.projects.filter fun p => admits organization p.organization) =
      m.sorted organization := by rw [Memory.sorted, h.filter_live]
  unfold Store.listProjectsPage
  by_cases hcan : (castable organization && 0 ≤ limit + 1 && limit + 1 < 2 ^ 63) = true
  · rw [if_pos hcan]
    simp only [Bool.and_eq_true, decide_eq_true_eq] at hcan
    obtain ⟨⟨hcast, hlow⟩, hhigh⟩ := hcan
    have hslice : ∀ projects, Memory.slice projects (limit + 1) = projects.take (limit + 1).toNat :=
      fun projects => if_pos hlow
    have hbounds : -1 ≤ limit := by omega
    simp only [Memory.listProjectsPage, Alike, hslice, hcast, hhigh, hbounds, true_and, h.visible, hsorted]
    cases cursor with
    | none => simp
    | some cursor =>
        cases hvalues : cursor.values with
        | none =>
            simp only [hvalues]
            refine iff_of_false nofun fun hcond => ?_
            obtain ⟨values, hsome, -⟩ := hcond cursor rfl
            rw [hvalues] at hsome
            cases hsome
        | some values =>
            have hpage : Keyset.sorted Project.number
                (m.projects.filter fun p => admits organization p.organization && values p.number) =
                  (m.sorted organization).filter fun p => values p.number := by
              rw [← hsorted, ← Keyset.sorted_filter _ (h.numbers.sublist (List.filter_sublist.map _)), List.filter_filter]
              congr 2
              funext p
              exact Bool.and_comm ..
            simp only [hpage, Answer.listed.injEq, Option.some.injEq, forall_eq', hvalues, exists_eq_left']
            exact eq_comm
  · rw [if_neg hcan]
    refine iff_of_false nofun fun hcond => hcan ?_
    obtain ⟨hlow, hhigh, hcast, -⟩ := hcond
    simp only [Bool.and_eq_true, decide_eq_true_eq]
    exact ⟨⟨hcast, by omega⟩, hhigh⟩

theorem findByName_iff (h : Agree d m s) (name : Text) (organization : Option OrgText) :
    (∀ r ∈ s.findByName name organization, r = m.findByName name organization) ↔
      ∀ p ∈ m.projects, ∀ q ∈ m.projects, p.name = name → admits organization p.organization = true →
        q.name = name → admits organization q.organization = true → p = q := by
  have hmatch : ∀ p, p ∈ m.projects.filter (fun p => p.name = name && admits organization p.organization) ↔
      p ∈ m.projects ∧ p.name = name ∧ admits organization p.organization = true := by
    intro p
    rw [List.mem_filter, Bool.and_eq_true, decide_eq_true_eq]
  rw [Store.findByName, Memory.findByName, ← List.head?_filter, h.visible]
  cases hrows : m.projects.filter fun p => p.name = name && admits organization p.organization with
  | nil =>
      refine iff_of_true (fun r hr => List.mem_singleton.mp hr) fun p hp _ _ hname hadmits _ _ => ?_
      have hmem := (hmatch p).mpr ⟨hp, hname, hadmits⟩
      rw [hrows] at hmem
      cases hmem
  | cons first rest =>
      rw [hrows] at hmatch
      rw [List.head?_cons]
      constructor
      · intro hall p hp q hq hpn hpa hqn hqa
        have hp' := hall _ (List.mem_map_of_mem ((hmatch p).mpr ⟨hp, hpn, hpa⟩))
        have hq' := hall _ (List.mem_map_of_mem ((hmatch q).mpr ⟨hq, hqn, hqa⟩))
        exact Option.some.inj (hp'.trans hq'.symm)
      · intro hone r hr
        obtain ⟨p, hp, rfl⟩ := List.mem_map.mp hr
        obtain ⟨hmem, hname, hadmits⟩ := (hmatch p).mp hp
        obtain ⟨hmem', hname', hadmits'⟩ := (hmatch first).mp List.mem_cons_self
        rw [hone p hmem first hmem' hname hadmits hname' hadmits']

theorem requestDelete_iff (h : Agree d m s) : (s.requestDelete d ref).1 = (m.requestDelete ref).1 ↔
    ∀ p ∈ m.projects, d.lower p.ref = d.lower ref → p.ref = ref := by
  rw [← h.get_iff]
  constructor
  · intro heq
    unfold Store.requestDelete Memory.requestDelete at heq
    cases hs : s.get d ref <;> cases hm : m.get ref <;> simp only [hs, hm] at heq ⊢
    · split at heq <;> cases heq
    · split at heq <;> cases heq
    next p q =>
      obtain ⟨hp, -⟩ := h.store_get.mp hs
      obtain ⟨hq, -⟩ := h.memory_get.mp hm
      have hnumber : p.number = q.number := by
        split at heq <;> split at heq <;> simp only [Answer.requested.injEq, Option.some.injEq, Prod.mk.injEq] at heq
        · rw [heq.1]
        · exact absurd heq.2.2 nofun
        · exact absurd heq.2.2 nofun
        · exact (Project.mk.inj heq.1).1
      rw [h.eq_of_number hp hq hnumber]
  · intro heq
    unfold Store.requestDelete Memory.requestDelete
    rw [heq]
    cases m.get ref with
    | none => rfl
    | some p =>
        simp only [h.find_key, h.jobs_length]
        cases s.jobs.find? (·.key = .delete p.number) <;> rfl

theorem markStatus_iff (h : Agree d m s) (status : ProjectStatus) : (s.markStatus d ref status).1 = (m.markStatus ref status).1 ↔
    (∀ p ∈ m.projects, d.lower p.ref = d.lower ref → p.ref = ref) ∧
      ((∃ p ∈ m.projects, p.ref = ref) → statusHolds status = true) := by
  rw [← h.get_iff]
  unfold Store.markStatus Memory.markStatus
  cases hm : m.get ref with
  | none =>
      have hnot : ¬ ∃ p ∈ m.projects, p.ref = ref := by
        rintro ⟨p, hp, href⟩
        rw [h.memory_get.mpr ⟨hp, href⟩] at hm
        cases hm
      cases hs : s.get d ref with
      | none => simp [hnot]
      | some p =>
          refine iff_of_false (fun heq => ?_) fun hcond => nomatch hcond.1
          dsimp only at heq
          split at heq <;> cases heq
  | some q =>
      obtain ⟨hq, href⟩ := h.memory_get.mp hm
      rw [h.store_get.mpr ⟨hq, congrArg d.lower href⟩]
      by_cases hholds : statusHolds status = true
      · simp [hholds]
      · simp only [hholds]
        exact iff_of_false nofun fun hcond => absurd (hcond.2 ⟨q, hq, href⟩) nofun

/-- The memory has no answer for what only the database can be asked for. -/
theorem requestFrom_answers (kind : JobType) (before after : ProjectStatus) :
    (s.requestFrom d ref kind before after).1 ≠ .unsupported := by
  unfold Store.requestFrom
  split
  · nofun
  · split
    · nofun
    · split
      · nofun
      · unfold Store.request
        dsimp only
        split <;> nofun

theorem requestRetry_answers : (s.requestRetry d ref).1 ≠ .unsupported := by
  unfold Store.requestRetry
  split
  · nofun
  · split
    · nofun
    · split <;> nofun

theorem serve_nonempty (d : Database) (s : Store) (call : Call) : ∃ r, r ∈ s.serve d call := by
  apply List.exists_mem_of_ne_nil
  cases call with
  | findByName name organization =>
      rw [Store.serve, Store.findByName]
      split
      · split <;> simp_all
      · nofun
  | createProject | listProjects | listProjectsPage | jobs => nofun
  | _ =>
      rw [Store.serve]
      split <;> nofun

theorem serve_iff (h : Agree d m s) (call : Call) :
    (∀ r ∈ s.serve d call, r.1 = (m.serve call).1) ↔ Alike d m call := by
  have hget : ∀ ref, (∀ r ∈ if storable ref then [(Answer.found (s.get d ref), s)] else [(.thrown, s)], r.1 = .found (m.get ref)) ↔
      Spelled d m ref := by
    intro ref
    rw [Spelled, ← h.get_iff]
    by_cases hstore : storable ref = true <;> simp [hstore]
  cases call with
  | createProject c => exact List.forall_mem_singleton.trans (create_iff h)
  | findByIdempotencyKey key =>
      rw [Alike, ← findByIdempotencyKey_iff h, Store.serve, Memory.serve]
      by_cases hstore : key.storable = true <;> simp [hstore]
  | getProject ref => exact hget ref
  | getProjectDetail ref => exact hget ref
  | listProjects =>
      rw [Alike, ← listProjects_iff h]
      simp [Store.serve, Memory.serve]
  | listProjectsPage limit cursor organization =>
      exact List.forall_mem_singleton.trans (listProjectsPage_iff h limit cursor organization)
  | requestDelete ref =>
      rw [Alike, Spelled, ← requestDelete_iff h, Store.serve, Memory.serve]
      have hreturns : (m.requestDelete ref).1 ≠ .thrown := by
        unfold Memory.requestDelete
        split
        · nofun
        · split <;> nofun
      by_cases hstore : storable ref = true <;> simp [hstore, hreturns.symm]
  | markStatus ref status =>
      rw [Alike, Spelled, and_assoc, ← markStatus_iff h, Store.serve, Memory.serve]
      have hreturns : (m.markStatus ref status).1 ≠ .thrown := by
        unfold Memory.markStatus
        split <;> nofun
      by_cases hstore : storable ref = true <;> simp [hstore, hreturns.symm]
  | findByName name organization =>
      rw [Alike, ← findByName_iff h, Store.serve, Memory.serve]
      by_cases hstore : storable name = true <;> by_cases hcast : castable organization = true <;> simp [hstore, hcast]
  | jobs => simp [Alike, Store.serve, Memory.serve, h.jobs]
  | requestLifecycle ref kind =>
      rw [Alike, Store.serve, Memory.serve]
      by_cases hstore : storable ref = true
      · cases kind <;> simp [hstore, Store.requestLifecycle, requestFrom_answers]
      · simp [hstore]
  | requestRotation ref =>
      rw [Alike, Store.serve, Memory.serve]
      by_cases hstore : storable ref = true <;> simp [hstore, Store.requestRotation, requestFrom_answers]
  | requestRetry ref =>
      rw [Alike, Store.serve, Memory.serve]
      by_cases hstore : storable ref = true <;> simp [hstore, requestRetry_answers]
  | countProjectsInOrg organization =>
      rw [Alike, Store.serve, Memory.serve]
      by_cases hcast : organization.casts = true <;> simp [hcast]

end Answers

section Preserved

def restatus (number : Number) (status : ProjectStatus) (q : Project) : Project :=
  if q.number = number then { q with status := status } else q

theorem restatus_number (number : Number) (status : ProjectStatus) (q : Project) :
    (restatus number status q).number = q.number := by
  unfold restatus
  split <;> rfl

theorem restatus_ref (number : Number) (status : ProjectStatus) (q : Project) : (restatus number status q).ref = q.ref := by
  unfold restatus
  split <;> rfl

namespace Agree

theorem set_eq (h : Agree d m s) (hp : p ∈ m.projects) (status : ProjectStatus) :
    m.set { p with status := status } = m.projects.map (restatus p.number status) := by
  have hany : m.projects.any (fun q => q.ref = p.ref) = true := List.any_eq_true.mpr ⟨p, hp, decide_eq_true rfl⟩
  rw [Memory.set, if_pos hany]
  apply List.map_congr_left
  intro q hq
  by_cases hnumber : q.number = p.number
  · rw [h.eq_of_number hq hp hnumber, if_pos rfl, restatus, if_pos rfl]
  · rw [if_neg fun href => hnumber (congrArg Project.number (h.eq_of_ref hq hp href)), restatus, if_neg hnumber]

theorem status (h : Agree d m s) (hp : p ∈ m.projects) {status : ProjectStatus} (hlive : status ≠ .deleted) :
    Agree d { m with projects := m.set { p with status := status } }
      { s with projects := s.update p.number ({ · with status := status }) } := by
  rw [h.set_eq hp]
  refine ⟨?_, h.jobs, h.next, ?_, ?_, ?_, ?_, ?_, h.keys, fun job hjob => ?_, fun key ref => ?_⟩
  · rw [Store.update, h.projects]
    rfl
  · intro _ hmem
    obtain ⟨q, hq, rfl⟩ := List.mem_map.mp hmem
    unfold restatus
    split
    · exact hlive
    · exact h.live q hq
  · simpa only [List.map_map, Function.comp_def, restatus_ref] using h.refs
  · intro _ hmem
    obtain ⟨q, hq, rfl⟩ := List.mem_map.mp hmem
    rw [restatus_ref]
    exact h.named q hq
  · simpa only [List.map_map, Function.comp_def, restatus_number] using h.ordered
  · intro _ hmem
    obtain ⟨q, hq, rfl⟩ := List.mem_map.mp hmem
    rw [restatus_number]
    exact h.bound q hq
  · obtain ⟨q, hq, hnumber⟩ := h.owned job hjob
    exact ⟨_, List.mem_map_of_mem hq, (restatus_number ..).trans hnumber⟩
  · simp only [List.mem_map, exists_exists_and_eq_and, restatus_number, restatus_ref]
    exact h.seen key ref

theorem job (h : Agree d m s) (hp : p ∈ m.projects) {kind : JobType} {key : Key} (hkind : kind ≠ .provisionProject)
    (hkey : ∀ job ∈ m.jobs, job.key ≠ key) :
    Agree d { m with jobs := m.jobs ++ [⟨m.jobs.length, kind, p.number, key, .queued⟩] }
      { s with jobs := s.jobs ++ [⟨s.jobs.length, kind, p.number, key, .pending⟩] } := by
  refine ⟨h.projects, ?_, h.next, h.live, h.refs, h.named, h.ordered, h.bound, ?_, fun job hjob => ?_, fun key' ref => ?_⟩
  · rw [h.jobs_length, h.jobs, List.map_append]
    rfl
  · rw [List.map_append, List.nodup_append]
    refine ⟨h.keys, List.nodup_singleton _, fun a ha b hb => ?_⟩
    obtain ⟨job, hjob, rfl⟩ := List.mem_map.mp ha
    rw [List.map_singleton, List.mem_singleton] at hb
    exact hb ▸ hkey job hjob
  · rcases List.mem_append.mp hjob with hjob | hjob
    · exact h.owned job hjob
    · exact ⟨p, hp, (List.mem_singleton.mp hjob) ▸ rfl⟩
  · rw [h.seen key' ref]
    constructor
    · rintro ⟨job, hjob, hrest⟩
      exact ⟨job, List.mem_append_left _ hjob, hrest⟩
    · rintro ⟨job, hjob, hrest⟩
      rcases List.mem_append.mp hjob with hjob | hjob
      · exact ⟨job, hjob, hrest⟩
      · obtain rfl := List.mem_singleton.mp hjob
        exact absurd hrest.2.1 hkind

theorem create (h : Agree d m s) (hc : Alike d m (.createProject c)) :
    Agree d (m.createProject c).2 (s.createProject d c).2 := by
  have hanswer := (create_iff h).mpr hc
  obtain ⟨horganization, hname, hregion, hplan, hvalid, hrefs, hstore, hindex, hkeys⟩ := hc
  have hhome : Store.organizationOf d c.organization = some .home := by
    rcases horganization with heq | heq <;> rw [heq] <;> rfl
  have htakes : s.takes d c = true := by
    rw [Store.takes, h.projects]
    simp only [Bool.and_eq_true, h.all_key, List.all_eq_true, decide_eq_true_eq, and_assoc]
    exact ⟨hname, hregion, hplan, hvalid, hrefs, hstore, hindex, hkeys⟩
  have hset : ∀ p : Project, p.ref = c.ref → m.set p = m.projects ++ [p] := by
    intro p href
    rw [Memory.set, if_neg]
    intro hany
    obtain ⟨q, hq, hqr⟩ := List.any_eq_true.mp hany
    exact hrefs q hq (congrArg d.lower ((of_decide_eq_true hqr).trans href))
  have hnonblank : c.ref ≠ [] := by
    intro hnil
    rw [hnil] at hvalid
    cases hvalid
  unfold Memory.createProject Store.createProject
  rw [h.unseen hkeys, hhome]
  dsimp only
  rw [if_pos htakes, hset _ rfl, h.next]
  refine ⟨?_, ?_, rfl, ?_, ?_, ?_, ?_, ?_, ?_, ?_, fun key ref => ?_⟩
  · rw [h.projects]
  · rw [h.jobs_length, h.jobs, List.map_append]
    rfl
  · intro p hp
    rcases List.mem_append.mp hp with hp | hp
    · exact h.live p hp
    · rw [List.mem_singleton.mp hp]
      nofun
  · rw [List.map_append, List.nodup_append]
    refine ⟨h.refs, List.nodup_singleton _, fun a ha b hb => ?_⟩
    obtain ⟨p, hp, rfl⟩ := List.mem_map.mp ha
    rw [List.map_singleton, List.mem_singleton] at hb
    exact hb ▸ hrefs p hp
  · intro p hp
    rcases List.mem_append.mp hp with hp | hp
    · exact h.named p hp
    · exact List.mem_singleton.mp hp ▸ hnonblank
  · rw [List.map_append, List.pairwise_append]
    refine ⟨h.ordered, List.pairwise_singleton _ _, fun a ha b hb => ?_⟩
    obtain ⟨p, hp, rfl⟩ := List.mem_map.mp ha
    rw [List.map_singleton, List.mem_singleton] at hb
    exact hb ▸ h.bound p hp
  · intro p hp
    rcases List.mem_append.mp hp with hp | hp
    · exact Nat.lt_succ_of_lt (h.bound p hp)
    · rw [List.mem_singleton.mp hp]
      exact Nat.lt_succ_self m.next
  · rw [List.map_append, List.nodup_append]
    refine ⟨h.keys, List.nodup_singleton _, fun a ha b hb => ?_⟩
    obtain ⟨job, hjob, rfl⟩ := List.mem_map.mp ha
    rw [List.map_singleton, List.mem_singleton] at hb
    exact hb ▸ hkeys job hjob
  · intro job hjob
    rcases List.mem_append.mp hjob with hjob | hjob
    · obtain ⟨p, hp, hnumber⟩ := h.owned job hjob
      exact ⟨p, List.mem_append_left _ hp, hnumber⟩
    · exact ⟨_, List.mem_append_right _ (List.mem_singleton_self _), List.mem_singleton.mp hjob ▸ rfl⟩
  · dsimp only
    by_cases hkey : key = c.key
    · subst hkey
      rw [Function.update_self]
      constructor
      · intro href
        exact ⟨_, List.mem_append_right _ (List.mem_singleton_self _), rfl, rfl,
          _, List.mem_append_right _ (List.mem_singleton_self _), rfl, Option.some.inj href⟩
      · rintro ⟨job, hjob, hkey, -, p, hp, hnumber, href⟩
        rcases List.mem_append.mp hjob with hjob | hjob
        · exact absurd hkey (hkeys job hjob)
        rw [List.mem_singleton.mp hjob] at hnumber
        rcases List.mem_append.mp hp with hp | hp
        · exact absurd hnumber (Nat.ne_of_lt (h.bound p hp))
        · rw [← href, List.mem_singleton.mp hp]
    · rw [Function.update_of_ne hkey, h.seen key ref]
      constructor
      · rintro ⟨job, hjob, hjk, hkind, p, hp, hrest⟩
        exact ⟨job, List.mem_append_left _ hjob, hjk, hkind, p, List.mem_append_left _ hp, hrest⟩
      · rintro ⟨job, hjob, hjk, hkind, p, hp, hnumber, href⟩
        rcases List.mem_append.mp hjob with hjob | hjob
        · rcases List.mem_append.mp hp with hp | hp
          · exact ⟨job, hjob, hjk, hkind, p, hp, hnumber, href⟩
          · obtain ⟨q, hq, howner⟩ := h.owned job hjob
            rw [List.mem_singleton.mp hp] at hnumber
            exact absurd (howner.trans hnumber.symm) (Nat.ne_of_lt (h.bound q hq))
        · rw [List.mem_singleton.mp hjob] at hjk
          exact absurd hjk.symm hkey

theorem serve (h : Agree d m s) (hcall : Alike d m call) {r : Answer × Store} (hr : r ∈ s.serve d call) :
    Agree d (m.serve call).2 r.2 := by
  cases call with
  | createProject c =>
      rw [List.mem_singleton.mp hr]
      exact h.create hcall
  | requestDelete ref =>
      obtain ⟨hstore, hspelled⟩ := hcall
      rw [Store.serve, if_pos hstore] at hr
      rw [List.mem_singleton.mp hr, Memory.serve]
      unfold Store.requestDelete Memory.requestDelete
      rw [h.get_iff.mpr hspelled]
      cases hget : m.get ref with
      | none => exact h
      | some p =>
          obtain ⟨hp, -⟩ := h.memory_get.mp hget
          simp only [h.find_key]
          cases hfind : s.jobs.find? (·.key = .delete p.number) with
          | some existing => exact h
          | none =>
              have hfree : ∀ job ∈ m.jobs, job.key ≠ .delete p.number := (h.all_key _).mp (by simpa using hfind)
              have hlive : ProjectStatus.deleting ≠ .deleted := nofun
              have hdeleting := h.status hp hlive
              have hmem : ({ p with status := .deleting } : Project) ∈ m.set { p with status := .deleting } := by
                rw [h.set_eq hp]
                exact List.mem_map.mpr ⟨p, hp, if_pos rfl⟩
              exact hdeleting.job hmem nofun hfree
  | markStatus ref status =>
      obtain ⟨⟨hstore, hspelled⟩, hholds⟩ := hcall
      rw [Store.serve, if_pos hstore] at hr
      rw [List.mem_singleton.mp hr, Memory.serve]
      unfold Store.markStatus Memory.markStatus
      rw [h.get_iff.mpr hspelled]
      cases hget : m.get ref with
      | none => exact h
      | some p =>
          obtain ⟨hp, href⟩ := h.memory_get.mp hget
          have hstatus := hholds ⟨p, hp, href⟩
          dsimp only
          rw [if_pos hstatus]
          exact h.status hp (by rintro rfl; cases hstatus)
  | findByName name organization =>
      rw [Store.serve] at hr
      split at hr
      · obtain ⟨-, -, rfl⟩ := List.mem_map.mp hr
        exact h
      · rw [List.mem_singleton.mp hr]
        exact h
  | findByIdempotencyKey | getProject | getProjectDetail =>
      rw [Store.serve] at hr
      split at hr <;> rw [List.mem_singleton.mp hr] <;> exact h
  | listProjects | listProjectsPage | jobs =>
      rw [List.mem_singleton.mp hr]
      exact h
  | requestLifecycle | requestRotation | requestRetry | countProjectsInOrg => exact hcall.elim

end Agree

theorem agree_empty (d : Database) : Agree d .empty .empty := by
  refine ⟨rfl, rfl, rfl, nofun, List.nodup_nil, nofun, List.Pairwise.nil, nofun, List.nodup_nil, nofun, fun key ref => ?_⟩
  exact iff_of_false nofun fun ⟨_, hjob, _⟩ => nomatch hjob

end Preserved

theorem serves_total (d : Database) (calls : List Call) (s : Store) : ∃ answers, Serves d calls s answers := by
  induction calls generalizing s with
  | nil => exact ⟨[], rfl⟩
  | cons call calls ih =>
      obtain ⟨r, hr⟩ := serve_nonempty d s call
      obtain ⟨rest, hrest⟩ := ih r.2
      exact ⟨_, r.1, r.2, rest, rfl, hr, hrest⟩

theorem serves_iff (h : Agree d m s) (calls : List Call) :
    (∀ answers, Serves d calls s answers → answers = serveAll calls m) ↔ Attended d calls m := by
  induction calls generalizing m s with
  | nil => exact iff_of_true (fun _ hserves => hserves) trivial
  | cons call calls ih =>
      rw [Attended]
      constructor
      · intro hall
        have halike : Alike d m call := by
          apply (serve_iff h call).mp
          intro r hr
          obtain ⟨rest, hrest⟩ := serves_total d calls r.2
          exact (List.cons.inj (hall _ ⟨r.1, r.2, rest, rfl, hr, hrest⟩)).1
        obtain ⟨r, hr⟩ := serve_nonempty d s call
        refine ⟨halike, (ih (h.serve halike hr)).mp fun rest hrest => ?_⟩
        exact (List.cons.inj (hall _ ⟨r.1, r.2, rest, rfl, hr, hrest⟩)).2
      · rintro ⟨halike, hattended⟩ answers ⟨a, s', rest, rfl, hr, hrest⟩
        have ha := (serve_iff h call).mpr halike _ hr
        have hrests := (ih (h.serve halike hr)).mpr hattended rest hrest
        rw [serveAll, ← ha, hrests]

section Examples

def plain : Database := ⟨fun text => text.map Char.toLower, fun _ => true, []⟩

def creation (ref key : String) : Creation :=
  ⟨ref.toList, "api".toList, "eu-central".toList, "free".toList, .text key.toList, none⟩

/-- Two projects are created and listed. -/
def twoListed : List Call :=
  [.createProject (creation "alphaalphaalpha1" "one"), .createProject (creation "betabetabetabet2" "two"), .listProjects]

example : Attended plain (twoListed.take 2 ++ [.requestDelete "betabetabetabet2".toList, .jobs]) .empty := by
  simp [twoListed, Attended, Alike, Spelled, creation, Memory.serve, Memory.createProject, Memory.empty, Memory.seen,
    Memory.set, Key.storable, Key.indexes, plain]
  decide

end Examples

end Corebase.ControlPlane
