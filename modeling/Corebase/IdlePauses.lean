import Corebase.IdleScan

namespace Corebase.IdlePauses

open Interleaving ProvisioningJobs IdleScan
open JobRunner (Time)

/-- No sweep has the project on its list. -/
def unlisted (p : ProjectId) (s : Store) : Bool := s.sweepers.all fun d => !(s.watch d p).listed

/-- No sweep that has the project on its list has counted these connections of it. -/
def uncounted (pooled : Bool) (p : ProjectId) (s : Store) : Bool :=
  s.sweepers.all fun d => !((s.watch d p).listed && if pooled then (s.watch d p).clients else (s.watch d p).direct)

/-- The requests of the candidates within the window are recorded, the pause of a project finds its key free or another
pause under way, and what a sweep has seen of a project on its list is left as it is. -/
def undisturbed (opts : Options) (_ : Client) : Op → Store → Bool
  | .candidates, s => (s.candidates opts).all fun p => !s.recent opts p
  | .schedule p, s => (s.jobs.byKey (.idlePause p)).isNone || s.pauseUnderWay p
  | .seen _ p, s => unlisted p s
  | .lifecycle p kind, s => !accepted s p kind || unlisted p s
  | .setStatus p status, s => status = .ready || unlisted p s
  | .connect p pooled, s => uncounted pooled p s
  | _, _ => true

structure Inv (opts : Options) (s : Store) : Prop where
  reports : ∀ r ∈ s.reports, r.fair = true
  ids : s.ids.Nodup
  sweeper : ∀ c p, (s.watch c p).listed = true → c ∈ s.sweepers ∧ p ∈ s.ids
  recent : ∀ c p, (s.watch c p).listed = true → s.recent opts p = false
  ready : ∀ c p, (s.watch c p).listed = true → (s.projects p).status = .ready ∨
    Key.idlePause p ∈ s.jobs.keys ∧ (s.watch c p).won = false
  won : ∀ c p, (s.watch c p).listed = true → (s.watch c p).won = true → Key.idlePause p ∈ s.jobs.keys ∧
    ∀ d, (s.watch d p).listed = true → (s.watch d p).won = true → d = c

structure Guar (c : Client) (s s' : Store) : Prop where
  watch : ∀ d, d ≠ c → s'.watch d = s.watch d
  direct : ∀ d p, d ≠ c → (s.watch d p).listed = true → (s.watch d p).direct = true →
    (s'.projects p).direct ≤ (s.projects p).direct
  clients : ∀ d p, d ≠ c → (s.watch d p).listed = true → (s.watch d p).clients = true →
    (s'.projects p).clients ≤ (s.projects p).clients

def watching (opts : Options) : Discipline Client Store Op where
  Inv := Inv opts
  Guar := Guar
  Idle _ _ := True
  Allowed c op s := undisturbed opts c op s = true

variable {opts : Options} {c d : Client} {s s' : Store} {p q : ProjectId} {op : Op}

section Statements

theorem unlisted_eq (hI : Inv opts s) (h : unlisted p s = true) (d : Client) : (s.watch d p).listed = false := by
  by_contra hd
  rw [Bool.not_eq_false] at hd
  have hnot := List.all_eq_true.mp h d (hI.sweeper d p hd).1
  simp [hd] at hnot

theorem uncounted_eq (pooled : Bool) (hI : Inv opts s) (h : uncounted pooled p s = true) (d : Client)
    (hd : (s.watch d p).listed = true) :
    (if pooled then (s.watch d p).clients else (s.watch d p).direct) = false := by
  have hnot := List.all_eq_true.mp h d (hI.sweeper d p hd).1
  simpa [hd] using hnot

/-- A statement that starts no watch keeps the invariant, if it leaves what the sweeps have seen. -/
theorem Inv.frame (hI : Inv opts s) (hwatch : ∀ d q, (s'.watch d q).listed = true →
      (s.watch d q).listed = true ∧ (s'.watch d q).won = (s.watch d q).won)
    (hsweepers : s'.sweepers = s.sweepers) (hreports : ∀ r ∈ s'.reports, r ∈ s.reports ∨ r.fair = true)
    (hids : s'.ids.Nodup ∧ s.ids ⊆ s'.ids) (hkeys : s.jobs.keys ⊆ s'.jobs.keys)
    (hrecent : ∀ d q, (s'.watch d q).listed = true → s.recent opts q = false → s'.recent opts q = false)
    (hstatus : ∀ d q, (s'.watch d q).listed = true → (s.projects q).status = .ready →
      (s'.projects q).status = .ready ∨ Key.idlePause q ∈ s'.jobs.keys ∧ (s.watch d q).won = false) : Inv opts s' where
  reports r hr := (hreports r hr).elim (hI.reports r) id
  ids := hids.1
  sweeper d q h := by
    obtain ⟨hd, hq⟩ := hI.sweeper d q (hwatch d q h).1
    exact ⟨hsweepers ▸ hd, hids.2 hq⟩
  recent d q h := hrecent d q h (hI.recent d q (hwatch d q h).1)
  ready d q h := by
    rw [(hwatch d q h).2]
    rcases hI.ready d q (hwatch d q h).1 with hready | hkey
    · exact hstatus d q h hready
    · exact .inr ⟨hkeys hkey.1, hkey.2⟩
  won d q h hwon := by
    have heq := (hwatch d q h).2
    obtain ⟨hkey, hunique⟩ := hI.won d q (hwatch d q h).1 (heq ▸ hwon)
    exact ⟨hkeys hkey, fun d' h' hwon' => hunique d' (hwatch d' q h').1 ((hwatch d' q h').2 ▸ hwon')⟩

/-- The same of a statement that changes one project. -/
theorem Inv.setProject (hI : Inv opts s) {x : Project}
    (hrecent : ∀ d, (s.watch d p).listed = true → x.trafficAt = (s.projects p).trafficAt)
    (hstatus : ∀ d, (s.watch d p).listed = true → (s.projects p).status = .ready → x.status = .ready) :
    Inv opts (s.setProject p x) := by
  refine hI.frame (fun _ _ h => ⟨h, rfl⟩) rfl (fun _ => .inl) ⟨hI.ids, fun _ => id⟩ (fun _ => id)
    (fun d q hq h => ?_) fun d q hq h => .inl ?_
  · by_cases hqp : q = p
    · subst hqp
      simp only [Store.recent, Store.setProject, Function.update_self, hrecent d hq]
      exact h
    · simp only [Store.recent, Store.setProject, Function.update_of_ne hqp]
      exact h
  · by_cases hqp : q = p
    · subst hqp
      simpa only [Store.setProject, Function.update_self] using hstatus d hq h
    · simpa only [Store.setProject, Function.update_of_ne hqp] using h

theorem setWatch_self {w : Watch} : (s.setWatch c p w).watch c p = w := by simp [Store.setWatch]

theorem setWatch_of_ne {w : Watch} (hd : d ≠ c) : (s.setWatch c p w).watch d = s.watch d :=
  Function.update_of_ne hd ..

theorem setWatch_of_ne' {w : Watch} (hq : q ≠ p) : (s.setWatch c p w).watch d q = s.watch d q := by
  by_cases hd : d = c
  · subst hd
    simp [Store.setWatch, Function.update_of_ne hq]
  · rw [setWatch_of_ne hd]

theorem setWatch_cases (s : Store) (c : Client) (p : ProjectId) (w : Watch) (d : Client) (q : ProjectId) :
    (d = c ∧ q = p) ∧ (s.setWatch c p w).watch d q = w ∨
    ¬ (d = c ∧ q = p) ∧ (s.setWatch c p w).watch d q = s.watch d q := by
  by_cases hq : q = p
  · subst hq
    by_cases hd : d = c
    · subst hd
      exact .inl ⟨⟨rfl, rfl⟩, setWatch_self⟩
    · exact .inr ⟨fun h => hd h.1, by rw [setWatch_of_ne hd]⟩
  · exact .inr ⟨fun h => hq h.2, setWatch_of_ne' hq⟩

/-- A sweep goes on with a project, or leaves it. -/
theorem Inv.setWatch (hI : Inv opts s) {w : Watch}
    (hw : w.listed = true → (s.watch c p).listed = true ∧ w.won = (s.watch c p).won) : Inv opts (s.setWatch c p w) := by
  refine hI.frame (fun d q h => ?_) rfl (fun _ => .inl) ⟨hI.ids, fun _ => id⟩ (fun _ => id) (fun _ _ _ => id)
    fun _ _ _ => .inl
  rcases setWatch_cases s c p w d q with ⟨⟨rfl, rfl⟩, heq⟩ | ⟨-, heq⟩
  · rw [heq] at h ⊢
    exact hw h
  · rw [heq] at h ⊢
    exact ⟨h, rfl⟩

/-- A sweep that listed the project while its key was free takes the key. -/
theorem Inv.win (hI : Inv opts s) (hlisted : (s.watch c p).listed = true) (hready : (s.projects p).status = .ready)
    (hkey : Key.idlePause p ∈ s.jobs.keys) (hloser : ∀ d, (s.watch d p).listed = true → (s.watch d p).won = false) :
    Inv opts (s.setWatch c p { s.watch c p with won := true }) := by
  have hcases := setWatch_cases s c p { s.watch c p with won := true }
  refine ⟨hI.reports, hI.ids, fun d q h => ?_, fun d q h => ?_, fun d q h => ?_, fun d q h hwon => ?_⟩
  · rcases hcases d q with ⟨⟨rfl, rfl⟩, -⟩ | ⟨-, heq⟩
    · exact hI.sweeper d q hlisted
    · exact hI.sweeper d q (heq ▸ h)
  · rcases hcases d q with ⟨⟨rfl, rfl⟩, -⟩ | ⟨-, heq⟩
    · exact hI.recent d q hlisted
    · exact hI.recent d q (heq ▸ h)
  · rcases hcases d q with ⟨⟨rfl, rfl⟩, -⟩ | ⟨-, heq⟩
    · exact .inl hready
    · rw [heq]
      exact hI.ready d q (heq ▸ h)
  · rcases hcases d q with ⟨⟨rfl, rfl⟩, -⟩ | ⟨hne, heq⟩
    · refine ⟨hkey, fun d' h' hwon' => ?_⟩
      rcases hcases d' q with ⟨⟨rfl, -⟩, -⟩ | ⟨-, heq'⟩
      · rfl
      · cases (hloser d' (heq' ▸ h')).symm.trans (heq' ▸ hwon')
    · obtain ⟨hkey', hunique⟩ := hI.won d q (heq ▸ h) (heq ▸ hwon)
      refine ⟨hkey', fun d' h' hwon' => ?_⟩
      rcases hcases d' q with ⟨⟨rfl, rfl⟩, -⟩ | ⟨-, heq'⟩
      · cases (hloser d (heq ▸ h)).symm.trans (heq ▸ hwon)
      · exact hunique d' (heq' ▸ h') (heq' ▸ hwon')

theorem Inv.leave (hI : Inv opts s) : Inv opts (s.setWatch c p .away) := hI.setWatch nofun

theorem guar_of (hwatch : ∀ d, d ≠ c → s'.watch d = s.watch d) (hprojects : s'.projects = s.projects) : Guar c s s' where
  watch := hwatch
  direct _ p _ _ _ := by rw [hprojects]
  clients _ p _ _ _ := by rw [hprojects]

theorem guar_setProject {x : Project}
    (hdirect : ∀ d, d ≠ c → (s.watch d p).listed = true → (s.watch d p).direct = true → x.direct ≤ (s.projects p).direct)
    (hclients : ∀ d, d ≠ c → (s.watch d p).listed = true → (s.watch d p).clients = true →
      x.clients ≤ (s.projects p).clients) : Guar c s (s.setProject p x) where
  watch _ _ := rfl
  direct d q hd hl hc := by
    by_cases hqp : q = p
    · subst hqp
      simpa only [Store.setProject, Function.update_self] using hdirect d hd hl hc
    · simp only [Store.setProject, Function.update_of_ne hqp]
      exact le_rfl
  clients d q hd hl hc := by
    by_cases hqp : q = p
    · subst hqp
      simpa only [Store.setProject, Function.update_self] using hclients d hd hl hc
    · simp only [Store.setProject, Function.update_of_ne hqp]
      exact le_rfl

theorem guar_kept {x : Project} (hdirect : x.direct ≤ (s.projects p).direct) (hclients : x.clients ≤ (s.projects p).clients) :
    Guar c s (s.setProject p x) := guar_setProject (fun _ _ _ _ => hdirect) fun _ _ _ _ => hclients

theorem Guar.setWatch (h : Guar c s s') {w : Watch} : Guar c s (s'.setWatch c p w) where
  watch d hd := (setWatch_of_ne hd).trans (h.watch d hd)
  direct := h.direct
  clients := h.clients

theorem guar_refl : Guar c s s := guar_of (fun _ _ => rfl) rfl

/-- What is not part of a sweep. -/
theorem keeps_other (answered : Bool) (hop : op.ofSweep = false) (hI : Inv opts s)
    (hok : undisturbed opts c op s = true) {r : Reply op} (hexec : exec opts c answered op s = some (r, s')) : Inv opts s' ∧ Guar c s s' := by
  cases op with
  | candidates | direct | clients | touch | schedule | setPausing | seen | record => cases hop
  | forget process p =>
      cases hexec
      exact ⟨⟨hI.reports, hI.ids, hI.sweeper, hI.recent, hI.ready, hI.won⟩, guar_of (fun _ _ => rfl) rfl⟩
  | lifecycle p kind =>
      cases hexec
      simp only [requestLifecycle]
      split
      next haccepted =>
        have hfree : ∀ d, (s.watch d p).listed = false := by
          simp only [undisturbed, haccepted, Bool.not_true, Bool.false_or] at hok
          exact unlisted_eq hI hok
        split
        next n jobs heq =>
          have hkeys : s.jobs.keys ⊆ jobs.keys := by
            rw [show jobs = (true, jobs).2 from rfl, ← heq]
            exact Jobs.keys_insert ..
          have hI' : Inv opts (s.setProject p { s.projects p with status := kind.toStatus }) :=
            hI.setProject (fun _ _ => rfl) fun d hd => by simp [hfree d] at hd
          refine ⟨hI'.frame (fun _ _ h => ⟨h, rfl⟩) rfl (fun _ => .inl) ⟨hI.ids, fun _ => id⟩ hkeys (fun _ _ _ => id)
            fun _ _ _ => .inl, ?_⟩
          have hG : Guar c s (s.setProject p { s.projects p with status := kind.toStatus }) :=
            guar_kept le_rfl le_rfl
          exact ⟨hG.watch, hG.direct, hG.clients⟩
        next => exact ⟨hI, guar_refl⟩
      next => exact ⟨hI, guar_refl⟩
  | setStatus p status =>
      cases hexec
      refine ⟨hI.setProject (fun _ _ => rfl) fun d hd _ => ?_, guar_kept le_rfl le_rfl⟩
      simp only [undisturbed, Bool.or_eq_true, decide_eq_true_eq] at hok
      refine hok.resolve_right fun hfree => ?_
      simp [unlisted_eq hI hfree d] at hd
  | setRunning p running =>
      cases hexec
      exact ⟨hI.setProject (fun _ _ => rfl) fun _ _ => id, guar_kept le_rfl le_rfl⟩
  | create p =>
      simp only [exec] at hexec
      split at hexec <;> cases hexec
      · exact ⟨hI, guar_refl⟩
      next hp =>
        have hfree : ∀ d, (s.watch d p).listed = false := fun d => by
          by_contra hd
          exact hp (hI.sweeper d p (Bool.eq_true_of_not_eq_false hd)).2
        have hI' : Inv opts (s.setProject p ⟨.creating, false, s.now, none, 0, 0, none⟩) :=
          hI.setProject (fun d hd => by simp [hfree d] at hd) fun d hd => by simp [hfree d] at hd
        have hG : Guar c s (s.setProject p ⟨.creating, false, s.now, none, 0, 0, none⟩) :=
          guar_kept (Nat.zero_le _) (Nat.zero_le _)
        exact ⟨hI'.frame (fun _ _ h => ⟨h, rfl⟩) rfl (fun _ => .inl)
          ⟨List.nodup_cons.mpr ⟨hp, hI.ids⟩, fun _ => List.mem_cons_of_mem _⟩ (fun _ => id) (fun _ _ _ => id)
          fun _ _ _ => .inl, hG.watch, hG.direct, hG.clients⟩
  | createJob key p kind =>
      cases hexec
      exact ⟨hI.frame (fun _ _ h => ⟨h, rfl⟩) rfl (fun _ => .inl) ⟨hI.ids, fun _ => id⟩ (Jobs.keys_insert ..)
        (fun _ _ _ => id) fun _ _ _ => .inl, guar_of (fun _ _ => rfl) rfl⟩
  | setState key state =>
      cases hexec
      exact ⟨hI.frame (fun _ _ h => ⟨h, rfl⟩) rfl (fun _ => .inl) ⟨hI.ids, fun _ => id⟩ (by simp)
        (fun _ _ _ => id) fun _ _ _ => .inl, guar_of (fun _ _ => rfl) rfl⟩
  | connect p pooled =>
      cases hexec
      have hcount := uncounted_eq pooled hI hok
      refine ⟨hI.setProject (fun _ _ => by cases pooled <;> rfl) fun _ _ => by cases pooled <;> exact id,
        guar_setProject (fun d _ hd hflag => ?_) fun d _ hd hflag => ?_⟩
      · cases pooled with
        | false => exact absurd (hcount d hd) (by simp [hflag])
        | true => exact le_rfl
      · cases pooled with
        | false => exact le_rfl
        | true => exact absurd (hcount d hd) (by simp [hflag])
  | disconnect p pooled =>
      cases hexec
      refine ⟨hI.setProject (fun _ _ => by cases pooled <;> rfl) fun _ _ => by cases pooled <;> exact id,
        guar_setProject (fun _ _ _ _ => ?_) fun _ _ _ _ => ?_⟩
      · cases pooled with
        | false => exact Nat.sub_le ..
        | true => exact le_rfl
      · cases pooled with
        | false => exact le_rfl
        | true => exact Nat.sub_le ..
  | tick ms =>
      cases hexec
      refine ⟨hI.frame (fun _ _ h => ⟨h, rfl⟩) rfl (fun _ => .inl) ⟨hI.ids, fun _ => id⟩ (fun _ => id)
        (fun _ q _ h => ?_) fun _ _ _ => .inl, guar_of (fun _ _ => rfl) rfl⟩
      simp only [Store.recent, Option.any_eq_false, decide_eq_false_iff_not, not_le] at h ⊢
      exact fun t ht => (h t ht).trans_le (Nat.le_add_right ..)

theorem beginSweep_self {ps : List ProjectId} (hp : p ∈ ps) : (s.beginSweep c ps).watch c p = .selected := by
  simp only [Store.beginSweep, Function.update_self, if_pos hp]

theorem beginSweep_listed {ps : List ProjectId} (h : ((s.beginSweep c ps).watch d p).listed = true) :
    d = c ∧ p ∈ ps ∨ d ≠ c ∧ (s.beginSweep c ps).watch d p = s.watch d p := by
  by_cases hd : d = c
  · subst hd
    simp only [Store.beginSweep, Function.update_self] at h
    split at h
    next hp => exact .inl ⟨rfl, hp⟩
    next => cases h
  · exact .inr ⟨hd, by simp only [Store.beginSweep, Function.update_of_ne hd]⟩

theorem candidates_nodup (hids : s.ids.Nodup) : (s.candidates opts).Nodup :=
  ((List.perm_insertionSort _ _).nodup_iff.mpr (hids.filter _)).sublist (List.take_sublist ..)

theorem mem_candidates (h : p ∈ s.candidates opts) : p ∈ s.ids ∧ (s.projects p).status = .ready := by
  obtain ⟨hids, hp⟩ := List.mem_filter.mp ((List.perm_insertionSort _ _).subset (List.mem_of_mem_take h))
  simp only [Store.candidate, Bool.and_eq_true, decide_eq_true_eq] at hp
  exact ⟨hids, hp.1.1⟩

theorem keeps_candidates (hI : Inv opts s) (hok : undisturbed opts c .candidates s = true) :
    Inv opts (s.beginSweep c (s.candidates opts)) ∧ Guar c s (s.beginSweep c (s.candidates opts)) := by
  have hquiet : ∀ p ∈ s.candidates opts, s.recent opts p = false := fun p hp => by
    simpa using List.all_eq_true.mp hok p hp
  refine ⟨⟨hI.reports, hI.ids, fun d p h => ?_, fun d p h => ?_, fun d p h => ?_, fun d p h hwon => ?_⟩,
    guar_of (fun d hd => Function.update_of_ne hd ..) rfl⟩
  · rcases beginSweep_listed h with ⟨rfl, hp⟩ | ⟨-, heq⟩
    · exact ⟨List.mem_cons_self, (mem_candidates hp).1⟩
    · obtain ⟨hd, hp⟩ := hI.sweeper d p (heq ▸ h)
      exact ⟨List.mem_cons_of_mem _ hd, hp⟩
  · rcases beginSweep_listed h with ⟨rfl, hp⟩ | ⟨-, heq⟩
    · exact hquiet p hp
    · exact hI.recent d p (heq ▸ h)
  · rcases beginSweep_listed h with ⟨rfl, hp⟩ | ⟨-, heq⟩
    · exact .inl (mem_candidates hp).2
    · rw [heq]
      exact hI.ready d p (heq ▸ h)
  · rcases beginSweep_listed h with ⟨rfl, hp⟩ | ⟨hd, heq⟩
    · rw [beginSweep_self hp] at hwon
      cases hwon
    · obtain ⟨hkey, hunique⟩ := hI.won d p (heq ▸ h) (heq ▸ hwon)
      refine ⟨hkey, fun d' h' hwon' => ?_⟩
      rcases beginSweep_listed h' with ⟨rfl, hp⟩ | ⟨-, heq'⟩
      · rw [beginSweep_self hp] at hwon'
        cases hwon'
      · exact hunique d' (heq' ▸ h') (heq' ▸ hwon')

theorem keeps_touch (hI : Inv opts s) {x : Project} (hx : x = { s.projects p with lastActiveAt := some s.now }) :
    Inv opts ((s.setProject p x).setWatch c p .away) ∧ Guar c s ((s.setProject p x).setWatch c p .away) := by
  subst hx
  refine ⟨Inv.leave ?_, Guar.setWatch ?_⟩
  · exact hI.setProject (fun _ _ => rfl) fun _ _ => id
  · exact guar_kept le_rfl le_rfl

/-- A key that is taken, or a job that is inserted, leaves a pause under way. -/
theorem backed_schedule (hok : undisturbed opts c (.schedule p) s = true) :
    let jobs := (s.jobs.insert (.idlePause p) ⟨p, .pauseProject, .pending, s.now⟩).2
    ({ s with jobs := jobs } : Store).pauseUnderWay p = true := by
  obtain ⟨htaken, heq⟩ | ⟨-, heq⟩ := Jobs.insert_cases s.jobs (.idlePause p) ⟨p, .pauseProject, .pending, s.now⟩
  · simp only [undisturbed, Bool.or_eq_true, Option.isNone_iff_eq_none] at hok
    rw [heq]
    exact hok.resolve_left htaken
  · rw [heq]
    exact List.any_eq_true.mpr ⟨_, List.mem_cons_self, by simp [Job.unfinished]⟩

theorem keeps_schedule (answered : Bool) (hI : Inv opts s) (hlisted : (s.watch c p).listed = true)
    (hok : undisturbed opts c (.schedule p) s = true) {inserted : Bool}
    (hexec : exec opts c answered (.schedule p) s = some (inserted, s')) :
    Inv opts s' ∧ Guar c s s' ∧ s'.projects = s.projects ∧
      s'.watch c p = (if inserted then { s.watch c p with won := true } else .away) ∧
      ∀ q, q ≠ p → s'.watch c q = s.watch c q := by
  have hbacked := backed_schedule hok
  obtain ⟨-, heq⟩ | ⟨hnew, heq⟩ := Jobs.insert_cases s.jobs (.idlePause p) ⟨p, .pauseProject, .pending, s.now⟩
  · simp only [exec, heq] at hexec hbacked
    cases hexec
    refine ⟨(hI.leave (c := c) (p := p)).frame (fun _ _ h => ⟨h, rfl⟩) rfl (fun r hr => ?_) ⟨hI.ids, fun _ => id⟩ (fun _ => id)
      (fun _ _ _ => id) fun _ _ _ => .inl, guar_of (fun d hd => setWatch_of_ne hd) rfl, rfl, setWatch_self,
      fun q hq => setWatch_of_ne' hq⟩
    rcases List.mem_cons.mp hr with rfl | hr
    · exact .inr hbacked
    · exact .inl hr
  · simp only [exec, heq] at hexec hbacked
    cases hexec
    have hkey : Key.idlePause p ∉ s.jobs.keys := Jobs.byKey_eq_none.mp hnew
    have hloser : ∀ d, (s.watch d p).listed = true → (s.watch d p).won = false := fun d hd => by
      by_contra hwon
      exact hkey (hI.won d p hd (Bool.eq_true_of_not_eq_false hwon)).1
    have hready : (s.projects p).status = .ready := (hI.ready c p hlisted).resolve_right fun h => hkey h.1
    have hI' : Inv opts { s with
        jobs := (.idlePause p, ⟨p, .pauseProject, .pending, s.now⟩) :: s.jobs
        reports := .found p true :: s.reports } := by
      refine hI.frame (fun _ _ h => ⟨h, rfl⟩) rfl (fun r hr => ?_) ⟨hI.ids, fun _ => id⟩ (fun _ => List.mem_cons_of_mem _)
        (fun _ _ _ => id) fun _ _ _ => .inl
      rcases List.mem_cons.mp hr with rfl | hr
      · exact .inr rfl
      · exact .inl hr
    rw [hbacked]
    exact ⟨hI'.win hlisted hready List.mem_cons_self hloser, guar_of (fun d hd => setWatch_of_ne hd) rfl, rfl,
      setWatch_self, fun q hq => setWatch_of_ne' hq⟩

/-- The winner of the key pauses a project that is ready and quiet. -/
theorem keeps_setPausing (answered : Bool) (hI : Inv opts s) (hlisted : (s.watch c p).listed = true) (hwon : (s.watch c p).won = true)
    (hidle : (s.projects p).direct + (s.projects p).clients = 0) {r : Unit}
    (hexec : exec opts c answered (.setPausing p) s = some (r, s')) :
    Inv opts s' ∧ Guar c s s' ∧ ∀ q, q ≠ p → s'.watch c q = s.watch c q := by
  cases hexec
  obtain ⟨hkey, hunique⟩ := hI.won c p hlisted hwon
  have hready : (s.projects p).status = .ready := (hI.ready c p hlisted).resolve_right fun h => by simp [hwon] at h
  have hquiet : s.quiet opts p = true := by simp [Store.quiet, hready, hidle, hI.recent c p hlisted]
  have hcases := setWatch_cases s c p .away
  refine ⟨hI.frame (fun d q h => ?_) rfl (fun r hr => ?_) ⟨hI.ids, fun _ => id⟩ (fun _ => id) (fun d q _ h => ?_)
    fun d q h hq => ?_, ?_, fun q hq => setWatch_of_ne' hq⟩
  · rcases hcases d q with ⟨-, heq⟩ | ⟨-, heq⟩
    · cases (congrArg Watch.listed heq).symm.trans h
    · exact ⟨heq ▸ h, congrArg Watch.won heq⟩
  · rcases List.mem_cons.mp hr with rfl | hr
    · exact .inr hquiet
    · exact .inl hr
  · change (Function.update s.projects p _ q).trafficAt.any _ = false
    by_cases hqp : q = p
    · subst hqp
      rw [Function.update_self]
      exact h
    · rw [Function.update_of_ne hqp]
      exact h
  · by_cases hqp : q = p
    · subst hqp
      rcases hcases d q with ⟨-, heq⟩ | ⟨hne, heq⟩
      · cases (congrArg Watch.listed heq).symm.trans h
      · refine .inr ⟨hkey, Bool.eq_false_iff.mpr fun hwon' => hne ⟨hunique d ?_ hwon', rfl⟩⟩
        exact heq ▸ h
    · exact .inl ((congrArg Project.status (Function.update_of_ne hqp ..)).trans hq)
  · have hG : Guar c s (s.setProject p { s.projects p with status := .pausing }) := guar_kept le_rfl le_rfl
    exact ⟨fun d hd => setWatch_of_ne hd, hG.direct, hG.clients⟩

theorem keeps_seen (process : Process) (answered : Bool) (hI : Inv opts s) (hok : undisturbed opts c (.seen process p) s = true)
    {write : Bool} (hexec : exec opts c answered (.seen process p) s = some (write, s')) :
    Inv opts s' ∧ Guar c s s' := by
  have hfree := unlisted_eq hI hok
  have hI' : Inv opts (s.setProject p { s.projects p with trafficAt := some s.now }) :=
    hI.setProject (fun d hd => by simp [hfree d] at hd) fun _ _ => id
  have hG : Guar c s (s.setProject p { s.projects p with trafficAt := some s.now }) := guar_kept le_rfl le_rfl
  simp only [exec] at hexec
  split at hexec <;> cases hexec
  · exact ⟨hI', hG⟩
  · exact ⟨⟨hI'.reports, hI'.ids, hI'.sweeper, hI'.recent, hI'.ready, hI'.won⟩, hG.watch, hG.direct, hG.clients⟩

theorem keeps_record (process : Process) (answered : Bool) (hI : Inv opts s) {r : Unit}
    (hexec : exec opts c answered (.record process p) s = some (r, s')) : Inv opts s' ∧ Guar c s s' := by
  simp only [exec] at hexec
  split at hexec <;> cases hexec
  · refine ⟨hI.setProject (fun _ _ => rfl) fun _ _ => id, guar_kept le_rfl le_rfl⟩
  · exact ⟨⟨hI.reports, hI.ids, hI.sweeper, hI.recent, hI.ready, hI.won⟩, guar_of (fun _ _ => rfl) rfl⟩

theorem keeps_direct (answered : Bool) (hI : Inv opts s) {r : Option Nat}
    (hexec : exec opts c answered (.direct p) s = some (r, s')) :
    Inv opts s' ∧ Guar c s s' ∧ s'.projects = s.projects ∧ (∀ q, q ≠ p → s'.watch c q = s.watch c q) ∧
      ∀ n, r = some n → n = (s.projects p).direct ∧ s'.watch c p = { s.watch c p with direct := true } := by
  simp only [exec] at hexec
  split at hexec <;> cases hexec
  · refine ⟨hI.setWatch fun h => ⟨h, rfl⟩, guar_refl.setWatch, rfl, fun q hq => setWatch_of_ne' hq, fun n hn => ?_⟩
    exact ⟨(Option.some.inj hn).symm, setWatch_self⟩
  · exact ⟨hI.leave, guar_refl.setWatch, rfl, fun q hq => setWatch_of_ne' hq, nofun⟩

theorem keeps_clients (answered : Bool) (hI : Inv opts s) {r : Option Nat}
    (hexec : exec opts c answered (.clients p) s = some (r, s')) :
    Inv opts s' ∧ Guar c s s' ∧ s'.projects = s.projects ∧ (∀ q, q ≠ p → s'.watch c q = s.watch c q) ∧
      ∀ n, r = some n → n = (s.projects p).clients ∧ s'.watch c p = { s.watch c p with clients := true } := by
  simp only [exec] at hexec
  split at hexec <;> cases hexec
  · refine ⟨hI.setWatch fun h => ⟨h, rfl⟩, guar_refl.setWatch, rfl, fun q hq => setWatch_of_ne' hq, fun n hn => ?_⟩
    exact ⟨(Option.some.inj hn).symm, setWatch_self⟩
  · exact ⟨hI.leave, guar_refl.setWatch, rfl, fun q hq => setWatch_of_ne' hq, nofun⟩

end Statements

section Programs

/-- The sweep has yet to handle these projects. -/
def Holding (c : Client) (ps : List ProjectId) (s : Store) : Prop := ∀ p ∈ ps, s.watch c p = .selected

/-- The sweep is at a project, whose connections have not become more since they were counted. -/
def At (c : Client) (p : ProjectId) (w : Watch) (direct clients : Nat) (s : Store) : Prop :=
  s.watch c p = w ∧ (w.direct = true → (s.projects p).direct ≤ direct) ∧ (w.clients = true → (s.projects p).clients ≤ clients)

theorem stable_holding (ps : List ProjectId) : (watching opts).Stable c (Holding c ps) :=
  fun _ hd _ _ _ hG h p hp => (congrFun (hG.watch c hd.symm) p).trans (h p hp)

theorem stable_at (p : ProjectId) {w : Watch} (hw : w.listed = true) (direct clients : Nat) :
    (watching opts).Stable c (At c p w direct clients) := by
  rintro d hd s s' - hG ⟨rfl, hdirect, hclients⟩
  exact ⟨congrFun (hG.watch c hd.symm) p, fun h => (hG.direct c p hd.symm hw h).trans (hdirect h),
    fun h => (hG.clients c p hd.symm hw h).trans (hclients h)⟩

theorem Holding.of_watch {ps : List ProjectId} (h : Holding c ps s) (hp : p ∉ ps)
    (hwatch : ∀ q, q ≠ p → s'.watch c q = s.watch c q) : Holding c ps s' :=
  fun q hq => (hwatch q (ne_of_mem_of_not_mem hq hp)).trans (h q hq)

variable {ps : List ProjectId} {next : Program Op Reply}

/-- With both connections counted the sweep pauses the project or goes on. -/
theorem meets_settle (hp : p ∉ ps) (hnext : (watching opts).Meets (protocol opts) c next (Holding c ps))
    (direct clients : Option Nat) :
    (watching opts).Meets (protocol opts) c (settle p direct clients next) fun s => Holding c ps s ∧
      ∀ n, direct = some n → ∀ k, clients = some k → At c p ⟨true, true, true, false⟩ n k s := by
  have hskip : (watching opts).Meets (protocol opts) c next fun s => Holding c ps s ∧
      ∀ n, direct = some n → ∀ k, clients = some k → At c p ⟨true, true, true, false⟩ n k s :=
    hnext.mono fun _ _ h => h.1
  cases direct with
  | none => exact hskip
  | some n =>
      cases clients with
      | none => exact hskip
      | some k =>
          change (watching opts).Meets (protocol opts) c (if 0 < n + k then _ else _) _
          split
          next =>
            rintro s answered r s' hI ⟨hps, -⟩ - hexec
            cases hexec
            obtain ⟨hI', hG⟩ := keeps_touch hI rfl
            exact ⟨hI', hG, _, stable_holding ps, hps.of_watch hp fun q hq => setWatch_of_ne' hq, hnext⟩
          next hnk =>
            rintro s answered inserted s' hI ⟨hps, hat⟩ hok hexec
            obtain ⟨hw, hdirect, hclients⟩ := hat n rfl k rfl
            obtain ⟨hI', hG, hprojects, hself, hrest⟩ := keeps_schedule answered hI (by rw [hw]) hok hexec
            have hps' := hps.of_watch hp hrest
            refine ⟨hI', hG, ?_⟩
            cases inserted with
            | false => exact ⟨_, stable_holding ps, hps', hnext⟩
            | true =>
                refine ⟨_, (stable_holding ps).and (stable_at p (w := ⟨true, true, true, true⟩) rfl n k), ⟨hps', ?_⟩, ?_⟩
                · rw [At, hself, hprojects, hw]
                  exact ⟨rfl, fun _ => hdirect rfl, fun _ => hclients rfl⟩
                · rintro s answered r s' hI ⟨hps, hw, hdirect, hclients⟩ - hexec
                  have hidle : (s.projects p).direct + (s.projects p).clients = 0 := by
                    have := hdirect rfl
                    have := hclients rfl
                    omega
                  obtain ⟨hI', hG, hrest⟩ := keeps_setPausing answered hI (by rw [hw]) (by rw [hw]) hidle hexec
                  exact ⟨hI', hG, _, stable_holding ps, hps.of_watch hp hrest, hnext⟩

theorem meets_scan (clientsFirst : ProjectId → Bool) (hp : p ∉ ps)
    (hnext : (watching opts).Meets (protocol opts) c next (Holding c ps)) :
    (watching opts).Meets (protocol opts) c (scan clientsFirst p next) (Holding c (p :: ps)) := by
  unfold scan
  split
  next =>
    intro s answered clients s' hI hps _ hexec
    obtain ⟨hI', hG, hprojects, hrest, hcount⟩ := keeps_clients answered hI hexec
    have hps' : Holding c ps s' := Holding.of_watch (fun q hq => hps q (List.mem_cons_of_mem _ hq)) hp hrest
    refine ⟨hI', hG, _, (stable_holding ps).and (.all fun k => .all fun _ : clients = some k =>
      stable_at p (w := ⟨true, false, true, false⟩) rfl 0 k), ⟨hps', fun k hk => ?_⟩, ?_⟩
    · obtain ⟨rfl, hw⟩ := hcount k hk
      rw [At, hw, hps p List.mem_cons_self, hprojects]
      exact ⟨rfl, nofun, fun _ => le_rfl⟩
    · rintro s answered direct s' hI ⟨hps, hat⟩ - hexec
      obtain ⟨hI', hG, hprojects, hrest, hcount⟩ := keeps_direct answered hI hexec
      refine ⟨hI', hG, _, (stable_holding ps).and (.all fun n => .all fun _ => .all fun k => .all fun _ => stable_at p rfl n k),
        ⟨hps.of_watch hp hrest, fun n hn k hk => ?_⟩, meets_settle hp hnext direct clients⟩
      obtain ⟨rfl, hw⟩ := hcount n hn
      obtain ⟨hw₀, -, hclients⟩ := hat k hk
      rw [At, hw, hw₀, hprojects]
      exact ⟨rfl, fun _ => le_rfl, fun _ => hclients rfl⟩
  next =>
    intro s answered direct s' hI hps _ hexec
    obtain ⟨hI', hG, hprojects, hrest, hcount⟩ := keeps_direct answered hI hexec
    have hps' : Holding c ps s' := Holding.of_watch (fun q hq => hps q (List.mem_cons_of_mem _ hq)) hp hrest
    refine ⟨hI', hG, _, (stable_holding ps).and (.all fun n => .all fun _ : direct = some n =>
      stable_at p (w := ⟨true, true, false, false⟩) rfl n 0), ⟨hps', fun n hn => ?_⟩, ?_⟩
    · obtain ⟨rfl, hw⟩ := hcount n hn
      rw [At, hw, hps p List.mem_cons_self, hprojects]
      exact ⟨rfl, fun _ => le_rfl, nofun⟩
    · rintro s answered clients s' hI ⟨hps, hat⟩ - hexec
      obtain ⟨hI', hG, hprojects, hrest, hcount⟩ := keeps_clients answered hI hexec
      refine ⟨hI', hG, _, (stable_holding ps).and (.all fun n => .all fun _ => .all fun k => .all fun _ => stable_at p rfl n k),
        ⟨hps.of_watch hp hrest, fun n hn k hk => ?_⟩, meets_settle hp hnext direct clients⟩
      obtain ⟨rfl, hw⟩ := hcount k hk
      obtain ⟨hw₀, hdirect, -⟩ := hat n hn
      rw [At, hw, hw₀, hprojects]
      exact ⟨rfl, fun _ => hdirect rfl, fun _ => le_rfl⟩

theorem meets_scans (clientsFirst : ProjectId → Bool) {ps : List ProjectId} (hps : ps.Nodup) :
    (watching opts).Meets (protocol opts) c (ps.foldr (scan clientsFirst) .done) (Holding c ps) := by
  induction ps with
  | nil => exact fun _ _ _ => trivial
  | cons p ps ih =>
      obtain ⟨hp, hps⟩ := List.nodup_cons.mp hps
      exact meets_scan clientsFirst hp (ih hps)

theorem sound : (watching opts).Sound (protocol opts) where
  idle _ _ _ _ _ _ _ _ := trivial
  abort c s hI _ := by
    have hwatch : ∀ d q, ((abort c s).watch d q).listed = true → (s.watch d q).listed = true ∧
        ((abort c s).watch d q).won = (s.watch d q).won := fun d q h => by
      by_cases hd : d = c
      · subst hd
        simp only [abort, Function.update_self] at h
        cases h
      · have heq : (abort c s).watch d = s.watch d := Function.update_of_ne hd ..
        rw [heq] at h ⊢
        exact ⟨h, rfl⟩
    exact ⟨hI.frame hwatch rfl (fun _ => .inl) ⟨hI.ids, fun _ => id⟩ (fun _ => id) (fun _ _ _ => id) fun _ _ _ => .inl,
      guar_of (fun d hd => Function.update_of_ne hd ..) rfl, trivial⟩
  program c q := by
    cases q with
    | scan clientsFirst =>
        intro s answered ps s' hI _ hok hexec
        cases hexec
        obtain ⟨hI', hG⟩ := keeps_candidates hI hok
        exact ⟨hI', hG, _, stable_holding _, fun p hp => beginSweep_self hp,
          meets_scans clientsFirst (candidates_nodup hI.ids)⟩
    | traffic process p =>
        intro s answered write s' hI _ hok hexec
        obtain ⟨hI', hG⟩ := keeps_seen process answered hI hok hexec
        refine ⟨hI', hG, _, Discipline.stable_true, trivial, ?_⟩
        cases write with
        | false => exact fun _ _ _ => trivial
        | true =>
            intro s answered r s' hI _ _ hexec
            obtain ⟨hI', hG⟩ := keeps_record process answered hI hexec
            exact ⟨hI', hG, _, Discipline.stable_true, trivial, fun _ _ _ => trivial⟩
    | other op =>
        change (watching opts).Meets (protocol opts) c (if op.ofSweep then _ else _) _
        split
        next => exact fun _ _ _ => trivial
        next hop =>
          intro s answered r s' hI _ hok hexec
          obtain ⟨hI', hG⟩ := keeps_other answered (Bool.eq_false_iff.mpr hop) hI hok hexec
          exact ⟨hI', hG, _, Discipline.stable_true, trivial, fun _ _ _ => trivial⟩

end Programs

section Runs

variable {g : Config Client Store Op Reply}

/-- The moves of runs in which nobody disturbs the sweeps. -/
def Undisturbed (opts : Options) : Config Client Store Op Reply → Move Client Bool Request → Prop :=
  Protocol.Statements fun c op s => undisturbed opts c op s = true

theorem grants_undisturbed : (watching opts).Grants (Undisturbed opts) :=
  Discipline.grants_statements fun _ _ => trivial

/-- A store before its first sweep. -/
structure Fresh (s : Store) : Prop where
  ids : s.ids.Nodup
  watch : ∀ c p, s.watch c p = .away
  reports : s.reports = []

theorem Fresh.inv (h : Fresh s) : Inv opts s where
  reports := by simp [h.reports]
  ids := h.ids
  sweeper c p hl := by simp [h.watch, Watch.away] at hl
  recent c p hl := by simp [h.watch, Watch.away] at hl
  ready c p hl := by simp [h.watch, Watch.away] at hl
  won c p hl := by simp [h.watch, Watch.away] at hl

end Runs

section Examples

/-- The clock counts minutes. -/
def defaults : Options := ⟨10, 20, 1⟩

/-- A project that was created ready at the start of the clock. -/
def oneProject (now : Time) : Store where
  now := now
  ids := [7]
  projects _ := ⟨.ready, true, 0, none, 0, 0, none⟩
  jobs := []
  memo _ _ := none
  watch _ _ := .away
  sweepers := []
  reports := []

theorem fresh_oneProject (now : Time) : Fresh (oneProject now) := ⟨List.nodup_singleton 7, fun _ _ => rfl, rfl⟩

def sweep : List (Move Client Bool Request) := .arrive 0 (.scan fun _ => false) :: List.replicate 5 (.run 0 true)

def request (op : Op) : List (Move Client Bool Request) := [.arrive 1 (.other op), .run 1 true]

theorem undisturbed_watch (g : Config Client Store Op Reply) (m : Move Client Bool Request)
    (hm : Protocol.watch (undisturbed defaults) g m = true) : Undisturbed defaults g m :=
  Protocol.statements_watch (fun _ _ _ => id) g m hm

/-- The pause is carried out, the project is resumed, and it is idle for a second time. -/
def secondCycle : List (Move Client Bool Request) :=
  sweep ++ request (.setState (.idlePause 7) .succeeded) ++ request (.setStatus 7 .paused) ++
    request (.lifecycle 7 .resume) ++ request (.setState (.numbered .resumeProject 7 1) .succeeded) ++
    request (.setStatus 7 .ready) ++ request (.tick 11) ++ sweep.take 5

/-- The project's deletion is requested after the scan has counted its connections. -/
def deletion : List (Move Client Bool Request) :=
  sweep.take 4 ++ request (.setStatus 7 .deleting) ++ [.run 0 true, .run 0 true]

end Examples

end Corebase.IdlePauses
