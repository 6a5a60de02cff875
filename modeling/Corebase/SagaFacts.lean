import Corebase.SagaSteps

namespace Corebase.SagaFacts

open Interleaving Sagas SagaSteps
open JobRunner (Worker JobState)

variable {Kind Name World Act Change Choice Other : Type} {Answer : Act → Type}

/-- What the steps of any number of sagas leave for good, whoever else is at work. -/
structure Facts (Kind Name World Act Change : Type) where
  /-- What every act keeps. -/
  Inv : World → Prop
  /-- What the world has of a step that is done. -/
  Fact : Kind → Name → World → Prop
  Legal : Act → World → Prop
  /-- The requests and events at their time. -/
  Timely : Change → Store Kind Name World → Prop

namespace Facts

variable (F : Facts Kind Name World Act Change)

def Left (kind : Kind) (done : List Name) (w : World) : Prop := ∀ name ∈ done, F.Fact kind name w

/-- No fact is lost. -/
def Grows (w w' : World) : Prop := ∀ kind name, F.Fact kind name w → F.Fact kind name w'

structure Good (s : Store Kind Name World) : Prop where
  world : F.Inv s.world
  left : ∀ job ∈ s.jobs, F.Left job.kind job.done s.world

/-- A row stays, and stays of its kind. -/
structure Guar (s s' : Store Kind Name World) : Prop where
  grows : F.Grows s.world s'.world
  rows : ∀ (j : JobId) (kind : Kind), (s.jobs[j]?).map Job.kind = some kind → (s'.jobs[j]?).map Job.kind = some kind

def Allowed (_ : Worker) : Op Name Act Change → Store Kind Name World → Prop
  | .act a, s => F.Legal a s.world
  | .change x, s => F.Timely x s
  | _, _ => True

def discipline : Discipline Worker (Store Kind Name World) (Op Name Act Change) where
  Inv := F.Good
  Guar _ := F.Guar
  Idle _ _ := True
  Allowed := F.Allowed

/-- The body keeps the facts, and returns with what it is to leave. -/
def Carries (perform : Choice → (a : Act) → World → Option (Answer a × World)) : Body Act Answer → (World → Prop) →
    (World → Prop) → Prop
  | .ok, Q, Z => ∀ w, F.Inv w → Q w → Z w
  | .throw, _, _ => True
  | .act a next, Q, Z => ∀ choice w r w', F.Inv w → Q w → F.Legal a w → perform choice a w = some (r, w') →
      F.Inv w' ∧ F.Grows w w' ∧ ∃ Q', (∀ w w', F.Grows w w' → Q' w → Q' w') ∧ Q' w' ∧ Carries perform (next r) Q' Z

/-- The steps leave their facts, and nothing else takes them away. -/
structure Kept [DecidableEq Name] (D : Design Kind Name World Act Change Choice Other Answer) : Prop where
  step : ∀ kind name, name ∈ D.sagas kind → ∀ done : List Name,
    (∀ n ∈ (D.sagas kind).takeWhile (· ≠ name), n ∈ done) →
      F.Carries D.perform (D.body kind name) (F.Left kind done) (F.Fact kind name)
  other : ∀ r, F.Carries D.perform (D.others r) (fun _ => True) fun _ => True
  hook : ∀ kind, F.Carries D.perform (D.onDeadLetter kind) (fun _ => True) fun _ => True
  change : ∀ x s, F.Good s → F.Timely x s → F.Good (D.change x s) ∧ F.Guar s (D.change x s)

variable {F} {D : Design Kind Name World Act Change Choice Other Answer} {c : Worker} {j : JobId}
  {s s' : Store Kind Name World} {job job' : Job Kind Name} {kind : Kind} {done : List Name}

theorem Grows.refl (w : World) : F.Grows w w := fun _ _ => id

theorem Guar.refl (s : Store Kind Name World) : F.Guar s s := ⟨Grows.refl s.world, fun _ _ => id⟩

theorem Grows.left {w w' : World} (h : F.Grows w w') (hleft : F.Left kind done w) : F.Left kind done w' :=
  fun name hname => h kind name (hleft name hname)

theorem Good.world_grows (h : F.Good s) {w : World} (hI : F.Inv w) (hgrows : F.Grows s.world w) :
    F.Good { s with world := w } := ⟨hI, fun job hjob => hgrows.left (h.left job hjob)⟩

/-- A row is written. -/
theorem Good.set (h : F.Good s) (hjobs : s'.jobs = s.jobs.set j job') (hworld : s'.world = s.world)
    (hleft : F.Left job'.kind job'.done s.world) : F.Good s' := by
  refine ⟨hworld ▸ h.world, fun row hrow => ?_⟩
  rw [hjobs] at hrow
  rw [hworld]
  rcases List.mem_or_eq_of_mem_set hrow with hrow | rfl
  · exact h.left row hrow
  · exact hleft

theorem guar_set (hjobs : s'.jobs = s.jobs.set j job') (hworld : s'.world = s.world) (hjob : s.jobs[j]? = some job)
    (hkind : job'.kind = job.kind) : F.Guar s s' := by
  refine ⟨by rw [hworld]; exact Grows.refl s.world, fun i kind hi => ?_⟩
  rw [hjobs]
  by_cases heq : j = i
  · subst heq
    rw [hjob] at hi
    simpa [List.getElem?_set_self (List.getElem?_eq_some_iff.mp hjob).1, hkind] using hi
  · simpa only [List.getElem?_set_ne heq] using hi

/-- Rows are added. -/
theorem guar_append {jobs : List (Job Kind Name)} {w : World} (hgrows : F.Grows s.world w) :
    F.Guar s { s with jobs := s.jobs ++ jobs, world := w } := by
  refine ⟨hgrows, fun i kind hi => ?_⟩
  obtain ⟨row, hrow, -⟩ := Option.map_eq_some_iff.mp hi
  dsimp only
  rw [List.getElem?_append_left (List.getElem?_eq_some_iff.mp hrow).1]
  exact hi

/-- The worker is at a job of the kind, whose steps have left their facts. -/
def At (j : JobId) (kind : Kind) (done : List Name) (s : Store Kind Name World) : Prop :=
  (s.jobs[j]?).map Job.kind = some kind ∧ F.Left kind done s.world

/-- What the worker knows of the store does not depend on who has changed it. -/
def Steady (F : Facts Kind Name World Act Change) (R : Store Kind Name World → Prop) : Prop := ∀ s s', F.Guar s s' → R s → R s'

theorem steady_at : F.Steady (F.At j kind done) := fun _ _ hguar h => ⟨hguar.rows j kind h.1, hguar.grows.left h.2⟩

theorem steady_true : F.Steady fun _ => True := fun _ _ _ => id

theorem steady_and {R : Store Kind Name World → Prop} {Q : World → Prop} (hR : F.Steady R)
    (hQ : ∀ w w', F.Grows w w' → Q w → Q w') : F.Steady fun s => R s ∧ Q s.world :=
  fun s s' hguar h => ⟨hR s s' hguar h.1, hQ s.world s'.world hguar.grows h.2⟩

theorem Steady.stable {R : Store Kind Name World → Prop} (hR : F.Steady R) : F.discipline.Stable c R :=
  fun _ _ s s' _ hguar => hR s s' hguar

/-- A test of the statements. -/
def watched (legal : Act → World → Bool) (timely : Change → Store Kind Name World → Bool) (_ : Worker) :
    Op Name Act Change → Store Kind Name World → Bool
  | .act a, s => legal a s.world
  | .change x, s => timely x s
  | _, _ => true

theorem allowed_watched {legal : Act → World → Bool} {timely : Change → Store Kind Name World → Bool}
    (hlegal : ∀ a w, legal a w = true → F.Legal a w) (htimely : ∀ x s, timely x s = true → F.Timely x s) (c : Worker)
    (op : Op Name Act Change) (s : Store Kind Name World) (h : watched legal timely c op s = true) : F.Allowed c op s := by
  cases op with
  | act a => exact hlegal a s.world h
  | change x => exact htimely x s h
  | claim | save | succeed | fail | beat => trivial

section Attempts

variable {Raw : Act → Type} {apply : Choice → (a : Act) → World → Option (Raw a × World)} {Q Z : World → Prop}

theorem carries_attempt {a : Act} {next : Raw a → Body Act fun a => Option (Raw a)} (Q' : Raw a → World → Prop)
    (hact : ∀ choice w r w', F.Inv w → Q w → F.Legal a w → apply choice a w = some (r, w') →
      F.Inv w' ∧ F.Grows w w' ∧ Q' r w')
    (hsteady : ∀ r w w', F.Grows w w' → Q' r w → Q' r w')
    (hnext : ∀ r, F.Carries (perform apply) (next r) (Q' r) Z) : F.Carries (perform apply) (attempt a next) Q Z := by
  intro choice w answer w' hI hQ hlegal hperform
  obtain ⟨⟨r, w₁⟩, happly, heq⟩ := Option.map_eq_some_iff.mp hperform
  obtain ⟨hI', hgrows, hQ'⟩ := hact choice.2 w r w₁ hI hQ hlegal happly
  cases houtcome : choice.1 with
  | done =>
      simp only [houtcome] at heq
      cases heq
      exact ⟨hI', hgrows, Q' r, hsteady r, hQ', hnext r⟩
  | failed =>
      simp only [houtcome] at heq
      cases heq
      exact ⟨hI, Grows.refl _, fun _ => True, fun _ _ _ => id, trivial, trivial⟩
  | lost =>
      simp only [houtcome] at heq
      cases heq
      exact ⟨hI', hgrows, fun _ => True, fun _ _ _ => id, trivial, trivial⟩

end Attempts

variable [DecidableEq Name]

/-- The worker goes on with a body, and then with what follows. -/
theorem meets_run {R : Store Kind Name World → Prop} (hR : F.Steady R) {body : Body Act Answer} {Q Z : World → Prop}
    {after failed : Program (Op Name Act Change) (Reply Kind Name Answer)} (hbody : F.Carries D.perform body Q Z)
    (hafter : F.discipline.Meets D.protocol c after fun s => R s ∧ Z s.world)
    (hfailed : F.discipline.Meets D.protocol c failed R) :
    F.discipline.Meets D.protocol c (Design.run body after failed) fun s => R s ∧ Q s.world := by
  induction body generalizing Q with
  | ok => exact hafter.mono fun s hI h => ⟨h.1, hbody s.world hI.world h.2⟩
  | throw => exact hfailed.mono fun s _ h => h.1
  | act a next ih =>
      intro s chance r s' hI h hlegal hexec
      obtain ⟨⟨r, w⟩, hperform, heq⟩ := Option.map_eq_some_iff.mp hexec
      cases heq
      obtain ⟨hinv, hgrows, Q', hsteady, hQ', hnext⟩ := hbody chance.choice s.world r w hI.world h.2 hlegal hperform
      have hguar : F.Guar s { s with world := w } := ⟨hgrows, fun _ _ => id⟩
      exact ⟨hI.world_grows hinv hgrows, hguar, _, (steady_and hR hsteady).stable, ⟨hR _ _ hguar h.1, hQ'⟩, ih r hnext⟩

/-- A program that is at no job. -/
theorem meets_other {body : Body Act Answer} (hbody : F.Carries D.perform body (fun _ => True) fun _ => True) :
    F.discipline.Meets D.protocol c (Design.run body .done .done) fun _ => True := by
  have hdone : ∀ Q, F.discipline.Meets D.protocol c .done Q := fun _ _ _ _ => trivial
  exact (meets_run steady_true hbody (hdone _) (hdone _)).mono fun _ _ _ => ⟨trivial, trivial⟩

theorem meets_caught (hK : F.Kept D) : F.discipline.Meets D.protocol c (D.caught j kind) (F.At j kind done) := by
  intro s chance terminal s' hI h _ hexec
  obtain ⟨job, hjob, rfl⟩ := Option.map_eq_some_iff.mp h.1
  have hnext : F.discipline.Meets D.protocol c
      (if terminal then Design.run (D.onDeadLetter job.kind) .done .done else .done) fun _ => True := by
    split
    · exact meets_other (hK.hook job.kind)
    · exact fun _ _ _ => trivial
  simp only [Design.protocol, Design.exec, hjob] at hexec
  split at hexec
  · cases hexec
    exact ⟨⟨hI.world, hI.left⟩, ⟨Grows.refl s.world, fun _ _ => id⟩, _, steady_true.stable, trivial, hnext⟩
  · cases hexec
    exact ⟨hI.set rfl rfl (hI.left job (List.mem_of_getElem? hjob)), guar_set rfl rfl hjob rfl, _, steady_true.stable, trivial, hnext⟩

theorem meets_runSteps (hK : F.Kept D) {steps before : List Name} (hsteps : D.sagas kind = before ++ steps)
    (hbefore : ∀ n ∈ before, n ∈ done) :
    F.discipline.Meets D.protocol c (D.runSteps j kind steps done) (F.At j kind done) := by
  induction steps generalizing before done with
  | nil =>
      intro s chance saved s' hI h _ hexec
      obtain ⟨job, hjob, rfl⟩ := Option.map_eq_some_iff.mp h.1
      simp only [Design.protocol, Design.exec, hjob] at hexec
      split at hexec
      · cases hexec
        exact ⟨hI, Guar.refl s, _, steady_at.stable, h, meets_caught hK⟩
      · cases hexec
        exact ⟨hI.set rfl rfl (hI.left job (List.mem_of_getElem? hjob)), guar_set rfl rfl hjob rfl, _, steady_true.stable, trivial,
          fun _ _ _ => trivial⟩
  | cons name steps ih =>
      have hsteps' : D.sagas kind = (before ++ [name]) ++ steps := by rw [hsteps, List.append_assoc]; rfl
      unfold Design.runSteps
      split
      next hdone =>
        refine ih hsteps' fun n hn => ?_
        rcases List.mem_append.mp hn with hn | hn
        · exact hbefore n hn
        · obtain rfl := List.mem_singleton.mp hn
          exact hdone
      next hnew =>
        have hmem : name ∈ D.sagas kind := hsteps ▸ List.mem_append_right _ List.mem_cons_self
        have htake : ∀ n ∈ (D.sagas kind).takeWhile (· ≠ name), n ∈ done := takeWhile_done hsteps hbefore hnew
        refine (meets_run steady_at (hK.step kind name hmem done htake) ?_ (meets_caught hK)).mono fun s _ h => ⟨h, h.2⟩
        -- the checkpoint
        intro s chance saved s' hI h _ hexec
        obtain ⟨hat, hfact⟩ := h
        have hleft : F.Left kind (done ++ [name]) s.world := by
          intro n hn
          rcases List.mem_append.mp hn with hn | hn
          · exact hat.2 n hn
          · obtain rfl := List.mem_singleton.mp hn
            exact hfact
        obtain ⟨job, hjob, rfl⟩ := Option.map_eq_some_iff.mp hat.1
        simp only [Design.protocol, Design.exec, hjob] at hexec
        split at hexec
        · cases hexec
          exact ⟨hI, Guar.refl s, _, steady_at.stable, hat, meets_caught hK⟩
        · cases hexec
          have hguar : F.Guar s (s.setJob j { job with done := done ++ [name] }) := guar_set rfl rfl hjob rfl
          refine ⟨hI.set rfl rfl hleft, hguar, _, steady_at.stable, ⟨hguar.rows j job.kind hat.1, hleft⟩, ih hsteps' fun n hn => ?_⟩
          rcases List.mem_append.mp hn with hn | hn
          · exact List.mem_append_left _ (hbefore n hn)
          · obtain rfl := List.mem_singleton.mp hn
            exact List.mem_append_right _ (List.mem_singleton_self _)

theorem meets_execute (hK : F.Kept D) : F.discipline.Meets D.protocol c (D.execute j) fun _ => True := by
  intro s chance claimed s' hI _ _ hexec
  cases hjob : s.jobs[j]? with
  | none =>
      simp only [Design.protocol, Design.exec, hjob] at hexec
      cases hexec
      exact ⟨hI, Guar.refl s, _, steady_true.stable, trivial, fun _ _ _ => trivial⟩
  | some job =>
      simp only [Design.protocol, Design.exec, hjob] at hexec
      split at hexec
      next =>
        cases hexec
        have hleft : F.Left job.kind job.done s.world := hI.left job (List.mem_of_getElem? hjob)
        have hguar : F.Guar s (s.claim c j job) := guar_set rfl rfl hjob rfl
        exact ⟨hI.set rfl rfl hleft, hguar, _, steady_at.stable, ⟨hguar.rows j job.kind (by rw [hjob]; rfl), hleft⟩,
          meets_runSteps hK (List.nil_append _).symm fun n hn => absurd hn List.not_mem_nil⟩
      next =>
        cases hexec
        exact ⟨hI, Guar.refl s, _, steady_true.stable, trivial, fun _ _ _ => trivial⟩

theorem sound (hK : F.Kept D) : F.discipline.Sound D.protocol where
  idle _ := steady_true.stable
  abort c s hI _ := ⟨⟨hI.world, hI.left⟩, ⟨Grows.refl s.world, fun _ _ => id⟩, trivial⟩
  program c q := by
    cases q with
    | execute j => exact meets_execute hK
    | beat j late =>
        intro s chance r s' hI _ _ hexec
        cases hexec
        exact ⟨⟨hI.world, hI.left⟩, ⟨Grows.refl s.world, fun _ _ => id⟩, _, steady_true.stable, trivial, fun _ _ _ => trivial⟩
    | other r => exact meets_other (hK.other r)
    | change x =>
        intro s chance r s' hI _ htimely hexec
        cases hexec
        obtain ⟨hgood, hguar⟩ := hK.change x s hI htimely
        exact ⟨hgood, hguar, _, steady_true.stable, trivial, fun _ _ _ => trivial⟩

/-- Whatever is done side by side, a run in which every statement is allowed stays good. -/
theorem good_of_reachable (hK : F.Kept D) {g : Config Worker (Store Kind Name World) (Op Name Act Change) (Reply Kind Name Answer)}
    (hs : F.Good s) (h : D.protocol.Reachable (Protocol.Statements F.Allowed) s g) : F.Good g.store :=
  ((sound hK).reachable (Discipline.grants_statements fun _ _ => trivial) hs (fun _ => trivial) h).1

end Facts

end Corebase.SagaFacts
