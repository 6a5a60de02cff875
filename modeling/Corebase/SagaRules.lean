import Corebase.Sagas

namespace Corebase.SagaRules

open Interleaving Sagas
open JobRunner (Worker JobState)

variable {Kind Name World Act Change Choice Other : Type} {Answer : Act → Type}

abbrev Table (Kind Name : Type) := List (Job Kind Name)

/-- What the steps of the sagas are about. -/
structure Contract (Kind Name World Act Change : Type) where
  /-- What every act keeps. -/
  Inv : World → Prop
  /-- What the world has of a step that is done. -/
  Post : Kind → Name → World → Prop
  /-- What other programs may do to the world while a saga runs. -/
  Rely : World → World → Prop
  /-- What there is to say when no job is unfinished. -/
  Rest : Table Kind Name → World → Prop
  Legal : Act → World → Prop
  /-- The requests and events at their time. -/
  Timely : Change → Store Kind Name World → Prop
  /-- The job may fail for good. -/
  Final : JobId → Table Kind Name → World → Prop

namespace Contract

variable (K : Contract Kind Name World Act Change)

structure Good (s : Store Kind Name World) : Prop where
  world : K.Inv s.world
  posts : ∀ (j : JobId) (job : Job Kind Name), s.jobs[j]? = some job → job.unfinished = true → ∀ name ∈ job.done, K.Post job.kind name s.world
  single : ∀ (j j' : JobId) (job job' : Job Kind Name), s.jobs[j]? = some job → s.jobs[j']? = some job' → job.unfinished = true → job'.unfinished = true → j = j'
  alone : ∀ c d j j', s.working c = some j → s.working d = some j' → c = d
  running : ∀ c (j : JobId), s.working c = some j → ∃ job : Job Kind Name, s.jobs[j]? = some job ∧ job.state = .running
  rest : s.idle = true → K.Rest s.jobs s.world

/-- What a worker leaves of the job that another one is at. -/
def Spares (c : Worker) (s s' : Store Kind Name World) : Prop :=
  ∀ d, d ≠ c → s'.working d = s.working d ∧
    ∀ j, s.working d = some j → s'.jobs[j]? = s.jobs[j]? ∧ K.Rely s.world s'.world

/-- A job is claimed from no worker that is alive, and fails for good where it may. -/
def Allowed (_ : Worker) : Op Name Act Change → Store Kind Name World → Prop
  | .claim j, s => ∀ job : Job Kind Name, s.jobs[j]? = some job → job.state = .running → s.stale j = true → ∀ d, s.working d = none
  | .act a, s => K.Legal a s.world
  | .fail j, s => ∀ job : Job Kind Name, s.jobs[j]? = some job → job.exhausted = true → K.Final j s.jobs s.world
  | .change x, s => K.Timely x s
  | _, _ => True

def discipline : Discipline Worker (Store Kind Name World) (Op Name Act Change) where
  Inv := K.Good
  Guar := K.Spares
  Idle c s := s.working c = none
  Allowed := K.Allowed

/-- The body keeps what the steps that are done have left, and returns with its own part of it. -/
def Carries (perform : Choice → (a : Act) → World → Option (Answer a × World)) (keep : World → Prop) :
    Body Act Answer → (World → Prop) → (World → Prop) → Prop
  | .ok, Q, Z => ∀ w, K.Inv w → Q w → Z w
  | .throw, _, _ => True
  | .act a next, Q, Z => ∀ choice w r w', K.Inv w → Q w → K.Legal a w → perform choice a w = some (r, w') →
      K.Inv w' ∧ keep w' ∧ ∃ Q', (∀ w w', K.Inv w → K.Rely w w' → Q' w → Q' w') ∧ Q' w' ∧ Carries perform keep (next r) Q' Z

def Posts (kind : Kind) (done : List Name) (w : World) : Prop := ∀ name ∈ done, K.Post kind name w

/-- The steps carry out what the contract says, and nothing else breaks it. -/
structure Kept [DecidableEq Name] (D : Design Kind Name World Act Change Choice Other Answer) : Prop where
  refl : ∀ w, K.Rely w w
  post : ∀ kind name w w', K.Inv w → K.Rely w w' → K.Post kind name w → K.Post kind name w'
  step : ∀ kind name, name ∈ D.sagas kind → ∀ done : List Name,
    (∀ n ∈ (D.sagas kind).takeWhile (· ≠ name), n ∈ done) → name ∉ done →
      K.Carries D.perform (K.Posts kind done) (D.body kind name) (K.Posts kind done) (K.Posts kind (done ++ [name]))
  succeed : ∀ (jobs : Table Kind Name) w (j : JobId) (job : Job Kind Name), K.Inv w → jobs[j]? = some job →
    K.Posts job.kind (D.sagas job.kind) w →
    K.Rest (jobs.set j { job with state := .succeeded }) w
  fail : ∀ (jobs : Table Kind Name) w (j : JobId) (job : Job Kind Name), K.Inv w → jobs[j]? = some job →
    K.Posts job.kind job.done w → K.Final j jobs w →
    K.Rest (jobs.set j { job with state := .deadLetter }) w
  /-- The acts of the other programs and of the hook. -/
  other : ∃ foreign : Act → Prop, (∀ r, (D.others r).Only foreign) ∧ (∀ kind, (D.onDeadLetter kind).Only foreign) ∧
    ∀ choice a w r w', foreign a → K.Inv w → K.Legal a w → D.perform choice a w = some (r, w') →
      K.Inv w' ∧ K.Rely w w' ∧ ∀ jobs, K.Rest jobs w → K.Rest jobs w'
  change : ∀ c x s, K.Good s → K.Timely x s → K.Good (D.change x s) ∧ K.Spares c s (D.change x s) ∧
    (D.change x s).working c = s.working c

variable {K} {D : Design Kind Name World Act Change Choice Other Answer} {c : Worker} {j : JobId}
  {s s' : Store Kind Name World} {job job' : Job Kind Name} {kind : Kind} {done : List Name}

theorem Carries.mono {perform : Choice → (a : Act) → World → Option (Answer a × World)} {keep Q Q' Z : World → Prop}
    {body : Body Act Answer} (h : K.Carries perform keep body Q Z) (hQ : ∀ w, K.Inv w → Q' w → Q w) :
    K.Carries perform keep body Q' Z := by
  cases body with
  | ok => exact fun w hI hw => h w hI (hQ w hI hw)
  | throw => trivial
  | act a next => exact fun choice w r w' hI hw => h choice w r w' hI (hQ w hI hw)

theorem Good.alone_at (h : K.Good s) (hc : s.working c = some j) : ∀ d, d ≠ c → s.working d = none := by
  intro d hd
  cases hw : s.working d with
  | none => rfl
  | some j' => exact absurd (h.alone d c j' j hw hc) hd

theorem Good.running_at (h : K.Good s) (hc : s.working c = some j) (hjob : s.jobs[j]? = some job) :
    job.state = .running ∧ job.unfinished = true := by
  obtain ⟨row, hrow, hrunning⟩ := h.running c j hc
  obtain rfl := Option.some.inj (hjob.symm.trans hrow)
  exact ⟨hrunning, by simp [Job.unfinished, hrunning]⟩

theorem set_self {jobs : Table Kind Name} (hjob : jobs[j]? = some job) : (jobs.set j job')[j]? = some job' :=
  List.getElem?_set_self (List.getElem?_eq_some_iff.mp hjob).1

/-- The only row of a table is the one that has been changed. -/
theorem eq_of_single {jobs : Table Kind Name} (hjob : jobs[j]? = some job) (hlength : (jobs.set j job').length = 1)
    {row : Job Kind Name} (hrow : row ∈ jobs.set j job') : row = job' := by
  rw [List.length_set] at hlength
  obtain ⟨only, rfl⟩ := List.length_eq_one_iff.mp hlength
  obtain rfl : j = 0 := by simpa using (List.getElem?_eq_some_iff.mp hjob).1
  exact List.mem_singleton.mp hrow

theorem closed_of_idle (h : s.idle = true) (hjob : s.jobs[j]? = some job) : job.unfinished = false := by
  simpa using List.all_eq_true.mp h job (List.mem_of_getElem? hjob)

/-- A row is changed, and nobody is at it afterwards but the worker that runs it. -/
theorem Good.setJob (h : K.Good s) (hjob : s.jobs[j]? = some job) (hunfinished : job.unfinished = true)
    {stale : JobId → Bool} {working : Worker → Option JobId}
    (hposts : job'.unfinished = true → K.Posts job'.kind job'.done s.world)
    (hworking : (∀ d, working d = none) ∨ job'.state = .running ∧ ∃ c, ∀ d, working d = if d = c then some j else none)
    (hrest : job'.unfinished = false → K.Rest (s.jobs.set j job') s.world) :
    K.Good ⟨s.jobs.set j job', stale, working, s.world⟩ := by
  have hother : ∀ {i row}, i ≠ j → (s.jobs.set j job')[i]? = some row → row.unfinished = true → False := by
    intro i row hi hrow hopen
    rw [List.getElem?_set_ne hi.symm] at hrow
    exact hi (h.single i j row job hrow hjob hopen hunfinished)
  refine ⟨h.world, ?_, ?_, ?_, ?_, ?_⟩
  · intro i row hrow hopen
    by_cases hi : i = j
    · subst hi
      dsimp only at hrow
      rw [set_self hjob] at hrow
      obtain rfl := Option.some.inj hrow
      exact hposts hopen
    · exact (hother hi hrow hopen).elim
  · intro i i' row row' hrow hrow' hopen hopen'
    by_cases hi : i = j
    · by_cases hi' : i' = j
      · exact hi.trans hi'.symm
      · exact (hother hi' hrow' hopen').elim
    · exact (hother hi hrow hopen).elim
  · intro d d' i i' hd hd'
    rcases hworking with hnone | ⟨-, c, hc⟩
    · simp [hnone] at hd
    · simp only [hc] at hd hd'
      split at hd
      next heq => split at hd' <;> simp_all
      next => cases hd
  · intro d i hd
    rcases hworking with hnone | ⟨hrunning, c, hc⟩
    · simp [hnone] at hd
    · simp only [hc] at hd
      split at hd <;> cases hd
      exact ⟨job', set_self hjob, hrunning⟩
  · intro hidle
    exact hrest (closed_of_idle hidle (set_self hjob))

theorem Good.none_of_idle (h : K.Good s) (hidle : s.idle = true) : ∀ d, s.working d = none := by
  intro d
  cases hd : s.working d with
  | none => rfl
  | some j =>
      obtain ⟨job, hjob, hrunning⟩ := h.running d j hd
      cases (closed_of_idle hidle hjob).symm.trans (show job.unfinished = true by simp [Job.unfinished, hrunning])

/-- A new row, when no other job is unfinished. -/
theorem Good.create (h : K.Good s) (hidle : s.idle = true) (hopen : job.unfinished = true) (hdone : job.done = []) :
    K.Good { s with jobs := s.jobs ++ [job] } := by
  have hrow : ∀ {i row}, (s.jobs ++ [job])[i]? = some row → row.unfinished = true → i = s.jobs.length ∧ row = job := by
    intro i row hrow hrowopen
    rcases Nat.lt_trichotomy i s.jobs.length with hi | hi | hi
    · rw [List.getElem?_append_left hi] at hrow
      cases (closed_of_idle hidle hrow).symm.trans hrowopen
    · subst hi
      simp only [List.getElem?_concat_length, Option.some.injEq] at hrow
      exact ⟨rfl, hrow.symm⟩
    · rw [List.getElem?_eq_none (by rw [List.length_append]; exact hi)] at hrow
      cases hrow
  have hnone := h.none_of_idle hidle
  refine ⟨h.world, fun i row hi hrowopen name hname => ?_, fun i i' row row' hi hi' hrowopen hrowopen' => ?_,
    fun d d' i i' hd => ?_, fun d i hd => ?_, fun hidle' => ?_⟩
  · obtain ⟨-, rfl⟩ := hrow hi hrowopen
    rw [hdone] at hname
    cases hname
  · exact (hrow hi hrowopen).1.trans (hrow hi' hrowopen').1.symm
  · cases (hnone d).symm.trans hd
  · cases (hnone d).symm.trans hd
  · have hclosed := List.all_eq_true.mp hidle' job (List.mem_append_right _ (List.mem_singleton_self _))
    simp [hopen] at hclosed

/-- The world changes, when no job is unfinished. -/
theorem Good.rest_world (h : K.Good s) (hidle : s.idle = true) {w : World} (hI : K.Inv w) (hrest : K.Rest s.jobs w) :
    K.Good { s with world := w } :=
  ⟨hI, fun _ _ hjob hopen => (nomatch (closed_of_idle hidle hjob).symm.trans hopen), h.single, h.alone, h.running,
    fun _ => hrest⟩

/-- A row is opened again, when no job is unfinished. -/
theorem Good.reopen (h : K.Good s) (hidle : s.idle = true) (hjob : s.jobs[j]? = some job) {w : World} (hI : K.Inv w)
    (hopen : job'.unfinished = true) (hposts : K.Posts job'.kind job'.done w) :
    K.Good { s with jobs := s.jobs.set j job', world := w } := by
  have hrow : ∀ {i row}, (s.jobs.set j job')[i]? = some row → row.unfinished = true → i = j ∧ row = job' := by
    intro i row hrow hrowopen
    by_cases hi : i = j
    · subst hi
      exact ⟨rfl, Option.some.inj (hrow.symm.trans (set_self hjob))⟩
    · rw [List.getElem?_set_ne (Ne.symm hi)] at hrow
      cases (closed_of_idle hidle hrow).symm.trans hrowopen
  have hnone := h.none_of_idle hidle
  refine ⟨hI, fun i row hi hrowopen => ?_, fun i i' row row' hi hi' hrowopen hrowopen' => ?_,
    fun d d' i i' hd => ?_, fun d i hd => ?_, fun hidle' => ?_⟩
  · obtain ⟨-, rfl⟩ := hrow hi hrowopen
    exact hposts
  · exact (hrow hi hrowopen).1.trans (hrow hi' hrowopen').1.symm
  · cases (hnone d).symm.trans hd
  · cases (hnone d).symm.trans hd
  · cases (closed_of_idle hidle' (set_self hjob)).symm.trans hopen

def At (c : Worker) (j : JobId) (kind : Kind) (done : List Name) (s : Store Kind Name World) : Prop :=
  s.working c = some j ∧ ∃ job : Job Kind Name, s.jobs[j]? = some job ∧ job.kind = kind ∧ job.done = done

theorem stable_at {Q : World → Prop} (hQ : ∀ w w', K.Inv w → K.Rely w w' → Q w → Q w') :
    K.discipline.Stable c fun s => At c j kind done s ∧ Q s.world := by
  intro d hd s s' hI hspares h
  obtain ⟨⟨hc, job, hjob, hkind, hdone⟩, hq⟩ := h
  obtain ⟨hc', hrest⟩ := hspares c hd.symm
  obtain ⟨hjobs, hrely⟩ := hrest j hc
  exact ⟨⟨hc'.trans hc, job, hjobs.trans hjob, hkind, hdone⟩, hQ _ _ hI.world hrely hq⟩

theorem stable_idle : K.discipline.Stable c fun s => s.working c = none :=
  fun _ hd _ _ _ hspares h => (hspares c hd.symm).1.trans h

/-- Nobody else is at a job. -/
theorem spares_alone (h : ∀ d, d ≠ c → s.working d = none) (h' : ∀ d, d ≠ c → s'.working d = none) : K.Spares c s s' := by
  intro d hd
  refine ⟨(h' d hd).trans (h d hd).symm, fun j hj => ?_⟩
  cases (h d hd).symm.trans hj

theorem leave_none (h : ∀ d, d ≠ c → s.working d = none) : ∀ d, (s.leave c).working d = none := by
  intro d
  by_cases hd : d = c
  · rw [hd]
    exact Function.update_self ..
  · exact (Function.update_of_ne hd ..).trans (h d hd)

theorem claimable_unfinished {stale : Bool} (h : job.claimable stale = true) : job.unfinished = true := by
  simp only [Job.claimable, Bool.or_eq_true, Bool.and_eq_true, decide_eq_true_eq, List.mem_cons, List.not_mem_nil,
    or_false] at h
  rcases h with (h | h) | ⟨h, -⟩ <;> simp [Job.unfinished, h]

/-- Nobody is at a job that is claimed. -/
theorem Good.none_at (h : K.Good s) (hjob : s.jobs[j]? = some job) (hclaim : job.claimable (s.stale j) = true)
    (hdead : job.state = .running → s.stale j = true → ∀ d, s.working d = none) : ∀ d, s.working d = none := by
  intro d
  by_cases hrunning : job.state = .running
  · refine hdead hrunning ?_ d
    simpa [Job.claimable, hrunning] using hclaim
  · cases hd : s.working d with
    | none => rfl
    | some i =>
        obtain ⟨row, hrow, hstate⟩ := h.running d i hd
        obtain rfl := h.single i j row job hrow hjob (by simp [Job.unfinished, hstate]) (claimable_unfinished hclaim)
        obtain rfl := Option.some.inj (hrow.symm.trans hjob)
        exact absurd hstate hrunning

/-- A test of the statements, for runs in which no lease is taken over. -/
def watched (legal : Act → World → Bool) (timely : Change → Store Kind Name World → Bool)
    (final : JobId → Table Kind Name → World → Bool) (_ : Worker) : Op Name Act Change → Store Kind Name World → Bool
  | .claim j, s => !(s.jobs[j]?.any fun job => job.state = .running && s.stale j)
  | .act a, s => legal a s.world
  | .fail j, s => s.jobs[j]?.all fun job => !job.exhausted || final j s.jobs s.world
  | .change x, s => timely x s
  | _, _ => true

theorem allowed_watched {legal : Act → World → Bool} {timely : Change → Store Kind Name World → Bool}
    {final : JobId → Table Kind Name → World → Bool} (hlegal : ∀ a w, legal a w = true → K.Legal a w)
    (htimely : ∀ x s, timely x s = true → K.Timely x s) (hfinal : ∀ j jobs w, final j jobs w = true → K.Final j jobs w)
    (c : Worker) (op : Op Name Act Change) (s : Store Kind Name World) (h : watched legal timely final c op s = true) :
    K.Allowed c op s := by
  cases op with
  | claim j =>
      intro job hjob hrunning hstale
      simp [watched, hjob, hrunning, hstale] at h
  | act a => exact hlegal a s.world h
  | save | succeed | beat => trivial
  | fail j =>
      intro job hjob hexhausted
      simp only [watched, hjob, Option.all_some, hexhausted, Bool.not_true, Bool.false_or] at h
      exact hfinal j s.jobs s.world h
  | change x => exact htimely x s h

variable [DecidableEq Name]

/-- The worker goes on with a body, and then with what follows. -/
theorem meets_run {body : Body Act Answer} {Q Z : World → Prop} {after failed : Program (Op Name Act Change) (Reply Kind Name Answer)}
    (hbody : K.Carries D.perform (K.Posts kind done) body Q Z)
    (hafter : K.discipline.Meets D.protocol c after fun s => At c j kind done s ∧ Z s.world)
    (hfailed : K.discipline.Meets D.protocol c failed (At c j kind done)) :
    K.discipline.Meets D.protocol c (Design.run body after failed) fun s => At c j kind done s ∧ Q s.world := by
  induction body generalizing Q with
  | ok => exact hafter.mono fun s hI h => ⟨h.1, hbody s.world hI.world h.2⟩
  | throw => exact hfailed.mono fun s _ h => h.1
  | act a next ih =>
      intro s chance r s' hI h hlegal hexec
      obtain ⟨⟨hc, job, hjob, rfl, rfl⟩, hq⟩ := h
      obtain ⟨⟨r, w⟩, hperform, heq⟩ := Option.map_eq_some_iff.mp hexec
      cases heq
      obtain ⟨hinv, hkeep, Q', hstable, hq', hnext⟩ := hbody chance.choice s.world r w hI.world hq hlegal hperform
      have hothers := hI.alone_at hc
      obtain ⟨hrunning, hopen⟩ := hI.running_at hc hjob
      refine ⟨⟨hinv, fun i row hi hrow => ?_, hI.single, hI.alone, hI.running, fun hidle => ?_⟩,
        spares_alone hothers hothers, _, stable_at hstable, ⟨⟨hc, job, hjob, rfl, rfl⟩, hq'⟩, ih r hnext⟩
      · obtain rfl := hI.single i j row job hi hjob hrow hopen
        obtain rfl := Option.some.inj (hi.symm.trans hjob)
        exact hkeep
      · cases (closed_of_idle hidle hjob).symm.trans hopen

/-- A program that is at no job. -/
theorem meets_other (hK : K.Kept D) {foreign : Act → Prop} (hforeign : ∀ choice a w r w', foreign a → K.Inv w → K.Legal a w →
      D.perform choice a w = some (r, w') → K.Inv w' ∧ K.Rely w w' ∧ ∀ jobs, K.Rest jobs w → K.Rest jobs w')
    {body : Body Act Answer} (hbody : body.Only foreign) :
    K.discipline.Meets D.protocol c (Design.run body .done .done) fun s => s.working c = none := by
  induction body with
  | ok => exact fun _ _ h => h
  | throw => exact fun _ _ h => h
  | act a next ih =>
      intro s chance r s' hI hidle hlegal hexec
      obtain ⟨⟨r, w⟩, hperform, heq⟩ := Option.map_eq_some_iff.mp hexec
      cases heq
      obtain ⟨hinv, hrely, hrest⟩ := hforeign chance.choice a s.world r w hbody.1 hI.world hlegal hperform
      refine ⟨⟨hinv, fun i row hi hopen name hname => ?_, hI.single, hI.alone, hI.running, fun h => hrest _ (hI.rest h)⟩,
        fun d hd => ⟨rfl, fun i _ => ⟨rfl, hrely⟩⟩, _, stable_idle, hidle, ih r (hbody.2 r)⟩
      exact hK.post _ _ _ _ hI.world hrely (hI.posts i row hi hopen name hname)

theorem meets_caught (hK : K.Kept D) : K.discipline.Meets D.protocol c (D.caught j kind) (At c j kind done) := by
  intro s chance terminal s' hI h hfinal hexec
  obtain ⟨hc, job, hjob, rfl, rfl⟩ := h
  have hothers := hI.alone_at hc
  have hnone := leave_none (s := s) hothers
  obtain ⟨hrunning, hopen⟩ := hI.running_at hc hjob
  obtain ⟨foreign, -, hhook, hforeign⟩ := hK.other
  have hnext : K.discipline.Meets D.protocol c
      (if terminal then Design.run (D.onDeadLetter job.kind) .done .done else .done) fun s => s.working c = none := by
    split
    · exact meets_other hK hforeign (hhook job.kind)
    · exact fun _ _ h => h
  simp only [Design.protocol, Design.exec, hjob] at hexec
  split at hexec
  · cases hexec
    refine ⟨⟨hI.world, hI.posts, hI.single, fun d d' i i' hd => ?_, fun d i hd => ?_, hI.rest⟩,
      spares_alone hothers fun d _ => hnone d, _, stable_idle, hnone c, hnext⟩
    · cases (hnone d).symm.trans hd
    · cases (hnone d).symm.trans hd
  · cases hexec
    refine ⟨hI.setJob hjob hopen (fun _ => hI.posts j job hjob hopen) (.inl hnone) fun hclosed => ?_,
      spares_alone hothers fun d _ => hnone d, _, stable_idle, hnone c, hnext⟩
    split
    next hexhausted => exact hK.fail s.jobs s.world j job hI.world hjob (hI.posts j job hjob hopen) (hfinal job hjob hexhausted)
    next hmore => simp [Job.unfinished, hmore] at hclosed

theorem meets_runSteps (hK : K.Kept D) {steps before : List Name} (hsteps : D.sagas kind = before ++ steps)
    (hbefore : ∀ n ∈ before, n ∈ done) :
    K.discipline.Meets D.protocol c (D.runSteps j kind steps done) fun s => At c j kind done s ∧ K.Posts kind done s.world := by
  induction steps generalizing before done with
  | nil =>
      intro s chance saved s' hI h _ hexec
      obtain ⟨⟨hc, job, hjob, rfl, rfl⟩, hposts⟩ := h
      have hothers := hI.alone_at hc
      have hnone := leave_none (s := s) hothers
      obtain ⟨hrunning, hopen⟩ := hI.running_at hc hjob
      simp only [Design.protocol, Design.exec, hjob] at hexec
      split at hexec
      · cases hexec
        exact ⟨hI, spares_alone hothers hothers, _, stable_at (fun _ _ _ _ _ => trivial), ⟨⟨hc, job, hjob, rfl, rfl⟩, trivial⟩,
          (meets_caught hK).mono fun s _ h => h.1⟩
      · cases hexec
        refine ⟨hI.setJob hjob hopen (fun hclosed => ?_) (.inl hnone) fun _ => ?_,
          spares_alone hothers fun d _ => hnone d, _, stable_idle, hnone c, fun _ _ h => h⟩
        · simp [Job.unfinished] at hclosed
        · refine hK.succeed s.jobs s.world j job hI.world hjob fun name hname => hposts name (hbefore name ?_)
          rwa [hsteps, List.append_nil] at hname
  | cons name steps ih =>
      have hsteps' : D.sagas kind = (before ++ [name]) ++ steps := by rw [hsteps, List.append_assoc]; rfl
      unfold Design.runSteps
      split
      next hdone =>
        refine ih hsteps' fun n hn => ?_
        rcases List.mem_append.mp hn with hn | hn
        · exact hbefore n hn
        · obtain rfl := List.mem_singleton.mp hn
          exact hdone
      next hnew =>
        have hmem : name ∈ D.sagas kind := hsteps ▸ List.mem_append_right _ List.mem_cons_self
        have htake : ∀ n ∈ (D.sagas kind).takeWhile (· ≠ name), n ∈ done := takeWhile_done hsteps hbefore hnew
        refine meets_run (hK.step kind name hmem done htake hnew) ?_ (meets_caught hK)
        -- the checkpoint
        intro s chance saved s' hI h _ hexec
        obtain ⟨⟨hc, job, hjob, rfl, rfl⟩, hposts⟩ := h
        have hothers := hI.alone_at hc
        obtain ⟨hrunning, hopen⟩ := hI.running_at hc hjob
        have hworking : ∀ d, s.working d = if d = c then some j else none := by
          intro d
          split
          next heq => exact heq ▸ hc
          next hne => exact hothers d hne
        simp only [Design.protocol, Design.exec, hjob] at hexec
        split at hexec
        · cases hexec
          exact ⟨hI, spares_alone hothers hothers, _, stable_at (fun _ _ _ _ _ => trivial),
            ⟨⟨hc, job, hjob, rfl, rfl⟩, trivial⟩, (meets_caught hK).mono fun s _ h => h.1⟩
        · cases hexec
          refine ⟨hI.setJob hjob hopen (fun _ => hposts) (.inr ⟨hrunning, c, hworking⟩) fun hclosed => ?_,
            spares_alone hothers hothers, _, stable_at (Q := K.Posts job.kind (job.done ++ [name])) ?_,
            ⟨⟨hc, _, set_self hjob, rfl, rfl⟩, hposts⟩, ih hsteps' fun n hn => ?_⟩
          · simp [Job.unfinished, hrunning] at hclosed
          · exact fun w w' hinv hrely h n hn => hK.post _ _ _ _ hinv hrely (h n hn)
          · rcases List.mem_append.mp hn with hn | hn
            · exact List.mem_append_left _ (hbefore n hn)
            · obtain rfl := List.mem_singleton.mp hn
              exact List.mem_append_right _ (List.mem_singleton_self _)

theorem meets_execute (hK : K.Kept D) :
    K.discipline.Meets D.protocol c (D.execute j) fun s => s.working c = none := by
  intro s chance claimed s' hI hidle hallowed hexec
  cases hjob : s.jobs[j]? with
  | none =>
      simp only [Design.protocol, Design.exec, hjob] at hexec
      cases hexec
      exact ⟨hI, fun d _ => ⟨rfl, fun i _ => ⟨rfl, hK.refl _⟩⟩, _, stable_idle, hidle, fun _ _ h => h⟩
  | some job =>
      simp only [Design.protocol, Design.exec, hjob] at hexec
      split at hexec
      next hclaim =>
        cases hexec
        simp only [Bool.and_eq_true] at hclaim
        have hnone := hI.none_at hjob hclaim.2 (hallowed job hjob)
        have hopen := claimable_unfinished hclaim.2
        have hworking : ∀ d, Function.update s.working c (some j) d = if d = c then some j else none := by
          intro d
          split
          next heq => exact heq ▸ Function.update_self ..
          next hne => exact (Function.update_of_ne hne ..).trans (hnone d)
        have hposts : K.Posts job.kind job.done s.world := hI.posts j job hjob hopen
        refine ⟨hI.setJob hjob hopen (fun _ => hposts) (.inr ⟨rfl, c, hworking⟩) fun hclosed => ?_,
          spares_alone (fun d _ => hnone d) (fun d hd => (hworking d).trans (if_neg hd)), _,
          stable_at (Q := K.Posts job.kind job.done) ?_,
          ⟨⟨(hworking c).trans (if_pos rfl), _, set_self hjob, rfl, rfl⟩, hposts⟩,
          meets_runSteps hK (List.nil_append _).symm (fun n hn => absurd hn List.not_mem_nil)⟩
        · simp [Job.unfinished] at hclosed
        · exact fun w w' hinv hrely h name hname => hK.post _ _ _ _ hinv hrely (h name hname)
      next =>
        cases hexec
        exact ⟨hI, fun d _ => ⟨rfl, fun i _ => ⟨rfl, hK.refl _⟩⟩, _, stable_idle, hidle, fun _ _ h => h⟩

theorem sound (hK : K.Kept D) : K.discipline.Sound D.protocol where
  idle _ := stable_idle
  abort c s hI _ := by
    have hleave : ∀ d i, (s.leave c).working d = some i → s.working d = some i := by
      intro d i hd
      by_cases hc : d = c
      · subst hc
        cases (Function.update_self ..).symm.trans hd
      · exact (Function.update_of_ne hc ..).symm.trans hd
    refine ⟨⟨hI.world, hI.posts, hI.single, fun d d' i i' hd hd' => hI.alone d d' i i' (hleave d i hd) (hleave d' i' hd'),
      fun d i hd => hI.running d i (hleave d i hd), hI.rest⟩, fun d hd => ⟨Function.update_of_ne hd .., fun i _ =>
      ⟨rfl, hK.refl _⟩⟩, Function.update_self ..⟩
  program c q := by
    obtain ⟨foreign, hothers, -, hforeign⟩ := hK.other
    cases q with
    | execute j => exact meets_execute hK
    | beat j late =>
        intro s chance r s' hI hidle _ hexec
        cases hexec
        exact ⟨⟨hI.world, hI.posts, hI.single, hI.alone, hI.running, hI.rest⟩,
          fun d _ => ⟨rfl, fun i _ => ⟨rfl, hK.refl _⟩⟩, _, stable_idle, hidle, fun _ _ h => h⟩
    | other r => exact meets_other hK hforeign (hothers r)
    | change x =>
        intro s chance r s' hI hidle htimely hexec
        cases hexec
        obtain ⟨hgood, hspares, hsame⟩ := hK.change c x s hI htimely
        exact ⟨hgood, hspares, _, stable_idle, hsame.trans hidle, fun _ _ h => h⟩

/-- Whatever is done side by side, a run in which every statement is allowed stays good. -/
theorem good_of_reachable (hK : K.Kept D) {g : Config Worker (Store Kind Name World) (Op Name Act Change) (Reply Kind Name Answer)}
    (hs : K.Good s) (hidle : ∀ c, s.working c = none) (h : D.protocol.Reachable (Protocol.Statements K.Allowed) s g) :
    K.Good g.store :=
  ((sound hK).reachable (Discipline.grants_statements fun _ _ => trivial) hs hidle h).1

end Contract

end Corebase.SagaRules
