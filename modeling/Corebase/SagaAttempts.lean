import Corebase.SagaSteps

namespace Corebase.SagaAttempts

open Interleaving Sagas SagaRules SagaSteps
open JobRunner (Worker JobState)

variable {Kind Name World Act Change Choice Other : Type} {Answer : Act → Type}

/-- The body may return from the one world, and leave the other. -/
def Returns (perform : Choice → (a : Act) → World → Option (Answer a × World)) : Body Act Answer → World → World → Prop
  | .ok, w, w' => w' = w
  | .throw, _, _ => False
  | .act a next, w, w' => ∃ choice r w₁, perform choice a w = some (r, w₁) ∧ Returns perform (next r) w₁ w'

section Bodies

variable {perform : Choice → (a : Act) → World → Option (Answer a × World)} {body : Body Act Answer} {w w' : World}

/-- What every act of a kind keeps. -/
theorem Returns.keeps {allowed : Act → Prop} {I : World → Prop}
    (hact : ∀ choice a w r w', allowed a → I w → perform choice a w = some (r, w') → I w') (hbody : body.Only allowed) (hI : I w)
    (h : Returns perform body w w') : I w' := by
  induction body generalizing w with
  | ok =>
      obtain rfl : w' = w := h
      exact hI
  | throw => cases h
  | act a next ih =>
      obtain ⟨choice, r, w₁, hperform, hnext⟩ := h
      exact ih r (hbody.2 r) (hact choice a w r w₁ hbody.1 hI hperform) hnext

/-- A body whose acts are always allowed has carried out its part when it returns. -/
theorem Returns.carried {K : Contract Kind Name World Act Change} {keep Q Z : World → Prop}
    (h : Returns perform body w w') (hbody : K.Carries perform keep body Q Z) (hlegal : body.Only fun a => ∀ w, K.Legal a w)
    (hI : K.Inv w) (hQ : Q w) : K.Inv w' ∧ Z w' := by
  induction body generalizing w Q with
  | ok =>
      obtain rfl : w' = w := h
      exact ⟨hI, hbody w' hI hQ⟩
  | throw => cases h
  | act a next ih =>
      obtain ⟨choice, r, w₁, hperform, hnext⟩ := h
      obtain ⟨hI₁, -, Q', -, hQ', hcarries⟩ := hbody choice w r w₁ hI hQ (hlegal.1 w) hperform
      exact ih r hnext hcarries (hlegal.2 r) hI₁ hQ'

theorem returns_attempt {Raw : Act → Type} {apply : Choice → (a : Act) → World → Option (Raw a × World)} {a : Act}
    {next : Raw a → Body Act fun a => Option (Raw a)} : Returns (SagaSteps.perform apply) (attempt a next) w w' ↔
      ∃ choice r w₁, apply choice a w = some (r, w₁) ∧ Returns (SagaSteps.perform apply) (next r) w₁ w' := by
  constructor
  · rintro ⟨⟨outcome, choice⟩, answer, w₁, hperform, hnext⟩
    obtain ⟨⟨r, w₂⟩, happly, heq⟩ := Option.map_eq_some_iff.mp hperform
    cases outcome with
    | done =>
        cases heq
        exact ⟨choice, r, w₁, happly, hnext⟩
    | failed | lost =>
        cases heq
        cases hnext
  · rintro ⟨choice, r, w₁, happly, hnext⟩
    refine ⟨(.done, choice), some r, w₁, ?_, hnext⟩
    rw [SagaSteps.perform, happly]
    rfl

theorem perform_keeps {Raw : Act → Type} {apply : Choice → (a : Act) → World → Option (Raw a × World)} {a : Act}
    {I : World → Prop} {choice : Outcome × Choice} {answer : Option (Raw a)} (hI : I w)
    (hact : ∀ r w', apply choice.2 a w = some (r, w') → I w') (h : SagaSteps.perform apply choice a w = some (answer, w')) :
    I w' := by
  obtain ⟨⟨r, w₁⟩, happly, heq⟩ := Option.map_eq_some_iff.mp h
  have hI₁ := hact r w₁ happly
  cases houtcome : choice.1 with
  | failed =>
      simp only [houtcome] at heq
      cases heq
      exact hI
  | done | lost =>
      simp only [houtcome] at heq
      cases heq
      exact hI₁

theorem only_attempt {Raw : Act → Type} {a : Act} {next : Raw a → Body Act fun a => Option (Raw a)} {allowed : Act → Prop}
    (ha : allowed a) (hnext : ∀ r, (next r).Only allowed) : (attempt a next).Only allowed := by
  refine ⟨ha, fun answer => ?_⟩
  cases answer with
  | none => trivial
  | some r => exact hnext r

end Bodies

variable [DecidableEq Name] (D : Design Kind Name World Act Change Choice Other Answer)

/-- The steps that are not done may return one after the other. -/
def Completes (kind : Kind) : List Name → List Name → World → World → Prop
  | [], _, w, w' => w' = w
  | name :: steps, done, w, w' =>
      if name ∈ done then Completes kind steps done w w'
      else ∃ w₁, Returns D.perform (D.body kind name) w w₁ ∧ Completes kind steps (done ++ [name]) w₁ w'

variable {D} {c : Worker} {j : JobId} {s s' : Store Kind Name World} {job : Job Kind Name} {kind : Kind} {w' : World}

theorem ends_run {body : Body Act Answer} {after failed : Program (Op Name Act Change) (Reply Kind Name Answer)}
    (hbody : Returns D.perform body s.world w') (hafter : D.protocol.Ends c after { s with world := w' } s') :
    D.protocol.Ends c (Design.run body after failed) s s' := by
  induction body generalizing s with
  | ok =>
      obtain rfl : w' = s.world := hbody
      exact hafter
  | throw => cases hbody
  | act a next ih =>
      obtain ⟨choice, r, w₁, hperform, hnext⟩ := hbody
      refine ⟨⟨choice, false⟩, r, { s with world := w₁ }, ?_, ih r hnext hafter⟩
      simp only [Design.protocol, Design.exec, hperform, Option.map_some]

theorem run_ends {body : Body Act Answer} {after failed : Program (Op Name Act Change) (Reply Kind Name Answer)}
    (h : D.protocol.Ends c (Design.run body after failed) s s') :
    (∃ w', Returns D.perform body s.world w' ∧ D.protocol.Ends c after { s with world := w' } s') ∨
      ∃ w', D.protocol.Ends c failed { s with world := w' } s' := by
  induction body generalizing s with
  | ok => exact .inl ⟨s.world, rfl, h⟩
  | throw => exact .inr ⟨s.world, h⟩
  | act a next ih =>
      obtain ⟨chance, r, s₁, hexec, hends⟩ := h
      obtain ⟨⟨r, w₁⟩, hperform, heq⟩ := Option.map_eq_some_iff.mp hexec
      cases heq
      rcases ih r hends with ⟨w', hreturns, hafter⟩ | ⟨w', hfailed⟩
      · exact .inl ⟨w', ⟨chance.choice, r, w₁, hperform, hreturns⟩, hafter⟩
      · exact .inr ⟨w', hfailed⟩

/-- A step has thrown, and the job has not succeeded. -/
theorem caught_unsuccessful (h : D.protocol.Ends c (D.caught j kind) s s') (hjob : s.jobs[j]? = some job)
    (hstate : job.state ≠ .succeeded) : ∃ job', s'.jobs[j]? = some job' ∧ job'.state ≠ .succeeded := by
  have hrun : ∀ {body : Body Act Answer} {s s' : Store Kind Name World}, D.protocol.Ends c (Design.run body .done .done) s s' →
      s'.jobs = s.jobs := by
    intro body s s' hends
    rcases run_ends hends with ⟨w', -, hdone⟩ | ⟨w', hdone⟩
    · obtain rfl : s' = _ := hdone
      rfl
    · obtain rfl : s' = _ := hdone
      rfl
  obtain ⟨chance, terminal, s₁, hexec, hends⟩ := h
  have hjobs : s'.jobs = s₁.jobs := by
    dsimp only at hends
    split at hends
    · exact hrun hends
    · obtain rfl : s' = s₁ := hends
      rfl
  rw [hjobs]
  simp only [Design.protocol, Design.exec, hjob] at hexec
  split at hexec <;> cases hexec
  · exact ⟨job, hjob, hstate⟩
  · refine ⟨_, List.getElem?_set_self (List.getElem?_eq_some_iff.mp hjob).1, ?_⟩
    dsimp only
    split <;> simp

def Succeeded (j : JobId) (s : Store Kind Name World) : Prop := ∃ job : Job Kind Name, s.jobs[j]? = some job ∧ job.state = .succeeded

theorem ends_of_completes (choice : Choice) {steps done : List Name} (hjob : s.jobs[j]? = some job)
    (h : Completes D kind steps done s.world w') :
    ∃ s', D.protocol.Ends c (D.runSteps j kind steps done) s s' ∧ Succeeded j s' ∧ s'.world = w' := by
  induction steps generalizing s done job with
  | nil =>
      obtain rfl : w' = s.world := h
      refine ⟨(s.setJob j { job with state := .succeeded }).leave c, ⟨⟨choice, false⟩, true, _, ?_, rfl⟩,
        ⟨_, List.getElem?_set_self (List.getElem?_eq_some_iff.mp hjob).1, rfl⟩, rfl⟩
      simp only [Design.protocol, Design.exec, hjob, Bool.false_eq_true, if_false]
  | cons name steps ih =>
      unfold Completes at h
      unfold Design.runSteps
      split at h
      next hdone =>
        rw [if_pos hdone]
        exact ih hjob h
      next hnew =>
        obtain ⟨w₁, hbody, hrest⟩ := h
        have hjob' : (s.jobs.set j { job with done := done ++ [name] })[j]? = some { job with done := done ++ [name] } :=
          List.getElem?_set_self (List.getElem?_eq_some_iff.mp hjob).1
        obtain ⟨s', hends, hsucceeded⟩ :=
          ih (s := { s with jobs := s.jobs.set j { job with done := done ++ [name] }, world := w₁ }) hjob' hrest
        rw [if_neg hnew]
        refine ⟨s', ends_run hbody ⟨⟨choice, false⟩, true, _, ?_, hends⟩, hsucceeded⟩
        simp only [Design.protocol, Design.exec, hjob, Bool.false_eq_true, if_false]
        rfl

theorem not_succeeded_of_caught (hjob : s.jobs[j]? = some job) (hstate : job.state ≠ .succeeded)
    (h : D.protocol.Ends c (D.caught j kind) s s') : ¬ Succeeded j s' := by
  obtain ⟨job', hjob', hstate'⟩ := caught_unsuccessful h hjob hstate
  rintro ⟨row, hrow, hsucceeded⟩
  obtain rfl := Option.some.inj (hjob'.symm.trans hrow)
  exact hstate' hsucceeded

theorem completes_of_ends {steps done : List Name} (hjob : s.jobs[j]? = some job) (hstate : job.state ≠ .succeeded)
    (h : D.protocol.Ends c (D.runSteps j kind steps done) s s') (hsucceeded : Succeeded j s') :
    Completes D kind steps done s.world s'.world := by
  induction steps generalizing s done job with
  | nil =>
      obtain ⟨chance, saved, s₁, hexec, hends⟩ := h
      simp only [Design.protocol, Design.exec, hjob] at hexec
      split at hexec <;> cases hexec
      · exact absurd hsucceeded (not_succeeded_of_caught hjob hstate hends)
      · obtain rfl : s' = _ := hends
        rfl
  | cons name steps ih =>
      unfold Design.runSteps at h
      unfold Completes
      split at h
      next hdone =>
        rw [if_pos hdone]
        exact ih hjob hstate h
      next hnew =>
        rw [if_neg hnew]
        rcases run_ends h with ⟨w₁, hbody, chance, saved, s₁, hexec, hends⟩ | ⟨w₁, hfailed⟩
        · simp only [Design.protocol, Design.exec, hjob] at hexec
          split at hexec <;> cases hexec
          · exact absurd hsucceeded
              (not_succeeded_of_caught (s := { s with world := w₁ }) hjob hstate hends)
          · refine ⟨w₁, hbody, ?_⟩
            exact ih (s := { s with jobs := s.jobs.set j { job with done := done ++ [name] }, world := w₁ })
              (List.getElem?_set_self (List.getElem?_eq_some_iff.mp hjob).1) hstate hends
        · exact absurd hsucceeded (not_succeeded_of_caught (s := { s with world := w₁ }) hjob hstate hfailed)

/-- An attempt at a job that may be claimed can succeed just when its remaining steps can return in turn. -/
theorem succeeds_iff (choice : Choice) {Q : World → Prop} (hjob : s.jobs[j]? = some job)
    (hclaim : job.claimable (s.stale j) = true) :
    (∃ s', D.protocol.Ends c (D.execute j) s s' ∧ Succeeded j s' ∧ Q s'.world) ↔
      ∃ w', Completes D job.kind (D.sagas job.kind) job.done s.world w' ∧ Q w' := by
  have hjob' : (s.jobs.set j { job with state := .running, attempts := job.attempts + 1 })[j]? =
      some { job with state := .running, attempts := job.attempts + 1 } :=
    List.getElem?_set_self (List.getElem?_eq_some_iff.mp hjob).1
  constructor
  · rintro ⟨s', ⟨chance, claimed, s₁, hexec, hends⟩, hsucceeded, hQ⟩
    have hstate : job.state ≠ .succeeded := by
      intro hstate
      simp [Job.claimable, hstate] at hclaim
    simp only [Design.protocol, Design.exec, hjob, hclaim, Bool.and_true] at hexec
    split at hexec <;> cases hexec
    · exact ⟨_, completes_of_ends (s := s.claim c j job) hjob' (by simp) hends hsucceeded, hQ⟩
    · obtain rfl : s' = s := hends
      obtain ⟨row, hrow, hsucceeded⟩ := hsucceeded
      obtain rfl := Option.some.inj (hjob.symm.trans hrow)
      exact absurd hsucceeded hstate
  · rintro ⟨w', hcompletes, hQ⟩
    obtain ⟨s', hends, hsucceeded, hworld⟩ := ends_of_completes (c := c) choice (s := s.claim c j job) hjob' hcompletes
    refine ⟨s', ⟨⟨choice, false⟩, some { job with state := .running, attempts := job.attempts + 1 }, s.claim c j job, ?_,
      hends⟩, hsucceeded, hworld ▸ hQ⟩
    simp [Design.protocol, Design.exec, hjob, hclaim]

/-- What the steps keep that may return, and what they return from. -/
theorem Completes.keeps {I : World → Prop} {steps done : List Name} {w w' : World}
    (hstep : ∀ name ∈ steps, ∀ w w', I w → Returns D.perform (D.body kind name) w w' → I w') (hI : I w)
    (h : Completes D kind steps done w w') :
    I w' ∧ ∀ name ∈ steps, name ∉ done → ∃ w₁ w₂, I w₁ ∧ Returns D.perform (D.body kind name) w₁ w₂ := by
  induction steps generalizing done w with
  | nil =>
      obtain rfl : w' = w := h
      exact ⟨hI, fun _ hname => absurd hname List.not_mem_nil⟩
  | cons first steps ih =>
      have hrest := fun name hname => hstep name (List.mem_cons_of_mem first hname)
      unfold Completes at h
      split at h
      next hdone =>
        obtain ⟨hI', hreturns⟩ := ih hrest hI h
        refine ⟨hI', fun name hname hnew => ?_⟩
        rcases List.mem_cons.mp hname with rfl | hname
        · exact absurd hdone hnew
        · exact hreturns name hname hnew
      next =>
        obtain ⟨w₁, hbody, hcompletes⟩ := h
        obtain ⟨hI', hreturns⟩ := ih hrest (hstep first List.mem_cons_self w w₁ hI hbody) hcompletes
        refine ⟨hI', fun name hname hnew => ?_⟩
        by_cases heq : name = first
        · exact ⟨w, w₁, hI, heq ▸ hbody⟩
        · exact hreturns name ((List.mem_cons.mp hname).resolve_left heq) (by simp [hnew, heq])

/-- Steps that can return from what the ones before them have left can return in turn. -/
theorem completes_of_steps {Fit : List Name → World → Prop}
    (hstep : ∀ name ∈ D.sagas kind, ∀ done w, (∀ n ∈ (D.sagas kind).takeWhile (· ≠ name), n ∈ done) → name ∉ done → Fit done w →
      ∃ w', Returns D.perform (D.body kind name) w w' ∧ Fit (done ++ [name]) w')
    {before steps done : List Name} {w : World} (hsteps : D.sagas kind = before ++ steps) (hbefore : ∀ n ∈ before, n ∈ done)
    (hfit : Fit done w) :
    ∃ w' done', Completes D kind steps done w w' ∧ (∀ n ∈ D.sagas kind, n ∈ done') ∧ Fit done' w' := by
  induction steps generalizing before done w with
  | nil =>
      refine ⟨w, done, rfl, fun n hn => hbefore n ?_, hfit⟩
      rwa [hsteps, List.append_nil] at hn
  | cons name steps ih =>
      have hsteps' : D.sagas kind = (before ++ [name]) ++ steps := by rw [hsteps, List.append_assoc]; rfl
      simp only [Completes]
      split
      next hdone =>
        refine ih hsteps' (fun n hn => ?_) hfit
        rcases List.mem_append.mp hn with hn | hn
        · exact hbefore n hn
        · obtain rfl := List.mem_singleton.mp hn
          exact hdone
      next hnew =>
        have htake : ∀ n ∈ (D.sagas kind).takeWhile (· ≠ name), n ∈ done := takeWhile_done hsteps hbefore hnew
        obtain ⟨w₁, hbody, hfit₁⟩ := hstep name (hsteps ▸ List.mem_append_right _ List.mem_cons_self) done w htake hnew hfit
        have hbefore₁ : ∀ n ∈ before ++ [name], n ∈ done ++ [name] := by
          intro n hn
          rcases List.mem_append.mp hn with hn | hn
          · exact List.mem_append_left _ (hbefore n hn)
          · exact List.mem_append_right _ hn
        obtain ⟨w', done', hcompletes, hall, hfit'⟩ := ih hsteps' hbefore₁ hfit₁
        exact ⟨w', done', ⟨w₁, hbody, hcompletes⟩, hall, hfit'⟩

end Corebase.SagaAttempts
