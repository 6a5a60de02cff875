import Mathlib.Logic.Function.Basic

namespace Corebase.Interleaving

/-- A request as its statements, each one followed by what its reply makes of the rest. -/
inductive Program (Op : Type) (Reply : Op → Type) : Type
  | done
  | step (op : Op) (next : Reply op → Program Op Reply)

/-- All statements of the program are of a kind. -/
def Program.Only {Op : Type} {Reply : Op → Type} (kind : Op → Prop) : Program Op Reply → Prop
  | .done => True
  | .step op next => kind op ∧ ∀ r, (next r).Only kind

theorem Program.Only.mono {Op : Type} {Reply : Op → Type} {kind kind' : Op → Prop} {p : Program Op Reply}
    (h : p.Only kind) (hkind : ∀ op, kind op → kind' op) : p.Only kind' := by
  induction p with
  | done => trivial
  | step op next ih => exact ⟨hkind op h.1, fun r => ih r (h.2 r)⟩

/-- Clients that run requests side by side on one store, statement by statement. -/
structure Protocol (Client State Op Choice Request : Type) (Reply : Op → Type) where
  /-- A statement of a client, or none while it has to wait. -/
  exec : Client → Choice → (op : Op) → State → Option (Reply op × State)
  /-- What the store makes of a client that dies. -/
  abort : Client → State → State
  program : Request → Program Op Reply

structure Config (Client State Op : Type) (Reply : Op → Type) where
  store : State
  running : Client → Program Op Reply

inductive Move (Client Choice Request : Type)
  | arrive (c : Client) (q : Request)
  | run (c : Client) (choice : Choice)
  | crash (c : Client)

variable {Client State Op Choice Request : Type} {Reply : Op → Type}

namespace Protocol

variable [DecidableEq Client]

def move (P : Protocol Client State Op Choice Request Reply) (g : Config Client State Op Reply) :
    Move Client Choice Request → Option (Config Client State Op Reply)
  | .arrive c q => match g.running c with
    | .done => some ⟨g.store, Function.update g.running c (P.program q)⟩
    | .step _ _ => none
  | .run c choice => match g.running c with
    | .done => none
    | .step op next => (P.exec c choice op g.store).map fun (r, s) => ⟨s, Function.update g.running c (next r)⟩
  | .crash c => some ⟨P.abort c g.store, Function.update g.running c .done⟩

/-- The configurations of the runs whose moves are all as required where they are made. -/
inductive Reachable (P : Protocol Client State Op Choice Request Reply)
    (ok : Config Client State Op Reply → Move Client Choice Request → Prop) (s : State) :
    Config Client State Op Reply → Prop
  | start : Reachable P ok s ⟨s, fun _ => .done⟩
  | step {g g' : Config Client State Op Reply} {m : Move Client Choice Request} :
      Reachable P ok s g → ok g m → P.move g m = some g' → Reachable P ok s g'

/-- The program goes through when it runs alone, whatever it is answered, and leaves a store as required. -/
def Finishes (P : Protocol Client State Op Choice Request Reply) (c : Client) (legal : Choice → Prop)
    (Q : State → Prop) : Program Op Reply → State → Prop
  | .done, s => Q s
  | .step op next, s => ∀ choice, legal choice →
      ∃ r s', P.exec c choice op s = some (r, s') ∧ P.Finishes c legal Q (next r) s'

/-- The stores in which the program may end when it runs alone. -/
def Ends (P : Protocol Client State Op Choice Request Reply) (c : Client) : Program Op Reply → State → State → Prop
  | .done, s, s' => s' = s
  | .step op next, s, s' => ∃ choice r s₁, P.exec c choice op s = some (r, s₁) ∧ P.Ends c (next r) s₁ s'

/-- The statements that are run are as required of their client and the store. -/
def Statements (allowed : Client → Op → State → Prop) (g : Config Client State Op Reply)
    (m : Move Client Choice Request) : Prop :=
  ∀ c choice op next, m = .run c choice → g.running c = .step op next → allowed c op g.store

/-- The clients that die are as required. -/
def Deaths (mortal : Client → State → Prop) (g : Config Client State Op Reply)
    (m : Move Client Choice Request) : Prop := ∀ c, m = .crash c → mortal c g.store

/-- A test of the statements that are run. -/
def watch (allowed : Client → Op → State → Bool) (g : Config Client State Op Reply) : Move Client Choice Request → Bool
  | .run c _ => match g.running c with
    | .done => true
    | .step op _ => allowed c op g.store
  | _ => true

theorem statements_watch {allowed : Client → Op → State → Bool} {required : Client → Op → State → Prop}
    (h : ∀ c op s, allowed c op s = true → required c op s) (g : Config Client State Op Reply)
    (m : Move Client Choice Request) (hm : watch allowed g m = true) : Statements required g m := by
  rintro c choice op next rfl hr
  refine h c op g.store ?_
  simpa [watch, hr] using hm

/-- The same as a function of the moves, as long as each of them passes a check. -/
def replay (P : Protocol Client State Op Choice Request Reply)
    (check : Config Client State Op Reply → Move Client Choice Request → Bool) (g : Config Client State Op Reply) :
    List (Move Client Choice Request) → Option (Config Client State Op Reply)
  | [] => some g
  | m :: ms => if check g m then (P.move g m).bind fun g' => P.replay check g' ms else none

variable {P : Protocol Client State Op Choice Request Reply}
  {ok ok' : Config Client State Op Reply → Move Client Choice Request → Prop} {s : State}
  {g g' : Config Client State Op Reply}

theorem Finishes.mono {c : Client} {legal : Choice → Prop} {Q R : State → Prop} {p : Program Op Reply}
    (h : P.Finishes c legal Q p s) (hQ : ∀ s, Q s → R s) : P.Finishes c legal R p s := by
  induction p generalizing s with
  | done => exact hQ s h
  | step op next ih =>
      intro choice hchoice
      obtain ⟨r, s', hexec, hrest⟩ := h choice hchoice
      exact ⟨r, s', hexec, ih r hrest⟩

theorem Finishes.ends {c : Client} {legal : Choice → Prop} {Q : State → Prop} {p : Program Op Reply}
    (h : P.Finishes c legal Q p s) (choice : Choice) (hlegal : legal choice) : ∃ s', P.Ends c p s s' ∧ Q s' := by
  induction p generalizing s with
  | done => exact ⟨s, rfl, h⟩
  | step op next ih =>
      obtain ⟨r, s₁, hexec, hrest⟩ := h choice hlegal
      obtain ⟨s', hends, hQ⟩ := ih r hrest
      exact ⟨s', ⟨choice, r, s₁, hexec, hends⟩, hQ⟩

/-- What every statement keeps is there at the end. -/
theorem Finishes.and {c : Client} {legal : Choice → Prop} {Q J : State → Prop} {p : Program Op Reply}
    (h : P.Finishes c legal Q p s) (hs : J s) (hexec : ∀ choice op s r s', J s → P.exec c choice op s = some (r, s') → J s') :
    P.Finishes c legal (fun s => Q s ∧ J s) p s := by
  induction p generalizing s with
  | done => exact ⟨h, hs⟩
  | step op next ih =>
      intro choice hchoice
      obtain ⟨r, s', hrun, hrest⟩ := h choice hchoice
      exact ⟨r, s', hrun, ih r hrest (hexec choice op s r s' hs hrun)⟩

theorem Reachable.mono (h : Reachable P ok s g) (hok : ∀ g m, ok g m → ok' g m) : Reachable P ok' s g := by
  induction h with
  | start => exact .start
  | step _ hm hg ih => exact ih.step (hok _ _ hm) hg

/-- What every statement keeps holds in every run. -/
theorem Reachable.invariant {I : State → Prop} (h : Reachable P ok s g) (hs : I s)
    (hexec : ∀ c choice op s r s', I s → P.exec c choice op s = some (r, s') → I s')
    (habort : ∀ c s, I s → I (P.abort c s)) : I g.store := by
  induction h with
  | start => exact hs
  | @step g g' m _ _ hg ih =>
      cases m with
      | arrive c q =>
          simp only [move] at hg
          split at hg <;> cases hg
          exact ih
      | run c choice =>
          simp only [move] at hg
          split at hg
          · cases hg
          · obtain ⟨⟨r, s'⟩, hrun, rfl⟩ := Option.map_eq_some_iff.mp hg
            exact hexec c choice _ g.store r s' ih hrun
      | crash c =>
          cases hg
          exact habort c g.store ih

/-- What holds in every configuration of the run holds before each of its moves. -/
theorem Reachable.along {K : Config Client State Op Reply → Prop} (h : Reachable P ok s g)
    (hK : ∀ g, Reachable P ok s g → K g) : Reachable P (fun g m => ok g m ∧ K g) s g := by
  induction h with
  | start => exact .start
  | step hg₀ hm hg ih => exact ih.step ⟨hm, hK _ hg₀⟩ hg

theorem Reachable.replay (h : Reachable P ok s g)
    {check : Config Client State Op Reply → Move Client Choice Request → Bool}
    (hok : ∀ g m, check g m = true → ok g m) (ms : List (Move Client Choice Request))
    (hg : P.replay check g ms = some g') : Reachable P ok s g' := by
  induction ms generalizing g with
  | nil => rwa [← Option.some.inj hg]
  | cons m ms ih =>
      simp only [Protocol.replay] at hg
      split at hg
      next hcheck =>
        obtain ⟨g₁, hm, hg⟩ := Option.bind_eq_some_iff.mp hg
        exact ih (h.step (hok g m hcheck) hm) hg
      next => cases hg

theorem replay_arrive {check : Config Client State Op Reply → Move Client Choice Request → Bool} {c : Client} {q : Request}
    {ms : List (Move Client Choice Request)} (hidle : g.running c = .done) (hcheck : check g (.arrive c q) = true)
    (hrest : P.replay check ⟨g.store, Function.update g.running c (P.program q)⟩ ms = some g') :
    P.replay check g (.arrive c q :: ms) = some g' := by
  simpa [Protocol.replay, Protocol.move, hidle, hcheck] using hrest

theorem replay_run {check : Config Client State Op Reply → Move Client Choice Request → Bool} {c : Client}
    {choice : Choice} {p : Program Op Reply} {op : Op} {next : Reply op → Program Op Reply} {r : Reply op} {s s' : State}
    {running : Client → Program Op Reply} {ms : List (Move Client Choice Request)} (hp : p = .step op next)
    (hcheck : check ⟨s, Function.update running c p⟩ (.run c choice) = true)
    (hexec : P.exec c choice op s = some (r, s'))
    (hrest : P.replay check ⟨s', Function.update running c (next r)⟩ ms = some g') :
    P.replay check ⟨s, Function.update running c p⟩ (.run c choice :: ms) = some g' := by
  subst hp
  simpa [Protocol.replay, Protocol.move, hcheck, hexec, Function.update_idem] using hrest

/-- A replay without a check. -/
theorem Reachable.free (h : Reachable P (fun _ _ => True) s g) (ms : List (Move Client Choice Request))
    (hg : P.replay (fun _ _ => true) g ms = some g') : Reachable P (fun _ _ => True) s g' :=
  h.replay (fun _ _ _ => trivial) ms hg

end Protocol

/-- What the statements of the clients may rely on, and what each of them keeps. -/
structure Discipline (Client State Op : Type) where
  Inv : State → Prop
  /-- What the statements of one client may do to the store under the eyes of another. -/
  Guar : Client → State → State → Prop
  /-- The store between two requests of a client. -/
  Idle : Client → State → Prop
  Allowed : Client → Op → State → Prop
  Mortal : Client → State → Prop := fun _ _ => True

namespace Discipline

variable (D : Discipline Client State Op) (P : Protocol Client State Op Choice Request Reply)

def Stable (c : Client) (Q : State → Prop) : Prop :=
  ∀ d, d ≠ c → ∀ s s', D.Inv s → D.Guar d s s' → Q s → Q s'

/-- Each statement of the program keeps the discipline, from what the one before it left. -/
def Meets (c : Client) : Program Op Reply → (State → Prop) → Prop
  | .done, Q => ∀ s, D.Inv s → Q s → D.Idle c s
  | .step op next, Q => ∀ s choice r s', D.Inv s → Q s → D.Allowed c op s → P.exec c choice op s = some (r, s') →
      D.Inv s' ∧ D.Guar c s s' ∧ ∃ Q', D.Stable c Q' ∧ Q' s' ∧ Meets c (next r) Q'

structure Sound : Prop where
  idle : ∀ c, D.Stable c (D.Idle c)
  abort : ∀ c s, D.Inv s → D.Mortal c s → D.Inv (P.abort c s) ∧ D.Guar c s (P.abort c s) ∧ D.Idle c (P.abort c s)
  program : ∀ c q, D.Meets P c (P.program q) (D.Idle c)

/-- The invariant holds, and every client stands on an assertion from which the rest of its
program keeps the discipline. -/
def Holds (g : Config Client State Op Reply) : Prop :=
  D.Inv g.store ∧ ∀ c, ∃ Q, D.Stable c Q ∧ Q g.store ∧ D.Meets P c (g.running c) Q

/-- The condition on the moves gives the ones on the statements and on the deaths. -/
structure Grants (ok : Config Client State Op Reply → Move Client Choice Request → Prop) : Prop where
  allowed : ∀ g c choice op next, g.running c = .step op next → ok g (.run c choice) → D.Allowed c op g.store
  mortal : ∀ g c, ok g (.crash c) → D.Mortal c g.store

variable {D P} {ok : Config Client State Op Reply → Move Client Choice Request → Prop}
  {g g' : Config Client State Op Reply} {c : Client}

theorem grants_statements (hmortal : ∀ c s, D.Mortal c s) :
    D.Grants (@Protocol.Statements Client State Op Choice Request Reply D.Allowed) where
  allowed _ c choice op next hr hok := hok c choice op next rfl hr
  mortal g c _ := hmortal c g.store

theorem grants_all (hallowed : ∀ c op s, D.Allowed c op s) (hmortal : ∀ c s, D.Mortal c s) : D.Grants ok where
  allowed g c _ op _ _ _ := hallowed c op g.store
  mortal g c _ := hmortal c g.store

/-- Where each statement of a kind by itself keeps the invariant, a program of such statements does. -/
theorem Meets.of_only {kind : Op → Prop} {p : Program Op Reply} (hp : p.Only kind) (hidle : ∀ s, D.Inv s → D.Idle c s)
    (hkeep : ∀ choice op s r s', kind op → D.Inv s → D.Allowed c op s → P.exec c choice op s = some (r, s') →
      D.Inv s' ∧ D.Guar c s s') (Q : State → Prop) : D.Meets P c p Q := by
  induction p generalizing Q with
  | done => exact fun s hI _ => hidle s hI
  | step op next ih =>
      intro s choice r s' hI _ hok hexec
      obtain ⟨hinv, hguar⟩ := hkeep choice op s r s' hp.1 hI hok hexec
      exact ⟨hinv, hguar, _, fun _ _ _ _ _ _ _ => trivial, trivial, ih r (hp.2 r) fun _ => True⟩

theorem only_true (p : Program Op Reply) : p.Only fun _ => True := by
  induction p with
  | done => trivial
  | step op next ih => exact ⟨trivial, ih⟩

/-- Where each statement by itself keeps the invariant, every program does. -/
theorem Meets.of_statements (hidle : ∀ s, D.Inv s → D.Idle c s)
    (hkeep : ∀ choice op s r s', D.Inv s → D.Allowed c op s → P.exec c choice op s = some (r, s') →
      D.Inv s' ∧ D.Guar c s s') (p : Program Op Reply) (Q : State → Prop) : D.Meets P c p Q :=
  Meets.of_only (only_true p) hidle (fun choice op s r s' _ => hkeep choice op s r s') Q

theorem stable_true : D.Stable c fun _ => True := fun _ _ _ _ _ _ _ => trivial

theorem Stable.and {Q R : State → Prop} (hQ : D.Stable c Q) (hR : D.Stable c R) :
    D.Stable c fun s => Q s ∧ R s :=
  fun d hd s s' hI hG h => ⟨hQ d hd s s' hI hG h.1, hR d hd s s' hI hG h.2⟩

theorem Stable.all {ι : Sort*} {Q : ι → State → Prop} (hQ : ∀ i, D.Stable c (Q i)) : D.Stable c fun s => ∀ i, Q i s :=
  fun d hd s s' hI hG h i => hQ i d hd s s' hI hG (h i)

theorem Meets.mono {p : Program Op Reply} {Q R : State → Prop} (h : D.Meets P c p Q)
    (hQ : ∀ s, D.Inv s → R s → Q s) : D.Meets P c p R := by
  cases p with
  | done => exact fun s hI hR => h s hI (hQ s hI hR)
  | step op next => exact fun s choice r s' hI hR => h s choice r s' hI (hQ s hI hR)

theorem Holds.start {s : State} (hI : D.Inv s) (hidle : ∀ c, D.Idle c s) (hs : D.Sound P) :
    D.Holds P ⟨s, fun _ => .done⟩ :=
  ⟨hI, fun c => ⟨D.Idle c, hs.idle c, hidle c, fun _ _ => id⟩⟩

variable [DecidableEq Client]

/-- One client moves, and the others keep their assertions. -/
theorem Holds.update (h : D.Holds P g) {s : State} {p : Program Op Reply} {Q : State → Prop}
    (hI : D.Inv s) (hG : D.Guar c g.store s) (hst : D.Stable c Q) (hQ : Q s) (hp : D.Meets P c p Q) :
    D.Holds P ⟨s, Function.update g.running c p⟩ := by
  refine ⟨hI, fun d => ?_⟩
  by_cases hd : d = c
  · subst hd
    exact ⟨Q, hst, hQ, by simpa using hp⟩
  · obtain ⟨R, hR, hRs, hm⟩ := h.2 d
    exact ⟨R, hR, hR c (Ne.symm hd) _ _ h.1 hG hRs, by simpa [Function.update_of_ne hd] using hm⟩

/-- A move keeps the invariant, and changes the store as its client may. -/
theorem Holds.move (hs : D.Sound P) (hok : D.Grants ok) (h : D.Holds P g) {m : Move Client Choice Request}
    (hm : ok g m) (hg : P.move g m = some g') :
    D.Holds P g' ∧ (g'.store = g.store ∨ ∃ c, D.Guar c g.store g'.store) := by
  cases m with
  | arrive c q =>
      cases hr : g.running c with
      | step op next => simp [Protocol.move, hr] at hg
      | done =>
          obtain rfl : _ = g' := by simpa [Protocol.move, hr] using hg
          refine ⟨⟨h.1, fun d => ?_⟩, .inl rfl⟩
          by_cases hd : d = c
          · subst hd
            obtain ⟨Q, hQ, hQs, hmeets⟩ := h.2 d
            rw [hr] at hmeets
            exact ⟨D.Idle d, hs.idle d, hmeets _ h.1 hQs, by simpa using hs.program d q⟩
          · simpa [Function.update_of_ne hd] using h.2 d
  | run c choice =>
      cases hr : g.running c with
      | done => simp [Protocol.move, hr] at hg
      | step op next =>
          obtain ⟨Q, hQ, hQs, hmeets⟩ := h.2 c
          rw [hr] at hmeets
          simp only [Protocol.move, hr] at hg
          obtain ⟨⟨r, s⟩, hexec, rfl⟩ := Option.map_eq_some_iff.mp hg
          obtain ⟨hI, hG, R, hR, hRs, hnext⟩ :=
            hmeets _ choice r s h.1 hQs (hok.allowed g c choice op next hr hm) hexec
          exact ⟨h.update hI hG hR hRs hnext, .inr ⟨c, hG⟩⟩
  | crash c =>
      obtain rfl := Option.some.inj hg
      obtain ⟨hI, hG, hidle⟩ := hs.abort c g.store h.1 (hok.mortal g c hm)
      exact ⟨h.update hI hG (hs.idle c) hidle fun _ _ => id, .inr ⟨c, hG⟩⟩

theorem Sound.reachable (hs : D.Sound P) (hok : D.Grants ok) {s : State} (hI : D.Inv s)
    (hidle : ∀ c, D.Idle c s) (h : P.Reachable ok s g) : D.Holds P g := by
  induction h with
  | start => exact .start hI hidle hs
  | step _ hm hg ih => exact (ih.move hs hok hm hg).1

end Discipline

end Corebase.Interleaving
