import Corebase.Interleaving

namespace Corebase.Interleaving

variable {Client State Op Choice Request : Type} {Reply : Op → Type}

/-- A statement with its reply, and the stores before and after it. -/
structure Turn (State Op : Type) (Reply : Op → Type) where
  before : State
  op : Op
  reply : Reply op
  after : State

def Move.client : Move Client Choice Request → Client
  | .arrive c _ | .run c _ | .crash c => c

/-- What one client is answered while it and the others move. -/
inductive Protocol.Runs [DecidableEq Client] (P : Protocol Client State Op Choice Request Reply)
    (ok : Config Client State Op Reply → Move Client Choice Request → Prop) (c : Client)
    (g : Config Client State Op Reply) : List (Turn State Op Reply) → Config Client State Op Reply → Prop
  | start : P.Runs ok c g [] g
  | own {log : List (Turn State Op Reply)} {g₁ : Config Client State Op Reply} {choice : Choice} {op : Op}
      {next : Reply op → Program Op Reply} {r : Reply op} {s : State} (runs : P.Runs ok c g log g₁)
      (allowed : ok g₁ (.run c choice)) (running : g₁.running c = .step op next)
      (exec : P.exec c choice op g₁.store = some (r, s)) :
      P.Runs ok c g (log ++ [⟨g₁.store, op, r, s⟩]) ⟨s, Function.update g₁.running c (next r)⟩
  | other {log : List (Turn State Op Reply)} {g₁ g₂ : Config Client State Op Reply} {m : Move Client Choice Request}
      (runs : P.Runs ok c g log g₁) (allowed : ok g₁ m) (client : m.client ≠ c) (move : P.move g₁ m = some g₂) :
      P.Runs ok c g log g₂

namespace Protocol

variable [DecidableEq Client] {P : Protocol Client State Op Choice Request Reply}
  {ok : Config Client State Op Reply → Move Client Choice Request → Prop} {g g' : Config Client State Op Reply}
  {c : Client} {I : State → Prop} {log : List (Turn State Op Reply)}

theorem move_keeps (hexec : ∀ c choice op s r s', I s → P.exec c choice op s = some (r, s') → I s')
    (habort : ∀ c s, I s → I (P.abort c s)) {m : Move Client Choice Request} (h : P.move g m = some g')
    (hI : I g.store) : I g'.store := by
  cases m with
  | arrive d q =>
      cases hr : g.running d with
      | step op next => simp [move, hr] at h
      | done =>
          obtain rfl : _ = g' := by simpa [move, hr] using h
          exact hI
  | run d choice =>
      cases hr : g.running d with
      | done => simp [move, hr] at h
      | step op next =>
          simp only [move, hr] at h
          obtain ⟨⟨r, s⟩, hrun, rfl⟩ := Option.map_eq_some_iff.mp h
          exact hexec d choice op g.store r s hI hrun
  | crash d =>
      obtain rfl := Option.some.inj h
      exact habort d g.store hI

/-- What every statement keeps is there before each of the moves. -/
theorem Runs.keeps (hexec : ∀ c choice op s r s', I s → P.exec c choice op s = some (r, s') → I s')
    (habort : ∀ c s, I s → I (P.abort c s)) (h : P.Runs ok c g log g') (hI : I g.store) :
    P.Runs (fun g m => ok g m ∧ I g.store) c g log g' ∧ I g'.store := by
  induction h with
  | start => exact ⟨.start, hI⟩
  | own _ hm hr hrun ih => exact ⟨ih.1.own ⟨hm, ih.2⟩ hr hrun, hexec _ _ _ _ _ _ ih.2 hrun⟩
  | other _ hm hc hmove ih => exact ⟨ih.1.other ⟨hm, ih.2⟩ hc hmove, move_keeps hexec habort hmove ih.2⟩

end Protocol

namespace Discipline

variable (D : Discipline Client State Op) (P : Protocol Client State Op Choice Request Reply)

/-- Whatever the program is answered, what it has been answered at its end is as required. The
assertions between its statements are kept by the other clients, and the stores are as in the run. -/
def Yields (c : Client) (I : State → Prop) (R : List (Turn State Op Reply) → Prop) :
    Program Op Reply → List (Turn State Op Reply) → (State → Prop) → Prop
  | .done, log, _ => R log
  | .step op next, log, Q => ∀ s choice r s', D.Inv s → I s → Q s → D.Allowed c op s →
      P.exec c choice op s = some (r, s') →
        ∃ Q', D.Stable c Q' ∧ Q' s' ∧ Yields c I R (next r) (log ++ [⟨s, op, r, s'⟩]) Q'

variable {D P} {ok : Config Client State Op Reply → Move Client Choice Request → Prop}
  {g g' : Config Client State Op Reply} {c : Client} {I : State → Prop} {R : List (Turn State Op Reply) → Prop}

theorem Yields.mono {p : Program Op Reply} {log : List (Turn State Op Reply)} {Q Q' : State → Prop}
    (h : D.Yields P c I R p log Q) (hQ : ∀ s, D.Inv s → Q' s → Q s) : D.Yields P c I R p log Q' := by
  cases p with
  | done => exact h
  | step op next => exact fun s choice r s' hI hs hQ' => h s choice r s' hI hs (hQ s hI hQ')

variable [DecidableEq Client]

/-- A move of one client keeps the assertions and the programs of the others. -/
theorem Holds.other (hs : D.Sound P) (hok : D.Grants ok) (h : D.Holds P g) {m : Move Client Choice Request}
    (hm : ok g m) (hc : m.client ≠ c) (hg : P.move g m = some g') {Q : State → Prop} (hst : D.Stable c Q)
    (hQ : Q g.store) : Q g'.store ∧ g'.running c = g.running c := by
  cases m with
  | arrive d q =>
      cases hr : g.running d with
      | step op next => simp [Protocol.move, hr] at hg
      | done =>
          obtain rfl : _ = g' := by simpa [Protocol.move, hr] using hg
          exact ⟨hQ, Function.update_of_ne (Ne.symm hc) _ _⟩
  | run d choice =>
      cases hr : g.running d with
      | done => simp [Protocol.move, hr] at hg
      | step op next =>
          obtain ⟨Q', _, hQs, hmeets⟩ := h.2 d
          rw [hr] at hmeets
          simp only [Protocol.move, hr] at hg
          obtain ⟨⟨r, s⟩, hexec, rfl⟩ := Option.map_eq_some_iff.mp hg
          obtain ⟨-, hG, -⟩ := hmeets _ choice r s h.1 hQs (hok.allowed g d choice op next hr hm) hexec
          exact ⟨hst d hc _ _ h.1 hG hQ, Function.update_of_ne (Ne.symm hc) _ _⟩
  | crash d =>
      obtain rfl := Option.some.inj hg
      obtain ⟨-, hG, -⟩ := hs.abort d g.store h.1 (hok.mortal g d hm)
      exact ⟨hst d hc _ _ h.1 hG hQ, Function.update_of_ne (Ne.symm hc) _ _⟩

/-- What a program yields, it has yielded when it is done. -/
theorem Yields.runs (hs : D.Sound P) (hok : D.Grants ok) (hI : ∀ g m, ok g m → I g.store) (hg : D.Holds P g)
    {Q : State → Prop} (hst : D.Stable c Q) (hQ : Q g.store) (hyields : D.Yields P c I R (g.running c) [] Q)
    {log : List (Turn State Op Reply)} (hruns : P.Runs ok c g log g') (hdone : g'.running c = .done) : R log := by
  have hall : D.Holds P g' ∧ ∃ Q, D.Stable c Q ∧ Q g'.store ∧ D.Yields P c I R (g'.running c) log Q := by
    clear hdone
    induction hruns with
    | start => exact ⟨hg, Q, hst, hQ, hyields⟩
    | @own log g₁ choice op next r s _ hm hr hexec ih =>
        obtain ⟨hg, Q, _, hQ, hy⟩ := ih
        rw [hr] at hy
        have hmove : P.move g₁ (.run c choice) = some ⟨s, Function.update g₁.running c (next r)⟩ := by
          simp [Protocol.move, hr, hexec]
        obtain ⟨Q', hst, hQ', hnext⟩ :=
          hy _ choice r s hg.1 (hI _ _ hm) hQ (hok.allowed _ c choice op next hr hm) hexec
        exact ⟨(hg.move hs hok hm hmove).1, Q', hst, hQ', by simpa using hnext⟩
    | other _ hm hc hmove ih =>
        obtain ⟨hg, Q, hst, hQ, hy⟩ := ih
        obtain ⟨hQ', hsame⟩ := hg.other hs hok hm hc hmove hst hQ
        exact ⟨(hg.move hs hok hm hmove).1, Q, hst, hQ', by rwa [hsame]⟩
  obtain ⟨-, Q, -, -, hy⟩ := hall
  rwa [hdone] at hy

end Discipline

end Corebase.Interleaving
