import Corebase.Transcripts

namespace Corebase.Interleaving

variable {Client State Op Choice Request : Type} {Reply : Op → Type}

/-- The configurations that are reached from one by moves as required. -/
inductive Protocol.Reaches [DecidableEq Client] (P : Protocol Client State Op Choice Request Reply)
    (ok : Config Client State Op Reply → Move Client Choice Request → Prop) (g₀ : Config Client State Op Reply) :
    Config Client State Op Reply → Prop
  | start : P.Reaches ok g₀ g₀
  | step {g g' : Config Client State Op Reply} {m : Move Client Choice Request} :
      P.Reaches ok g₀ g → ok g m → P.move g m = some g' → P.Reaches ok g₀ g'

/-- What a client relies on, which depends on where its program stands, and what its statements do. -/
structure Contract (State Op Choice : Type) (Reply : Op → Type) where
  Inv : State → Prop
  /-- What the others may do to the store while the client is at the program. -/
  Rely : Program Op Reply → State → State → Prop
  Allowed : Choice → Op → State → Prop
  /-- What a statement does to the store before the program goes on. -/
  Post : State → State → Program Op Reply → Prop

namespace Contract

variable (K : Contract State Op Choice Reply) (P : Protocol Client State Op Choice Request Reply)

def Stable (p : Program Op Reply) (Q : State → Prop) : Prop := ∀ s s', K.Inv s → K.Rely p s s' → Q s → Q s'

/-- Each statement of the program does as it should, from what the one before it has left. -/
def Follows (c : Client) : Program Op Reply → (State → Prop) → Prop
  | .done, _ => True
  | .step op next, Q => ∀ s choice r s', K.Inv s → Q s → K.Allowed choice op s → P.exec c choice op s = some (r, s') →
      K.Post s s' (next r) ∧ ∃ Q', K.Stable (next r) Q' ∧ Q' s' ∧ Follows c (next r) Q'

/-- The client stands on an assertion from which the rest of its program keeps the contract. -/
def Stands (c : Client) (g : Config Client State Op Reply) : Prop :=
  ∃ Q, K.Stable (g.running c) Q ∧ Q g.store ∧ K.Follows P c (g.running c) Q

variable {K P} {c : Client} {g g' : Config Client State Op Reply}

theorem stable_true (p : Program Op Reply) : K.Stable p fun _ => True := fun _ _ _ _ _ => trivial

theorem Follows.mono {p : Program Op Reply} {Q R : State → Prop} (h : K.Follows P c p Q) (hQ : ∀ s, K.Inv s → R s → Q s) :
    K.Follows P c p R := by
  cases p with
  | done => trivial
  | step op next => exact fun s choice r s' hI hR => h s choice r s' hI (hQ s hI hR)

theorem stands_done (h : g.running c = .done) : K.Stands P c g := by
  refine ⟨fun _ => True, stable_true _, trivial, ?_⟩
  rw [h]
  trivial

theorem stands_start {p : Program Op Reply} (hp : g.running c = p) (h : K.Follows P c p fun _ => True) : K.Stands P c g := by
  subst hp
  exact ⟨fun _ => True, stable_true _, trivial, h⟩

variable [DecidableEq Client]

/-- A statement of the client itself. -/
theorem Stands.own (h : K.Stands P c g) (hI : K.Inv g.store) {choice : Choice} {op : Op} {next : Reply op → Program Op Reply}
    (hrun : g.running c = .step op next) (hallowed : K.Allowed choice op g.store)
    (hmove : P.move g (.run c choice) = some g') :
    K.Post g.store g'.store (g'.running c) ∧ K.Stands P c g' := by
  obtain ⟨Q, -, hQ, hfollows⟩ := h
  rw [hrun] at hfollows
  simp only [Protocol.move, hrun] at hmove
  obtain ⟨⟨r, s⟩, hexec, rfl⟩ := Option.map_eq_some_iff.mp hmove
  obtain ⟨hpost, Q', hstable, hQ', hrest⟩ := hfollows g.store choice r s hI hQ hallowed hexec
  simp only [Stands, Function.update_self]
  exact ⟨hpost, Q', hstable, hQ', hrest⟩

theorem running_other {m : Move Client Choice Request} (hm : m.client ≠ c) (hmove : P.move g m = some g') :
    g'.running c = g.running c := by
  cases m with
  | arrive d q =>
      simp only [Protocol.move] at hmove
      split at hmove <;> cases hmove
      exact Function.update_of_ne (Ne.symm hm) _ _
  | run d choice =>
      simp only [Protocol.move] at hmove
      split at hmove
      · cases hmove
      · obtain ⟨⟨r, s⟩, -, rfl⟩ := Option.map_eq_some_iff.mp hmove
        exact Function.update_of_ne (Ne.symm hm) _ _
  | crash d =>
      cases hmove
      exact Function.update_of_ne (Ne.symm hm) _ _

/-- A move of another client. -/
theorem Stands.other (h : K.Stands P c g) (hI : K.Inv g.store) {m : Move Client Choice Request} (hm : m.client ≠ c)
    (hmove : P.move g m = some g') (hrely : K.Rely (g.running c) g.store g'.store) : K.Stands P c g' := by
  obtain ⟨Q, hstable, hQ, hfollows⟩ := h
  rw [Stands, running_other hm hmove]
  exact ⟨Q, hstable, hstable _ _ hI hrely hQ, hfollows⟩

end Contract

end Corebase.Interleaving
