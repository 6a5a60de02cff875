import Mathlib.Logic.Basic

namespace Corebase.Loops

variable {σ : Type} (guard : σ → Bool) (body : σ → Option σ)

/-- A loop whose body can fail, with at most so many turns. It has no result where the body fails or the turns do not
suffice. -/
def loop : Nat → σ → Option σ
  | 0, _ => none
  | n + 1, s => if guard s then (body s).bind (loop n) else some s

variable {guard body} {s s' : σ}

theorem loop_stop (n : Nat) (h : guard s = false) : loop guard body (n + 1) s = some s := by
  rw [loop, h, if_neg Bool.false_ne_true]

theorem loop_turn (n : Nat) (h : guard s = true) (hbody : body s = some s') :
    loop guard body (n + 1) s = loop guard body n s' := by
  rw [loop, if_pos h, hbody, Option.bind_some]

/-- Where every turn keeps an invariant and makes a measure smaller, as many turns as the measure counts suffice. -/
theorem loop_ends (Inv : σ → Prop) (measure : σ → Nat)
    (hturn : ∀ s, Inv s → guard s = true → ∃ s', body s = some s' ∧ Inv s' ∧ measure s' < measure s)
    {n : Nat} (hs : Inv s) (hn : measure s < n) :
    ∃ s', loop guard body n s = some s' ∧ Inv s' ∧ guard s' = false := by
  induction n generalizing s with
  | zero => exact absurd hn (Nat.not_lt_zero _)
  | succ n ih =>
      cases hguard : guard s with
      | false => exact ⟨s, loop_stop n hguard, hs, hguard⟩
      | true =>
          obtain ⟨s', hbody, hs', hless⟩ := hturn s hs hguard
          rw [loop_turn n hguard hbody]
          exact ih hs' (Nat.lt_of_lt_of_le hless (Nat.le_of_lt_succ hn))

end Corebase.Loops
