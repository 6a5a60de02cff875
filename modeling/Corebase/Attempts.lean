import Mathlib.Logic.Basic
import Mathlib.Tactic.Common

namespace Corebase.Attempts

variable {σ ε α β : Type}

/-- A computation that can stop with an error, and leaves what it has done up to there. -/
def Attempt (σ ε α : Type) : Type := σ → Except ε α × σ

namespace Attempt

instance : Monad (Attempt σ ε) where
  pure a := fun s => (.ok a, s)
  bind m f := fun s => match m s with
    | (.ok a, s') => f a s'
    | (.error e, s') => (.error e, s')

/-- What is computed without the state. -/
def lift (x : Except ε α) : Attempt σ ε α := fun s => (x, s)

/-- What has to be there. -/
def orThrow (e : ε) (a : Option α) : Attempt σ ε α := lift (a.elim (.error e) .ok)

def refuseIf (c : Bool) (e : ε) : Attempt σ ε Unit := lift (if c then .error e else .ok ())

/-- A statement that fails without an effect, or takes effect as a whole. -/
def statement (fails : σ → Bool) (e : ε) (f : σ → α × σ) : Attempt σ ε α := fun s =>
  if fails s then (.error e, s) else (.ok (f s).1, (f s).2)

/-- A computation that is rolled back when it stops. -/
def transaction (m : Attempt σ ε α) : Attempt σ ε α := fun s => match m s with
  | (.ok a, s') => (.ok a, s')
  | (.error e, _) => (.error e, s)

theorem bind_ok {m : Attempt σ ε α} {f : α → Attempt σ ε β} {s s' : σ} {a : α} (h : m s = (.ok a, s')) :
    (m >>= f) s = f a s' := by
  change (match m s with | (.ok a, s') => f a s' | (.error e, s') => (.error e, s')) = _
  rw [h]

theorem bind_error {m : Attempt σ ε α} {f : α → Attempt σ ε β} {s s' : σ} {e : ε} (h : m s = (.error e, s')) :
    (m >>= f) s = (.error e, s') := by
  change (match m s with | (.ok a, s') => f a s' | (.error e, s') => (.error e, s')) = _
  rw [h]

end Attempt

open Attempt

/-- One of the things a computation does in turn: when it fails, and when it changes the state. -/
structure Stage where
  fails : Prop
  writes : Prop

def Fails (l : List Stage) : Prop := ∃ x ∈ l, x.fails

def Writes (l : List Stage) : Prop := ∃ x ∈ l, x.writes

/-- The first stage to fail comes after one that has written. -/
def Torn : List Stage → Prop
  | [] => False
  | x :: l => ¬ x.fails ∧ (x.writes ∧ Fails l ∨ Torn l)

@[simp] theorem fails_nil : Fails [] ↔ False := by simp [Fails]

@[simp] theorem fails_cons (x : Stage) (l : List Stage) : Fails (x :: l) ↔ x.fails ∨ Fails l := by simp [Fails]

@[simp] theorem fails_append (k l : List Stage) : Fails (k ++ l) ↔ Fails k ∨ Fails l := by
  simp only [Fails, List.mem_append, or_and_right, exists_or]

@[simp] theorem writes_nil : Writes [] ↔ False := by simp [Writes]

@[simp] theorem writes_cons (x : Stage) (l : List Stage) : Writes (x :: l) ↔ x.writes ∨ Writes l := by simp [Writes]

@[simp] theorem writes_append (k l : List Stage) : Writes (k ++ l) ↔ Writes k ∨ Writes l := by
  simp only [Writes, List.mem_append, or_and_right, exists_or]

theorem Torn.fails {l : List Stage} (h : Torn l) : Fails l := by
  induction l with
  | nil => exact h.elim
  | cons x l ih =>
      rw [fails_cons]
      rcases h.2 with ⟨-, hl⟩ | hl
      · exact .inr hl
      · exact .inr (ih hl)

theorem torn_append (k l : List Stage) : Torn (k ++ l) ↔ Torn k ∨ ¬ Fails k ∧ (Writes k ∧ Fails l ∨ Torn l) := by
  induction k with
  | nil => simp [Torn]
  | cons x k ih =>
      simp only [List.cons_append, Torn, ih, fails_append, fails_cons, writes_cons]
      by_cases hx : x.fails
      · simp [hx]
      by_cases hk : Fails k
      · simp [hx, hk]
      · have hk' : ¬ Torn k := fun h => hk h.fails
        simp only [hx, hk, hk', not_false_eq_true, true_and, false_or, or_assoc, or_and_right]
        tauto

/-- How a computation comes out, by its stages. It stops if one of them fails: in a state with the mark of its
changes if it is torn, and else in the state it began in. What it finds marked stays marked. -/
structure Ends (Mark : σ → Prop) (m : Attempt σ ε α) (s : σ) (l : List Stage) (Done : α → σ → Prop) : Prop where
  kept : Mark s → Mark (m s).2
  stops : Fails l → ∃ e s', m s = (.error e, s') ∧ (Torn l → Mark s') ∧ (¬ Torn l → s' = s ∨ Mark s)
  done : ¬ Fails l → ∃ a s', m s = (.ok a, s') ∧ Done a s' ∧ (Writes l → Mark s') ∧ (¬ Writes l → s' = s ∨ Mark s)

namespace Ends

variable {Mark : σ → Prop} {m : Attempt σ ε α} {f : α → Attempt σ ε β} {s : σ} {k l : List Stage}
  {D D₁ : α → σ → Prop} {D₂ : β → σ → Prop}

theorem mono (h : Ends Mark m s l D₁) (hD : ∀ a s', ¬ Fails l → D₁ a s' → D a s') : Ends Mark m s l D := by
  refine ⟨h.kept, h.stops, fun hl => ?_⟩
  obtain ⟨a, s', hrun, hdone, hmark⟩ := h.done hl
  exact ⟨a, s', hrun, hD a s' hl hdone, hmark⟩

theorem of_stages (h : Ends Mark m s k D) (hkl : k = l) : Ends Mark m s l D := hkl ▸ h

theorem marked (h : Ends Mark m s l D) (hmark : Mark s) : Ends Mark m s l fun a s' => D a s' ∧ Mark s' := by
  refine ⟨h.kept, h.stops, fun hl => ?_⟩
  obtain ⟨a, s', hrun, hdone, hw⟩ := h.done hl
  have hkept := h.kept hmark
  rw [hrun] at hkept
  exact ⟨a, s', hrun, ⟨hdone, hkept⟩, hw⟩

theorem of_pure (a : α) : Ends Mark (pure a : Attempt σ ε α) s [] fun b s' => b = a ∧ s' = s :=
  ⟨id, fun h => (fails_nil.mp h).elim,
    fun _ => ⟨a, s, rfl, ⟨rfl, rfl⟩, fun h => (writes_nil.mp h).elim, fun _ => .inl rfl⟩⟩

theorem of_statement {fails : σ → Bool} {e : ε} {g : σ → α × σ} {w : Prop} (hkept : Mark s → Mark (g s).2)
    (hwrote : w → Mark (g s).2) (hsame : ¬ w → (g s).2 = s ∨ Mark s) :
    Ends Mark (statement fails e g) s [⟨fails s = true, w⟩] fun a s' => fails s = false ∧ a = (g s).1 ∧ s' = (g s).2 := by
  by_cases hfails : fails s = true
  · have hrun : statement fails e g s = (.error e, s) := by rw [statement, if_pos hfails]
    refine ⟨fun h => by rw [hrun]; exact h, fun _ => ⟨e, s, hrun, fun h => ?_, fun _ => .inl rfl⟩, fun h => ?_⟩
    · exact absurd hfails h.1
    · simp [hfails] at h
  · have hrun : statement fails e g s = (.ok (g s).1, (g s).2) := by rw [statement, if_neg hfails]
    refine ⟨fun h => by rw [hrun]; exact hkept h, fun h => ?_, fun _ => ⟨_, _, hrun, ?_, fun h => ?_, fun h => ?_⟩⟩
    · simp [hfails] at h
    · exact ⟨Bool.eq_false_iff.mpr hfails, rfl, rfl⟩
    · exact hwrote (by simpa using h)
    · exact hsame (by simpa using h)

theorem of_read {fails : σ → Bool} {e : ε} (g : σ → α) :
    Ends Mark (statement fails e fun s => (g s, s)) s [⟨fails s = true, False⟩] fun a s' => a = g s ∧ s' = s :=
  (of_statement id False.elim fun _ => .inl rfl).mono fun _ _ _ h => h.2

theorem of_lift (x : Except ε α) : Ends Mark (lift x) s [⟨∀ a, x ≠ .ok a, False⟩] fun a s' => x = .ok a ∧ s' = s := by
  cases x with
  | error e =>
      refine ⟨id, fun _ => ⟨e, s, rfl, fun h => ?_, fun _ => .inl rfl⟩, fun h => ?_⟩
      · simp [Torn] at h
      · simp at h
  | ok a =>
      refine ⟨id, fun h => ?_, fun _ => ⟨a, s, rfl, ⟨rfl, rfl⟩, fun h => ?_, fun _ => .inl rfl⟩⟩
      · simp at h
      · simp at h

theorem of_orThrow (e : ε) (a : Option α) :
    Ends Mark (orThrow e a) s [⟨a = none, False⟩] fun b s' => a = some b ∧ s' = s := by
  cases a with
  | none =>
      have h : Ends Mark (lift (.error e : Except ε α)) s _ _ := of_lift _
      simpa [orThrow] using h
  | some a =>
      have h : Ends Mark (lift (.ok a : Except ε α)) s _ _ := of_lift _
      simpa [orThrow] using h

theorem of_refuseIf (c : Bool) (e : ε) : Ends Mark (refuseIf c e) s [⟨c = true, False⟩] fun _ s' => c = false ∧ s' = s := by
  cases c with
  | true =>
      have h : Ends Mark (lift (.error e : Except ε Unit)) s _ _ := of_lift _
      simpa [refuseIf] using h
  | false =>
      have h : Ends Mark (lift (.ok () : Except ε Unit)) s _ _ := of_lift _
      simpa [refuseIf] using h

/-- What cannot fail is no stage of its own when the state is marked already. -/
theorem of_sure {e : ε} {g : σ → α × σ} (hmark : Mark s) (hkept : Mark s → Mark (g s).2) :
    Ends Mark (statement (fun _ => false) e g) s [] fun a s' => a = (g s).1 ∧ s' = (g s).2 :=
  ⟨hkept, fun h => (fails_nil.mp h).elim,
    fun _ => ⟨_, _, rfl, ⟨rfl, rfl⟩, fun h => (writes_nil.mp h).elim, fun _ => .inr hmark⟩⟩

/-- One after the other. -/
theorem seq (hm : Ends Mark m s k D₁) (hf : ∀ a s', ¬ Fails k → D₁ a s' → Ends Mark (f a) s' l D₂) :
    Ends Mark (m >>= f) s (k ++ l) D₂ := by
  have hkept := hm.kept
  by_cases hk : Fails k
  · obtain ⟨e, s', hrun, htorn, hwhole⟩ := hm.stops hk
    rw [hrun] at hkept
    have hk' : Torn (k ++ l) ↔ Torn k := by
      rw [torn_append]
      exact or_iff_left fun h => h.1 hk
    exact ⟨fun h => by rw [bind_error hrun]; exact hkept h,
      fun _ => ⟨e, s', bind_error hrun, fun h => htorn (hk'.mp h), fun h => hwhole (mt hk'.mpr h)⟩,
      fun h => absurd ((fails_append k l).mpr (.inl hk)) h⟩
  obtain ⟨a, s', hrun, hdone, hwrote, hsame⟩ := hm.done hk
  rw [hrun] at hkept
  have h₂ := hf a s' hk hdone
  have hkept₂ := h₂.kept
  have htear : Torn (k ++ l) ↔ Writes k ∧ Fails l ∨ Torn l := by
    rw [torn_append]
    exact ⟨fun h => h.elim (fun h => absurd h.fails hk) And.right, fun h => .inr ⟨hk, h⟩⟩
  refine ⟨fun h => by rw [bind_ok hrun]; exact hkept₂ (hkept h), fun h => ?_, fun h => ?_⟩
  · have hl : Fails l := ((fails_append k l).mp h).resolve_left hk
    obtain ⟨e, s'', hrun₂, htorn, hwhole⟩ := h₂.stops hl
    rw [hrun₂] at hkept₂
    refine ⟨e, s'', by rw [bind_ok hrun, hrun₂], fun h => ?_, fun h => ?_⟩
    · by_cases ht : Torn l
      · exact htorn ht
      · exact hkept₂ (hwrote ((htear.mp h).resolve_right ht).1)
    · rw [htear, not_or, not_and] at h
      rcases hsame (fun hw => h.1 hw hl) with rfl | hmark
      · exact hwhole h.2
      · exact .inr hmark
  · rw [fails_append, not_or] at h
    obtain ⟨b, s'', hrun₂, hdone₂, hwrote₂, hsame₂⟩ := h₂.done h.2
    rw [hrun₂] at hkept₂
    refine ⟨b, s'', by rw [bind_ok hrun, hrun₂], hdone₂, fun h => ?_, fun h => ?_⟩
    · rcases (writes_append k l).mp h with h | h
      · exact hkept₂ (hwrote h)
      · exact hwrote₂ h
    · rw [writes_append, not_or] at h
      rcases hsame h.1 with rfl | hmark
      · exact hsame₂ h.2
      · exact .inr hmark

theorem step {x : Stage} (hm : Ends Mark m s [x] D₁) (hf : ∀ a s', ¬ x.fails → D₁ a s' → Ends Mark (f a) s' l D₂) :
    Ends Mark (m >>= f) s (x :: l) D₂ :=
  hm.seq fun a s' h => hf a s' (by simpa using h)

theorem nil_seq (hm : Ends Mark m s [] D₁) (hf : ∀ a s', D₁ a s' → Ends Mark (f a) s' l D₂) : Ends Mark (m >>= f) s l D₂ :=
  hm.seq fun a s' _ => hf a s'

theorem seq_nil (hm : Ends Mark m s k D₁) (hf : ∀ a s', ¬ Fails k → D₁ a s' → Ends Mark (f a) s' [] D₂) :
    Ends Mark (m >>= f) s k D₂ :=
  (hm.seq hf).of_stages (List.append_nil k)

/-- A transaction is a stage by itself. -/
theorem of_transaction (hm : Ends Mark m s l D) : Ends Mark (transaction m) s [⟨Fails l, Writes l⟩] D := by
  have hkept := hm.kept
  by_cases hl : Fails l
  · obtain ⟨e, s', hrun, -⟩ := hm.stops hl
    have hback : transaction m s = (.error e, s) := by simp only [transaction, hrun]
    exact ⟨fun h => by rw [hback]; exact h, fun _ => ⟨e, s, hback, fun h => absurd hl h.1, fun _ => .inl rfl⟩,
      fun h => absurd ((fails_cons _ _).mpr (.inl hl)) h⟩
  · obtain ⟨a, s', hrun, hdone, hwrote, hsame⟩ := hm.done hl
    rw [hrun] at hkept
    have hcommit : transaction m s = (.ok a, s') := by simp only [transaction, hrun]
    exact ⟨fun h => by rw [hcommit]; exact hkept h, fun h => absurd (by simpa using h) hl,
      fun _ => ⟨a, s', hcommit, hdone, fun h => hwrote (by simpa using h), fun h => hsame (by simpa using h)⟩⟩

/-- All or nothing: an error leaves the state as it was, and without one all is done. From an unmarked state this
is so exactly when the computation is not torn, and does what is required if it does not fail. -/
theorem all_or_nothing {Required : σ → Prop} {r : Prop} (hm : Ends Mark m s l D) (hfresh : ¬ Mark s)
    (hrequired : ∀ a s', ¬ Fails l → D a s' → (Required s' ↔ r)) :
    ((∀ e s', m s = (.error e, s') → s' = s) ∧ ∀ a s', m s = (.ok a, s') → Required s') ↔
      ¬ Torn l ∧ (Fails l ∨ r) := by
  by_cases hl : Fails l
  · obtain ⟨e, s', hrun, htorn, hwhole⟩ := hm.stops hl
    rw [hrun]
    constructor
    · refine fun h => ⟨fun ht => hfresh ?_, .inl hl⟩
      rw [← h.1 e s' rfl]
      exact htorn ht
    · refine fun h => ⟨fun e' s'' heq => ?_, fun a s'' heq => ?_⟩
      · cases heq
        exact (hwhole h.1).resolve_right hfresh
      · cases heq
  · obtain ⟨a, s', hrun, hdone, -⟩ := hm.done hl
    have hr := hrequired a s' hl hdone
    rw [hrun]
    constructor
    · exact fun h => ⟨fun ht => hl ht.fails, .inr (hr.mp (h.2 a s' rfl))⟩
    · refine fun h => ⟨fun e s'' heq => ?_, fun b s'' heq => ?_⟩
      · cases heq
      · cases heq
        exact hr.mpr (h.2.resolve_left hl)

end Ends

end Corebase.Attempts
