import Mathlib.Data.List.Sort
import Mathlib.Data.List.Perm.Subperm

namespace Corebase.Rotation

/-- A table whose rows are visited in batches, those with the lowest key first. -/
structure Queue (Id Row Outcome : Type) where
  ident : Row → Id
  /-- The row may be visited at some time. -/
  stands : Row → Bool
  /-- The row may be visited now. -/
  due : Nat → Row → Bool
  key : Row → Option Nat
  visit : Nat → Outcome → Row → Row
  /-- The sweep ends with the visit. -/
  stops : Outcome → Bool
  /-- The visited row gives up its place. -/
  moves : Outcome → Bool
  /-- What may happen to a row between two sweeps. -/
  drift : Nat → Row → Row

/-- The times of a sweep, what happens to rows before it, and what its visits come to. -/
structure Sweep (Id Outcome : Type) where
  gap : Nat
  ends : Id → Option Nat
  length : Nat
  delay : Id → Nat
  outcome : Id → Outcome

/-- No key comes before all others. -/
def before : Option Nat → Option Nat → Bool
  | none, _ => true
  | some _, none => false
  | some a, some b => a ≤ b

theorem before_total (a b : Option Nat) : before a b = true ∨ before b a = true := by
  cases a <;> cases b <;> simp [before, Nat.le_total]

theorem before_trans {a b c : Option Nat} (hab : before a b = true) (hbc : before b c = true) : before a c = true := by
  cases a <;> cases b <;> cases c <;> simp_all [before]
  omega

instance {Row : Type} (key : Row → Option Nat) : Std.Total fun a b => before (key a) (key b) = true :=
  ⟨fun a b => before_total (key a) (key b)⟩

instance {Row : Type} (key : Row → Option Nat) : IsTrans Row fun a b => before (key a) (key b) = true :=
  ⟨fun _ _ _ => before_trans⟩

variable {Id Row Outcome : Type}

namespace Queue

variable (R : Queue Id Row Outcome) (batch : Nat)

def start (clock : Nat) (w : Sweep Id Outcome) : Nat := clock + w.gap + 1

def drifted (clock : Nat) (w : Sweep Id Outcome) (rows : List Row) : List Row :=
  rows.map fun r => match w.ends (R.ident r) with
    | none => r
    | some d => R.drift (clock + 1 + min d w.gap) r

def inOrder (now : Nat) (rows : List Row) : List Row :=
  (rows.filter (R.due now)).insertionSort fun a b => before (R.key a) (R.key b) = true

/-- The rows that are visited until a visit ends the sweep. -/
def visitedOf (w : Sweep Id Outcome) : List Row → List Row
  | [] => []
  | r :: rs => r :: if R.stops (w.outcome (R.ident r)) then [] else visitedOf w rs

def visited (clock : Nat) (w : Sweep Id Outcome) (rows : List Row) : List Row :=
  R.visitedOf w ((R.inOrder (start clock w) (R.drifted clock w rows)).take batch)

variable [DecidableEq Id]

def sweep (clock : Nat) (w : Sweep Id Outcome) (rows : List Row) : List Row :=
  (R.drifted clock w rows).map fun r =>
    if R.ident r ∈ (R.visited batch clock w rows).map R.ident then
      R.visit (start clock w + min (w.delay (R.ident r)) w.length) (w.outcome (R.ident r)) r
    else r

def finish (clock : Nat) (w : Sweep Id Outcome) : Nat := start clock w + w.length

/-- The places of the batch whose row does not give up its place. -/
def stays (clock : Nat) (w : Sweep Id Outcome) (rows : List Row) : Nat :=
  batch - (R.visited batch clock w rows).countP fun r => R.moves (w.outcome (R.ident r))

def allStays (clock : Nat) : List (Sweep Id Outcome) → List Row → Nat
  | [], _ => 0
  | w :: ws, rows => R.stays batch clock w rows + allStays (finish clock w) ws (R.sweep batch clock w rows)

/-- The row is visited in one of the sweeps. -/
def Served (id : Id) (clock : Nat) : List (Sweep Id Outcome) → List Row → Prop
  | [], _ => False
  | w :: ws, rows => id ∈ (R.visited batch clock w rows).map R.ident ∨
      Served id (finish clock w) ws (R.sweep batch clock w rows)

/-- What happens to a row leaves it its place or moves it to the end of the queue. -/
def Keeps (now : Nat) (r r' : Row) : Prop :=
  R.ident r' = R.ident r ∧ (R.stands r' = true → R.stands r = true) ∧ (R.key r' = R.key r ∨ R.key r' = some now)

structure Lawful : Prop where
  stands : ∀ now r, R.due now r = true → R.stands r = true
  later : ∀ now now' r, now ≤ now' → R.due now r = true → R.due now' r = true
  visit : ∀ now o r, R.Keeps now r (R.visit now o r)
  drift : ∀ now r, R.Keeps now r (R.drift now r)
  moves : ∀ now o r, R.moves o = true → R.stands (R.visit now o r) = false ∨ R.key (R.visit now o r) = some now

/-- No key is in the future. -/
def Past (clock : Nat) (rows : List Row) : Prop := ∀ r ∈ rows, ∀ t, R.key r = some t → t ≤ clock

/-- Another row that stands before this one, or level with it. -/
def ahead (q p : Row) : Bool := R.ident p ≠ R.ident q && R.stands p && before (R.key p) (R.key q)

variable {R} {batch} {clock : Nat} {w : Sweep Id Outcome} {rows : List Row} {p q : Row}

section Visits

omit [DecidableEq Id]

theorem visitedOf_front (w : Sweep Id Outcome) (rs : List Row) : R.visitedOf w rs <+: rs := by
  induction rs with
  | nil => exact List.prefix_refl _
  | cons r rs ih =>
      rw [visitedOf, List.cons_prefix_cons]
      refine ⟨rfl, ?_⟩
      split
      · exact List.nil_prefix
      · exact ih

theorem visited_front : R.visited batch clock w rows <+: R.inOrder (start clock w) (R.drifted clock w rows) :=
  (visitedOf_front w _).trans (List.take_prefix _ _)

theorem inOrder_perm (now : Nat) : (R.inOrder now rows).Perm (rows.filter (R.due now)) :=
  List.perm_insertionSort _ _

theorem visited_subperm : (R.visited batch clock w rows).Subperm (R.drifted clock w rows) :=
  visited_front.sublist.subperm.trans ((inOrder_perm _).subperm.trans List.filter_sublist.subperm)

theorem due_of_visited (h : p ∈ R.visited batch clock w rows) : R.due (start clock w) p = true :=
  (List.mem_filter.mp ((inOrder_perm _).mem_iff.mp (visited_front.subset h))).2

/-- The rows that are visited stand before those that are due and not visited. -/
theorem before_of_visited (hq : q ∈ R.drifted clock w rows) (hdue : R.due (start clock w) q = true)
    (hnot : q ∉ R.visited batch clock w rows) (hp : p ∈ R.visited batch clock w rows) :
    before (R.key p) (R.key q) = true := by
  have horder : q ∈ R.inOrder (start clock w) (R.drifted clock w rows) :=
    (inOrder_perm _).mem_iff.mpr (List.mem_filter.mpr ⟨hq, hdue⟩)
  have hsorted : (R.inOrder (start clock w) (R.drifted clock w rows)).Pairwise
      fun a b => before (R.key a) (R.key b) = true := List.pairwise_insertionSort _ _
  obtain ⟨rest, hrest⟩ : R.visited batch clock w rows <+: R.inOrder (start clock w) (R.drifted clock w rows) :=
    visited_front
  rw [← hrest] at horder hsorted
  exact (List.pairwise_append.mp hsorted).2.2 p hp q ((List.mem_append.mp horder).resolve_left hnot)

end Visits

/-- What keeps its place or goes to the end does not come to stand before an older row. -/
theorem Keeps.ahead {now : Nat} {p' : Row} (h : R.Keeps now p p') (hold : ∀ t, R.key q = some t → t < now)
    (hahead : R.ahead q p' = true) : R.ahead q p = true := by
  simp only [Queue.ahead, Bool.and_eq_true, decide_eq_true_eq] at hahead ⊢
  obtain ⟨hident, hstands, hkey⟩ := h
  refine ⟨⟨hident ▸ hahead.1.1, hstands hahead.1.2⟩, ?_⟩
  rcases hkey with hkey | hkey
  · exact hkey ▸ hahead.2
  · have hbefore := hahead.2
    rw [hkey] at hbefore
    cases hq : R.key q with
    | none => simp [hq, before] at hbefore
    | some t =>
        have hlt := hold t hq
        simp only [hq, before, decide_eq_true_eq] at hbefore
        omega

section Step

variable (hR : R.Lawful)

include hR

omit [DecidableEq Id] in
/-- What happens to rows between two sweeps. -/
theorem drifted_keeps {p' : Row} (h : p' ∈ R.drifted clock w rows) :
    ∃ p ∈ rows, ∃ t, clock < t ∧ t ≤ start clock w ∧ (p' = p ∨ R.Keeps t p p') := by
  obtain ⟨p, hp, rfl⟩ := List.mem_map.mp h
  refine ⟨p, hp, ?_⟩
  cases w.ends (R.ident p) with
  | none => exact ⟨clock + 1, by omega, by unfold start; omega, .inl rfl⟩
  | some d => exact ⟨clock + 1 + min d w.gap, by omega, by unfold start; omega, .inr (hR.drift _ p)⟩

omit [DecidableEq Id] in
theorem past_drifted (hpast : R.Past clock rows) : R.Past (start clock w) (R.drifted clock w rows) := by
  intro p' hp' t ht
  obtain ⟨p, hp, t', hlt, hle, rfl | ⟨-, -, hkey | hkey⟩⟩ := drifted_keeps hR hp'
  · exact (hpast _ hp t ht).trans (by omega)
  · exact (hpast p hp t (hkey ▸ ht)).trans (by omega)
  · rw [hkey] at ht
    exact (Option.some.inj ht) ▸ hle

theorem ahead_drifted (hpast : R.Past clock rows) (hq : q ∈ rows) :
    (R.drifted clock w rows).countP (R.ahead q) ≤ rows.countP (R.ahead q) := by
  rw [drifted, List.countP_map]
  refine List.countP_mono_left fun p _ hahead => ?_
  simp only [Function.comp_apply] at hahead
  cases hends : w.ends (R.ident p) with
  | none => simpa [hends] using hahead
  | some d =>
      rw [hends] at hahead
      exact (hR.drift (clock + 1 + min d w.gap) p).ahead (fun t ht => (hpast q hq t ht).trans_lt (by omega)) hahead

omit [DecidableEq Id] hR in
theorem mem_drifted (hq : q ∈ rows) (hends : w.ends (R.ident q) = none) : q ∈ R.drifted clock w rows :=
  List.mem_map.mpr ⟨q, hq, by rw [hends]⟩

/-- The rows that give up their place are no longer ahead. -/
theorem ahead_sweep (hpast : R.Past clock rows) (hq : q ∈ rows) (hends : w.ends (R.ident q) = none)
    (hdue : R.due (start clock w) q = true) (hnot : R.ident q ∉ (R.visited batch clock w rows).map R.ident) :
    (R.sweep batch clock w rows).countP (R.ahead q) +
      (R.visited batch clock w rows).countP (fun r => R.moves (w.outcome (R.ident r))) ≤
      (R.drifted clock w rows).countP (R.ahead q) := by
  have hold : ∀ d t, R.key q = some t → t < start clock w + d := fun d t ht =>
    (hpast q hq t ht).trans_lt (by unfold start; omega)
  -- the rows that are visited and give up their place
  let gone : Row → Bool := fun r =>
    decide (R.ident r ∈ (R.visited batch clock w rows).map R.ident) && R.moves (w.outcome (R.ident r))
  have hleft : (R.sweep batch clock w rows).countP (R.ahead q) ≤
      (R.drifted clock w rows).countP fun p => R.ahead q p && !gone p := by
    rw [sweep, List.countP_map]
    refine List.countP_mono_left fun p _ hahead => ?_
    simp only [Function.comp_apply] at hahead
    by_cases hvisited : R.ident p ∈ (R.visited batch clock w rows).map R.ident
    · rw [if_pos hvisited] at hahead
      have hkeeps := hR.visit (start clock w + min (w.delay (R.ident p)) w.length) (w.outcome (R.ident p)) p
      rw [hkeeps.ahead (hold _) hahead, Bool.true_and]
      cases hmoves : R.moves (w.outcome (R.ident p)) with
      | false => simp [gone, hmoves]
      | true =>
          simp only [ahead, Bool.and_eq_true] at hahead
          rcases hR.moves (start clock w + min (w.delay (R.ident p)) w.length) _ p hmoves with hstands | hkey
          · rw [hstands] at hahead
            cases hahead.1.2
          · rw [hkey] at hahead
            cases hkeyq : R.key q with
            | none => simp [hkeyq, before] at hahead
            | some t =>
                have hlt := hold (min (w.delay (R.ident p)) w.length) t hkeyq
                simp only [hkeyq, before, decide_eq_true_eq] at hahead
                omega
    · rw [if_neg hvisited] at hahead
      have hstill : gone p = false := by simp only [gone, decide_eq_false hvisited, Bool.false_and]
      rw [hahead, hstill]
      rfl
  have hgone : (R.visited batch clock w rows).countP (fun r => R.moves (w.outcome (R.ident r))) ≤
      (R.drifted clock w rows).countP fun p => R.ahead q p && gone p := by
    have hnotmem : q ∉ R.visited batch clock w rows := fun hmem => hnot (List.mem_map_of_mem hmem)
    refine le_trans (Nat.le_of_eq (List.countP_congr fun p hp => ?_)) (visited_subperm.countP_le _)
    have hident : R.ident p ≠ R.ident q := fun heq => hnot (heq ▸ List.mem_map_of_mem hp)
    have hstands := hR.stands _ _ (due_of_visited hp)
    have hbefore := before_of_visited (mem_drifted hq hends) hdue hnotmem hp
    have hahead : R.ahead q p = true := by simp [ahead, hident, hstands, hbefore]
    simp only [gone, hahead, decide_eq_true (List.mem_map_of_mem (f := R.ident) hp), Bool.true_and]
  have hsplit : ((R.drifted clock w rows).countP fun p => R.ahead q p && !gone p) +
      ((R.drifted clock w rows).countP fun p => R.ahead q p && gone p) = (R.drifted clock w rows).countP (R.ahead q) := by
    rw [List.countP_eq_countP_filter_add _ (R.ahead q) gone, List.countP_filter, List.countP_filter, Nat.add_comm]
  omega

theorem past_sweep (hpast : R.Past clock rows) : R.Past (finish clock w) (R.sweep batch clock w rows) := by
  intro p' hp' t ht
  obtain ⟨p, hp, rfl⟩ := List.mem_map.mp hp'
  have hp := past_drifted hR hpast p hp
  have hle : start clock w ≤ finish clock w := Nat.le_add_right _ _
  split at ht
  · rcases (hR.visit (start clock w + min (w.delay (R.ident p)) w.length) (w.outcome (R.ident p)) p).2.2 with hkey | hkey
    · exact (hp t (hkey ▸ ht)).trans hle
    · rw [hkey] at ht
      rw [← Option.some.inj ht]
      exact Nat.add_le_add_left (min_le_right _ _) _
  · exact (hp t ht).trans hle

omit hR in
theorem mem_sweep (hq : q ∈ rows) (hends : w.ends (R.ident q) = none)
    (hnot : R.ident q ∉ (R.visited batch clock w rows).map R.ident) : q ∈ R.sweep batch clock w rows :=
  List.mem_map.mpr ⟨q, mem_drifted hq hends, if_neg hnot⟩

/-- In sweeps that leave out a row that is due, the places of the batches go to rows ahead of it, each of which gives
up its place once at most, and to rows that stay. -/
theorem served_or_ahead (ws : List (Sweep Id Outcome)) (hpast : R.Past clock rows) (hq : q ∈ rows)
    (hdue : R.due (clock + 1) q = true) (hends : ∀ w ∈ ws, w.ends (R.ident q) = none) :
    R.Served batch (R.ident q) clock ws rows ∨
      ws.length * batch ≤ rows.countP (R.ahead q) + R.allStays batch clock ws rows := by
  induction ws generalizing clock rows with
  | nil => exact .inr (by simp)
  | cons w ws ih =>
      obtain ⟨hend, hends⟩ := List.forall_mem_cons.mp hends
      by_cases hnot : R.ident q ∈ (R.visited batch clock w rows).map R.ident
      · exact .inl (.inl hnot)
      · have hnow := hR.later _ (start clock w) q (by unfold start; omega) hdue
        have hlater := hR.later _ (finish clock w + 1) q (by unfold finish start; omega) hdue
        rcases ih (past_sweep hR hpast) (mem_sweep hq hend hnot) hlater hends with hserved | hrest
        · exact .inl (.inr hserved)
        · refine .inr ?_
          have hstep := ahead_sweep hR hpast hq hend hnow hnot
          have hdrift := ahead_drifted hR (w := w) hpast hq
          have hstay : batch ≤ (R.visited batch clock w rows).countP (fun r => R.moves (w.outcome (R.ident r))) +
              R.stays batch clock w rows := by
            unfold stays
            omega
          rw [allStays, List.length_cons, Nat.succ_mul]
          omega

/-- A row that is due is served once there are as many places as rows, and one more for each row that stays. -/
theorem served_of_places (ws : List (Sweep Id Outcome)) (hpast : R.Past clock rows) (hq : q ∈ rows)
    (hdue : R.due (clock + 1) q = true) (hends : ∀ w ∈ ws, w.ends (R.ident q) = none)
    (hplaces : rows.length + R.allStays batch clock ws rows ≤ ws.length * batch) :
    R.Served batch (R.ident q) clock ws rows := by
  refine (served_or_ahead hR ws hpast hq hdue hends).resolve_right fun hle => ?_
  have hless : rows.countP (R.ahead q) < rows.length := by
    refine lt_of_le_of_ne List.countP_le_length fun heq => ?_
    have hself := List.countP_eq_length.mp heq q hq
    simp [ahead] at hself
  omega

end Step

end Queue

end Corebase.Rotation
