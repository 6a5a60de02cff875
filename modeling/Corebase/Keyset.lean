import Mathlib.Data.List.Sort
import Mathlib.Order.Defs.LinearOrder

namespace Corebase.Keyset

variable {ρ κ : Type} [LinearOrder κ]

/-- Newest first: the order of a keyset. -/
def descending (key : ρ → κ) (a b : ρ) : Prop := key b ≤ key a

instance (key : ρ → κ) : DecidableRel (descending key) := fun a b => inferInstanceAs (Decidable (key b ≤ key a))

instance (key : ρ → κ) : Std.Total (descending key) := ⟨fun a b => le_total (key b) (key a)⟩

instance (key : ρ → κ) : IsTrans ρ (descending key) := ⟨fun _ _ _ h₁ h₂ => le_trans h₂ h₁⟩

/-- The rows in the keyset's order. -/
def sorted (key : ρ → κ) (rows : List ρ) : List ρ := rows.insertionSort (descending key)

/-- What is left of the rows after a page for the cursor of the page's last row, cut to what it can carry. -/
def rest (key cut : ρ → κ) (limit : ℕ) (rows : List ρ) : List ρ :=
  match (rows.take limit).getLast? with
  | none => []
  | some e => (rows.drop limit).filter fun r => key r < cut e

/-- Every page's last row has a cursor that lies above the row after it. -/
def Unbroken (key cut : ρ → κ) (limit : ℕ) (rows : List ρ) : Prop :=
  ∀ k e n, rows[(k + 1) * limit - 1]? = some e → rows[(k + 1) * limit]? = some n → key n < cut e

theorem rest_sublist (key cut : ρ → κ) (limit : ℕ) (rows : List ρ) :
    (rest key cut limit rows).Sublist (rows.drop limit) := by
  unfold rest
  split
  · exact List.nil_sublist _
  · exact List.filter_sublist

theorem rest_length (key cut : ρ → κ) (limit : ℕ) (rows : List ρ) :
    (rest key cut limit rows).length ≤ rows.length - limit := by
  simpa using (rest_sublist key cut limit rows).length_le

/-- The pages that following the cursors returns. -/
def walk (key cut : ρ → κ) (limit : ℕ) (rows : List ρ) : List (List ρ) :=
  if 0 < limit ∧ limit < rows.length then rows.take limit :: walk key cut limit (rest key cut limit rows)
  else [rows]
termination_by rows.length
decreasing_by
  have := rest_length key cut limit rows
  omega

variable {key cut : ρ → κ} {limit : ℕ} {rows : List ρ}

theorem walk_more (hpos : 0 < limit) (h : limit < rows.length) :
    walk key cut limit rows = rows.take limit :: walk key cut limit (rest key cut limit rows) := by
  rw [walk, if_pos ⟨hpos, h⟩]

theorem walk_last (h : rows.length ≤ limit) : walk key cut limit rows = [rows] := by
  rw [walk, if_neg fun h' => by omega]

/-- Following the cursors never repeats a row and never leaves the order. -/
theorem walk_sublist (key cut : ρ → κ) (limit : ℕ) (rows : List ρ) :
    (walk key cut limit rows).flatten.Sublist rows := by
  induction rows using walk.induct key cut limit with
  | case1 rows h ih =>
      rw [walk_more h.1 h.2, List.flatten_cons]
      have := (ih.trans (rest_sublist key cut limit rows)).append_left (rows.take limit)
      rwa [List.take_append_drop] at this
  | case2 rows h => rw [walk, if_neg h]; simp

theorem rest_eq {e : ρ} (hpos : 0 < limit) (he : rows[limit - 1]? = some e) :
    rest key cut limit rows = (rows.drop limit).filter fun r => key r < cut e := by
  have hlast : (rows.take limit).getLast? = some e := by
    rw [List.getLast?_take, if_neg (by omega), he]
    rfl
  rw [rest, hlast]

/-- A cursor above the next row is above all the rows after the page. -/
theorem rest_whole {e n : ρ} (hpos : 0 < limit) (hs : rows.Pairwise (key · > key ·))
    (he : rows[limit - 1]? = some e) (hn : rows[limit]? = some n) (hlt : key n < cut e) :
    rest key cut limit rows = rows.drop limit := by
  rw [rest_eq hpos he, List.filter_eq_self]
  intro r hr
  have hdrop : rows.drop limit = n :: rows.drop (limit + 1) := by
    obtain ⟨hl, rfl⟩ := List.getElem?_eq_some_iff.mp hn
    exact List.drop_eq_getElem_cons hl
  have hsd := hs.sublist (List.drop_sublist limit rows)
  rw [hdrop] at hr hsd
  rcases List.mem_cons.mp hr with rfl | hr
  · exact decide_eq_true hlt
  · exact decide_eq_true ((List.rel_of_pairwise_cons hsd hr).trans hlt)

/-- A cursor that is not above the next row loses it. -/
theorem rest_loses (key cut : ρ → κ) {e n : ρ} (hpos : 0 < limit) (he : rows[limit - 1]? = some e) (hn : rows[limit]? = some n)
    (hlt : ¬ key n < cut e) : (rest key cut limit rows).length < rows.length - limit := by
  rw [rest_eq hpos he, ← List.length_drop]
  refine List.length_filter_lt_length_iff_exists.mpr ⟨n, ?_, by simpa using hlt⟩
  have : (rows.drop limit)[0]? = some n := by rw [List.getElem?_drop]; exact hn
  exact List.mem_of_getElem? this

theorem unbroken_short (h : rows.length ≤ limit) : Unbroken key cut limit rows := by
  intro k e n _ hn
  have hlen := (List.getElem?_eq_some_iff.mp hn).1
  have : limit ≤ (k + 1) * limit := Nat.le_mul_of_pos_left limit k.succ_pos
  omega

theorem unbroken_step {e n : ρ} (hpos : 0 < limit) (he : rows[limit - 1]? = some e)
    (hn : rows[limit]? = some n) :
    Unbroken key cut limit rows ↔ key n < cut e ∧ Unbroken key cut limit (rows.drop limit) := by
  have hshift : ∀ k, (k + 1 + 1) * limit = limit + (k + 1) * limit := fun k => by rw [Nat.succ_mul, Nat.add_comm]
  have hge : ∀ k, 0 < (k + 1) * limit := fun k => Nat.mul_pos k.succ_pos hpos
  constructor
  · intro h
    refine ⟨h 0 e n (by simpa using he) (by simpa using hn), fun k e n he hn => ?_⟩
    rw [List.getElem?_drop] at he hn
    refine h (k + 1) e n ?_ ?_
    · rw [← he, hshift, Nat.add_sub_assoc (hge k)]
    · rw [← hn, hshift]
  · rintro ⟨hlt, h⟩ k e' n' he' hn'
    cases k with
    | zero =>
        simp only [Nat.zero_add, Nat.one_mul] at he' hn'
        cases he.symm.trans he'
        cases hn.symm.trans hn'
        exact hlt
    | succ k =>
        refine h k e' n' ?_ ?_
        · rw [List.getElem?_drop, ← he', hshift, Nat.add_sub_assoc (hge k)]
        · rw [List.getElem?_drop, ← hn', hshift]

/-- Following the cursors returns every row exactly when no page's cursor falls below the row after it. -/
theorem walk_flatten (hpos : 0 < limit) (hs : rows.Pairwise (key · > key ·)) :
    (walk key cut limit rows).flatten = rows ↔ Unbroken key cut limit rows := by
  induction rows using walk.induct key cut limit with
  | case2 rows h =>
      have hshort : rows.length ≤ limit := by omega
      rw [walk_last hshort]
      exact ⟨fun _ => unbroken_short hshort, fun _ => by simp⟩
  | case1 rows h ih =>
      obtain ⟨e, he⟩ : ∃ e, rows[limit - 1]? = some e := ⟨_, List.getElem?_eq_getElem (by omega)⟩
      obtain ⟨n, hn⟩ : ∃ n, rows[limit]? = some n := ⟨_, List.getElem?_eq_getElem h.2⟩
      rw [walk_more h.1 h.2, List.flatten_cons, unbroken_step hpos he hn]
      by_cases hlt : key n < cut e
      · have hwhole : rest key cut limit rows = rows.drop limit := rest_whole hpos hs he hn hlt
        rw [hwhole] at ih ⊢
        rw [← ih (hs.sublist (List.drop_sublist limit rows)), and_iff_right hlt]
        constructor
        · exact fun heq => List.append_cancel_left (heq.trans (List.take_append_drop limit rows).symm)
        · exact fun heq => by rw [heq, List.take_append_drop]
      · refine iff_of_false (fun heq => ?_) fun h => hlt h.1
        have hloses := rest_loses key cut hpos he hn hlt
        have hle := (walk_sublist key cut limit (rest key cut limit rows)).length_le
        have hlen := congrArg List.length heq
        rw [List.length_append, List.length_take] at hlen
        omega

theorem sorted_perm (key : ρ → κ) (rows : List ρ) : (sorted key rows).Perm rows := List.perm_insertionSort _ _

/-- Distinct keys leave one order. -/
theorem sorted_strict (hkeys : (rows.map key).Nodup) : (sorted key rows).Pairwise (key · > key ·) := by
  have hsorted : (sorted key rows).Pairwise (descending key) := List.pairwise_insertionSort _ _
  have hne : (sorted key rows).Pairwise (key · ≠ key ·) := by
    rw [← List.pairwise_map, ← List.nodup_iff_pairwise_ne]
    exact ((sorted_perm key rows).map key).nodup_iff.mpr hkeys
  exact hsorted.imp₂ (fun _ _ hle hne => lt_of_le_of_ne hle hne.symm) hne

/-- A condition may be checked before the sort or after it. -/
theorem sorted_filter (p : ρ → Bool) (hkeys : (rows.map key).Nodup) :
    sorted key (rows.filter p) = (sorted key rows).filter p := by
  have hsub : ((rows.filter p).map key).Nodup := hkeys.sublist (List.filter_sublist.map key)
  refine List.Perm.eq_of_pairwise (fun _ _ _ _ h₁ h₂ => absurd h₁ (lt_asymm h₂)) (sorted_strict hsub)
    ((sorted_strict hkeys).sublist List.filter_sublist) ?_
  exact (sorted_perm key _).trans ((sorted_perm key rows).filter p).symm

/-- Of the rows above a page's edge none is below its cursor. -/
theorem filter_below {e : ρ} (hcut : ∀ r, cut r ≤ key r) (hpos : 0 < limit) (hs : rows.Pairwise (key · > key ·))
    (he : rows[limit - 1]? = some e) :
    (rows.filter fun r => key r < cut e) = rest key cut limit rows := by
  rw [rest_eq hpos he]
  obtain ⟨hlen, hedge⟩ := List.getElem?_eq_some_iff.mp he
  have hnone : (rows.take limit).filter (fun r => key r < cut e) = [] := by
    refine List.filter_eq_nil_iff.mpr fun r hr => ?_
    obtain ⟨i, hi, rfl⟩ := List.getElem_of_mem hr
    rw [List.length_take] at hi
    rw [List.getElem_take, decide_eq_true_eq, not_lt, ← hedge]
    refine (hcut _).trans ?_
    rcases Nat.lt_or_ge i (limit - 1) with hlt | hge
    · exact (List.pairwise_iff_getElem.mp hs i (limit - 1) _ _ hlt).le
    · have : i = limit - 1 := by omega
      subst this
      exact le_rfl
  calc rows.filter (fun r => key r < cut e)
      = (rows.take limit ++ rows.drop limit).filter (fun r => key r < cut e) := by rw [List.take_append_drop]
    _ = (rows.drop limit).filter (fun r => key r < cut e) := by rw [List.filter_append, hnone, List.nil_append]

end Corebase.Keyset
