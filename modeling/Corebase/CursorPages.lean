import Mathlib.Data.List.Sort

namespace Corebase.CursorPages

/-- A total order of the texts of a column, of which the given one is the least. -/
structure Collation (κ : Type) (bottom : κ) where
  before : κ → κ → Bool
  irrefl : ∀ a, before a a = false
  trans : ∀ a b c, before a b = true → before b c = true → before a c = true
  total : ∀ a b, a ≠ b → before a b = true ∨ before b a = true
  least : ∀ a, a ≠ bottom → before bottom a = true

variable {ρ κ : Type} {bottom : κ}

namespace Collation

variable (C : Collation κ bottom) (key : ρ → κ)

def notAfter (a b : ρ) : Bool := !C.before (key b) (key a)

def ordered (rows : List ρ) : List ρ := rows.insertionSort fun a b => C.notAfter key a b

/-- ORDER BY and LIMIT -/
def page (limit : Nat) (rows : List ρ) : List ρ := (C.ordered key rows).take limit

variable {C key}

theorem asymm {a b : κ} (h : C.before a b = true) : C.before b a = false := by
  by_contra hba
  have := C.trans a b a h (Bool.not_eq_false _ ▸ hba)
  rw [C.irrefl] at this
  cases this

theorem notAfter_total (a b : ρ) : C.notAfter key a b = true ∨ C.notAfter key b a = true := by
  simp only [notAfter, Bool.not_eq_true']
  by_cases h : C.before (key b) (key a) = true
  · exact .inr (asymm h)
  · exact .inl (Bool.not_eq_true _ ▸ h)

theorem notAfter_trans (a b c : ρ) (hab : C.notAfter key a b = true) (hbc : C.notAfter key b c = true) :
    C.notAfter key a c = true := by
  simp only [notAfter, Bool.not_eq_true'] at *
  by_contra hca
  have hca : C.before (key c) (key a) = true := Bool.not_eq_false _ ▸ hca
  by_cases hkey : key a = key b
  · rw [hkey, hbc] at hca
    cases hca
  · rcases C.total _ _ hkey with h | h
    · rw [C.trans _ _ _ hca h] at hbc
      cases hbc
    · rw [h] at hab
      cases hab

theorem ordered_perm (rows : List ρ) : (C.ordered key rows).Perm rows := List.perm_insertionSort _ _

/-- Rows with different keys are in strict order. -/
theorem ordered_strict {rows : List ρ} (h : (rows.map key).Nodup) :
    (C.ordered key rows).Pairwise fun a b => C.before (key a) (key b) = true := by
  have : Std.Total fun a b => C.notAfter key a b = true := ⟨notAfter_total⟩
  have : IsTrans ρ fun a b => C.notAfter key a b = true := ⟨notAfter_trans⟩
  have hsorted : (C.ordered key rows).Pairwise fun a b => C.notAfter key a b = true := List.pairwise_insertionSort _ _
  have hne : (C.ordered key rows).Pairwise fun a b => key a ≠ key b :=
    List.pairwise_map.mp (((ordered_perm rows).map key).nodup_iff.mpr h)
  refine (hsorted.and hne).imp fun {a b} ⟨hab, hkey⟩ => ?_
  rcases C.total _ _ hkey with h | h
  · exact h
  · simp [notAfter, h] at hab

theorem ordered_filter {rows : List ρ} (h : (rows.map key).Nodup) (p : ρ → Bool) :
    C.ordered key (rows.filter p) = (C.ordered key rows).filter p := by
  have hnodup : ((rows.filter p).map key).Nodup := h.sublist (List.filter_sublist.map key)
  have hperm : (C.ordered key (rows.filter p)).Perm ((C.ordered key rows).filter p) :=
    (ordered_perm _).trans ((ordered_perm rows).filter p).symm
  refine hperm.eq_of_pairwise (fun a b _ _ hab hba => ?_) (ordered_strict hnodup) ((ordered_strict h).filter p)
  rw [asymm hab] at hba
  cases hba

/-- The rows after the last one of a first part are the rest. -/
theorem filter_after {before after : List ρ} {e : ρ}
    (h : (before ++ e :: after).Pairwise fun a b => C.before (key a) (key b) = true) :
    (before ++ e :: after).filter (fun r => C.before (key e) (key r)) = after := by
  obtain ⟨-, htail, hcross⟩ := List.pairwise_append.mp h
  obtain ⟨hafter, -⟩ := List.pairwise_cons.mp htail
  rw [List.filter_append, List.filter_cons_of_neg (by simp [C.irrefl]), List.filter_eq_self.mpr hafter,
    List.filter_eq_nil_iff.mpr, List.nil_append]
  intro r hr
  rw [asymm (hcross r hr e (List.mem_cons_self ..))]
  decide

end Collation

/-- What following the cursors of a listing returns, when it ends without an error. -/
inductive Chain {ε : Type} (list : Option κ → Except ε (List ρ × Option κ)) : Option κ → List ρ → Prop
  | last {cursor : Option κ} {rows : List ρ} (h : list cursor = .ok (rows, none)) : Chain list cursor rows
  | more {cursor : Option κ} {rows rest : List ρ} {next : κ} (h : list cursor = .ok (rows, some next))
      (tail : Chain list (some next) rest) : Chain list cursor (rows ++ rest)

section

variable {ε : Type} {list : Option κ → Except ε (List ρ × Option κ)} {C : Collation κ bottom} {key : ρ → κ}

theorem Chain.unique {cursor : Option κ} {rows rows' : List ρ} (h : Chain list cursor rows) (h' : Chain list cursor rows') :
    rows = rows' := by
  induction h generalizing rows' with
  | last h =>
      cases h' with
      | last h' =>
          rw [h] at h'
          cases h'
          rfl
      | more h' _ =>
          rw [h] at h'
          cases h'
  | more h _ ih =>
      cases h' with
      | last h' =>
          rw [h] at h'
          cases h'
      | more h' tail =>
          rw [h] at h'
          cases h'
          rw [ih tail]

/-- The last key of a page that is full, which may be followed by more. -/
def nextCursor (key : ρ → κ) (limit : Nat) (rows : List ρ) : Option κ :=
  if rows.length = limit then rows.getLast?.map key else none

/-- A page for the rows after the cursor, with the next cursor while pages are full, leads through all the rows. -/
theorem chain_whole {limit : Nat} (hpos : 0 < limit) {rows : List ρ} (hnodup : (rows.map key).Nodup)
    (hlist : ∀ cursor : Option κ, (∀ k ∈ cursor, k ∈ rows.map key) → list cursor =
      let page := C.page key limit (rows.filter fun r => C.before (cursor.getD bottom) (key r))
      .ok (page, nextCursor key limit page))
    (hbottom : ∀ r ∈ rows, key r ≠ bottom) : Chain list none (C.ordered key rows) := by
  have hstrict := Collation.ordered_strict (C := C) hnodup
  have hrest : ∀ (after before : List ρ) (cursor : Option κ), C.ordered key rows = before ++ after →
      (∀ k ∈ cursor, k ∈ rows.map key) →
      (C.ordered key rows).filter (fun r => C.before (cursor.getD bottom) (key r)) = after → Chain list cursor after := by
    intro after
    induction hn : after.length using Nat.strong_induction_on generalizing after with
    | _ n ih =>
      intro before cursor hsplit hfrom hcursor
      have hpage := hlist cursor hfrom
      simp only [Collation.page, Collation.ordered_filter hnodup, hcursor] at hpage
      by_cases hfull : (after.take limit).length = limit
      · have hle : limit ≤ after.length := by
          rw [List.length_take] at hfull
          omega
        obtain ⟨front, e, htake⟩ : ∃ front e, after.take limit = front ++ [e] := by
          have hne : after.take limit ≠ [] := by
            intro hnil
            rw [hnil] at hfull
            exact absurd hfull (Nat.ne_of_lt hpos)
          exact ⟨_, _, (List.dropLast_append_getLast hne).symm⟩
        have hafter : after = front ++ e :: after.drop limit := by
          rw [← List.singleton_append, ← List.append_assoc, ← htake, List.take_append_drop]
        rw [nextCursor, if_pos hfull, htake, List.getLast?_concat, Option.map_some, ← htake] at hpage
        have hdrop : (after.drop limit).length < n := by
          rw [List.length_drop]
          omega
        have htail := ih _ hdrop (after.drop limit) rfl (before ++ after.take limit) (some (key e))
          (by rw [hsplit, List.append_assoc, List.take_append_drop]) ?_ ?_
        · have := Chain.more hpage htail
          rwa [List.take_append_drop] at this
        · intro k hk
          obtain rfl := Option.some.inj hk
          have hperm : (C.ordered key rows).Perm rows := Collation.ordered_perm rows
          apply List.mem_map_of_mem
          rw [← hperm.mem_iff, hsplit, hafter]
          simp
        · have hwhole : C.ordered key rows = (before ++ front) ++ e :: after.drop limit := by
            rw [hsplit, List.append_assoc, ← hafter]
          rw [Option.getD_some, hwhole]
          exact Collation.filter_after (hwhole ▸ hstrict)
      · rw [nextCursor, if_neg hfull] at hpage
        have htake : after.take limit = after := by
          apply List.take_of_length_le
          rw [List.length_take] at hfull
          omega
        rw [htake] at hpage
        exact .last hpage
  refine hrest _ [] none (List.nil_append _).symm (by simp) ?_
  rw [List.filter_eq_self]
  intro r hr
  exact C.least _ (hbottom r ((Collation.ordered_perm rows).mem_iff.mp hr))

end

end Corebase.CursorPages
