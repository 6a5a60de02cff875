import Corebase.JsText
import Mathlib.Data.List.Nodup

namespace Corebase.TableObjects

open JsText

inductive ConstraintKind
  | primaryKey
  | foreignKey
  | unique
  | check
  | exclusion
  deriving DecidableEq

structure IntrospectionIndex where
  name : Text
  columns : List (Option Text)
  isUnique : Bool
  isValid : Bool
  definition : Text
  deriving DecidableEq

structure IntrospectionConstraint where
  name : Text
  kind : ConstraintKind
  columns : List (Option Text)
  referencesSchema : Option Text
  referencesTable : Option Text
  definition : Text
  deriving DecidableEq

inductive RowKind
  | rule (k : ConstraintKind)
  | index
  deriving DecidableEq

structure Row where
  name : Text
  kind : RowKind
  columns : List (Option Text)
  definition : Text
  backedBy : Option Text
  references : Option Text
  invalid : Bool
  unique : Bool
  deriving DecidableEq

/-- A Map built from the list keeps the last entry of a name. -/
def byName (indexes : List IntrospectionIndex) (n : Text) : Option IntrospectionIndex :=
  indexes.reverse.find? fun i => i.name = n

def target (c : IntrospectionConstraint) : Option Text :=
  match c.referencesTable with
  | none | some [] => none
  | some t => some (c.referencesSchema.getD "null".toList ++ '.' :: t)

def ruleRow (indexes : List IntrospectionIndex) (c : IntrospectionConstraint) : Row where
  name := c.name
  kind := .rule c.kind
  columns := c.columns
  definition := c.definition
  backedBy := if (byName indexes c.name).isSome then some c.name else none
  references := target c
  invalid := (byName indexes c.name).any fun i => !i.isValid
  unique := c.kind = .primaryKey || c.kind = .unique

def indexRow (i : IntrospectionIndex) : Row where
  name := i.name
  kind := .index
  columns := i.columns
  definition := i.definition
  backedBy := none
  references := none
  invalid := !i.isValid
  unique := i.isUnique

def rank : RowKind → Nat
  | .rule _ => 0
  | .index => 1

/-- Rows before sorting. -/
def merged (indexes : List IntrospectionIndex) (constraints : List IntrospectionConstraint) : List Row :=
  constraints.map (ruleRow indexes) ++
    (indexes.filter fun i => i.name ∉ constraints.map (·.name)).map indexRow

section

variable (localeCompare : Text → Text → Ordering)

def inOrder (a b : Row) : Bool :=
  ((compare (rank a.kind) (rank b.kind)).then (localeCompare a.name b.name)) != .gt

def mergeRows (indexes : List IntrospectionIndex) (constraints : List IntrospectionConstraint) : List Row :=
  (merged indexes constraints).mergeSort (inOrder localeCompare)

theorem mergeRows_perm (indexes : List IntrospectionIndex) (constraints : List IntrospectionConstraint) :
    (mergeRows localeCompare indexes constraints).Perm (merged indexes constraints) :=
  List.mergeSort_perm ..

end

/-- What the catalogue lists for one table: the server keeps names unique within a kind only. -/
structure Catalogue where
  indexes : List IntrospectionIndex
  constraints : List IntrospectionConstraint
  index_names : (indexes.map (·.name)).Nodup
  rule_names : (constraints.map (·.name)).Nodup

/-- The kinds of constraint the server enforces by an index, which it names after the constraint. -/
def ConstraintKind.indexed : ConstraintKind → Bool
  | primaryKey | unique | exclusion => true
  | foreignKey | check => false

def Implements (i : IntrospectionIndex) (c : IntrospectionConstraint) : Prop :=
  c.kind.indexed ∧ i.name = c.name

instance (i : IntrospectionIndex) (c : IntrospectionConstraint) : Decidable (Implements i c) :=
  inferInstanceAs (Decidable (_ ∧ _))

def Row.presents (r : Row) (c : IntrospectionConstraint) : Prop :=
  r.name = c.name ∧ r.kind = .rule c.kind ∧ r.columns = c.columns ∧ r.definition = c.definition

def Row.lists (r : Row) (i : IntrospectionIndex) : Prop :=
  r.name = i.name ∧ r.kind = .index ∧ r.columns = i.columns ∧ r.definition = i.definition

def Row.folds (r : Row) (i : IntrospectionIndex) : Prop := r.backedBy = some i.name

instance (r : Row) (c : IntrospectionConstraint) : Decidable (r.presents c) :=
  inferInstanceAs (Decidable (_ ∧ _))

instance (r : Row) (i : IntrospectionIndex) : Decidable (r.lists i) := inferInstanceAs (Decidable (_ ∧ _))

instance (r : Row) (i : IntrospectionIndex) : Decidable (r.folds i) := inferInstanceAs (Decidable (_ = _))

/-- The rows are a partition of the table's objects. -/
structure Exact (t : Catalogue) (rows : List Row) : Prop where
  rules : ∀ c ∈ t.constraints, rows.countP (·.presents c) = 1
  indexes : ∀ i ∈ t.indexes, rows.countP (fun r => r.lists i ∨ r.folds i) = 1
  known : ∀ r ∈ rows, (∃ c ∈ t.constraints, r.presents c) ∨ ∃ i ∈ t.indexes, r.lists i
  folded : ∀ r ∈ rows, ∀ i ∈ t.indexes, r.folds i → ∃ c ∈ t.constraints, r.presents c ∧ Implements i c

theorem countP_key {α β : Type} [DecidableEq β] {l : List α} {f : α → β} (hn : (l.map f).Nodup) {a : α}
    (ha : a ∈ l) {p : α → Bool} (hp : ∀ x ∈ l, p x = true ↔ f x = f a) : l.countP p = 1 := by
  have hc : l.countP p = (l.map f).count (f a) := by
    rw [List.count, List.countP_map]
    apply List.countP_congr
    intro x hx
    simp [hp x hx]
  rw [hc]
  exact List.count_eq_one_of_mem hn (List.mem_map_of_mem ha)

theorem byName_isSome {indexes : List IntrospectionIndex} {n : Text} :
    (byName indexes n).isSome ↔ ∃ i ∈ indexes, i.name = n := by
  simp [byName, List.find?_isSome]

namespace Catalogue

variable (t : Catalogue)

theorem rule_inj {c d : IntrospectionConstraint} (hc : c ∈ t.constraints) (hd : d ∈ t.constraints)
    (h : c.name = d.name) : c = d :=
  List.inj_on_of_nodup_map t.rule_names hc hd h

theorem index_inj {i j : IntrospectionIndex} (hi : i ∈ t.indexes) (hj : j ∈ t.indexes)
    (h : i.name = j.name) : i = j :=
  List.inj_on_of_nodup_map t.index_names hi hj h

theorem presents_iff {c d : IntrospectionConstraint} (hc : c ∈ t.constraints) (hd : d ∈ t.constraints) :
    (ruleRow t.indexes d).presents c ↔ d.name = c.name := by
  constructor
  · intro h
    exact h.1
  · intro h
    obtain rfl := t.rule_inj hd hc h
    exact ⟨rfl, rfl, rfl, rfl⟩

theorem lists_iff {i j : IntrospectionIndex} (hi : i ∈ t.indexes) (hj : j ∈ t.indexes) :
    (indexRow j).lists i ↔ j.name = i.name := by
  constructor
  · intro h
    exact h.1
  · intro h
    obtain rfl := t.index_inj hj hi h
    exact ⟨rfl, rfl, rfl, rfl⟩

theorem folds_iff {i : IntrospectionIndex} (hi : i ∈ t.indexes) (c : IntrospectionConstraint) :
    (ruleRow t.indexes c).folds i ↔ c.name = i.name := by
  constructor
  · intro h
    by_cases hs : (byName t.indexes c.name).isSome = true
    · exact Option.some.inj ((if_pos hs).symm.trans h)
    · cases (if_neg hs).symm.trans h
  · intro h
    have hs : (byName t.indexes c.name).isSome = true := byName_isSome.mpr ⟨i, hi, h.symm⟩
    exact (if_pos hs).trans (congrArg some h)

theorem mem_merged {r : Row} (h : r ∈ merged t.indexes t.constraints) :
    (∃ c ∈ t.constraints, r = ruleRow t.indexes c) ∨ ∃ i ∈ t.indexes, r = indexRow i := by
  rcases List.mem_append.mp h with hr | hr
  · obtain ⟨c, hc, rfl⟩ := List.mem_map.mp hr
    exact .inl ⟨c, hc, rfl⟩
  · obtain ⟨i, hi, rfl⟩ := List.mem_map.mp hr
    exact .inr ⟨i, (List.mem_filter.mp hi).1, rfl⟩

theorem count_rule {c : IntrospectionConstraint} (hc : c ∈ t.constraints) :
    (merged t.indexes t.constraints).countP (·.presents c) = 1 := by
  rw [merged, List.countP_append, List.countP_map, List.countP_map]
  have hi : ((t.indexes.filter fun i => i.name ∉ t.constraints.map (·.name)).countP
      ((fun r : Row => decide (r.presents c)) ∘ indexRow)) = 0 := by
    apply List.countP_eq_zero.mpr
    intro i _ h
    cases (of_decide_eq_true h).2.1
  rw [hi, Nat.add_zero]
  apply countP_key t.rule_names hc
  intro d hd
  exact decide_eq_true_iff.trans (t.presents_iff hc hd)

/-- An index whose name a constraint bears shows in the constraint's row, every other in its own. -/
theorem count_index {i : IntrospectionIndex} (hi : i ∈ t.indexes) :
    (merged t.indexes t.constraints).countP (fun r => r.lists i ∨ r.folds i) = 1 := by
  have hrule : ∀ c, ((ruleRow t.indexes c).lists i ∨ (ruleRow t.indexes c).folds i) ↔ c.name = i.name := by
    intro c
    constructor
    · rintro (h | h)
      · cases h.2.1
      · exact (t.folds_iff hi c).mp h
    · intro h
      exact .inr ((t.folds_iff hi c).mpr h)
  have hindex : ∀ j ∈ t.indexes, ((indexRow j).lists i ∨ (indexRow j).folds i) ↔ j.name = i.name := by
    intro j hj
    constructor
    · rintro (h | h)
      · exact h.1
      · cases h
    · intro h
      exact .inl ((t.lists_iff hi hj).mpr h)
  rw [merged, List.countP_append, List.countP_map, List.countP_map]
  by_cases hc : i.name ∈ t.constraints.map (·.name)
  · obtain ⟨c, hc, hn⟩ := List.mem_map.mp hc
    have hone : t.constraints.countP ((fun r : Row => decide (r.lists i ∨ r.folds i)) ∘
        ruleRow t.indexes) = 1 := by
      apply countP_key t.rule_names hc
      intro d _
      exact (decide_eq_true_iff.trans (hrule d)).trans (by rw [hn])
    rw [hone, List.countP_eq_zero.mpr]
    intro j hj h
    obtain ⟨hj, hfree⟩ := List.mem_filter.mp hj
    have hji := (hindex j hj).mp (of_decide_eq_true h)
    exact of_decide_eq_true hfree (List.mem_map.mpr ⟨c, ‹_›, hn.trans hji.symm⟩)
  · rw [List.countP_eq_zero.mpr, Nat.zero_add]
    · apply countP_key (f := (·.name))
      · exact t.index_names.sublist (List.filter_sublist.map _)
      · exact List.mem_filter.mpr ⟨hi, decide_eq_true hc⟩
      · intro j hj
        exact decide_eq_true_iff.trans (hindex j (List.mem_filter.mp hj).1)
    · intro c hm h
      exact hc (List.mem_map.mpr ⟨c, hm, (hrule c).mp (of_decide_eq_true h)⟩)

end Catalogue

/-- The list is exact when no check and no foreign key bears the name of an index of the table. -/
theorem rows_exact_iff (localeCompare : Text → Text → Ordering) (t : Catalogue) :
    Exact t (mergeRows localeCompare t.indexes t.constraints) ↔
      ∀ c ∈ t.constraints, ∀ i ∈ t.indexes, i.name = c.name → c.kind.indexed = true := by
  have hp := mergeRows_perm localeCompare t.indexes t.constraints
  constructor
  · intro h c hc i hi hn
    have hf := (t.folds_iff hi c).mpr hn.symm
    have hm : ruleRow t.indexes c ∈ mergeRows localeCompare t.indexes t.constraints :=
      hp.mem_iff.mpr (List.mem_append_left _ (List.mem_map_of_mem hc))
    obtain ⟨d, hd, hr, hk⟩ := h.folded _ hm i hi hf
    obtain rfl := t.rule_inj hc hd hr.1
    exact hk.1
  · intro h
    constructor
    · intro c hc
      rw [hp.countP_eq]
      exact t.count_rule hc
    · intro i hi
      rw [hp.countP_eq]
      exact t.count_index hi
    · intro r hr
      rcases t.mem_merged (hp.mem_iff.mp hr) with ⟨c, hc, rfl⟩ | ⟨i, hi, rfl⟩
      · exact .inl ⟨c, hc, (t.presents_iff hc hc).mpr rfl⟩
      · exact .inr ⟨i, hi, (t.lists_iff hi hi).mpr rfl⟩
    · intro r hr i hi hf
      rcases t.mem_merged (hp.mem_iff.mp hr) with ⟨c, hc, rfl⟩ | ⟨j, hj, rfl⟩
      · have hn := (t.folds_iff hi c).mp hf
        exact ⟨c, hc, (t.presents_iff hc hc).mpr rfl, h c hc i hi hn.symm, hn.symm⟩
      · cases hf

def sharedName : Catalogue where
  indexes := [⟨"posts_a".toList, [some "a".toList], false, true, "CREATE INDEX posts_a".toList⟩]
  constraints := [⟨"posts_a".toList, .check, [some "a".toList], none, none, "CHECK (a > 0)".toList⟩]
  index_names := List.nodup_singleton _
  rule_names := List.nodup_singleton _

/-- A check and a hand-made index of one name: the index has no row of its own. -/
theorem index_lost : ¬ Exact sharedName
    (mergeRows (fun a b => compare a.length b.length) sharedName.indexes sharedName.constraints) := by
  intro h
  have hm := (mergeRows_perm (fun a b => compare a.length b.length) sharedName.indexes
    sharedName.constraints).mem_iff.mpr
    (show ruleRow sharedName.indexes sharedName.constraints[0] ∈ _ from List.mem_cons_self ..)
  obtain ⟨c, hc, -, hk, -⟩ := h.folded _ hm sharedName.indexes[0] (List.mem_cons_self ..) rfl
  obtain rfl := List.mem_singleton.mp hc
  cases hk

end Corebase.TableObjects
