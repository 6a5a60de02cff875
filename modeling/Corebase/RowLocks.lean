import Mathlib.Data.List.Dedup
import Mathlib.Logic.Function.Basic

namespace Corebase.RowLocks

/-- A table under concurrent transactions: its committed rows, and for each locked row the client
that holds it with its own version of the row, none where the client has deleted it. -/
structure Table (Client Key Row : Type) where
  committed : Key → Option Row
  lock : Key → Option (Client × Option Row)
  keys : List Key
  mem_keys : ∀ k, committed k ≠ none ∨ lock k ≠ none → k ∈ keys

variable {Client Key Row : Type} [DecidableEq Client]

namespace Table

def empty : Table Client Key Row := ⟨fun _ => none, fun _ => none, [], by simp⟩

/-- The version of a row that a statement of the client sees. -/
def view (t : Table Client Key Row) (c : Client) (k : Key) : Option Row :=
  match t.lock k with
  | some (d, v) => if d = c then v else t.committed k
  | none => t.committed k

/-- No other client holds the row. -/
def free (t : Table Client Key Row) (c : Client) (k : Key) : Bool :=
  match t.lock k with
  | some (d, _) => d = c
  | none => true

/-- The locks without those of the client. -/
def released (t : Table Client Key Row) (c : Client) (k : Key) : Option (Client × Option Row) :=
  (t.lock k).filter fun held => held.1 ≠ c

def commit (t : Table Client Key Row) (c : Client) : Table Client Key Row where
  committed := t.view c
  lock := t.released c
  keys := t.keys
  mem_keys k h := by
    refine t.mem_keys k ?_
    rcases h with h | h
    · by_cases hlock : t.lock k = none
      · simp only [view, hlock] at h
        exact .inl h
      · exact .inr hlock
    · refine .inr fun hlock => h ?_
      simp [released, hlock]

def rollback (t : Table Client Key Row) (c : Client) : Table Client Key Row where
  committed := t.committed
  lock := t.released c
  keys := t.keys
  mem_keys k h := by
    refine t.mem_keys k (h.imp_right fun h hlock => h ?_)
    simp [released, hlock]

/-- The table without the rows that a deletion is about. -/
def sweep (t : Table Client Key Row) (p : Row → Bool) : Table Client Key Row where
  committed k := (t.committed k).filter fun row => !p row
  lock := t.lock
  keys := t.keys
  mem_keys k h := by
    refine t.mem_keys k (h.imp_left fun h hnone => h ?_)
    rw [hnone]
    rfl

variable [DecidableEq Key]

def write (t : Table Client Key Row) (c : Client) (k : Key) (v : Option Row) : Table Client Key Row where
  committed := t.committed
  lock := Function.update t.lock k (some (c, v))
  keys := k :: t.keys
  mem_keys j h := by
    by_cases hj : j = k
    · simp [hj]
    · simp only [Function.update_of_ne hj] at h
      exact List.mem_cons_of_mem k (t.mem_keys j h)

/-- The client deletes its rows of a kind. -/
def clear (t : Table Client Key Row) (c : Client) (p : Key → Row → Bool) : Table Client Key Row where
  committed := t.committed
  lock k := if (t.view c k).any (p k) then some (c, none) else t.lock k
  keys := t.keys
  mem_keys k h := by
    refine t.mem_keys k ?_
    by_cases hlock : t.lock k = none
    · by_cases hcommitted : t.committed k = none
      · simp [view, hlock, hcommitted] at h
      · exact .inl hcommitted
    · exact .inr hlock

/-- The rows that a statement of the client sees. -/
def rows (t : Table Client Key Row) (c : Client) : List (Key × Row) :=
  t.keys.dedup.filterMap fun k => (t.view c k).map fun row => (k, row)

/-- A table of one committed row. -/
def single (k : Key) (row : Row) : Table Client Key Row where
  committed j := if j = k then some row else none
  lock _ := none
  keys := [k]
  mem_keys j h := by
    by_contra hj
    simp [List.mem_singleton.not.mp hj] at h

variable {t t' : Table Client Key Row} {c d : Client} {k j : Key} {v w old new : Option Row}

omit [DecidableEq Key] in
theorem view_of_lock (h : t.lock k = some (c, v)) : t.view c k = v := by
  simp [view, h]

omit [DecidableEq Key] in
theorem view_of_other (h : ∀ v, t.lock k ≠ some (c, v)) : t.view c k = t.committed k := by
  unfold view
  split
  next e v hlock =>
    split
    next he => exact absurd (he ▸ hlock) (h v)
    next => rfl
  next => rfl

theorem mem_rows {row : Row} : (k, row) ∈ t.rows c ↔ t.view c k = some row := by
  simp only [rows, List.mem_filterMap, List.mem_dedup, Option.map_eq_some_iff, Prod.mk.injEq]
  constructor
  · rintro ⟨j, _, row', hview, rfl, rfl⟩
    exact hview
  · intro hview
    refine ⟨k, t.mem_keys k ?_, row, hview, rfl, rfl⟩
    by_cases hlock : t.lock k = none
    · simp only [view, hlock] at hview
      exact .inl (by simp [hview])
    · exact .inr hlock

theorem nodup_rows : (t.rows c).Nodup := by
  refine List.Nodup.filterMap (fun j k row hj hk => ?_) t.keys.nodup_dedup
  simp only [Option.mem_def, Option.map_eq_some_iff] at hj hk
  obtain ⟨_, _, rfl⟩ := hj
  obtain ⟨_, _, heq⟩ := hk
  exact (congrArg Prod.fst heq).symm

omit [DecidableEq Key] in
theorem released_eq : t.released c k = some (d, v) ↔ t.lock k = some (d, v) ∧ d ≠ c := by
  simp [released, Option.filter_eq_some_iff]

omit [DecidableEq Client] in
@[simp] theorem committed_write : (t.write c k v).committed = t.committed := rfl

omit [DecidableEq Client] in
@[simp] theorem lock_write_self : (t.write c k v).lock k = some (c, v) := Function.update_self ..

omit [DecidableEq Client] in
theorem lock_write_of_ne (h : j ≠ k) : (t.write c k v).lock j = t.lock j := Function.update_of_ne h ..

section Holding

/-- The client holds no row. -/
def Out (t : Table Client Key Row) (c : Client) : Prop := ∀ k v, t.lock k ≠ some (c, v)

/-- The client has changed none of the rows it holds. -/
def Untouched (t : Table Client Key Row) (c : Client) : Prop := ∀ k v, t.lock k = some (c, v) → v = t.committed k

/-- The client holds no other row than this one. -/
def Only (t : Table Client Key Row) (c : Client) (k : Key) : Prop := ∀ j v, t.lock j = some (c, v) → j = k

/-- The client holds the row and has changed it, and no other one. -/
structure Wrote (t : Table Client Key Row) (c : Client) (k : Key) (old new : Option Row) : Prop where
  committed : t.committed k = old
  lock : t.lock k = some (c, new)
  others : ∀ j v, t.lock j = some (c, v) → j = k ∨ v = t.committed j

/-- What the client holds is as it was. -/
def Undisturbed (c : Client) (t t' : Table Client Key Row) : Prop :=
  ∀ k v, (t'.lock k = some (c, v) ↔ t.lock k = some (c, v)) ∧
    (t.lock k = some (c, v) → t'.committed k = t.committed k)

omit [DecidableEq Client] [DecidableEq Key]

theorem Out.untouched (h : t.Out c) : t.Untouched c := fun k v hk => absurd hk (h k v)

theorem Undisturbed.refl : Undisturbed c t t := fun _ _ => ⟨Iff.rfl, fun _ => rfl⟩

theorem Undisturbed.trans {t'' : Table Client Key Row} (h : Undisturbed c t t') (h' : Undisturbed c t' t'') :
    Undisturbed c t t'' := fun k v =>
  ⟨(h' k v).1.trans (h k v).1, fun hk => ((h' k v).2 ((h k v).1.mpr hk)).trans ((h k v).2 hk)⟩

theorem Out.stable (h : t.Out c) (hu : Undisturbed c t t') : t'.Out c := fun k v hk => h k v ((hu k v).1.mp hk)

theorem Untouched.stable (h : t.Untouched c) (hu : Undisturbed c t t') : t'.Untouched c := by
  intro k v hk
  have hold := (hu k v).1.mp hk
  rw [(hu k v).2 hold]
  exact h k v hold

theorem Only.stable (h : t.Only c k) (hu : Undisturbed c t t') : t'.Only c k :=
  fun j v hj => h j v ((hu j v).1.mp hj)

theorem Wrote.stable (h : t.Wrote c k old new) (hu : Undisturbed c t t') : t'.Wrote c k old new where
  committed := ((hu k new).2 h.lock).trans h.committed
  lock := (hu k new).1.mpr h.lock
  others j v hj := by
    have hold := (hu j v).1.mp hj
    rw [(hu j v).2 hold]
    exact h.others j v hold

end Holding

section Statements

omit [DecidableEq Key]

theorem Untouched.view (h : t.Untouched c) : t.view c k = t.committed k := by
  by_cases hk : ∃ v, t.lock k = some (c, v)
  · obtain ⟨v, hv⟩ := hk
    rw [view_of_lock hv, h k v hv]
  · exact view_of_other fun v hv => hk ⟨v, hv⟩

theorem Untouched.commit (h : t.Untouched c) : (t.commit c).committed = t.committed := funext fun _ => h.view

theorem out_commit : (t.commit c).Out c := fun _ _ hk => (released_eq.mp hk).2 rfl

theorem out_rollback : (t.rollback c).Out c := fun _ _ hk => (released_eq.mp hk).2 rfl

theorem undisturbed_commit (h : d ≠ c) : Undisturbed d t (t.commit c) := by
  refine fun k v => ⟨?_, fun hk => ?_⟩
  · exact released_eq.trans ⟨And.left, fun hk => ⟨hk, h⟩⟩
  · refine view_of_other fun w hw => h ?_
    rw [hk] at hw
    cases hw
    rfl

theorem undisturbed_rollback (h : d ≠ c) : Undisturbed d t (t.rollback c) :=
  fun _ _ => ⟨released_eq.trans ⟨And.left, fun hk => ⟨hk, h⟩⟩, fun _ => rfl⟩

omit [DecidableEq Client] in
/-- Rows that are held are not swept. -/
theorem undisturbed_sweep {p : Row → Bool} (h : ∀ k, (t.committed k).any p = true → t.lock k = none) :
    Undisturbed c t (t.sweep p) := by
  refine fun k v => ⟨Iff.rfl, fun hk => ?_⟩
  cases hrow : t.committed k with
  | none => simp [sweep, hrow]
  | some row =>
      cases hp : p row with
      | false => simp [sweep, hrow, hp]
      | true => cases hk.symm.trans (h k (by simp [hrow, hp]))

/-- The client holds the rows of a kind to delete them, and no other row. -/
structure Cleared (t : Table Client Key Row) (c : Client) (p : Key → Row → Bool) : Prop where
  held : ∀ k v, t.lock k = some (c, v) → v = none ∧ (t.committed k).any (p k) = true
  all : ∀ k, (t.committed k).any (p k) = true → t.lock k = some (c, none)

theorem Out.clear {p : Key → Row → Bool} (h : t.Out c) : (t.clear c p).Cleared c p := by
  have hview : ∀ k, t.view c k = t.committed k := fun k => h.untouched.view
  constructor
  · intro k v hk
    simp only [Table.clear, hview] at hk
    split at hk
    next hp => exact ⟨by cases hk; rfl, hp⟩
    next => exact absurd hk (h k v)
  · intro k hk
    simp only [Table.clear, hview] at hk ⊢
    rw [if_pos hk]

theorem undisturbed_clear {p : Key → Row → Bool} (h : d ≠ c)
    (hfree : ∀ k, (t.view c k).any (p k) = true → t.free c k = true) : Undisturbed d t (t.clear c p) := by
  refine fun k v => ⟨?_, fun _ => rfl⟩
  simp only [clear]
  split
  next hp =>
    have hk := hfree k hp
    constructor
    · intro heq
      cases heq
      exact absurd rfl h
    · intro heq
      simp only [free, heq, decide_eq_true_eq] at hk
      exact absurd hk h
  next => exact Iff.rfl

/-- Where rows only go, what is to be deleted stays so. -/
theorem Cleared.stable {p : Key → Row → Bool} (h : t.Cleared c p) (hu : Undisturbed c t t')
    (hgo : ∀ k, t'.committed k = none ∨ t'.committed k = t.committed k) : t'.Cleared c p := by
  constructor
  · intro k v hk
    have hold := (hu k v).1.mp hk
    rw [(hu k v).2 hold]
    exact h.held k v hold
  · intro k hk
    rcases hgo k with hnone | hsame
    · rw [hnone] at hk
      cases hk
    · rw [hsame] at hk
      exact (hu k none).1.mpr (h.all k hk)

theorem Cleared.commit {p : Key → Row → Bool} (h : t.Cleared c p) (k : Key) :
    (t.commit c).committed k = if (t.committed k).any (p k) then none else t.committed k := by
  split
  next hp => exact view_of_lock (h.all k hp)
  next hp => exact view_of_other fun v hv => hp (h.held k v hv).2

variable [DecidableEq Key]

theorem undisturbed_write (h : d ≠ c) (hfree : t.free c k = true) : Undisturbed d t (t.write c k v) := by
  refine fun j w => ⟨?_, fun _ => rfl⟩
  by_cases hj : j = k
  · subst hj
    rw [lock_write_self]
    constructor <;> intro hk
    · cases hk
      exact absurd rfl h
    · simp only [free, hk, decide_eq_true_eq] at hfree
      exact absurd hfree h
  · rw [lock_write_of_ne hj]

omit [DecidableEq Client] in
theorem Untouched.write (h : t.Untouched c) (v : Option Row) : (t.write c k v).Wrote c k (t.committed k) v where
  committed := rfl
  lock := lock_write_self
  others j w hj := by
    by_cases hk : j = k
    · exact .inl hk
    · rw [lock_write_of_ne hk] at hj
      exact .inr (h j w hj)

omit [DecidableEq Client] in
theorem Wrote.write (h : t.Wrote c k old new) (v : Option Row) : (t.write c k v).Wrote c k old v where
  committed := h.committed
  lock := lock_write_self
  others j w hj := by
    by_cases hk : j = k
    · exact .inl hk
    · rw [lock_write_of_ne hk] at hj
      exact h.others j w hj

omit [DecidableEq Client] in
/-- A row that is locked as it is stays untouched. -/
theorem Untouched.locked (h : t.Untouched c) : (t.write c k (t.committed k)).Untouched c := by
  intro j w hj
  by_cases hk : j = k
  · subst hk
    rw [lock_write_self] at hj
    cases hj
    rfl
  · rw [lock_write_of_ne hk] at hj
    exact h j w hj

omit [DecidableEq Client] in
theorem Out.only (h : t.Out c) (v : Option Row) : (t.write c k v).Only c k := by
  intro j w hj
  by_contra hk
  rw [lock_write_of_ne hk] at hj
  exact h j w hj

theorem Wrote.commit (h : t.Wrote c k old new) : (t.commit c).committed = Function.update t.committed k new := by
  funext j
  by_cases hj : j = k
  · subst hj
    rw [Function.update_self]
    exact view_of_lock h.lock
  · rw [Function.update_of_ne hj]
    by_cases hlock : ∃ w, t.lock j = some (c, w)
    · obtain ⟨w, hw⟩ := hlock
      exact (view_of_lock hw).trans ((h.others j w hw).resolve_left hj)
    · exact view_of_other fun w hw => hlock ⟨w, hw⟩

end Statements

end Table

end Corebase.RowLocks
