import Mathlib.Logic.Function.Basic

namespace Corebase.ReadCommitted

/-- A table under concurrent transactions: its committed rows, and the row versions that each
client has written in its open transaction, each under the lock of its row. -/
@[ext] structure Table (Client Key Row : Type) where
  committed : Key → Option Row
  pending : Client → Key → Option Row

variable {Client Key Row : Type}

namespace Table

def empty : Table Client Key Row := ⟨fun _ => none, fun _ _ => none⟩

/-- The version of a row that a statement of the client sees. -/
def sees (t : Table Client Key Row) (c : Client) (k : Key) : Option Row := (t.pending c k).or (t.committed k)

/-- No other client has the lock of the row. -/
def Free (t : Table Client Key Row) (c : Client) (k : Key) : Prop := ∀ d, d ≠ c → t.pending d k = none

/-- The client has written nothing that is still open. -/
def Clean (t : Table Client Key Row) (c : Client) : Prop := ∀ k, t.pending c k = none

def Unused (t : Table Client Key Row) (k : Key) : Prop := t.committed k = none ∧ ∀ d, t.pending d k = none

/-- The key is above every one in use. -/
def Newest [LT Key] (t : Table Client Key Row) (k : Key) : Prop := ∀ j, ¬ t.Unused j → j < k

/-- The rows that the snapshot of a statement selects. It visits them one by one, waits for
the lock of each, and looks at the row again before it writes. -/
def Selects (t : Table Client Key Row) (c : Client) (p : Key → Row → Prop) (ks : List Key) : Prop :=
  ∀ k, k ∈ ks ↔ ∃ row, t.sees c k = some row ∧ p k row

/-- No two clients have written the same row. -/
def Exclusive (t : Table Client Key Row) : Prop :=
  ∀ c d k, t.pending c k ≠ none → t.pending d k ≠ none → c = d

variable {t : Table Client Key Row} {c d : Client} {k : Key} {row : Row}

theorem exclusive_empty : (empty : Table Client Key Row).Exclusive := fun _ _ _ h => absurd rfl h

theorem unused_empty : (empty : Table Client Key Row).Unused k := ⟨rfl, fun _ => rfl⟩

theorem Unused.sees (h : t.Unused k) : t.sees c k = none := by
  rw [Table.sees, h.1, h.2 c]
  rfl

variable [DecidableEq Client]

def commit (t : Table Client Key Row) (c : Client) : Table Client Key Row where
  committed := t.sees c
  pending := Function.update t.pending c fun _ => none

def rollback (t : Table Client Key Row) (c : Client) : Table Client Key Row where
  committed := t.committed
  pending := Function.update t.pending c fun _ => none

@[simp] theorem committed_commit : (t.commit c).committed k = (t.pending c k).or (t.committed k) := rfl

@[simp] theorem committed_rollback : (t.rollback c).committed = t.committed := rfl

@[simp] theorem pending_commit_self : (t.commit c).pending c k = none := by
  simp [commit]

theorem pending_commit_other (h : d ≠ c) : (t.commit c).pending d = t.pending d := by
  simp [commit, h]

@[simp] theorem pending_rollback_self : (t.rollback c).pending c k = none := by
  simp [rollback]

theorem pending_rollback_other (h : d ≠ c) : (t.rollback c).pending d = t.pending d := by
  simp [rollback, h]

theorem clean_commit : (t.commit c).Clean c := fun _ => pending_commit_self

theorem clean_rollback : (t.rollback c).Clean c := fun _ => pending_rollback_self

theorem pending_of_commit (h : (t.commit c).pending d k ≠ none) : t.pending d k ≠ none := by
  by_cases hdc : d = c
  · rw [hdc] at h
    exact absurd pending_commit_self h
  · rwa [pending_commit_other hdc] at h

theorem Exclusive.commit (h : t.Exclusive) : (t.commit c).Exclusive :=
  fun d e j hd he => h d e j (pending_of_commit hd) (pending_of_commit he)

theorem Exclusive.rollback (h : t.Exclusive) : (t.rollback c).Exclusive := fun d e j hd he => h.commit d e j hd he

/-- A row that a client has written keeps its committed version until that client ends. -/
theorem Exclusive.held (h : t.Exclusive) (hdc : d ≠ c) (hd : t.pending d k ≠ none) :
    (t.commit c).committed k = t.committed k := by
  have hc : t.pending c k = none := by
    by_contra hc
    exact hdc (h d c k hd hc)
  simp [hc]

theorem Unused.commit (h : t.Unused k) : (t.commit c).Unused k := by
  refine ⟨h.sees, fun d => ?_⟩
  by_contra hd
  exact pending_of_commit hd (h.2 d)

/-- Only clients that have not ended can hold a lock. -/
theorem free_commit (h : ∀ e, e ≠ c → e ≠ d → t.pending e k = none) : (t.commit d).Free c k := by
  intro e hec
  by_cases hed : e = d
  · rw [hed, pending_commit_self]
  · rw [pending_commit_other hed, h e hec hed]

variable [DecidableEq Key]

def write (t : Table Client Key Row) (c : Client) (k : Key) (row : Row) : Table Client Key Row where
  committed := t.committed
  pending := Function.update t.pending c (Function.update (t.pending c) k (some row))

@[simp] theorem committed_write : (t.write c k row).committed = t.committed := rfl

@[simp] theorem pending_write_self : (t.write c k row).pending c = Function.update (t.pending c) k (some row) := by
  simp [write]

theorem pending_write_other (h : d ≠ c) : (t.write c k row).pending d = t.pending d := by
  simp [write, h]

theorem Unused.write {j : Key} (h : t.Unused j) (hne : j ≠ k) : (t.write c k row).Unused j := by
  refine ⟨h.1, fun d => ?_⟩
  by_cases hd : d = c
  · rw [hd, pending_write_self, Function.update_of_ne hne]
    exact h.2 c
  · rw [pending_write_other hd]
    exact h.2 d

theorem Exclusive.write (h : t.Exclusive) (hfree : t.Free c k) : (t.write c k row).Exclusive := by
  intro d e j hd he
  by_cases hdc : d = c
  · by_cases hec : e = c
    · rw [hdc, hec]
    · rw [pending_write_other hec] at he
      by_cases hj : j = k
      · exact absurd (hj ▸ hfree e hec) he
      · rw [hdc, pending_write_self, Function.update_of_ne hj] at hd
        exact hdc.trans (h c e j hd he)
  · rw [pending_write_other hdc] at hd
    by_cases hec : e = c
    · by_cases hj : j = k
      · exact absurd (hj ▸ hfree d hdc) hd
      · rw [hec, pending_write_self, Function.update_of_ne hj] at he
        exact (h d c j hd he).trans hec.symm
    · rw [pending_write_other hec] at he
      exact h d e j hd he

end Table

end Corebase.ReadCommitted
