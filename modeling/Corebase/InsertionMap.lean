import Mathlib.Data.List.AList

namespace Corebase.InsertionMap

/-- A map that is read in the order in which its keys were first set. -/
abbrev Map (K V : Type) := AList fun _ : K => V

variable {K V : Type} [DecidableEq K]

/-- A key that is there keeps its place. -/
def set (k : K) (v : V) (m : Map K V) : Map K V :=
  if h : k ∈ m then m.replace k v
  else ⟨m.entries ++ [⟨k, v⟩], by
    rw [List.NodupKeys, List.keys, List.map_append, List.nodup_append]
    refine ⟨m.keys_nodup, List.nodup_singleton _, ?_⟩
    rintro a ha b hb rfl
    obtain rfl : a = k := List.mem_singleton.mp hb
    exact h ha⟩

/-- The first keys are deleted until the map is not larger than the bound. -/
def evict (bound : Nat) : List K → Map K V → Map K V
  | [], m => m
  | k :: ks, m => if (m.erase k).keys.length ≤ bound then m.erase k else evict bound ks (m.erase k)

variable {k x : K} {v : V} {m : Map K V}

theorem keys_set_of_mem (h : k ∈ m) (v : V) : (set k v m).keys = m.keys := by
  rw [set, dif_pos h, AList.keys_replace]

theorem keys_set_of_notMem (h : k ∉ m) (v : V) : (set k v m).keys = m.keys ++ [k] := by
  rw [set, dif_neg h]
  exact List.map_append

theorem mem_set : x ∈ set k v m ↔ x = k ∨ x ∈ m := by
  rw [AList.mem_keys, AList.mem_keys]
  by_cases h : k ∈ m
  · rw [keys_set_of_mem h]
    exact ⟨.inr, fun hx => hx.elim (fun he => he ▸ h) id⟩
  · rw [keys_set_of_notMem h, List.mem_append, List.mem_singleton, or_comm]

theorem dlookup_kreplace (l : List (Sigma fun _ : K => V)) :
    (List.kreplace k v l).dlookup x = if x = k ∧ k ∈ l.keys then some v else l.dlookup x := by
  induction l with
  | nil => simp [List.kreplace]
  | cons e l ih =>
      obtain ⟨a, b⟩ := e
      rw [List.kreplace] at ih ⊢
      by_cases hk : k = a
      · subst a
        rw [List.lookmap_cons_some _ l (if_pos rfl)]
        by_cases hx : x = k
        · subst x
          simp
        · rw [List.dlookup_cons_ne _ _ hx, List.dlookup_cons_ne _ _ hx, if_neg fun h => hx h.1]
      · rw [List.lookmap_cons_none _ l (if_neg hk)]
        by_cases hx : x = a
        · subst x
          rw [List.dlookup_cons_eq, List.dlookup_cons_eq, if_neg fun h => hk h.1.symm]
        · rw [List.dlookup_cons_ne _ _ hx, List.dlookup_cons_ne _ _ hx, ih]
          simp [hk]

theorem lookup_set : (set k v m).lookup x = if x = k then some v else m.lookup x := by
  by_cases h : k ∈ m
  · rw [set, dif_pos h]
    change (List.kreplace k v m.entries).dlookup x = if x = k then some v else m.entries.dlookup x
    have hkey : k ∈ m.entries.keys := h
    rw [dlookup_kreplace]
    simp [hkey]
  · rw [set, dif_neg h]
    change (m.entries ++ [Sigma.mk k v]).dlookup x = if x = k then some v else m.entries.dlookup x
    rw [List.dlookup_append]
    by_cases hx : x = k
    · subst x
      rw [List.dlookup_eq_none.mpr h, if_pos rfl]
      simp
    · rw [if_neg hx, List.dlookup_cons_ne _ _ hx, List.dlookup_nil, Option.or_none]

/-- One deletion is enough where the map is too large by one. -/
theorem evict_first {bound : Nat} {ks : List K} (h : m.keys = k :: ks) (hbound : m.keys.length ≤ bound + 1) :
    evict bound m.keys m = m.erase k := by
  rw [h, evict, if_pos]
  rw [AList.keys_erase, h, List.erase_cons_head]
  rw [h, List.length_cons] at hbound
  exact Nat.le_of_succ_le_succ hbound

end Corebase.InsertionMap
