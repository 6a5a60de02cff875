import Corebase.SqlGuard

namespace Corebase.Verdicts

open JsText SqlLex SqlGuard

theorem drops_dangerous (drops : List AlterDrop) :
    (drops.filterMap AlterDrop.columnName ≠ [] ∨ drops.filterMap AlterDrop.constraintName ≠ [] ∨
      drops.any AlterDrop.unnamed = true) ↔ ∃ d ∈ drops, d ≠ .other := by
  simp only [ne_eq, List.filterMap_eq_nil_iff, not_forall, List.any_eq_true, exists_prop]
  constructor
  · rintro (⟨d, hd, h⟩ | ⟨d, hd, h⟩ | ⟨d, hd, h⟩)
    all_goals
      refine ⟨d, hd, ?_⟩
      rintro rfl
    · exact h rfl
    · exact h rfl
    · cases h
  · rintro ⟨d, hd, h⟩
    cases d with
    | column name =>
        cases name with
        | none => exact .inr (.inr ⟨_, hd, rfl⟩)
        | some n => exact .inl ⟨_, hd, by simp [AlterDrop.columnName]⟩
    | constraint name =>
        cases name with
        | none => exact .inr (.inr ⟨_, hd, rfl⟩)
        | some n => exact .inr (.inl ⟨_, hd, by simp [AlterDrop.constraintName]⟩)
    | other => exact absurd rfl h

theorem alterVerdict_danger (s : Statement) :
    (alterVerdict s).danger ≠ .safe ↔ ∃ ts ∈ alterActions s, actionDrop s ts ≠ .other := by
  have hdrops := drops_dangerous ((alterActions s).map (actionDrop s))
  simp only [List.mem_map, exists_exists_and_eq_and] at hdrops
  rw [← hdrops]
  simp only [alterVerdict]
  generalize (alterActions s).map (actionDrop s) = drops
  split
  next hc => exact ⟨fun _ => .inl hc, fun _ => by simp⟩
  next hc =>
    split
    next hk => exact ⟨fun _ => .inr (.inl hk), fun _ => by simp⟩
    next hk =>
      split
      next hu => exact ⟨fun _ => .inr (.inr hu), fun _ => by simp⟩
      next hu => exact ⟨fun h => absurd rfl h, fun h => absurd h (by simp only [hc, hk, hu]; simp)⟩

theorem grantVerdict_danger (s : Statement) : (grantVerdict s).danger ≠ .safe ↔ grantee s ≠ none := by
  unfold grantVerdict
  cases h : grantee s <;> simp [harmless]

theorem dropVerdict_danger (s : Statement) : (dropVerdict s).danger ≠ .safe := by
  simp only [dropVerdict]
  split
  · split <;> simp
  · simp

theorem writeVerdict_danger (command verb : String) (s : Statement) :
    (writeVerdict command verb s).danger ≠ .safe ↔ hasTopLevelWhere s = false := by
  unfold writeVerdict
  cases h : hasTopLevelWhere s <;> simp [harmless]

/-- The statements that the guard calls dangerous, by their first word. -/
theorem danger_iff (s : Statement) : (SqlGuard.danger s).danger ≠ .safe ↔
    lead s = lit "DROP" ∨ lead s = lit "TRUNCATE" ∨
      ((lead s = lit "DELETE" ∨ lead s = lit "UPDATE") ∧ hasTopLevelWhere s = false) ∨
      (lead s = lit "ALTER" ∧ ∃ ts ∈ alterActions s, actionDrop s ts ≠ .other) ∨
      (lead s = lit "GRANT" ∧ grantee s ≠ none) := by
  simp only [SqlGuard.danger]
  split
  next h => simp [h, dropVerdict_danger]
  next h =>
  split
  next h => simp [h, alterVerdict_danger, lit]
  next h =>
  split
  next h => simp [h, grantVerdict_danger, lit]
  next h =>
  split
  next h => simp [h, truncateVerdict, lit]
  next h =>
  split
  next h => simp [h, deleteVerdict, writeVerdict_danger, lit]
  next h =>
  split
  next h => simp [h, updateVerdict, writeVerdict_danger, lit]
  next h => simp_all [harmless]

theorem danger_alter {s : Statement} (h : lead s = lit "ALTER") :
    danger s = alterVerdict s := by
  have hne : lit "ALTER" ≠ lit "DROP" := by decide
  simp only [danger, h, hne, if_false, if_true]

theorem alterVerdict_columns (s : Statement) :
    ((alterVerdict s).danger = .typeName ↔
      ((alterActions s).map (actionDrop s)).filterMap AlterDrop.columnName ≠ []) ∧
    (alterVerdict s).names = ((alterActions s).map (actionDrop s)).filterMap AlterDrop.columnName := by
  unfold alterVerdict
  by_cases hc : ((alterActions s).map (actionDrop s)).filterMap AlterDrop.columnName = []
  · simp only [hc, ne_eq, not_true_eq_false, if_false]
    split
    · exact ⟨by simp, rfl⟩
    split
    · exact ⟨by simp, rfl⟩
    · exact ⟨by simp [harmless], rfl⟩
  · simp only [ne_eq, hc, not_false_eq_true, if_true, and_self]

theorem names_other {s : Statement} (hd : lead s ≠ lit "DROP") (ha : lead s ≠ lit "ALTER") :
    (danger s).names = [] := by
  simp only [danger, hd, ha, if_false]
  split
  · unfold grantVerdict
    split <;> rfl
  split
  · rfl
  split
  · simp only [deleteVerdict, writeVerdict]
    split <;> rfl
  split
  · simp only [updateVerdict, writeVerdict]
    split <;> rfl
  · rfl

/-- Only the statements of the upper rungs have names to type. -/
theorem names_danger {s : Statement} (h : (SqlGuard.danger s).names ≠ []) : (SqlGuard.danger s).danger ≠ .safe := by
  by_cases hd : lead s = lit "DROP"
  · rw [danger_iff]
    exact .inl hd
  by_cases ha : lead s = lit "ALTER"
  · rw [danger_alter ha] at h ⊢
    obtain ⟨hdanger, hnames⟩ := alterVerdict_columns s
    rw [hnames, ← hdanger] at h
    rw [h]
    decide
  · exact absurd (names_other hd ha) h

theorem worse_safe (a b : Danger) : worse a b = .safe ↔ a = .safe ∧ b = .safe := by
  cases a <;> cases b <;> decide

theorem foldl_worse (ss : List Classified) (acc : Danger) :
    ss.foldl (fun acc s => worse acc s.danger) acc = .safe ↔ acc = .safe ∧ ∀ s ∈ ss, s.danger = .safe := by
  induction ss generalizing acc with
  | nil => simp
  | cons s ss ih => rw [List.foldl_cons, ih, worse_safe]; simp [and_assoc]

theorem classify_danger (sql : Text) :
    (classify sql).danger ≠ .safe ↔ ∃ s ∈ split sql, (SqlGuard.danger s).danger ≠ .safe := by
  have h := foldl_worse ((split sql).map classifyOne) .safe
  change (classify sql).danger = .safe ↔ _ at h
  rw [ne_eq, h]
  simp [classifyOne]

theorem mem_distinct {n : Text} {ns : List Text} : n ∈ distinct ns ↔ n ∈ ns := by
  induction ns with
  | nil => rfl
  | cons m ns ih =>
      rw [distinct, List.mem_cons, List.mem_filter, ih, List.mem_cons]
      by_cases hm : n = m <;> simp [hm]

theorem nodup_distinct (ns : List Text) : (distinct ns).Nodup := by
  induction ns with
  | nil => exact .nil
  | cons m ns ih =>
      rw [distinct, List.nodup_cons]
      exact ⟨by simp, ih.filter _⟩

theorem mem_namesToType {sql n : Text} :
    n ∈ (classify sql).namesToType ↔ ∃ s ∈ split sql, n ∈ (SqlGuard.danger s).names := by
  simp [classify, mem_distinct, classifyOne]

/-- A script that is safe to run has no names to type. -/
theorem namesToType_safe {sql : Text} (h : (classify sql).danger = .safe) : (classify sql).namesToType = [] := by
  rw [List.eq_nil_iff_forall_not_mem]
  intro n hn
  obtain ⟨s, hs, hn⟩ := mem_namesToType.mp hn
  exact (classify_danger sql).mpr ⟨s, hs, names_danger (List.ne_nil_of_mem hn)⟩ h

end Corebase.Verdicts
