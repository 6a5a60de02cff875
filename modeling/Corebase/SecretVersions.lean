import Corebase.SecretStore

namespace Corebase.SecretVersions

open Interleaving RowLocks SecretStore

/-- The versions are written in order, the committed ones are among them, and the newest is the active one. -/
structure Lawful (s : Store) : Prop where
  ordered : s.written.Pairwise fun a b => b.1 < a.1
  rows : ∀ v row, s.rows.committed v = some row →
    (v, row.value) ∈ s.written ∧ (row.active = true ↔ s.written.head?.map Prod.fst = some v)
  newest : ∀ v x past, s.written = (v, x) :: past → s.rows.committed v ≠ none

/-- The client has a new version that it has not committed. -/
def Inserting (c : Client) (t : Table Client Version Secret) : Prop :=
  ∃ v row, t.lock v = some (c, some row) ∧ row.active = true ∧ t.committed v = none

/-- A rotation finds no active version that it has not demoted itself when it inserts its own. -/
def unopposed (c : Client) : Op → Store → Bool
  | .insertActive .., s => (activeRow c s).isNone
  | _, _ => true

def discipline (strict : Prop) : Discipline Client Store Op where
  Inv s := Lawful s ∧ (strict → s.failed = [])
  Guar c s s' := (∀ d, d ≠ c → Table.Undisturbed d s.rows s'.rows) ∧ (s.written ≠ [] → s'.written ≠ []) ∧
    ∀ d, d ≠ c → Inserting d s.rows → s'.written = s.written ∧ (Inserting c s'.rows → Inserting c s.rows)
  Idle c s := s.rows.Out c
  Allowed c op s := strict → unopposed c op s = true

variable {strict : Prop} {c d : Client} {s s' : Store} {v w : Version} {row : Secret} {x : Value} {chance : Chance}
  {t t' : Table Client Version Secret}

section Stores

theorem activeRow_some (h : activeRow c s = some (v, row)) : s.rows.view c v = some row ∧ row.active = true :=
  ⟨Table.mem_rows.mp (List.mem_of_find?_eq_some h), by simpa using List.find?_some h⟩

theorem activeRow_none (h : activeRow c s = none) (hv : s.rows.view c v = some row) : row.active = false := by
  simpa using List.find?_eq_none.mp h (v, row) (Table.mem_rows.mpr hv)

theorem maxVersion_eq (hv : s.rows.view c v = some row) (hmax : ∀ w row, s.rows.view c w = some row → w ≤ v) :
    maxVersion c s = v := by
  have h : ((s.rows.rows c).map Prod.fst).max? = some v := by
    refine List.max?_eq_some_iff.mpr ⟨List.mem_map.mpr ⟨(v, row), Table.mem_rows.mpr hv, rfl⟩, fun w hw => ?_⟩
    obtain ⟨⟨w', row'⟩, hw', rfl⟩ := List.mem_map.mp hw
    exact hmax w' row' (Table.mem_rows.mp hw')
  rw [maxVersion, h, Option.getD_some]

theorem maxVersion_zero (h : ∀ w, s.rows.view c w = none) : maxVersion c s = 0 := by
  have hrows : s.rows.rows c = [] := by
    refine List.eq_nil_iff_forall_not_mem.mpr fun row hrow => ?_
    cases (h row.1).symm.trans (Table.mem_rows.mp hrow)
  simp [maxVersion, hrows]

theorem not_inserting (h : contended c s = false) (hd : d ≠ c) : ¬ Inserting d s.rows := by
  rintro ⟨v, row, hlock, hactive, hnone⟩
  have hk := List.any_eq_false.mp h v (s.rows.mem_keys v (.inr (by simp [hlock])))
  simp [hlock, hd, hactive, hnone] at hk

theorem insertActive_cases (chance : Chance) {ok : Bool} (h : exec c chance (.insertActive v x) s = some (ok, s')) :
    contended c s = false ∧
      (ok = false ∧ ¬ (s.rows.view c v = none ∧ activeRow c s = none) ∧ s' = { s with failed := c :: s.failed } ∨
      ok = true ∧ activeRow c s = none ∧ s.rows.free c v = true ∧
        s' = { s with rows := s.rows.write c v (some ⟨x, true, none⟩) }) := by
  simp only [exec] at h
  split at h
  next => cases h
  next hcontended =>
    refine ⟨by simpa using hcontended, ?_⟩
    split at h
    next hclash =>
      cases h
      refine .inl ⟨rfl, fun hnone => ?_, rfl⟩
      simp [hnone.1, hnone.2] at hclash
    next hclash =>
      simp only [Bool.or_eq_true, not_or, Option.not_isSome_iff_eq_none] at hclash
      split at h <;> cases h
      next hfree => exact .inr ⟨rfl, hclash.2, hfree, rfl⟩

theorem insertFirst_cases (chance : Chance) {ok : Bool} (h : exec c chance (.insertFirst x) s = some (ok, s')) :
    (ok = false ∧ s' = s) ∨ ok = true ∧ contended c s = false ∧ activeRow c s = none ∧ s.rows.free c 1 = true ∧
      s' = writeFirst c x s := by
  simp only [exec] at h
  split at h
  next =>
    cases h
    exact .inl ⟨rfl, rfl⟩
  next =>
    split at h
    next => cases h
    next hcontended =>
      split at h
      next =>
        cases h
        exact .inl ⟨rfl, rfl⟩
      next hnone =>
        split at h <;> cases h
        next hfree => exact .inr ⟨rfl, by simpa using hcontended, by simpa using hnone, hfree, rfl⟩

theorem Lawful.le_head (h : Lawful s) {past : List (Version × Value)} (hw : s.written = (w, x) :: past)
    (hv : s.rows.committed v = some row) : v ≤ w := by
  have hmem := (h.rows v row hv).1
  have hordered := h.ordered
  rw [hw] at hmem hordered
  rcases List.mem_cons.mp hmem with heq | hmem
  · exact Nat.le_of_eq (congrArg Prod.fst heq)
  · exact Nat.le_of_lt ((List.pairwise_cons.mp hordered).1 _ hmem)

theorem Lawful.active_head (h : Lawful s) (hv : s.rows.committed v = some row) (ha : row.active = true) :
    ∃ past, s.written = (v, row.value) :: past := by
  obtain ⟨hmem, hactive⟩ := h.rows v row hv
  have hordered := h.ordered
  have hhead := hactive.mp ha
  cases hw : s.written with
  | nil =>
      rw [hw] at hmem
      cases hmem
  | cons e past =>
      rw [hw] at hmem hhead hordered
      obtain rfl : e.1 = v := by simpa using hhead
      rcases List.mem_cons.mp hmem with heq | hmem
      · exact ⟨past, by rw [heq]⟩
      · exact absurd ((List.pairwise_cons.mp hordered).1 _ hmem) (Nat.lt_irrefl _)

/-- The store is empty before the first version, and has an active one after it. -/
theorem Lawful.empty (h : Lawful s) (hw : s.written = []) : s.rows.committed v = none := by
  cases hv : s.rows.committed v with
  | none => rfl
  | some row =>
      have hmem := (h.rows v row hv).1
      rw [hw] at hmem
      cases hmem

theorem Lawful.active (h : Lawful s) (hw : s.written ≠ []) :
    ∃ v row, s.rows.committed v = some row ∧ row.active = true := by
  cases hlist : s.written with
  | nil => exact absurd hlist hw
  | cons e past =>
      obtain ⟨row, hrow⟩ := Option.ne_none_iff_exists'.mp (h.newest e.1 e.2 past hlist)
      exact ⟨e.1, row, hrow, (h.rows _ _ hrow).2.mpr (by simp [hlist])⟩

theorem Lawful.first (h : Lawful s) (hview : s.rows.view c = s.rows.committed) (hnone : activeRow c s = none) :
    s.written = [] := by
  by_contra hw
  obtain ⟨v, row, hrow, ha⟩ := h.active hw
  rw [activeRow_none hnone (hview ▸ hrow)] at ha
  cases ha

/-- A version above all others takes the place of the active one, if there is one. -/
theorem Lawful.advance (h : Lawful s) (habove : ∀ e ∈ s.written, e.1 < v)
    (hnew : s'.rows.committed v = some ⟨x, true, none⟩) (hwritten : s'.written = (v, x) :: s.written)
    (hold : ∀ w row, w ≠ v → s'.rows.committed w = some row → row.active = false ∧
      ∃ row', s.rows.committed w = some row' ∧ row'.value = row.value) : Lawful s' := by
  refine ⟨?_, fun w row hw => ?_, fun w y past hw => ?_⟩
  · rw [hwritten]
    exact List.pairwise_cons.mpr ⟨habove, h.ordered⟩
  · rw [hwritten]
    by_cases hwv : w = v
    · subst hwv
      rw [hnew] at hw
      cases hw
      simp
    · obtain ⟨hinactive, row', hrow', hvalue⟩ := hold w row hwv hw
      refine ⟨List.mem_cons_of_mem _ (hvalue ▸ (h.rows w row' hrow').1), ?_⟩
      simp [hinactive, Ne.symm hwv]
  · rw [hwritten] at hw
    cases hw
    rw [hnew]
    exact Option.some_ne_none _

end Stores

section Rely

variable {Q : Store → Prop}

theorem guar_of (hu : ∀ d, d ≠ c → Table.Undisturbed d s.rows s'.rows) (hw : s'.written = s.written)
    (hins : ¬ Inserting c s'.rows) : (discipline strict).Guar c s s' :=
  ⟨hu, fun h => hw ▸ h, fun _ _ _ => ⟨hw, fun h => absurd h hins⟩⟩

theorem not_inserting_of_untouched (h : t.Untouched c) : ¬ Inserting c t := by
  rintro ⟨v, row, hlock, _, hnone⟩
  cases (h v _ hlock).trans hnone

theorem guar_refl (h : s.rows.Untouched c) : (discipline strict).Guar c s s :=
  guar_of (fun _ _ => .refl) rfl (not_inserting_of_untouched h)

theorem stable_rows {A : Table Client Version Secret → Prop}
    (hA : ∀ t t', A t → Table.Undisturbed c t t' → A t') : (discipline strict).Stable c fun s => A s.rows :=
  fun _ hd _ _ _ hG h => hA _ _ h (hG.1 c hd.symm)

theorem stable_written : (discipline strict).Stable c fun s => s.written ≠ [] :=
  fun _ _ _ _ _ hG h => hG.2.1 h

theorem Inserting.stable (h : Inserting c t) (hu : Table.Undisturbed c t t') : Inserting c t' := by
  obtain ⟨v, row, hlock, hactive, hnone⟩ := h
  exact ⟨v, row, (hu v _).1.mpr hlock, hactive, ((hu v _).2 hlock).trans hnone⟩

theorem Inserting.unstable (h : Inserting c t') (hu : Table.Undisturbed c t t') : Inserting c t := by
  obtain ⟨v, row, hlock, hactive, hnone⟩ := h
  have hold := (hu v _).1.mp hlock
  exact ⟨v, row, hold, hactive, ((hu v _).2 hold).symm.trans hnone⟩

/-- The client is the only one that is about to commit a new version. -/
def Alone (c : Client) (s : Store) : Prop := Inserting c s.rows ∧ ∀ d, d ≠ c → ¬ Inserting d s.rows

theorem stable_alone : (discipline strict).Stable c (Alone c) := by
  intro e he s s' _ hG ⟨hc, hothers⟩
  refine ⟨hc.stable (hG.1 c he.symm), fun d hd hins => ?_⟩
  by_cases hde : d = e
  · subst hde
    exact hothers d hd ((hG.2.2 c hd.symm hc).2 hins)
  · exact hothers d hd (hins.unstable (hG.1 d hde))

theorem stable_alone_written {ws : List (Version × Value)} :
    (discipline strict).Stable c fun s => Alone c s ∧ s.written = ws := by
  intro e he s s' hI hG ⟨halone, hw⟩
  exact ⟨stable_alone e he s s' hI hG halone, ((hG.2.2 c he.symm halone.1).1).trans hw⟩

theorem stable_idle : (discipline strict).Stable c ((discipline strict).Idle c) := stable_rows fun _ _ => Table.Out.stable

theorem meets_done : (discipline strict).Meets secrets c .done ((discipline strict).Idle c) := fun _ _ h => h

theorem meets_rolledBack : (discipline strict).Meets secrets c rolledBack Q := by
  intro s choice r s' hI _ _ hexec
  cases hexec
  have hlawful : Lawful { s with rows := s.rows.rollback c } := ⟨hI.1.ordered, hI.1.rows, hI.1.newest⟩
  exact ⟨⟨hlawful, hI.2⟩, guar_of (fun d hd => Table.undisturbed_rollback hd) rfl
    (not_inserting_of_untouched Table.out_rollback.untouched), _, stable_idle, Table.out_rollback, meets_done⟩

end Rely

section Programs

variable {Q : Store → Prop}

/-- A rotation whose locking read has come back without a row inserts the first version of a new store. -/
theorem meets_insertFirst : (discipline strict).Meets secrets c (insertNext v x)
    fun s => s.rows.Out c ∧ (v = 1 ∨ s.written ≠ []) := by
  intro s chance ok s' hI ⟨hout, hfirst⟩ hallowed hexec
  have hview : s.rows.view c = s.rows.committed := funext fun _ => hout.untouched.view
  obtain ⟨hcontended, ⟨rfl, hclash, rfl⟩ | ⟨rfl, hnone, hfree, rfl⟩⟩ := insertActive_cases chance hexec
  · refine ⟨⟨⟨hI.1.ordered, hI.1.rows, hI.1.newest⟩, fun hstrict => ?_⟩, guar_of (fun _ _ => .refl) rfl
      (not_inserting_of_untouched hout.untouched), _, Discipline.stable_true, trivial, meets_rolledBack⟩
    have hnone : activeRow c s = none := by simpa [unopposed] using hallowed hstrict
    exact absurd ⟨hview ▸ hI.1.empty (hI.1.first hview hnone), hnone⟩ hclash
  · have hwritten : s.written = [] := hI.1.first hview hnone
    obtain rfl : v = 1 := hfirst.resolve_right (not_not_intro hwritten)
    have hempty : s.rows.committed 1 = none := hI.1.empty hwritten
    have hwrote : (s.rows.write c 1 (some ⟨x, true, none⟩)).Wrote c 1 none (some ⟨x, true, none⟩) :=
      hempty ▸ hout.untouched.write _
    have hothers : ∀ d, d ≠ c → Table.Undisturbed d s.rows (s.rows.write c 1 (some ⟨x, true, none⟩)) :=
      fun d hd => Table.undisturbed_write hd hfree
    have halone : Alone c { s with rows := s.rows.write c 1 (some ⟨x, true, none⟩) } :=
      ⟨⟨1, _, Table.lock_write_self, rfl, hempty⟩,
        fun d hd hins => not_inserting hcontended hd (hins.unstable (hothers d hd))⟩
    refine ⟨⟨⟨hI.1.ordered, hI.1.rows, hI.1.newest⟩, hI.2⟩, ⟨hothers, id, fun d hd hins =>
      absurd hins (not_inserting hcontended hd)⟩, _, (stable_rows fun _ _ => Table.Wrote.stable).and stable_alone_written,
      ⟨hwrote, halone, hwritten⟩, ?_⟩
    intro s chance r s' hI ⟨hwrote, halone, hwritten⟩ _ hexec
    cases hexec
    have hcommit := hwrote.commit
    refine ⟨⟨hI.1.advance (v := 1) (x := x) (by simp [hwritten]) ?_ rfl fun w row hw hrow => ?_, hI.2⟩,
      ⟨fun d hd => Table.undisturbed_commit hd, fun _ h => (nomatch h), fun d hd hins =>
        absurd hins (halone.2 d hd)⟩, _, stable_idle, Table.out_commit, meets_done⟩
    · rw [hcommit, Function.update_self]
    · rw [hcommit, Function.update_of_ne hw, hI.1.empty hwritten] at hrow
      cases hrow

/-- The client has demoted the active version, and holds no other row. -/
def Demoted (c : Client) (v : Version) (row : Secret) (retired : Option Time) (t : Table Client Version Secret) : Prop :=
  row.active = true ∧ t.Wrote c v (some row) (some ⟨row.value, false, retired⟩) ∧ t.Only c v

theorem Demoted.stable {retired : Option Time} (h : Demoted c v row retired t) (hu : Table.Undisturbed c t t') :
    Demoted c v row retired t' := ⟨h.1, h.2.1.stable hu, h.2.2.stable hu⟩

theorem Demoted.not_inserting {retired : Option Time} (h : Demoted c v row retired t) : ¬ Inserting c t := by
  rintro ⟨w, row', hlock, _, hnone⟩
  obtain rfl := h.2.2 w _ hlock
  cases h.2.1.committed.symm.trans hnone

/-- The same with the version after it. -/
structure Advanced (c : Client) (v : Version) (row : Secret) (retired : Option Time) (x : Value)
    (t : Table Client Version Secret) : Prop where
  active : row.active = true
  old : t.committed v = some row
  demoted : t.lock v = some (c, some ⟨row.value, false, retired⟩)
  new : t.lock (v + 1) = some (c, some ⟨x, true, none⟩)
  only : ∀ w y, t.lock w = some (c, y) → w = v ∨ w = v + 1

theorem Advanced.stable {retired : Option Time} (h : Advanced c v row retired x t) (hu : Table.Undisturbed c t t') :
    Advanced c v row retired x t' where
  active := h.active
  old := ((hu v _).2 h.demoted).trans h.old
  demoted := (hu v _).1.mpr h.demoted
  new := (hu _ _).1.mpr h.new
  only w y hw := h.only w y ((hu w y).1.mp hw)

theorem meets_commitNext {retired : Option Time} : (discipline strict).Meets secrets c
    (.step (.commit (v + 1) x) fun _ => .done) fun s => Advanced c v row retired x s.rows ∧ Alone c s := by
  intro s chance r s' hI ⟨hadvanced, halone⟩ _ hexec
  cases hexec
  obtain ⟨past, hpast⟩ := hI.1.active_head hadvanced.old hadvanced.active
  refine ⟨⟨hI.1.advance (v := v + 1) (x := x) (fun e he => ?_) (Table.view_of_lock hadvanced.new) rfl
    fun w row' hw hrow => ?_, hI.2⟩, ⟨fun d hd => Table.undisturbed_commit hd, fun _ h => (nomatch h),
      fun d hd hins => absurd hins (halone.2 d hd)⟩, _, stable_idle, Table.out_commit, meets_done⟩
  · have hordered := hI.1.ordered
    rw [hpast] at he hordered
    rcases List.mem_cons.mp he with rfl | he
    · exact Nat.lt_succ_self v
    · exact Nat.lt_succ_of_lt ((List.pairwise_cons.mp hordered).1 e he)
  · by_cases hwv : w = v
    · subst hwv
      obtain rfl : _ = row' := Option.some.inj ((Table.view_of_lock hadvanced.demoted).symm.trans hrow)
      exact ⟨rfl, row, hadvanced.old, rfl⟩
    · have hcommitted : s.rows.committed w = some row' :=
        (Table.view_of_other fun y hlock => (hadvanced.only w y hlock).elim hwv hw).symm.trans hrow
      refine ⟨?_, row', hcommitted, rfl⟩
      by_contra ha
      obtain ⟨past', hpast'⟩ := hI.1.active_head hcommitted (by simpa using ha)
      rw [hpast] at hpast'
      exact hwv (congrArg Prod.fst (List.cons.inj hpast').1).symm

theorem meets_insertNext {retired : Option Time} : (discipline strict).Meets secrets c (insertNext (v + 1) x)
    fun s => Demoted c v row retired s.rows := by
  intro s chance ok s' hI hdemoted hallowed hexec
  obtain ⟨hactive, hwrote, honly⟩ := hdemoted
  obtain ⟨past, hpast⟩ := hI.1.active_head hwrote.committed hactive
  have hnext : s.rows.committed (v + 1) = none := by
    cases hrow : s.rows.committed (v + 1) with
    | none => rfl
    | some row' => exact absurd (hI.1.le_head hpast hrow) (Nat.not_succ_le_self v)
  have hview : s.rows.view c (v + 1) = none :=
    (Table.view_of_other fun y hlock => absurd (honly _ y hlock) (Nat.succ_ne_self v)).trans hnext
  obtain ⟨hcontended, ⟨rfl, hclash, rfl⟩ | ⟨rfl, hnone, hfree, rfl⟩⟩ := insertActive_cases chance hexec
  · refine ⟨⟨⟨hI.1.ordered, hI.1.rows, hI.1.newest⟩, fun hstrict => ?_⟩, guar_of (fun _ _ => .refl) rfl
      (Demoted.not_inserting ⟨hactive, hwrote, honly⟩), _, Discipline.stable_true, trivial, meets_rolledBack⟩
    exact absurd ⟨hview, by simpa [unopposed] using hallowed hstrict⟩ hclash
  · have hothers : ∀ d, d ≠ c → Table.Undisturbed d s.rows (s.rows.write c (v + 1) (some ⟨x, true, none⟩)) :=
      fun d hd => Table.undisturbed_write hd hfree
    have halone : Alone c { s with rows := s.rows.write c (v + 1) (some ⟨x, true, none⟩) } :=
      ⟨⟨v + 1, _, Table.lock_write_self, rfl, hnext⟩,
        fun d hd hins => not_inserting hcontended hd (hins.unstable (hothers d hd))⟩
    have hadvanced : Advanced c v row retired x (s.rows.write c (v + 1) (some ⟨x, true, none⟩)) := by
      refine ⟨hactive, hwrote.committed, ?_, Table.lock_write_self, fun w y hw => ?_⟩
      · exact (Table.lock_write_of_ne (Nat.succ_ne_self v).symm).trans hwrote.lock
      · by_cases hwv : w = v + 1
        · exact .inr hwv
        · exact .inl (honly w y ((Table.lock_write_of_ne hwv).symm.trans hw))
    exact ⟨⟨⟨hI.1.ordered, hI.1.rows, hI.1.newest⟩, hI.2⟩, ⟨hothers, id, fun d hd hins =>
      absurd hins (not_inserting hcontended hd)⟩, _, (stable_rows fun _ _ => Advanced.stable).and stable_alone,
      ⟨hadvanced, halone⟩, meets_commitNext⟩

/-- The value of a rotation is given, or drawn before it is inserted. -/
def insertValue (value : Option Value) (v : Version) : Program Op Reply :=
  match value with
  | some value => insertNext v value
  | none => .step .generate fun value => insertNext v value

theorem meets_insertValue {value : Option Value} (hst : (discipline strict).Stable c Q)
    (hQ : ∀ s, Q s → ¬ Inserting c s.rows)
    (h : ∀ x, (discipline strict).Meets secrets c (insertNext v x) Q) :
    (discipline strict).Meets secrets c (insertValue value v) Q := by
  cases value with
  | some x => exact h x
  | none =>
      intro s chance r s' hI hs _ hexec
      cases hexec
      exact ⟨hI, guar_of (fun _ _ => .refl) rfl (hQ s hs), Q, hst, hs, h _⟩

theorem meets_storeFirst {value : Option Value} : (discipline strict).Meets secrets c (storeNext value false)
    fun s => s.rows.Out c := by
  intro s chance top s' hI hout _ hexec
  cases hexec
  have hfirst : maxVersion c s + 1 = 1 ∨ s.written ≠ [] := by
    by_cases hw : s.written = []
    · exact .inl (by rw [maxVersion_zero fun w => hout.untouched.view.trans (hI.1.empty hw)])
    · exact .inr hw
  generalize maxVersion c s = top at hfirst ⊢
  have hst : (discipline strict).Stable c fun s => s.rows.Out c ∧ (top + 1 = 1 ∨ s.written ≠ []) :=
    (stable_rows fun _ _ => Table.Out.stable).and fun d hd s s' hI hG h => h.imp_right (stable_written d hd s s' hI hG)
  refine ⟨hI, guar_refl hout.untouched, _, hst, ⟨hout, hfirst⟩, ?_⟩
  exact meets_insertValue hst (fun s hs => not_inserting_of_untouched hs.1.untouched) fun x => meets_insertFirst

/-- The client holds the active version as it is, and no other row. -/
def Held (c : Client) (v : Version) (row : Secret) (t : Table Client Version Secret) : Prop :=
  row.active = true ∧ t.lock v = some (c, some row) ∧ t.Untouched c ∧ t.Only c v

theorem Held.stable (h : Held c v row t) (hu : Table.Undisturbed c t t') : Held c v row t' :=
  ⟨h.1, (hu v _).1.mpr h.2.1, h.2.2.1.stable hu, h.2.2.2.stable hu⟩

theorem Held.committed (h : Held c v row t) : t.committed v = some row := (h.2.2.1 v _ h.2.1).symm

theorem meets_storeHeld {value : Option Value} : (discipline strict).Meets secrets c (storeNext value true)
    fun s => Held c v row s.rows := by
  intro s chance top s' hI hheld _ hexec
  cases hexec
  obtain ⟨past, hpast⟩ := hI.1.active_head hheld.committed hheld.1
  have htop : maxVersion c s = v := maxVersion_eq (hheld.2.2.1.view.trans hheld.committed)
    fun w row hw => hI.1.le_head hpast (hheld.2.2.1.view.symm.trans hw)
  refine ⟨hI, guar_refl hheld.2.2.1, _, stable_rows fun _ _ => Held.stable, hheld, ?_⟩
  change (discipline strict).Meets secrets c (.step .demote fun _ => insertValue value (maxVersion c s + 1)) _
  rw [htop]
  intro s chance r s' hI hheld _ hexec
  simp only [secrets, exec] at hexec
  split at hexec
  next w row' hactive =>
    obtain ⟨hview, ha⟩ := activeRow_some hactive
    obtain ⟨past, hpast⟩ := hI.1.active_head hheld.committed hheld.1
    obtain ⟨past', hpast'⟩ := hI.1.active_head (hheld.2.2.1.view.symm.trans hview) ha
    obtain rfl : v = w := congrArg Prod.fst (List.cons.inj (hpast.symm.trans hpast')).1
    obtain rfl : row = row' := Option.some.inj ((Table.view_of_lock hheld.2.1).symm.trans hview)
    split at hexec
    next hfree =>
      cases hexec
      have hdemoted : Demoted c v row (some chance.now) (s.rows.write c v (some ⟨row.value, false, some chance.now⟩)) := by
        refine ⟨hheld.1, hheld.committed ▸ hheld.2.2.1.write _, fun w y hw => ?_⟩
        by_contra hne
        exact hne (hheld.2.2.2 w y ((Table.lock_write_of_ne hne).symm.trans hw))
      have hst : (discipline strict).Stable c fun s => Demoted c v row (some chance.now) s.rows :=
        stable_rows fun _ _ => Demoted.stable
      exact ⟨⟨⟨hI.1.ordered, hI.1.rows, hI.1.newest⟩, hI.2⟩, guar_of (fun d hd => Table.undisturbed_write hd hfree) rfl
        hdemoted.not_inserting, _, hst, hdemoted, meets_insertValue hst (fun s hs => hs.not_inserting) fun x => meets_insertNext⟩
    next => cases hexec
  next hnone =>
    have ha := activeRow_none hnone (Table.view_of_lock hheld.2.1)
    rw [hheld.1] at ha
    cases ha

theorem meets_next {value : Option Value} : (discipline strict).Meets secrets c (next value)
    ((discipline strict).Idle c) := by
  intro s chance r s' hI hout _ hexec
  cases hexec
  refine ⟨hI, guar_refl hout.untouched, _, stable_idle, hout, ?_⟩
  beta_reduce
  cases activeRow c s with
  | none => exact meets_storeFirst
  | some found =>
      intro s chance row s' hI hout _ hexec
      simp only [secrets, exec] at hexec
      split at hexec
      next hfree =>
        split at hexec
        next row' hview =>
          split at hexec <;> cases hexec
          next hactive =>
            have hcommitted : s.rows.committed found.1 = some row' := hout.untouched.view.symm.trans hview
            have hheld : Held c found.1 row' (s.rows.write c found.1 (some row')) :=
              ⟨hactive, Table.lock_write_self, hcommitted ▸ hout.untouched.locked, hout.only _⟩
            exact ⟨⟨⟨hI.1.ordered, hI.1.rows, hI.1.newest⟩, hI.2⟩,
              guar_of (fun d hd => Table.undisturbed_write hd hfree) rfl (not_inserting_of_untouched hheld.2.2.1), _,
              stable_rows fun _ _ => Held.stable, hheld, meets_storeHeld⟩
          next => exact ⟨hI, guar_refl hout.untouched, _, stable_idle, hout, meets_storeFirst⟩
        next =>
          cases hexec
          exact ⟨hI, guar_refl hout.untouched, _, stable_idle, hout, meets_storeFirst⟩
      next => cases hexec

theorem meets_active {next : Option (Version × Secret) → Program Op Reply}
    (hnext : ∀ r, (discipline strict).Meets secrets c (next r) ((discipline strict).Idle c)) :
    (discipline strict).Meets secrets c (.step .active next) ((discipline strict).Idle c) := by
  intro s chance r s' hI hout _ hexec
  cases hexec
  exact ⟨hI, guar_refl hout.untouched, _, stable_idle, hout, hnext _⟩

/-- A first version is inserted and committed in one statement. -/
theorem meets_first {next : Bool → Program Op Reply}
    (hnext : ∀ r, (discipline strict).Meets secrets c (next r) ((discipline strict).Idle c)) :
    (discipline strict).Meets secrets c (.step (.insertFirst x) next) ((discipline strict).Idle c) := by
  intro s chance r s' hI hout _ hexec
  obtain ⟨rfl, rfl⟩ | ⟨rfl, hcontended, hnone, hfree, rfl⟩ := insertFirst_cases chance hexec
  · exact ⟨hI, guar_refl hout.untouched, _, stable_idle, hout, hnext _⟩
  have hwritten : s.written = [] := hI.1.first (funext fun _ => hout.untouched.view) hnone
  have hempty : s.rows.committed 1 = none := hI.1.empty hwritten
  have hcommit := (hempty ▸ hout.untouched.write (some ⟨x, true, none⟩) :
    (s.rows.write c 1 (some ⟨x, true, none⟩)).Wrote c 1 none (some ⟨x, true, none⟩)).commit
  refine ⟨⟨hI.1.advance (v := 1) (x := x) (by simp [hwritten]) ?_ rfl fun w row hw hrow => ?_, hI.2⟩,
    ⟨fun d hd => (Table.undisturbed_write hd hfree).trans (Table.undisturbed_commit hd), fun _ h => (nomatch h),
      fun d hd hins => absurd hins (not_inserting hcontended hd)⟩, _, stable_idle, Table.out_commit, hnext _⟩
  · rw [writeFirst, hcommit, Function.update_self]
  · rw [writeFirst, hcommit, Function.update_of_ne hw, Table.committed_write, hI.1.empty hwritten] at hrow
    cases hrow

theorem meets_purge {age : Time} : (discipline strict).Meets secrets c (purgeRetired age)
    ((discipline strict).Idle c) := by
  intro s chance r s' hI hout _ hexec
  simp only [secrets, exec] at hexec
  split at hexec <;> cases hexec
  next hheld =>
    have hfree : ∀ k, (s.rows.committed k).any (expired age chance.now) = true → s.rows.lock k = none := by
      intro k hk
      have hmem : k ∈ s.rows.keys := s.rows.mem_keys k (.inl fun hnone => by simp [hnone] at hk)
      have hall := List.any_eq_false.mp (Bool.not_eq_true _ ▸ hheld) k hmem
      simpa [hk] using hall
    have hkept : ∀ v row, (s.rows.sweep (expired age chance.now)).committed v = some row → s.rows.committed v = some row :=
      fun v row h => (Option.filter_eq_some_iff.mp h).1
    have hlawful : Lawful { s with rows := s.rows.sweep (expired age chance.now) } := by
      refine ⟨hI.1.ordered, fun v row h => hI.1.rows v row (hkept v row h), fun v y past hw => ?_⟩
      obtain ⟨row, hrow⟩ := Option.ne_none_iff_exists'.mp (hI.1.newest v y past hw)
      have hactive : row.active = true :=
        (hI.1.rows v row hrow).2.mpr (by rw [show s.written = (v, y) :: past from hw]; rfl)
      simp [Table.sweep, hrow, expired, hactive]
    exact ⟨⟨hlawful, hI.2⟩, guar_of (fun d _ => Table.undisturbed_sweep hfree) rfl
      (fun h => by
        obtain ⟨v, row, hlock, -⟩ := h
        exact hout v _ hlock), _, stable_idle, hout, meets_done⟩

theorem sound : (discipline strict).Sound secrets where
  idle _ := stable_idle
  abort c s hI _ := ⟨⟨⟨hI.1.ordered, hI.1.rows, hI.1.newest⟩, hI.2⟩, guar_of (fun d hd => Table.undisturbed_rollback hd) rfl
    (not_inserting_of_untouched Table.out_rollback.untouched), Table.out_rollback⟩
  program c q := by
    cases q with
    | get => exact meets_active fun _ => meets_done
    | put value => exact meets_first fun _ => meets_done
    | ensure =>
        refine meets_active fun r => ?_
        cases r with
        | some _ => exact meets_done
        | none =>
            intro s chance value s' hI hout _ hexec
            cases hexec
            refine ⟨hI, guar_refl hout.untouched, _, stable_idle, hout, meets_first fun inserted => ?_⟩
            cases inserted with
            | true => exact meets_done
            | false => exact meets_active fun _ => meets_done
    | replace value => exact meets_next
    | rotate => exact meets_next
    | purgeRetired age => exact meets_purge

end Programs

section Runs

variable {g : Config Client Store Op Reply}

/-- The moves of runs in which no rotation is opposed. -/
def Unopposed : Config Client Store Op Reply → Move Client Chance Request → Prop :=
  Protocol.Statements fun c op s => unopposed c op s = true

theorem grants_unopposed : (discipline True).Grants Unopposed where
  allowed _ c choice op next hr hok _ := hok c choice op next rfl hr
  mortal _ _ _ := trivial

end Runs

section Examples

/-- A store whose first version is active. -/
def putStore : Store := ⟨.single 1 ⟨5, true, none⟩, [(1, 5)], []⟩

theorem lawful_put : Lawful putStore := by
  refine ⟨List.pairwise_singleton _ _, fun v row hv => ?_, fun v x past hw => ?_⟩
  · simp only [putStore, Table.single, Option.ite_none_right_eq_some] at hv
    obtain ⟨rfl, hv⟩ := hv
    cases hv
    decide
  · cases hw
    exact Option.some_ne_none _

def calm : Chance := ⟨0, 7⟩

def rotation : List (Move Client Chance Request) := .arrive 0 .rotate :: List.replicate 7 (.run 0 calm)

theorem unopposed_watch (g : Config Client Store Op Reply) (m : Move Client Chance Request)
    (hm : Protocol.watch unopposed g m = true) : Unopposed g m := Protocol.statements_watch (fun _ _ _ => id) g m hm

/-- The second rotation has the first version in its snapshot when the first one takes the lock. -/
def rotations : List (Move Client Chance Request) :=
  [.arrive 0 .rotate, .arrive 1 .rotate, .run 0 calm, .run 0 calm, .run 1 calm] ++
    List.replicate 5 (.run 0 calm) ++ List.replicate 5 (.run 1 calm)

end Examples

end Corebase.SecretVersions
