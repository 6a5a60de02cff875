import Mathlib.Data.List.Basic
import Mathlib.Logic.Relation

namespace Corebase.DotSegments

/-! Paths as bytes, as they go through servers that decode and resolve them -/

abbrev Bytes := List Nat

def slash : Nat := 47

def hexValue (b : Nat) : Option Nat :=
  if 48 ≤ b ∧ b ≤ 57 then some (b - 48)
  else if 65 ≤ b ∧ b ≤ 70 then some (b - 55)
  else if 97 ≤ b ∧ b ≤ 102 then some (b - 87)
  else none

/-- One decoding; a percent sign that two digits do not follow stands for itself. -/
def percentDecode : Bytes → Bytes
  | 37 :: a :: b :: rest =>
      match hexValue a, hexValue b with
      | some high, some low => (16 * high + low) :: percentDecode rest
      | _, _ => 37 :: percentDecode (a :: b :: rest)
  | b :: rest => b :: percentDecode rest
  | [] => []

def dot : Bytes := [46]

def dotDot : Bytes := [46, 46]

/-- The segments that are kept, the last one first. -/
def keep (kept : List Bytes) (s : Bytes) : List Bytes :=
  if s = dotDot then kept.tail else if s = dot then kept else s :: kept

/-- A dot segment at the end leaves an empty one. -/
def resolve (kept : List Bytes) : List Bytes → List Bytes
  | [] => kept
  | [s] => if s = dotDot ∨ s = dot then [] :: keep kept s else keep kept s
  | s :: t :: rest => resolve (keep kept s) (t :: rest)

def removeDotSegments (path : Bytes) : Bytes :=
  [slash].intercalate (resolve [] (path.splitOn slash)).reverse

/-- One of the things that happen to a path on its way. -/
inductive Handled : Bytes → Bytes → Prop
  | decode (path : Bytes) : Handled path (percentDecode path)
  | resolve (path : Bytes) : Handled path (removeDotSegments path)

abbrev Downstream : Bytes → Bytes → Prop := Relation.ReflTransGen Handled

/-- Up to some point the segments go up more often than down. -/
def climbs (depth : Nat) : List Bytes → Bool
  | [] => false
  | s :: rest =>
      if s = dotDot then depth = 0 || climbs (depth - 1) rest
      else if s = dot then climbs depth rest
      else climbs (depth + 1) rest

/-- What becomes of a path below a directory as long as it does not climb out of it. -/
inductive Below : Bytes → Bytes → Prop
  | refl (path : Bytes) : Below path path
  | decode {path path' : Bytes} (h : Below path path') : Below path (percentDecode path')
  | resolve {path path' : Bytes} (h : Below path path') (hstay : climbs 0 (path'.splitOn slash) = false) :
      Below path (removeDotSegments path')

/-! Resolution -/

theorem resolve_ne (kept : List Bytes) {segments : List Bytes} (h : segments ≠ []) : resolve kept segments ≠ [] := by
  induction kept, segments using resolve.induct with
  | case1 kept => exact absurd rfl h
  | case2 kept s hdot =>
      rw [resolve, if_pos hdot]
      simp
  | case3 kept s hdot =>
      rw [not_or] at hdot
      rw [resolve, if_neg (by simpa using hdot), keep, if_neg hdot.1, if_neg hdot.2]
      simp
  | case4 kept s t rest ih =>
      rw [resolve]
      exact ih (by simp)

theorem keep_append {kept : List Bytes} {s : Bytes} (h : s = dotDot → kept ≠ []) (base : List Bytes) :
    keep (kept ++ base) s = keep kept s ++ base := by
  unfold keep
  split
  next hs =>
    cases kept with
    | nil => exact absurd rfl (h hs)
    | cons k kept => rfl
  next => split <;> rfl

theorem climbs_cons {kept : List Bytes} {s : Bytes} {rest : List Bytes} (h : climbs kept.length (s :: rest) = false) :
    (s = dotDot → kept ≠ []) ∧ climbs (keep kept s).length rest = false := by
  unfold climbs at h
  unfold keep
  split at h
  next hs =>
    rw [Bool.or_eq_false_iff, decide_eq_false_iff_not, List.length_eq_zero_iff] at h
    rw [if_pos hs, List.length_tail]
    exact ⟨fun _ => h.1, h.2⟩
  next hs =>
    rw [if_neg hs]
    refine ⟨fun hs' => absurd hs' hs, ?_⟩
    split at h
    next hdot => rwa [if_pos hdot]
    next hdot => rwa [if_neg hdot]

/-- Without a climb what is below is resolved by itself. -/
theorem resolve_append (base : List Bytes) {kept segments : List Bytes} (h : climbs kept.length segments = false) :
    resolve (kept ++ base) segments = resolve kept segments ++ base := by
  induction kept, segments using resolve.induct with
  | case1 kept => rfl
  | case2 kept s hdot =>
      rw [resolve, resolve, if_pos hdot, if_pos hdot, keep_append (climbs_cons h).1]
      rfl
  | case3 kept s hdot => rw [resolve, resolve, if_neg hdot, if_neg hdot, keep_append (climbs_cons h).1]
  | case4 kept s t rest ih =>
      rw [resolve, resolve, keep_append (climbs_cons h).1]
      exact ih (climbs_cons h).2

theorem climbs_true {kept : List Bytes} {s : Bytes} {rest : List Bytes} (h : climbs kept.length (s :: rest) = true) :
    s = dotDot ∧ kept = [] ∨ (s = dotDot → kept ≠ []) ∧ climbs (keep kept s).length rest = true := by
  by_cases hclimb : s = dotDot ∧ kept = []
  · exact Or.inl hclimb
  · have hstay : s = dotDot → kept ≠ [] := fun hs hkept => hclimb ⟨hs, hkept⟩
    refine Or.inr ⟨hstay, ?_⟩
    unfold climbs at h
    unfold keep
    split at h
    next hs =>
      rw [Bool.or_eq_true, decide_eq_true_eq, List.length_eq_zero_iff] at h
      rw [if_pos hs, List.length_tail]
      exact h.resolve_left (hstay hs)
    next hs =>
      rw [if_neg hs]
      split at h
      next hdot => rwa [if_pos hdot]
      next hdot => rwa [if_neg hdot]

/-- After a climb it makes no difference out of what. -/
theorem resolve_climb (base : List Bytes) (x y : Bytes) {kept segments : List Bytes}
    (h : climbs kept.length segments = true) : resolve (kept ++ x :: base) segments = resolve (kept ++ y :: base) segments := by
  have hkeep : ∀ z, keep (z :: base) dotDot = base := fun _ => rfl
  induction kept, segments using resolve.induct with
  | case1 kept => cases h
  | case2 kept s hdot =>
      rcases climbs_true h with ⟨rfl, rfl⟩ | ⟨-, hrest⟩
      · rw [List.nil_append, List.nil_append, resolve, resolve, if_pos hdot, if_pos hdot, hkeep, hkeep]
      · cases hrest
  | case3 kept s hdot =>
      rcases climbs_true h with ⟨rfl, rfl⟩ | ⟨-, hrest⟩
      · exact absurd (Or.inl rfl) hdot
      · cases hrest
  | case4 kept s t rest ih =>
      rcases climbs_true h with ⟨rfl, rfl⟩ | ⟨hstay, hrest⟩
      · rw [List.nil_append, List.nil_append, resolve, resolve, hkeep, hkeep]
      · rw [resolve, resolve, keep_append hstay, keep_append hstay]
        exact ih hrest

/-! Directories -/

/-- A segment that no decoding changes and no resolution drops. -/
structure Plain (s : Bytes) : Prop where
  noSlash : slash ∉ s
  noPercent : 37 ∉ s
  noDot : s ≠ dot
  noDotDot : s ≠ dotDot

def directory (base : List Bytes) : Bytes := base.flatMap fun s => s ++ [slash]

theorem splitOn_directory {base : List Bytes} (h : ∀ s ∈ base, Plain s) (path : Bytes) :
    (directory base ++ path).splitOn slash = base ++ path.splitOn slash := by
  induction base with
  | nil => rfl
  | cons s base ih =>
      obtain ⟨hs, hbase⟩ := List.forall_mem_cons.mp h
      have htext : directory (s :: base) ++ path = s ++ slash :: (directory base ++ path) := by simp [directory]
      rw [htext, List.splitOn_append_cons_self_of_not_mem hs.noSlash, ih hbase, List.cons_append]

theorem intercalate_directory (base : List Bytes) {segments : List Bytes} (h : segments ≠ []) :
    [slash].intercalate (base ++ segments) = directory base ++ [slash].intercalate segments := by
  induction base with
  | nil => rfl
  | cons s base ih =>
      have hne : base ++ segments ≠ [] := fun hnil => h (List.append_eq_nil_iff.mp hnil).2
      obtain ⟨t, rest, hrest⟩ := List.exists_cons_of_ne_nil hne
      have hcons : [slash].intercalate (s :: (base ++ segments)) = s ++ slash :: [slash].intercalate (base ++ segments) := by
        rw [hrest]
        simp [List.intercalate]
      rw [List.cons_append, hcons, ih]
      simp [directory]

theorem resolve_directory {base : List Bytes} (h : ∀ s ∈ base, Plain s) (kept : List Bytes) {segments : List Bytes}
    (hne : segments ≠ []) : resolve kept (base ++ segments) = resolve (base.reverse ++ kept) segments := by
  induction base generalizing kept with
  | nil => rfl
  | cons s base ih =>
      obtain ⟨hs, hbase⟩ := List.forall_mem_cons.mp h
      have hkeep : keep kept s = s :: kept := by rw [keep, if_neg hs.noDotDot, if_neg hs.noDot]
      have hrest : base ++ segments ≠ [] := fun hnil => hne (List.append_eq_nil_iff.mp hnil).2
      obtain ⟨t, rest, ht⟩ := List.exists_cons_of_ne_nil hrest
      rw [List.cons_append, ht, resolve, ← ht, hkeep, ih hbase]
      simp

theorem removeDotSegments_directory {base : List Bytes} (h : ∀ s ∈ base, Plain s) {path : Bytes}
    (hstay : climbs 0 (path.splitOn slash) = false) :
    removeDotSegments (directory base ++ path) = directory base ++ removeDotSegments path := by
  have hne := List.splitOn_ne_nil slash path
  have hresolve := @resolve_append base.reverse [] _ hstay
  rw [List.nil_append] at hresolve
  rw [removeDotSegments, splitOn_directory h, resolve_directory h [] hne, List.append_nil, hresolve, List.reverse_append,
    List.reverse_reverse, intercalate_directory base (by simpa using resolve_ne [] hne)]
  rfl

theorem percentDecode_directory {dir : Bytes} (h : 37 ∉ dir) (path : Bytes) :
    percentDecode (dir ++ path) = dir ++ percentDecode path := by
  induction dir with
  | nil => rfl
  | cons b dir ih =>
      have hb : b ≠ 37 := fun hb => h (hb ▸ List.mem_cons_self)
      have hstep : percentDecode (b :: (dir ++ path)) = b :: percentDecode (dir ++ path) :=
        percentDecode.eq_2 b _ fun _ _ _ hpercent _ => hb hpercent
      rw [List.cons_append, hstep, ih fun hmem => h (List.mem_cons_of_mem b hmem), List.cons_append]

theorem percent_directory {base : List Bytes} (h : ∀ s ∈ base, Plain s) : 37 ∉ directory base := by
  intro hmem
  obtain ⟨s, hs, hin⟩ := List.mem_flatMap.mp hmem
  rcases List.mem_append.mp hin with hin | hin
  · exact (h s hs).noPercent hin
  · exact absurd (List.mem_singleton.mp hin) (by decide)

/-- What does not climb stays below its directory. -/
theorem below_of_downstream {base : List Bytes} (hbase : ∀ s ∈ base, Plain s) {path key : Bytes}
    (hstay : ∀ q, Below path q → climbs 0 (q.splitOn slash) = false) (h : Downstream (directory base ++ path) key) :
    ∃ q, Below path q ∧ key = directory base ++ q := by
  induction h with
  | refl => exact ⟨path, .refl path, rfl⟩
  | tail _ hstep ih =>
      obtain ⟨q, hq, rfl⟩ := ih
      cases hstep with
      | decode => exact ⟨_, .decode hq, percentDecode_directory (percent_directory hbase) q⟩
      | resolve => exact ⟨_, .resolve hq (hstay q hq), removeDotSegments_directory hbase (hstay q hq)⟩

theorem downstream_of_below {base : List Bytes} (hbase : ∀ s ∈ base, Plain s) {path q : Bytes} (h : Below path q) :
    Downstream (directory base ++ path) (directory base ++ q) := by
  induction h with
  | refl => exact .refl
  | @decode q _ ih =>
      rw [← percentDecode_directory (percent_directory hbase) q]
      exact ih.tail (.decode _)
  | @resolve q _ hstay ih =>
      rw [← removeDotSegments_directory hbase hstay]
      exact ih.tail (.resolve _)

theorem removeDotSegments_climb {base : List Bytes} (hbase : ∀ s ∈ base, Plain s) {x y : Bytes} (hx : Plain x)
    (hy : Plain y) {path : Bytes} (hclimb : climbs 0 (path.splitOn slash) = true) :
    removeDotSegments (directory (base ++ [x]) ++ path) = removeDotSegments (directory (base ++ [y]) ++ path) := by
  have hall : ∀ z, Plain z → ∀ s ∈ base ++ [z], Plain s := by
    intro z hz s hs
    rcases List.mem_append.mp hs with hs | hs
    · exact hbase s hs
    · rwa [List.mem_singleton.mp hs]
  have hne := List.splitOn_ne_nil slash path
  rw [removeDotSegments, removeDotSegments, splitOn_directory (hall x hx), splitOn_directory (hall y hy),
    resolve_directory (hall x hx) [] hne, resolve_directory (hall y hy) [] hne]
  simpa using congrArg (fun kept => [slash].intercalate kept.reverse) (@resolve_climb base.reverse x y [] _ hclimb)

theorem directory_inj {base : List Bytes} {x y : Bytes} (hx : slash ∉ x) (hy : slash ∉ y) {key : Bytes}
    (h : directory (base ++ [x]) <+: key) (h' : directory (base ++ [y]) <+: key) : x = y := by
  obtain ⟨rest, rfl⟩ := h
  obtain ⟨rest', h'⟩ := h'
  have htext : ∀ z r, directory (base ++ [z]) ++ r = directory base ++ (z ++ slash :: r) := by
    intro z r
    simp [directory]
  rw [htext, htext] at h'
  have hsplit := congrArg (List.splitOn slash) (List.append_cancel_left h')
  rw [List.splitOn_append_cons_self_of_not_mem hy, List.splitOn_append_cons_self_of_not_mem hx] at hsplit
  exact (List.cons.inj hsplit).1.symm

/-- A path stays below every directory of a place that has two of them, whatever happens to it,
if and only if it never climbs. -/
theorem stays_iff {base : List Bytes} (hbase : ∀ s ∈ base, Plain s) {dirs : Bytes → Prop}
    (hdirs : ∀ x, dirs x → Plain x) (htwo : ∃ x y, dirs x ∧ dirs y ∧ x ≠ y) (path : Bytes) :
    (∀ x, dirs x → ∀ key, Downstream (directory (base ++ [x]) ++ path) key → directory (base ++ [x]) <+: key) ↔
      ∀ q, Below path q → climbs 0 (q.splitOn slash) = false := by
  have hall : ∀ x, dirs x → ∀ s ∈ base ++ [x], Plain s := by
    intro x hx s hs
    rcases List.mem_append.mp hs with hs | hs
    · exact hbase s hs
    · rw [List.mem_singleton.mp hs]
      exact hdirs x hx
  constructor
  · intro h q hq
    by_contra hclimb
    rw [Bool.not_eq_false] at hclimb
    obtain ⟨x, y, hx, hy, hne⟩ := htwo
    have hkeyX := h x hx _ ((downstream_of_below (hall x hx) hq).tail (.resolve _))
    have hkeyY := h y hy _ ((downstream_of_below (hall y hy) hq).tail (.resolve _))
    rw [removeDotSegments_climb hbase (hdirs y hy) (hdirs x hx) hclimb] at hkeyY
    exact hne (directory_inj (hdirs x hx).noSlash (hdirs y hy).noSlash hkeyX hkeyY)
  · intro h x hx key hkey
    obtain ⟨q, -, rfl⟩ := below_of_downstream (hall x hx) h hkey
    exact List.prefix_append _ q

theorem climbs_plain {segments : List Bytes} (h : ∀ s ∈ segments, s ≠ dot ∧ s ≠ dotDot) (depth : Nat) :
    climbs depth segments = false := by
  induction segments generalizing depth with
  | nil => rfl
  | cons s rest ih =>
      obtain ⟨hs, hrest⟩ := List.forall_mem_cons.mp h
      rw [climbs, if_neg hs.2, if_neg hs.1]
      exact ih hrest (depth + 1)

theorem resolve_plain {kept segments : List Bytes} (h : ∀ s ∈ segments, s ≠ dot ∧ s ≠ dotDot) :
    resolve kept segments = segments.reverse ++ kept := by
  induction kept, segments using resolve.induct with
  | case1 kept => rfl
  | case2 kept s hdot =>
      have hs := h s List.mem_cons_self
      exact absurd hdot (not_or.mpr ⟨hs.2, hs.1⟩)
  | case3 kept s hdot =>
      have hs := h s List.mem_cons_self
      rw [resolve, if_neg hdot, keep, if_neg hs.2, if_neg hs.1]
      rfl
  | case4 kept s t rest ih =>
      have hs := h s List.mem_cons_self
      rw [resolve, ih fun s hs => h s (List.mem_cons_of_mem _ hs), keep, if_neg hs.2, if_neg hs.1]
      simp

/-- A path without percent signs and dot segments is what it was after everything. -/
theorem below_plain {path q : Bytes} (hpercent : 37 ∉ path) (hdots : ∀ s ∈ path.splitOn slash, s ≠ dot ∧ s ≠ dotDot)
    (h : Below path q) : q = path := by
  induction h with
  | refl => rfl
  | decode _ ih =>
      have hdecode := percentDecode_directory hpercent []
      rw [List.append_nil] at hdecode
      rw [ih, hdecode]
      exact List.append_nil path
  | resolve _ _ ih =>
      rw [ih, removeDotSegments, resolve_plain hdots, List.append_nil, List.reverse_reverse, List.intercalate_splitOn]

end Corebase.DotSegments
