import Corebase.JsonText

namespace Corebase.Json

open JsNumber

/-! Two texts say the same where their documents differ in the order of the members only. -/

mutual

def canonical : Document → Document
  | .scalar value => .scalar value
  | .array items => .array (canonicalItems items)
  | .object members => .object ((canonicalMembers members).insertionSort fun a b => a.1 ≤ b.1)

def canonicalItems : List Document → List Document
  | [] => []
  | item :: items => canonical item :: canonicalItems items

def canonicalMembers : List (Str × Document) → List (Str × Document)
  | [] => []
  | (name, value) :: members => (name, canonical value) :: canonicalMembers members

end

def Same (document document' : Document) : Prop := canonical document = canonical document'

/-! What a document keeps through a value of the language -/

mutual

/-- No object names a member twice, and each number is the decimal that is shown for its nearest value. -/
def Kept : Document → Prop
  | .scalar value => value.evaluate.content = value
  | .array items => KeptItems items
  | .object members => (members.map Prod.fst).Nodup ∧ KeptMembers members

def KeptItems : List Document → Prop
  | [] => True
  | item :: items => Kept item ∧ KeptItems items

def KeptMembers : List (Str × Document) → Prop
  | [] => True
  | (_, value) :: members => Kept value ∧ KeptMembers members

end

theorem canonicalItems_eq (items : List Document) : canonicalItems items = items.map canonical := by
  induction items with
  | nil => rfl
  | cons item items ih => rw [canonicalItems, ih, List.map_cons]

theorem canonicalMembers_eq (members : List (Str × Document)) :
    canonicalMembers members = members.map fun m => (m.1, canonical m.2) := by
  induction members with
  | nil => rfl
  | cons member members ih => rw [canonicalMembers, ih, List.map_cons]

theorem keptItems_iff (items : List Document) : KeptItems items ↔ ∀ item ∈ items, Kept item := by
  induction items with
  | nil => simp [KeptItems]
  | cons item items ih => rw [KeptItems, ih, List.forall_mem_cons]

theorem keptMembers_iff (members : List (Str × Document)) :
    KeptMembers members ↔ ∀ member ∈ members, Kept member.2 := by
  induction members with
  | nil => simp [KeptMembers]
  | cons member members ih => rw [KeptMembers, ih, List.forall_mem_cons]

theorem evaluateItems_eq (items : List Document) : evaluateItems items = items.map evaluate := by
  induction items with
  | nil => rfl
  | cons item items ih => rw [evaluateItems, ih, List.map_cons]

theorem evaluateMembers_eq (members : List (Str × Document)) :
    evaluateMembers members = members.map fun m => (m.1, evaluate m.2) := by
  induction members with
  | nil => rfl
  | cons member members ih => rw [evaluateMembers, ih, List.map_cons]

section Define

variable {α : Type}

theorem define_fresh {members : List (Str × α)} {member : Str × α} (h : member.1 ∉ members.map Prod.fst) :
    define members member = members ++ [member] := by
  rw [define, if_neg]
  intro hany
  obtain ⟨m, hm, heq⟩ := List.any_eq_true.mp hany
  exact h (List.mem_map.mpr ⟨m, hm, by simpa using heq⟩)

theorem define_names {members : List (Str × α)} {member : Str × α} (h : member.1 ∈ members.map Prod.fst) :
    (define members member).map Prod.fst = members.map Prod.fst := by
  obtain ⟨m, hm, heq⟩ := List.mem_map.mp h
  have hany : (members.any fun m => m.1 = member.1) = true := List.any_eq_true.mpr ⟨m, hm, by simpa using heq⟩
  rw [define, if_pos hany, List.map_map]
  apply List.map_congr_left
  intro row hrow
  simp only [Function.comp_apply]
  split
  next hname => exact hname.symm
  next => rfl

/-- Members of different names are all there, in their order. -/
theorem foldl_define {done members : List (Str × α)} (h : ((done ++ members).map Prod.fst).Nodup) :
    members.foldl define done = done ++ members := by
  induction members generalizing done with
  | nil => simp
  | cons member members ih =>
      have hfresh : member.1 ∉ done.map Prod.fst := by
        rw [List.map_append, List.map_cons] at h
        intro hmem
        exact List.disjoint_of_nodup_append h hmem List.mem_cons_self
      rw [List.foldl_cons, define_fresh hfresh, ih, List.append_assoc, List.singleton_append]
      rwa [List.append_assoc, List.singleton_append]

theorem define_nodup {members : List (Str × α)} (member : Str × α) (h : (members.map Prod.fst).Nodup) :
    ((define members member).map Prod.fst).Nodup := by
  by_cases hmem : member.1 ∈ members.map Prod.fst
  · rwa [define_names hmem]
  · rw [define_fresh hmem, List.map_append]
    refine h.append (List.nodup_singleton _) ?_
    intro name hname hname'
    rw [List.map_singleton, List.mem_singleton] at hname'
    exact hmem (hname' ▸ hname)

theorem define_subset (members : List (Str × α)) (member : Str × α) :
    (define members member).map Prod.fst ⊆ member.1 :: members.map Prod.fst := by
  by_cases hmem : member.1 ∈ members.map Prod.fst
  · rw [define_names hmem]
    exact List.subset_cons_self _ _
  · rw [define_fresh hmem, List.map_append]
    intro name hname
    simpa [or_comm] using hname

theorem foldl_define_names (done members : List (Str × α)) (h : (done.map Prod.fst).Nodup) :
    ((members.foldl define done).map Prod.fst).Nodup ∧
      (members.foldl define done).map Prod.fst ⊆ done.map Prod.fst ++ members.map Prod.fst := by
  induction members generalizing done with
  | nil => exact ⟨h, by simp⟩
  | cons member members ih =>
      obtain ⟨hnodup, hsubset⟩ := ih (define done member) (define_nodup member h)
      refine ⟨hnodup, fun name hname => ?_⟩
      rcases List.mem_append.mp (hsubset hname) with hdone | hrest
      · have := define_subset done member hdone
        simp only [List.mem_cons] at this
        simp only [List.map_cons, List.mem_append, List.mem_cons]
        tauto
      · simp only [List.map_cons, List.mem_append, List.mem_cons]
        exact .inr (.inr hrest)

/-- As many properties as members: no name stands twice. -/
theorem nodup_of_length (members : List (Str × α))
    (h : (members.foldl define []).length = members.length) : (members.map Prod.fst).Nodup := by
  obtain ⟨hnodup, hsubset⟩ := foldl_define_names [] members List.nodup_nil
  have hperm := (List.subperm_of_subset hnodup hsubset).perm_of_length_le (by simp [h])
  exact hperm.nodup_iff.mp hnodup

end Define

/-- What is left of a document that was evaluated and printed -/
abbrev reprinted (document : Document) : Document := content (evaluate document)

theorem reprinted_array (items : List Document) : reprinted (.array items) = .array (items.map reprinted) := by
  rw [reprinted, evaluate, content, evaluateItems_eq, itemContents_eq, List.map_map]
  rfl

theorem reprinted_object (members : List (Str × Document)) : reprinted (.object members) =
    .object (enumerate (((members.map fun m => (m.1, evaluate m.2)).foldl define []).map fun m => (m.1, content m.2))) := by
  rw [reprinted, evaluate, content, evaluateMembers_eq, memberContents_eq]

theorem reprinted_object_nodup {members : List (Str × Document)} (h : (members.map Prod.fst).Nodup) :
    reprinted (.object members) = .object (enumerate (members.map fun m => (m.1, reprinted m.2))) := by
  have hnames : ((([] : List (Str × JsValue)) ++ members.map fun m => (m.1, evaluate m.2)).map Prod.fst).Nodup := by
    rw [List.nil_append, List.map_map]
    exact h
  rw [reprinted_object, foldl_define hnames, List.nil_append, List.map_map]
  rfl

/-- The canonical members, before they are sorted -/
abbrev canonised (members : List (Str × Document)) : List (Str × Document) :=
  members.map fun m => (m.1, canonical m.2)

theorem canonical_object (members : List (Str × Document)) :
    canonical (.object members) = .object ((canonised members).insertionSort fun a b => a.1 ≤ b.1) := by
  rw [canonical, canonicalMembers_eq]

theorem sorted_of_perm {rows rows' : List (Str × Document)} (hperm : rows.Perm rows')
    (hnodup : (rows.map Prod.fst).Nodup) :
    (rows.insertionSort fun a b => a.1 ≤ b.1) = rows'.insertionSort fun a b => a.1 ≤ b.1 := by
  have hsort := List.perm_insertionSort (fun a b : Str × Document => a.1 ≤ b.1) rows
  have hsort' := List.perm_insertionSort (fun a b : Str × Document => a.1 ≤ b.1) rows'
  have htotal : Std.Total fun a b : Str × Document => a.1 ≤ b.1 := ⟨fun a b => le_total a.1 b.1⟩
  have htrans : IsTrans (Str × Document) fun a b => a.1 ≤ b.1 := ⟨fun a b c => le_trans⟩
  refine List.Perm.eq_of_pairwise ?_ (List.pairwise_insertionSort _ rows) (List.pairwise_insertionSort _ rows')
    (hsort.trans (hperm.trans hsort'.symm))
  intro a b ha hb hab hba
  have ha := hsort.mem_iff.mp ha
  have hb := hperm.mem_iff.mpr (hsort'.mem_iff.mp hb)
  exact List.inj_on_of_nodup_map hnodup ha hb (le_antisymm hab hba)

theorem same_object_nodup {members : List (Str × Document)} (h : Same (.object members) (reprinted (.object members))) :
    (members.map Prod.fst).Nodup := by
  rw [Same, reprinted_object, canonical_object, canonical_object, Value.object.injEq] at h
  have hlength := congrArg List.length h
  simp only [List.length_insertionSort, List.length_map, (enumerate_perm _).length_eq] at hlength
  have hnodup := nodup_of_length (members.map fun m => (m.1, evaluate m.2)) (by simpa using hlength.symm)
  rwa [List.map_map] at hnodup

/-- A document is printed as it was, but for the order of members, exactly when it is kept. -/
theorem same_reprinted_iff (document : Document) : Same document (reprinted document) ↔ Kept document := by
  induction document using Value.induct with
  | scalar value =>
      simp only [Same, canonical, reprinted, evaluate, content, Kept, Value.scalar.injEq]
      exact eq_comm
  | array items ih =>
      rw [Same, reprinted_array, canonical, canonical, canonicalItems_eq, canonicalItems_eq, List.map_map,
        Value.array.injEq, List.map_inj_left, Kept, keptItems_iff]
      exact forall₂_congr ih
  | object members ih =>
      rw [Kept, keptMembers_iff]
      constructor
      · intro hsame
        have hnodup := same_object_nodup hsame
        refine ⟨hnodup, fun member hm => (ih member hm).mp ?_⟩
        rw [Same, reprinted_object_nodup hnodup, canonical_object, canonical_object, Value.object.injEq] at hsame
        have hmem : (member.1, canonical member.2) ∈ (canonised members).insertionSort fun a b => a.1 ≤ b.1 :=
          (List.perm_insertionSort _ _).mem_iff.mpr (List.mem_map.mpr ⟨member, hm, rfl⟩)
        rw [hsame, (List.perm_insertionSort _ _).mem_iff] at hmem
        obtain ⟨row, hrow, heq⟩ := List.mem_map.mp hmem
        obtain ⟨member', hm', rfl⟩ := List.mem_map.mp ((enumerate_perm _).mem_iff.mp hrow)
        obtain ⟨hname, hvalue⟩ := Prod.mk.inj heq
        obtain rfl := List.inj_on_of_nodup_map hnodup hm' hm hname
        exact hvalue.symm
      · rintro ⟨hnodup, hkept⟩
        rw [Same, reprinted_object_nodup hnodup, canonical_object, canonical_object, Value.object.injEq]
        have hsame : canonised members = canonised (members.map fun m => (m.1, reprinted m.2)) := by
          rw [canonised, canonised, List.map_map]
          apply List.map_congr_left
          intro member hm
          exact congrArg (Prod.mk member.1) ((ih member hm).mpr (hkept member hm))
        apply sorted_of_perm
        · rw [hsame]
          exact ((enumerate_perm _).map _).symm
        · rw [canonised, List.map_map]
          exact hnodup

end Corebase.Json
