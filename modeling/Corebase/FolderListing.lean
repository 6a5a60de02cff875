import Corebase.ObjectPages

namespace Corebase.FolderListing

open JsText (Text)
open Json (Str)
open JsNumber (toNumber isInteger)
open Jwt (utf16)
open StorageUrls (units)
open CursorPages LikePattern Utf16Text
open ObjectPages (ObjectRow Visible bindText named alone byCode)

def maxLimit : Nat := 500

def defaultLimit : Nat := 100

/-- A query that has passed its schema. -/
structure ListQuery where
  start : Text
  limit : Nat
  short : (units start).length ≤ 1024
  positive : 1 ≤ limit
  most : limit ≤ maxLimit

def ListQuery.parse (start limit : Option Text) : Option ListQuery :=
  match limit.elim (some (defaultLimit : Int)) (fun t => isInteger (toNumber (units t))) with
  | none => none
  | some n =>
      if h : (units (start.getD [])).length ≤ 1024 ∧ 1 ≤ n.toNat ∧ n.toNat ≤ maxLimit then
        some ⟨start.getD [], n.toNat, h.1, h.2.1, h.2.2⟩
      else none

structure Folder where
  name : Text
  objects : Nat
deriving DecidableEq

/-- An object of the page: the leaf is the rest of its path. -/
structure Leaf where
  name : Str
  row : ObjectRow
deriving DecidableEq

structure Listing where
  folders : List Folder
  objects : List Leaf
  hasMore : Bool
deriving DecidableEq

/-- split_part of the first field, with the slash. -/
def segment (t : Text) : Text := t.takeWhile (· ≠ '/') ++ ['/']

/-- The folder of what is left of a name, and none for a leaf. -/
def folderOf (t : Text) : Option Text := if '/' ∈ t then some (segment t) else none

section

variable (C : Collation Text []) (objects : List ObjectRow) (q : ListQuery)

/-- The rest of a name as the statements take it: from the length of the prefix, which is counted in units. -/
def substring (r : ObjectRow) : Text := r.name.drop (units q.start).length

def matched (r : ObjectRow) : Bool := (tokens (escape q.start ++ ['%'])).any (like · r.name)

/-- The group of a folder. -/
def counted (folder : Text) : List ObjectRow :=
  (objects.filter (matched q)).filter fun r => folderOf (substring q r) = some folder

def folders : List Text :=
  C.page id q.limit ((objects.filter (matched q)).filterMap fun r => folderOf (substring q r)).dedup

def files : List ObjectRow :=
  C.page ObjectRow.name (q.limit + 1) ((objects.filter (matched q)).filter fun r => folderOf (substring q r) = none)

/-- GET /v1/projects/:ref/storage/buckets/:bucket/objects, unless PostgreSQL does not take the prefix. -/
def listObjects : Option Listing :=
  (bindText (escape q.start ++ ['%'])).map fun _ =>
    let more := q.limit < (files C objects q).length
    { folders := (folders C objects q).map fun f => ⟨f, (counted objects q f).length⟩
      objects := (if more then (files C objects q).take q.limit else files C objects q).map fun r =>
        ⟨(units r.name).drop (units q.start).length, r⟩
      hasMore := more }

end

/-! What a folder listing is for -/

/-- The objects whose names start with a text. -/
def below (objects : List ObjectRow) (start : Text) : List ObjectRow := objects.filter fun r => start.isPrefixOf r.name

/-- What is left of a name after the prefix. -/
def remainder (q : ListQuery) (r : ObjectRow) : Text := r.name.drop q.start.length

structure Partition (objects : List ObjectRow) (q : ListQuery) (a : Listing) : Prop where
  /-- An object that is shown is one of those below the prefix, has no folder there, and is shown by its leaf. -/
  leaves : ∀ l ∈ a.objects, l.row ∈ below objects q.start ∧ folderOf (remainder q l.row) = none ∧
    units q.start ++ l.name = units l.row.name
  once : (a.objects.map Leaf.row).Nodup
  /-- A folder is named by a next segment, and it counts what is listed on entering it. -/
  entered : ∀ f ∈ a.folders, counted objects q f.name = below objects (q.start ++ f.name) ∧
    f.objects = (below objects (q.start ++ f.name)).length ∧
    ∃ r ∈ below objects q.start, folderOf (remainder q r) = some f.name
  distinct : (a.folders.map Folder.name).Nodup
  /-- If something is left out, the answer says so. -/
  complete : ∀ r ∈ below objects q.start, a.hasMore = false →
    match folderOf (remainder q r) with
    | none => r ∈ a.objects.map Leaf.row
    | some f => f ∈ a.folders.map Folder.name

/-- What the statements read after the prefix is another leaf or another folder. -/
def Misread (q : ListQuery) (r : ObjectRow) : Prop := folderOf (substring q r) ≠ folderOf (remainder q r)

/-- An object is neither shown nor counted, and its folder is not shown. -/
def Hidden (C : Collation Text []) (objects : List ObjectRow) (q : ListQuery) (r : ObjectRow) : Prop :=
  r ∉ (files C objects q).take q.limit ∧
    ∀ f ∈ folders C objects q, folderOf (substring q r) ≠ some f ∧ folderOf (remainder q r) ≠ some f

/-- The folder of an object is one of those that are shown, or there are more leaves than are shown. -/
def Announced (C : Collation Text []) (objects : List ObjectRow) (q : ListQuery) (r : ObjectRow) : Prop :=
  ∀ f, folderOf (remainder q r) = some f → f ∈ folders C objects q ∨ q.limit < (files C objects q).length

section

variable {C : Collation Text []} {objects : List ObjectRow} {q : ListQuery}

theorem escape_stored : '\x00' ∈ escape q.start ++ ['%'] ↔ '\x00' ∈ q.start := by
  have hone : ∀ c : Char, '\x00' ∈ (if special c then ['\\', c] else [c]) ↔ '\x00' = c := by
    intro c
    split <;> simp
  simp only [escape, List.mem_append, List.mem_flatMap, hone, List.mem_singleton, or_false,
    show ¬ '\x00' = '%' by decide]
  constructor
  · rintro ⟨c, hc, he⟩
    exact he ▸ hc
  · intro h
    exact ⟨_, h, rfl⟩

theorem matched_eq : objects.filter (matched q) = below objects q.start := by
  apply List.filter_congr
  intro r _
  apply Bool.eq_iff_iff.mpr
  rw [matched, like_escape, List.isPrefixOf_iff_prefix]

/-- The folder after a start, as a prefix of the name. -/
theorem segment_prefix {f : Text} (hf : '/' ∉ f) (t : Text) : f ++ ['/'] <+: t ↔ folderOf t = some (f ++ ['/']) := by
  induction f generalizing t with
  | nil =>
      cases t with
      | nil => simp [folderOf]
      | cons c t =>
          by_cases hc : c = '/'
          · simp [folderOf, segment, hc]
          · have hc' : ¬ '/' = c := Ne.symm hc
            simp [folderOf, segment, hc, hc', List.cons_prefix_cons]
  | cons x f ih =>
      obtain ⟨hx, hf⟩ : '/' ≠ x ∧ '/' ∉ f := by simpa using hf
      cases t with
      | nil => simp [folderOf]
      | cons c t =>
          rw [List.cons_append, List.cons_prefix_cons, ih hf]
          by_cases hc : c = '/'
          · simp [folderOf, segment, hc, Ne.symm hx]
          · have hc' : ¬ '/' = c := Ne.symm hc
            simp only [folderOf, segment, List.mem_cons, hc', false_or]
            by_cases ht : '/' ∈ t
            · simp [ht, hc, eq_comm]
            · simp [ht]

theorem folder_shape {t f : Text} (h : folderOf t = some f) : ∃ s, '/' ∉ s ∧ f = s ++ ['/'] := by
  rw [folderOf] at h
  split at h
  · refine ⟨t.takeWhile (· ≠ '/'), fun hm => ?_, (Option.some.inj h).symm⟩
    simpa using List.mem_takeWhile_imp hm
  · cases h

theorem below_folder {f : Text} (hf : ∃ s, '/' ∉ s ∧ f = s ++ ['/']) : below objects (q.start ++ f) =
    (below objects q.start).filter fun r => folderOf (remainder q r) = some f := by
  obtain ⟨s, hs, rfl⟩ := hf
  rw [below, below, List.filter_filter]
  apply List.filter_congr
  intro r _
  apply Bool.eq_iff_iff.mpr
  rw [Bool.and_eq_true, decide_eq_true_eq, List.isPrefixOf_iff_prefix, List.isPrefixOf_iff_prefix, remainder,
    ← segment_prefix hs]
  constructor
  · rintro ⟨rest, hrest⟩
    rw [← hrest, List.append_assoc, List.drop_left]
    exact ⟨⟨rest, rfl⟩, _, rfl⟩
  · rintro ⟨⟨tail, htail⟩, rest, hrest⟩
    rw [← hrest, List.drop_left] at htail
    exact ⟨tail, by rw [List.append_assoc, htail, hrest]⟩

theorem counted_eq (f : Text) : counted objects q f =
    (below objects q.start).filter fun r => folderOf (substring q r) = some f := by
  rw [counted, matched_eq]

theorem mem_folders {f : Text} (h : f ∈ folders C objects q) :
    ∃ r ∈ below objects q.start, folderOf (substring q r) = some f := by
  have hmem := (Collation.ordered_perm _).mem_iff.mp (List.mem_of_mem_take h)
  rw [List.mem_dedup, List.mem_filterMap, matched_eq] at hmem
  exact hmem

theorem folders_nodup : (folders C objects q).Nodup := by
  apply List.Nodup.sublist (List.take_sublist _ _)
  exact (Collation.ordered_perm _).nodup_iff.mpr (List.nodup_dedup _)

theorem mem_files {r : ObjectRow} (h : r ∈ files C objects q) :
    r ∈ below objects q.start ∧ folderOf (substring q r) = none := by
  have hmem := (Collation.ordered_perm _).mem_iff.mp (List.mem_of_mem_take h)
  rw [matched_eq, List.mem_filter, decide_eq_true_eq] at hmem
  exact hmem

theorem files_nodup (V : Visible) : (files C V.rows q).Nodup := by
  apply List.Nodup.sublist (List.take_sublist _ _)
  refine (Collation.ordered_perm _).nodup_iff.mpr ?_
  exact (V.distinct.of_map _).sublist (List.filter_sublist.trans List.filter_sublist)

theorem files_length : (files C objects q).length = min (q.limit + 1)
    ((below objects q.start).filter fun r => folderOf (substring q r) = none).length := by
  rw [files, Collation.page, List.length_take, (Collation.ordered_perm _).length_eq, matched_eq]

/-- As long as there are not more than are shown, all the leaves are there. -/
theorem files_whole (h : (files C objects q).length ≤ q.limit) {r : ObjectRow} (hr : r ∈ below objects q.start)
    (hleaf : folderOf (substring q r) = none) : r ∈ files C objects q := by
  have hlen := @files_length C objects q
  rw [files, Collation.page, List.take_of_length_le]
  · rw [(Collation.ordered_perm _).mem_iff, matched_eq]
    exact List.mem_filter.mpr ⟨hr, decide_eq_true hleaf⟩
  · rw [(Collation.ordered_perm _).length_eq, matched_eq]
    omega

theorem length_le_units (t : Text) : t.length ≤ (units t).length := by
  induction t with
  | nil => exact le_rfl
  | cons c t ih =>
      have := utf16_pos c
      rw [units_cons, List.length_append, List.length_cons]
      omega

/-- A leaf is read as a leaf: the statements leave out no less than the prefix. -/
theorem leaf_kept {r : ObjectRow} (h : folderOf (remainder q r) = none) : folderOf (substring q r) = none := by
  rw [folderOf] at h ⊢
  split at h
  · cases h
  next hno =>
    apply if_neg
    intro hin
    exact hno ((List.drop_sublist_drop_left _ (length_le_units q.start)).subset hin)

theorem shown_eq : (if q.limit < (files C objects q).length then (files C objects q).take q.limit else files C objects q) =
    (files C objects q).take q.limit := by
  split
  · rfl
  next h => rw [List.take_of_length_le (not_lt.mp h)]

theorem listed_eq {a : Listing} (h : listObjects C objects q = some a) : '\x00' ∉ q.start ∧
    a.folders = (folders C objects q).map (fun f => ⟨f, (counted objects q f).length⟩) ∧
    a.objects = ((files C objects q).take q.limit).map (fun r => ⟨(units r.name).drop (units q.start).length, r⟩) ∧
    a.hasMore = decide (q.limit < (files C objects q).length) := by
  obtain ⟨t, ht, rfl⟩ := Option.map_eq_some_iff.mp h
  rw [bindText] at ht
  split at ht
  · cases ht
  next hnul => exact ⟨fun h => hnul (escape_stored.mpr h), rfl, congrArg (List.map _) (by simp [shown_eq]), rfl⟩

theorem listed_of_stored (h : '\x00' ∉ q.start) : ∃ a, listObjects C objects q = some a := by
  rw [listObjects, bindText, if_neg fun hnul => h (escape_stored.mp hnul)]
  exact ⟨_, rfl⟩

/-- An answer is a partition exactly when no object is shown that is read otherwise, and folders that are left
out are announced. -/
theorem partition_iff (V : Visible) : (∃ a, listObjects C V.rows q = some a ∧ Partition V.rows q a) ↔
    '\x00' ∉ q.start ∧
      ∀ r ∈ below V.rows q.start, (Misread q r → Hidden C V.rows q r) ∧ Announced C V.rows q r := by
  constructor
  · rintro ⟨a, ha, hpart⟩
    obtain ⟨hnul, hfolders, hobjects, hmore⟩ := listed_eq ha
    refine ⟨hnul, fun r hr => ⟨fun hmis => ⟨fun hshown => ?_, fun f hf => ?_⟩, fun f hf => ?_⟩⟩
    · have hleaf := hpart.leaves ⟨_, r⟩ (by rw [hobjects]; exact List.mem_map_of_mem hshown)
      exact hmis ((mem_files (List.mem_of_mem_take hshown)).2.trans hleaf.2.1.symm)
    · obtain ⟨hsame, -, hnext⟩ := hpart.entered ⟨f, _⟩ (by rw [hfolders]; exact List.mem_map_of_mem hf)
      obtain ⟨r₀, -, hr₀⟩ := hnext
      have hiff : r ∈ counted V.rows q f ↔ r ∈ below V.rows (q.start ++ f) := by rw [hsame]
      rw [counted_eq, below_folder (folder_shape hr₀), List.mem_filter, List.mem_filter, decide_eq_true_eq,
        decide_eq_true_eq, and_iff_right hr, and_iff_right hr] at hiff
      exact ⟨fun hs => hmis (hs.trans (hiff.mp hs).symm), fun hc => hmis ((hiff.mpr hc).trans hc.symm)⟩
    · by_cases hlt : q.limit < (files C V.rows q).length
      · exact .inr hlt
      · have hin := hpart.complete r hr (by rw [hmore]; exact decide_eq_false hlt)
        rw [hf, hfolders, List.map_map] at hin
        left
        simpa using hin
  · rintro ⟨hnul, hall⟩
    obtain ⟨a, ha⟩ := @listed_of_stored C V.rows q hnul
    obtain ⟨-, hfolders, hobjects, hmore⟩ := listed_eq ha
    refine ⟨a, ha, ?_, ?_, ?_, ?_, ?_⟩
    · intro l hl
      rw [hobjects] at hl
      obtain ⟨r, hr, rfl⟩ := List.mem_map.mp hl
      obtain ⟨hbelow, hleaf⟩ := mem_files (List.mem_of_mem_take hr)
      refine ⟨hbelow, ?_, ?_⟩
      · by_contra hfolder
        exact ((hall r hbelow).1 (fun h => hfolder (h.symm.trans hleaf))).1 hr
      · obtain ⟨rest, hrest⟩ := List.isPrefixOf_iff_prefix.mp (List.mem_filter.mp hbelow).2
        rw [← hrest, units_append, List.drop_left]
    · rw [hobjects, List.map_map, show Leaf.row ∘ _ = id from rfl, List.map_id]
      exact (files_nodup V).sublist (List.take_sublist _ _)
    · intro folder hfolder
      rw [hfolders] at hfolder
      obtain ⟨f, hf, rfl⟩ := List.mem_map.mp hfolder
      obtain ⟨r₀, hr₀, hread⟩ := mem_folders hf
      have hsame : counted V.rows q f = below V.rows (q.start ++ f) := by
        rw [counted_eq, below_folder (folder_shape hread)]
        apply List.filter_congr
        intro r hr
        apply decide_eq_decide.mpr
        by_cases hmis : Misread q r
        · obtain ⟨hs, hc⟩ := ((hall r hr).1 hmis).2 f hf
          exact iff_of_false hs hc
        · rw [not_not.mp hmis]
      refine ⟨hsame, congrArg List.length hsame, r₀, hr₀, ?_⟩
      by_contra hne
      exact (((hall r₀ hr₀).1 fun h => hne (h.symm.trans hread)).2 f hf).1 hread
    · rw [hfolders, List.map_map, show Folder.name ∘ _ = id from rfl, List.map_id]
      exact folders_nodup
    · intro r hr hfalse
      have hlen : ¬ q.limit < (files C V.rows q).length := by
        rw [hmore] at hfalse
        exact of_decide_eq_false hfalse
      cases hread : folderOf (remainder q r) with
      | none =>
          have hin := files_whole (not_lt.mp hlen) hr (leaf_kept hread)
          rw [hobjects, List.map_map, show Leaf.row ∘ _ = id from rfl, List.map_id, List.take_of_length_le (not_lt.mp hlen)]
          exact hin
      | some f =>
          rw [hfolders, List.map_map, show Folder.name ∘ _ = id from rfl, List.map_id]
          exact ((hall r hr).2 f hread).resolve_right hlen

/-! A prefix within the Basic Multilingual Plane is as long in units as in characters -/

theorem units_length {t : Text} (h : ∀ c ∈ t, c.toNat < 0x10000) : (units t).length = t.length := by
  induction t with
  | nil => rfl
  | cons c t ih =>
      obtain ⟨hc, ht⟩ := List.forall_mem_cons.mp h
      rw [units_cons, utf16, if_pos hc, List.length_append, ih ht, List.length_singleton, List.length_cons, Nat.add_comm]

theorem units_longer {t : Text} (h : ∃ c ∈ t, 0x10000 ≤ c.toNat) : t.length < (units t).length := by
  induction t with
  | nil => simp at h
  | cons c t ih =>
      rw [units_cons, List.length_append, List.length_cons]
      by_cases ht : ∃ d ∈ t, 0x10000 ≤ d.toNat
      · have := ih ht
        have := utf16_pos c
        omega
      · obtain ⟨d, hd, hbig⟩ := h
        rcases List.mem_cons.mp hd with rfl | hd
        · have := length_le_units t
          rw [utf16, if_neg (by omega)]
          simp only [List.length_cons, List.length_nil]
          omega
        · exact absurd ⟨d, hd, hbig⟩ ht

theorem substring_eq (h : ∀ c ∈ q.start, c.toNat < 0x10000) (r : ObjectRow) : substring q r = remainder q r := by
  rw [substring, remainder, units_length h]

theorem misread_iff : (∀ r, q.start <+: r.name → ¬ Misread q r) ↔ ∀ c ∈ q.start, c.toNat < 0x10000 := by
  constructor
  · intro h c hc
    by_contra hbig
    have hlonger := units_longer ⟨c, hc, not_lt.mp hbig⟩
    refine h (named (q.start ++ "a/b".toList)) ⟨_, rfl⟩ ?_
    obtain ⟨j, hj⟩ : ∃ j, (units q.start).length = q.start.length + (j + 1) :=
      ⟨(units q.start).length - q.start.length - 1, by omega⟩
    have hsub : substring q (named (q.start ++ "a/b".toList)) = "/b".toList.drop j := by
      rw [substring, hj, ← List.drop_drop, named, List.drop_left]
      rfl
    have hrem : remainder q (named (q.start ++ "a/b".toList)) = "a/b".toList := List.drop_left
    rw [Misread, hsub, hrem]
    match j with
    | 0 => decide
    | 1 => decide
    | j + 2 => simp [folderOf]
  · intro h r _ hmis
    exact hmis (by rw [substring_eq h])

/-- The folders below the prefix. -/
def folderNames (objects : List ObjectRow) (q : ListQuery) : List Text :=
  ((below objects q.start).filterMap fun r => folderOf (remainder q r)).dedup

def leafRows (objects : List ObjectRow) (q : ListQuery) : List ObjectRow :=
  (below objects q.start).filter fun r => folderOf (remainder q r) = none

theorem announced_iff (h : ∀ c ∈ q.start, c.toNat < 0x10000) :
    (∀ r ∈ below objects q.start, Announced C objects q r) ↔
      (folderNames objects q).length ≤ q.limit ∨ q.limit < (leafRows objects q).length := by
  have hfolders : folders C objects q = C.page id q.limit (folderNames objects q) := by
    rw [folders, matched_eq, folderNames]
    simp only [substring_eq h]
  have hfiles : (files C objects q).length = min (q.limit + 1) (leafRows objects q).length := by
    rw [files_length, leafRows]
    simp only [substring_eq h]
  have hmem : ∀ f, f ∈ folderNames objects q ↔ ∃ r ∈ below objects q.start, folderOf (remainder q r) = some f := by
    intro f
    rw [folderNames, List.mem_dedup, List.mem_filterMap]
  constructor
  · intro hall
    by_cases hlt : q.limit < (leafRows objects q).length
    · exact .inr hlt
    · left
      have hsub : folderNames objects q ⊆ folders C objects q := by
        intro f hf
        obtain ⟨r, hr, hread⟩ := (hmem f).mp hf
        exact (hall r hr f hread).resolve_right (by omega)
      calc (folderNames objects q).length ≤ (folders C objects q).length :=
            ((List.nodup_dedup _).subperm hsub).length_le
        _ ≤ q.limit := by
            rw [hfolders, Collation.page]
            exact List.length_take_le _ _
  · intro hcond r hr f hread
    rcases hcond with hle | hlt
    · left
      rw [hfolders, Collation.page, List.take_of_length_le]
      · exact (Collation.ordered_perm _).mem_iff.mpr ((hmem f).mpr ⟨r, hr, hread⟩)
      · rwa [(Collation.ordered_perm _).length_eq]
    · right
      omega

end

/-- When the answer is a partition: for any prefix, and for one within the Basic Multilingual Plane, which are
the prefixes that no name is misread for. -/
theorem listing_partition (C : Collation Text []) (q : ListQuery) :
    (∀ V : Visible, (∃ a, listObjects C V.rows q = some a ∧ Partition V.rows q a) ↔
      '\x00' ∉ q.start ∧ ∀ r ∈ below V.rows q.start, (Misread q r → Hidden C V.rows q r) ∧ Announced C V.rows q r) ∧
    ((∀ c ∈ q.start, c.toNat < 0x10000) → ∀ V : Visible,
      (∃ a, listObjects C V.rows q = some a ∧ Partition V.rows q a) ↔ '\x00' ∉ q.start ∧
        ((folderNames V.rows q).length ≤ q.limit ∨ q.limit < (leafRows V.rows q).length)) ∧
    ((∀ r, q.start <+: r.name → ¬ Misread q r) ↔ ∀ c ∈ q.start, c.toNat < 0x10000) := by
  refine ⟨fun V => partition_iff V, fun h V => ?_, misread_iff⟩
  rw [partition_iff, ← announced_iff h]
  constructor
  · rintro ⟨hnul, hall⟩
    exact ⟨hnul, fun r hr => (hall r hr).2⟩
  · rintro ⟨hnul, hall⟩
    refine ⟨hnul, fun r hr => ⟨fun hmis => absurd (by rw [substring_eq h]) hmis, hall r hr⟩⟩

def smiles : ListQuery := ⟨"😀/".toList, defaultLimit, by decide, by decide, by decide⟩

/-- Below a prefix outside of the plane, the folder of an object is cut off. -/
theorem folder_cut : ¬ ∀ (V : Visible) (q : ListQuery), ∃ a, listObjects byCode V.rows q = some a ∧ Partition V.rows q a := by
  intro h
  obtain ⟨-, hall⟩ := (partition_iff (alone "😀/a/b".toList (by decide))).mp
    (h (alone "😀/a/b".toList (by decide)) smiles)
  have hcut := (hall (named "😀/a/b".toList) (by decide)).1 (by unfold Misread; decide)
  exact (hcut.2 "/".toList (by decide)).1 (by decide)

end Corebase.FolderListing
