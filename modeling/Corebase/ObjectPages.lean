import Corebase.CursorPages
import Corebase.LikePattern
import Corebase.ToNumber
import Corebase.Utf16Text

namespace Corebase.ObjectPages

open JsText (Text)
open Json (Str str JsValue IsString Scalar)
open JsNumber (Number toNumber toText)
open Jwt (property)
open StorageUrls (units isString_units)
open CursorPages LikePattern Utf16Text

/-! The limit that a value is taken for -/

def hasMember (members : List (Str × JsValue)) (name : String) : Bool := members.any fun m => m.1 = str name.toList

mutual

/-- The text of a value, unless it has no primitive value. No member of a parsed object can be called. -/
def textOf : JsValue → Option Str
  | .scalar .null => some (str "null".toList)
  | .scalar (.bool value) => some (str (if value then "true".toList else "false".toList))
  | .scalar (.number value) => some (str (toText value))
  | .scalar (.string value) => some value
  | .array items => (joinItems items).map List.tail
  | .object members => if hasMember members "toString" then none else some (str "[object Object]".toList)

/-- Each item with the comma before it. -/
def joinItems : List JsValue → Option Str
  | [] => some []
  | .scalar .null :: items => (joinItems items).map (','.toNat :: ·)
  | item :: items => do
      let first ← textOf item
      let rest ← joinItems items
      some (','.toNat :: first ++ rest)

end

/-- Number of a value: it can throw, and it can be NaN. -/
def numberOf : JsValue → Option (Option Number)
  | .scalar .null => some (some (.finite 0))
  | .scalar (.bool value) => some (some (.finite (if value then 1 else 0)))
  | .scalar (.number value) => some (some value)
  | value => (textOf value).map toNumber

/-- Between 1 and 1000; zero and NaN stand for 100. -/
def clamp : Option Number → Rat
  | none => 100
  | some (.finite q) => if q = 0 then 100 else min (max q 1) 1000
  | some (.infinite negative) => if negative then 1 else 1000

def pageLimit : Option JsValue → Option Rat
  | none | some (.scalar .null) => some (clamp (some (.finite 100)))
  | some value => (numberOf value).map clamp

/-! POST /object/list -/

structure ObjectRow where
  name : Text
  size : Nat
  mimeType : Text
  etag : Text
  updatedAt : Nat
deriving DecidableEq

/-- The objects of a bucket that the policies show to the caller. -/
structure Visible where
  rows : List ObjectRow
  distinct : (rows.map ObjectRow.name).Nodup
  stored : ∀ r ∈ rows, '\x00' ∉ r.name

inductive Failure
  | thrown | database
deriving DecidableEq

/-- A text parameter; PostgreSQL has no text with a zero in it. -/
def bindText (t : Text) : Option Text := if '\x00' ∈ t then none else some t

/-- A parameter of LIMIT, which is a bigint. -/
def bindLimit (limit : Rat) : Option Nat := if limit.den = 1 then some limit.num.toNat else none

def field (body : JsValue) (name : String) : Option JsValue := (property body name).join

def stringField (body : JsValue) (name : String) : Str :=
  match field body name with
  | some (.scalar (.string value)) => value
  | _ => []

variable (C : Collation Text [])

def listObjects (visible : List ObjectRow) (body : JsValue) : Except Failure (List ObjectRow × Option Text) :=
  match pageLimit (field body "limit") with
  | none => .error .thrown
  | some limit =>
      match bindText (written (stringField body "prefix")), bindText (written (stringField body "cursor")),
          bindLimit limit with
      | some start, some cursor, some limit =>
          match tokens (start ++ ['%']) with
          | none => .error .database
          | some pattern =>
              let rows := C.page ObjectRow.name limit
                (visible.filter fun r => like pattern r.name && C.before cursor r.name)
              .ok (rows, nextCursor ObjectRow.name limit rows)
      | _, _, _ => .error .database

/-- What a client sends that follows the cursors. -/
def request (start : Str) (limit : Option JsValue) (cursor : Option Text) : JsValue :=
  .object ((str "prefix".toList, .scalar (.string start)) :: (limit.map fun l => (str "limit".toList, l)).toList ++
    (cursor.map fun t => (str "cursor".toList, .scalar (.string (units t)))).toList)

def pages (visible : List ObjectRow) (start : Str) (limit : Option JsValue) (cursor : Option Text) :
    Except Failure (List ObjectRow × Option Text) :=
  listObjects C visible (request start limit cursor)

def startsWith (start : Str) (r : ObjectRow) : Bool := start.isPrefixOf (units r.name)

/-- Following the cursors ends without an error and has returned the objects whose names start with the
prefix, each once and in order. -/
def Exact (visible : List ObjectRow) (start : Str) (limit : Option JsValue) : Prop :=
  Chain (pages C visible start limit) none (C.ordered ObjectRow.name (visible.filter (startsWith start)))

/-- What the statement selects on its first page, for a prefix that can be bound. -/
def selected (start : Str) (r : ObjectRow) : Bool :=
  (tokens (written start ++ ['%'])).any (like · r.name) && r.name ≠ []

def Whole (limit : Option JsValue) : Prop := ∃ n, (pageLimit limit).bind bindLimit = some n

/-- A well-formed prefix without a character that means something in a pattern. -/
def Plain (start : Str) : Prop := ∃ t, start = units t ∧ ∀ c ∈ t, special c = false ∧ c ≠ '\x00'

section

variable {C} {visible : List ObjectRow} {start : Str} {limit : Option JsValue}

theorem find_members {p l c : Str} (hpl : p ≠ l) (hpc : p ≠ c) (hlc : l ≠ c) (vp : JsValue) (vl vc : Option JsValue) :
    let members := (p, vp) :: (vl.map fun v => (l, v)).toList ++ (vc.map fun v => (c, v)).toList
    (members.find? fun m => m.1 = l).map Prod.snd = vl ∧ (members.find? fun m => m.1 = p).map Prod.snd = some vp ∧
      (members.find? fun m => m.1 = c).map Prod.snd = vc := by
  cases vl <;> cases vc <;> simp [hpl, hpc, hlc, Ne.symm hlc]

theorem field_request (cursor : Option Text) :
    field (request start limit cursor) "limit" = limit ∧ stringField (request start limit cursor) "prefix" = start ∧
      stringField (request start limit cursor) "cursor" = units (cursor.getD []) := by
  obtain ⟨hl, hp, hc⟩ := find_members (show str "prefix".toList ≠ str "limit".toList by decide)
    (show str "prefix".toList ≠ str "cursor".toList by decide)
    (show str "limit".toList ≠ str "cursor".toList by decide) (.scalar (.string start)) limit
    (cursor.map fun t => .scalar (.string (units t)))
  rw [Option.map_map] at hl hp hc
  refine ⟨hl, ?_, ?_⟩
  · rw [stringField, show field (request start limit cursor) "prefix" = _ from hp]
  · rw [stringField, show field (request start limit cursor) "cursor" = _ from hc]
    cases cursor with
    | none => rfl
    | some t => rfl

theorem clamp_pos (n : Option Number) : 1 ≤ clamp n := by
  unfold clamp
  split
  · norm_num
  · split
    · norm_num
    · exact le_min (le_max_right _ _) (by norm_num)
  · split <;> norm_num

theorem bindLimit_pos {n : Nat} (h : (pageLimit limit).bind bindLimit = some n) : 0 < n := by
  obtain ⟨q, hq, hn⟩ := Option.bind_eq_some_iff.mp h
  have hone : 1 ≤ q := by
    unfold pageLimit at hq
    split at hq
    · rw [← Option.some.inj hq]
      exact clamp_pos _
    · rw [← Option.some.inj hq]
      exact clamp_pos _
    · obtain ⟨m, -, rfl⟩ := Option.map_eq_some_iff.mp hq
      exact clamp_pos m
  rw [bindLimit] at hn
  split at hn
  next hden =>
    have hnum : (1 : Rat) ≤ (q.num : Rat) := by rwa [(Rat.den_eq_one_iff q).mp hden]
    have : (1 : Int) ≤ q.num := by exact_mod_cast hnum
    rw [← Option.some.inj hn]
    omega
  next => cases hn

/-- One page of a chain, for a limit and a prefix that can be bound. -/
theorem pages_eq {n : Nat} (hlimit : (pageLimit limit).bind bindLimit = some n) (hstart : '\x00' ∉ written start)
    (cursor : Option Text) (hcursor : '\x00' ∉ cursor.getD []) :
    pages C visible start limit cursor =
      let page := C.page ObjectRow.name n
        ((visible.filter (selected start)).filter fun r => C.before (cursor.getD []) r.name)
      .ok (page, nextCursor ObjectRow.name n page) := by
  obtain ⟨hl, hp, hc⟩ := @field_request start limit cursor
  obtain ⟨q, hq, hn⟩ := Option.bind_eq_some_iff.mp hlimit
  obtain ⟨ts, -, hts⟩ := tokens_closed (written start)
  have hsame : (visible.filter (selected start)).filter (fun r => C.before (cursor.getD []) r.name) =
      visible.filter fun r => like ts r.name && C.before (cursor.getD []) r.name := by
    rw [List.filter_filter]
    congr 1
    funext r
    have hne : C.before (cursor.getD []) r.name = true → r.name ≠ [] := by
      intro hbefore hnil
      rw [hnil] at hbefore
      by_cases hempty : cursor.getD [] = []
      · rw [hempty, C.irrefl] at hbefore
        cases hbefore
      · rw [Collation.asymm (C.least _ hempty)] at hbefore
        cases hbefore
    rw [selected, hts, Option.any_some]
    cases hb : C.before (cursor.getD []) r.name with
    | false => simp
    | true => simp [hne hb]
  rw [pages, listObjects, hl, hp, hc, hq, written_units, bindText, if_neg hstart, bindText, if_neg hcursor]
  simp only [hn, hts, hsame]

theorem selected_name {r : ObjectRow} (h : selected start r = true) : r.name ≠ [] := by
  simp only [selected, Bool.and_eq_true, decide_eq_true_eq] at h
  exact h.2

/-- The chain returns what the statement selects. -/
theorem chain_selected (V : Visible) (hwhole : Whole limit) (hstart : '\x00' ∉ written start) :
    Chain (pages C V.rows start limit) none (C.ordered ObjectRow.name (V.rows.filter (selected start))) := by
  obtain ⟨n, hn⟩ := hwhole
  apply chain_whole (bindLimit_pos hn) (V.distinct.sublist (List.filter_sublist.map _))
  · intro cursor hcursor
    apply pages_eq hn hstart
    cases cursor with
    | none => exact List.not_mem_nil
    | some k =>
        obtain ⟨r, hr, rfl⟩ := List.mem_map.mp (hcursor k rfl)
        exact V.stored r (List.mem_filter.mp hr).1
  · intro r hr
    exact selected_name (List.mem_filter.mp hr).2

theorem chain_bound {cursor : Option Text} {rows : List ObjectRow} (h : Chain (pages C visible start limit) cursor rows) :
    Whole limit ∧ '\x00' ∉ written start := by
  obtain ⟨answer, hanswer⟩ : ∃ answer, pages C visible start limit cursor = .ok answer := by
    cases h with
    | last h => exact ⟨_, h⟩
    | more h _ => exact ⟨_, h⟩
  obtain ⟨hl, hp, -⟩ := @field_request start limit cursor
  rw [pages, listObjects, hl, hp] at hanswer
  cases hq : pageLimit limit with
  | none => simp [hq] at hanswer
  | some q =>
      cases hn : bindLimit q with
      | none => simp [hq, hn] at hanswer
      | some n =>
          refine ⟨⟨n, by rw [hq]; exact hn⟩, fun hnul => ?_⟩
          rw [hq] at hanswer
          simp only [bindText, if_pos hnul] at hanswer
          cases hanswer

/-- For these objects the chain is exact unless the statement selects others than those that start with the prefix. -/
theorem exact_iff_selected (V : Visible) : Exact C V.rows start limit ↔
    Whole limit ∧ '\x00' ∉ written start ∧ ∀ r ∈ V.rows, startsWith start r = selected start r := by
  constructor
  · intro h
    obtain ⟨hwhole, hstart⟩ := chain_bound h
    refine ⟨hwhole, hstart, fun r hr => ?_⟩
    have hsame : C.ordered ObjectRow.name (V.rows.filter (startsWith start)) =
        C.ordered ObjectRow.name (V.rows.filter (selected start)) := h.unique (chain_selected V hwhole hstart)
    have hperm : (V.rows.filter (startsWith start)).Perm (V.rows.filter (selected start)) := by
      have hleft := @Collation.ordered_perm _ _ _ C ObjectRow.name (V.rows.filter (startsWith start))
      rw [hsame] at hleft
      exact hleft.symm.trans (Collation.ordered_perm _)
    have hmem := hperm.mem_iff (a := r)
    simp only [List.mem_filter, hr, true_and] at hmem
    exact Bool.eq_iff_iff.mpr hmem
  · rintro ⟨hwhole, hstart, hsame⟩
    have hfilter : V.rows.filter (startsWith start) = V.rows.filter (selected start) := List.filter_congr hsame
    rw [Exact, hfilter]
    exact chain_selected V hwhole hstart

/-! Which prefixes select what starts with them -/

theorem selected_plain {t : Text} (ht : ∀ c ∈ t, special c = false) {r : ObjectRow} (hne : r.name ≠ []) :
    startsWith (units t) r = selected (units t) r := by
  apply Bool.eq_iff_iff.mpr
  rw [selected, Bool.and_eq_true, written_units, like_plain ht, startsWith, List.isPrefixOf_iff_prefix, units_prefix]
  simp [hne]

theorem shortest_length {w : Text} {ts : List Token} (h : tokens (w ++ ['%']) = some ts) :
    (units (shortest ts)).length ≤ (units w).length := by
  induction w using tokens.induct generalizing ts with
  | case1 =>
      obtain rfl : [.many] = ts := Option.some.inj h
      exact le_rfl
  | case2 =>
      obtain rfl : [.exact '%'] = ts := Option.some.inj h
      decide
  | case3 d rest ih =>
      rw [List.cons_append, List.cons_append, tokens_escaped] at h
      obtain ⟨ts', hts, rfl⟩ := Option.map_eq_some_iff.mp h
      have := ih hts
      simp only [shortest, units_cons, List.length_append] at this ⊢
      omega
  | case4 rest _ ih =>
      rw [List.cons_append, tokens_many] at h
      obtain ⟨ts', hts, rfl⟩ := Option.map_eq_some_iff.mp h
      have := ih hts
      simp only [shortest, units_cons, List.length_append] at this ⊢
      omega
  | case5 rest _ _ ih =>
      rw [List.cons_append, tokens_one] at h
      obtain ⟨ts', hts, rfl⟩ := Option.map_eq_some_iff.mp h
      have := ih hts
      have hsize : (Jwt.utf16 'x'.toNat).length = (Jwt.utf16 '_'.toNat).length := by decide
      simp only [shortest, units_cons, List.length_append] at this ⊢
      omega
  | case6 c rest h₁ h₂ h₃ ih =>
      rw [List.cons_append, tokens_exact (by simp [special, h₁, h₂, h₃])] at h
      obtain ⟨ts', hts, rfl⟩ := Option.map_eq_some_iff.mp h
      have := ih hts
      simp only [shortest, units_cons, List.length_append] at this ⊢
      omega

theorem shortest_mem {w : Text} {ts : List Token} (h : tokens (w ++ ['%']) = some ts) {c : Char}
    (hc : c ∈ shortest ts) : c ∈ w ∨ c = '%' ∨ c = 'x' := by
  induction w using tokens.induct generalizing ts with
  | case1 =>
      obtain rfl : [.many] = ts := Option.some.inj h
      cases hc
  | case2 =>
      obtain rfl : [.exact '%'] = ts := Option.some.inj h
      exact .inr (.inl (List.mem_singleton.mp hc))
  | case3 d rest ih =>
      rw [List.cons_append, List.cons_append, tokens_escaped] at h
      obtain ⟨ts', hts, rfl⟩ := Option.map_eq_some_iff.mp h
      rcases List.mem_cons.mp hc with rfl | hc
      · simp
      · rcases ih hts hc with hw | hx
        · exact .inl (List.mem_cons_of_mem _ (List.mem_cons_of_mem _ hw))
        · exact .inr hx
  | case4 rest _ ih =>
      rw [List.cons_append, tokens_many] at h
      obtain ⟨ts', hts, rfl⟩ := Option.map_eq_some_iff.mp h
      exact (ih hts hc).imp_left (List.mem_cons_of_mem _)
  | case5 rest _ _ ih =>
      rw [List.cons_append, tokens_one] at h
      obtain ⟨ts', hts, rfl⟩ := Option.map_eq_some_iff.mp h
      rcases List.mem_cons.mp hc with rfl | hc
      · simp
      · exact (ih hts hc).imp_left (List.mem_cons_of_mem _)
  | case6 d rest h₁ h₂ h₃ ih =>
      rw [List.cons_append, tokens_exact (by simp [special, h₁, h₂, h₃])] at h
      obtain ⟨ts', hts, rfl⟩ := Option.map_eq_some_iff.mp h
      rcases List.mem_cons.mp hc with rfl | hc
      · simp
      · exact (ih hts hc).imp_left (List.mem_cons_of_mem _)

/-- A text that is the shortest one of its own pattern has nothing special. -/
theorem plain_of_shortest {w : Text} {ts : List Token} (h : tokens (w ++ ['%']) = some ts) (hw : shortest ts = w) :
    ∀ c ∈ w, special c = false := by
  induction w using tokens.induct generalizing ts with
  | case1 => exact List.forall_mem_nil _
  | case2 =>
      obtain rfl : [.exact '%'] = ts := Option.some.inj h
      cases hw
  | case3 d rest ih =>
      rw [List.cons_append, List.cons_append, tokens_escaped] at h
      obtain ⟨ts', hts, rfl⟩ := Option.map_eq_some_iff.mp h
      have hlen := shortest_length hts
      rw [(List.cons.inj hw).2, units_cons, List.length_append] at hlen
      have := utf16_pos d
      omega
  | case4 rest _ ih =>
      rw [List.cons_append, tokens_many] at h
      obtain ⟨ts', hts, rfl⟩ := Option.map_eq_some_iff.mp h
      have hlen := shortest_length hts
      rw [show shortest ts' = _ from hw, units_cons, List.length_append] at hlen
      have := utf16_pos '%'
      omega
  | case5 rest _ _ ih =>
      rw [List.cons_append, tokens_one] at h
      obtain ⟨ts', hts, rfl⟩ := Option.map_eq_some_iff.mp h
      have hx : 'x' = '_' := (List.cons.inj hw).1
      exact absurd hx (by decide)
  | case6 c rest h₁ h₂ h₃ ih =>
      have hc : special c = false := by simp [special, h₁, h₂, h₃]
      rw [List.cons_append, tokens_exact hc] at h
      obtain ⟨ts', hts, rfl⟩ := Option.map_eq_some_iff.mp h
      exact List.forall_mem_cons.mpr ⟨hc, ih hts (List.cons.inj hw).2⟩

def named (name : Text) : ObjectRow := ⟨name, 0, "text/plain".toList, "etag".toList, 0⟩

def alone (name : Text) (h : '\x00' ∉ name) : Visible := ⟨[named name], List.nodup_singleton _, by simpa [named] using h⟩

/-- A prefix for which the statement selects the right ones among all names has nothing special. -/
theorem plain_of_alike (hs : IsString start) (hnul : '\x00' ∉ written start)
    (h : ∀ name, name ≠ [] → '\x00' ∉ name → startsWith start (named name) = selected start (named name)) : Plain start := by
  obtain ⟨ts, hts_ne, hts⟩ := tokens_closed (written start)
  have hstart : ∀ name : Text, name ≠ [] → '\x00' ∉ name → like ts name = true → start <+: units name := by
    intro name hne hname hlike
    have hsame := h name hne hname
    rw [selected, hts, Option.any_some, show (named name).name = name from rfl, hlike] at hsame
    have hstarts : startsWith start (named name) = true := by simpa [hne] using hsame
    exact List.isPrefixOf_iff_prefix.mp hstarts
  have hlen := shortest_length hts
  rw [units_written_length hs] at hlen
  have hfree : '\x00' ∉ shortest ts := by
    intro hc
    rcases shortest_mem hts hc with hw | hw | hw
    · exact hnul hw
    · exact absurd hw (by decide)
    · exact absurd hw (by decide)
  by_cases hempty : shortest ts = []
  · -- every name is matched, also one that is shorter than the prefix
    have hx : start <+: units ['x'] :=
      hstart ['x'] (List.cons_ne_nil _ _) (by decide) (like_of_shortest_nil hts_ne hempty ['x'])
    cases start with
    | nil => exact ⟨[], rfl, List.forall_mem_nil _⟩
    | cons u us =>
        obtain ⟨rfl, hus⟩ := List.cons_prefix_cons.mp hx
        obtain rfl := List.prefix_nil.mp hus
        obtain rfl : [.exact 'x', .many] = ts := Option.some.inj hts
        cases hempty
  · have hpre := hstart _ hempty hfree (like_shortest ts)
    have heq : start = units (shortest ts) := hpre.eq_of_length_le hlen
    have hw : written start = shortest ts := by rw [heq, written_units]
    refine ⟨shortest ts, heq, fun c hc => ⟨plain_of_shortest (hw ▸ hts) rfl c hc, ?_⟩⟩
    rintro rfl
    exact hfree hc

end

/-- For given objects the chain is exact if the limit is taken for a whole number, the prefix can be bound and
no object tells the pattern from the prefix. For all objects with names it is exact if the prefix is plain. -/
theorem object_list_exact (start : { s : Str // IsString s }) (limit : Option JsValue) :
    (∀ V : Visible, Exact C V.rows start limit ↔ Whole limit ∧ '\x00' ∉ written start ∧
      ∀ r ∈ V.rows, startsWith start r = selected start r) ∧
    ((∀ V : Visible, (∀ r ∈ V.rows, r.name ≠ []) → Exact C V.rows start limit) ↔ Whole limit ∧ Plain start) := by
  refine ⟨exact_iff_selected, fun h => ?_, ?_⟩
  · obtain ⟨hwhole, hnul, -⟩ := exact_iff_selected ⟨[], List.nodup_nil, List.forall_mem_nil _⟩ |>.mp
      (h ⟨[], List.nodup_nil, List.forall_mem_nil _⟩ (List.forall_mem_nil _))
    refine ⟨hwhole, plain_of_alike start.2 hnul fun name hne hname => ?_⟩
    have hone := h (alone name hname) fun r hr => by
      rw [List.mem_singleton.mp hr]
      exact hne
    exact (exact_iff_selected _ |>.mp hone).2.2 _ (List.mem_singleton_self _)
  · rintro ⟨hwhole, t, ht, hplain⟩ V hnames
    refine exact_iff_selected V |>.mpr ⟨hwhole, ?_, fun r hr => ?_⟩
    · rw [ht, written_units]
      exact fun hnul => (hplain _ hnul).2 rfl
    · rw [ht]
      exact selected_plain (fun c hc => (hplain c hc).1) (hnames r hr)

/-- By code points -/
def byCode : Collation Text [] where
  before a b := decide (a < b)
  irrefl a := by simp
  trans a b c hab hbc := by
    simp only [decide_eq_true_eq] at *
    exact List.lt_trans hab hbc
  total a b h := by
    simp only [decide_eq_true_eq]
    by_contra hno
    obtain ⟨hab, hba⟩ := not_or.mp hno
    exact h (List.le_antisymm (List.not_lt.mp hba) (List.not_lt.mp hab))
  least a h := by
    cases a with
    | nil => exact absurd rfl h
    | cons c t => simp

/-- An underscore of the prefix stands for any character. -/
theorem prefix_misread : ¬ ∀ (V : Visible) (start : { s : Str // IsString s }) (limit : Option JsValue),
    Exact byCode V.rows start limit := by
  intro h
  have hexact := h (alone "axb".toList (by decide)) ⟨units "a_b".toList, isString_units _⟩ none
  have hrun : Chain (pages byCode [named "axb".toList] (units "a_b".toList) none) none [named "axb".toList] :=
    .last (by decide)
  have hsame := hexact.unique hrun
  revert hsame
  decide

end Corebase.ObjectPages
