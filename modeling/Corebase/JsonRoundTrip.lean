import Mathlib.Data.Bool.AllAny
import Corebase.JsonMeaning
import Corebase.JsonUnits
import Corebase.NumberText

namespace Corebase.Json

open JsNumber
open JsText (Text)

/-! What is printed is read as the value -/

def Stable (value : JsValue) : Prop := evaluate (content value) = value

theorem stable_string (s : Str) : Stable (.scalar (.string s)) := rfl

theorem stable_number {q : Rat} (h : JsNumber.round q = .finite q) : Stable (.scalar (.number (.finite q))) := by
  rw [Stable, content, Scalar.content, evaluate, Scalar.evaluate, round_shown h]

theorem enumerate_names {α : Type} {members : List (Str × α)} (h : ∀ m ∈ members, index m.1 = none) :
    enumerate members = members := by
  have hsorted := enumerate_sorted (a := []) List.Pairwise.nil (List.forall_mem_nil _) (b := members)
    fun m hm => by rw [h m hm]; rfl
  rwa [List.nil_append] at hsorted

/-- An object whose names are distinct and no indices, and whose values are stable. -/
theorem stable_object {members : List (Str × JsValue)} (hnames : (members.map Prod.fst).Nodup)
    (hindex : ∀ m ∈ members, index m.1 = none) (hvalues : ∀ m ∈ members, Stable m.2) : Stable (.object members) := by
  have hcontents : enumerate (memberContents members) = memberContents members := by
    apply enumerate_names
    rw [memberContents_eq]
    intro m hm
    obtain ⟨row, hrow, rfl⟩ := List.mem_map.mp hm
    exact hindex row hrow
  have hmembers : evaluateMembers (memberContents members) = members := by
    rw [evaluateMembers_eq, memberContents_eq, List.map_map]
    conv_rhs => rw [← List.map_id members]
    apply List.map_congr_left
    intro m hm
    have hvalue : evaluate (content m.2) = m.2 := hvalues m hm
    simp only [Function.comp_apply, hvalue, id]
  have hdefine := @foldl_define _ [] members (by simpa using hnames)
  rw [Stable, content, hcontents, evaluate, hmembers, hdefine, List.nil_append]

/-- A stable value is what its text is parsed as. -/
theorem Stable.parse_print {value : JsValue} (h : Stable value) : parse (print value) = some value := by
  rw [parse, parseText_print, Option.map_some]
  exact congrArg some h

/-! The units of what is printed -/

/-- A string of the language: its units are of 16 bits. -/
def IsString (s : Str) : Prop := ∀ u ∈ s, u < 0x10000

instance (s : Str) : Decidable (IsString s) := inferInstanceAs (Decidable (∀ u ∈ s, u < 0x10000))

theorem isString_append {a b : Str} (ha : IsString a) (hb : IsString b) : IsString (a ++ b) := by
  intro u hu
  exact (List.mem_append.mp hu).elim (ha u) (hb u)

theorem isString_cons {u : Nat} {us : Str} (hu : u < 0x10000) (hus : IsString us) : IsString (u :: us) :=
  List.forall_mem_cons.mpr ⟨hu, hus⟩

theorem isString_ascii {text : Text} (h : ∀ c ∈ text, c.toNat < 128) : IsString (str text) := by
  intro u hu
  obtain ⟨c, hc, rfl⟩ := List.mem_map.mp hu
  exact (h c hc).trans (by decide)

theorem digit_ascii {n : Nat} : ∀ c ∈ Nat.toDigits 10 n, c.toNat < 128 := by
  intro c hc
  have hdigit := toDigits_isDigit n c hc
  simp only [Char.isDigit, Bool.and_eq_true, decide_eq_true_eq] at hdigit
  have hval : c.toNat = c.val.toNat := rfl
  have hle : c.val.toNat ≤ 57 := hdigit.2
  omega

theorem zeros_ascii (n : Nat) : ∀ c ∈ List.replicate n '0', c.toNat < 128 := by
  intro c hc
  rw [(List.mem_replicate.mp hc).2]
  decide

theorem decimalText_ascii (s : Nat) (p : Int) : ∀ c ∈ decimalText s p, c.toNat < 128 := by
  have hdigits := @digit_ascii s
  have htake : ∀ k, ∀ c ∈ (Nat.toDigits 10 s).take k, c.toNat < 128 := fun k c hc => hdigits c (List.mem_of_mem_take hc)
  have hdrop : ∀ k, ∀ c ∈ (Nat.toDigits 10 s).drop k, c.toNat < 128 := fun k c hc => hdigits c (List.mem_of_mem_drop hc)
  have hpoint : ∀ k, ∀ c ∈ '.' :: (Nat.toDigits 10 s).drop k, c.toNat < 128 :=
    fun k => List.forall_mem_cons.mpr ⟨by decide, hdrop k⟩
  unfold decimalText
  dsimp only
  split
  next => exact List.forall_mem_append.mpr ⟨hdigits, zeros_ascii _⟩
  split
  next => exact List.forall_mem_append.mpr ⟨htake _, hpoint _⟩
  split
  next =>
    refine List.forall_mem_cons.mpr ⟨by decide, List.forall_mem_cons.mpr ⟨by decide, ?_⟩⟩
    exact List.forall_mem_append.mpr ⟨zeros_ascii _, hdigits⟩
  next =>
    refine List.forall_mem_append.mpr ⟨List.forall_mem_append.mpr ⟨htake 1, ?_⟩, ?_⟩
    · split
      next => exact List.forall_mem_nil _
      next => exact hpoint 1
    · refine List.forall_mem_cons.mpr ⟨by decide, List.forall_mem_cons.mpr ⟨?_, digit_ascii⟩⟩
      split <;> decide

theorem toText_ascii (value : Number) : ∀ c ∈ toText value, c.toNat < 128 := by
  have hsign : ∀ negative : Prop, [Decidable negative] → ∀ c ∈ if negative then ['-'] else [], c.toNat < 128 := by
    intro negative _
    split
    next => exact List.forall_mem_singleton.mpr (by decide)
    next => exact List.forall_mem_nil _
  cases value with
  | finite q =>
      rw [toText]
      split
      next => exact List.forall_mem_singleton.mpr (by decide)
      next => exact List.forall_mem_append.mpr ⟨hsign _, decimalText_ascii _ _⟩
  | infinite negative => cases negative <;> exact List.all_iff_forall_prop.mp (by decide)

theorem hexUnit_lt {d : Nat} (h : d < 16) : hexUnit d < 0x10000 := by
  rw [hexUnit]
  split <;> omega

theorem isString_escapeUnit {u : Nat} (h : u < 0x10000) : IsString (escapeUnit u) := by
  unfold escapeUnit
  split
  next => exact isString_cons (by decide) (isString_cons h (List.forall_mem_nil _))
  split
  next => decide
  split
  next => decide
  split
  next => decide
  split
  next => decide
  split
  next => decide
  split
  next =>
    have hhex : ∀ n, hexUnit (n % 16) < 0x10000 := fun n => hexUnit_lt (Nat.mod_lt n (by decide))
    intro x hx
    simp only [unicodeEscape, List.mem_cons, List.not_mem_nil, or_false] at hx
    rcases hx with rfl | rfl | rfl | rfl | rfl | rfl
    · decide
    · decide
    · exact hhex _
    · exact hhex _
    · exact hhex _
    · exact hhex _
  next => exact isString_cons h (List.forall_mem_nil _)

theorem isString_escapeUnits (paired : Bool) {us : Str} (h : IsString us) : IsString (escapeUnits paired us) := by
  induction us generalizing paired with
  | nil => exact List.forall_mem_nil _
  | cons u us ih =>
      obtain ⟨hu, hus⟩ := List.forall_mem_cons.mp h
      unfold escapeUnits
      split
      next => exact isString_cons hu (ih false hus)
      split
      next => exact isString_cons hu (ih true hus)
      next => exact isString_append (isString_escapeUnit hu) (ih false hus)

theorem isString_quote {s : Str} (h : IsString s) : IsString (quote s) :=
  isString_append (isString_cons (by decide) (isString_escapeUnits false h)) (by decide)

theorem isString_scalar {value : Scalar Number} (h : ∀ s, value = .string s → IsString s) : IsString value.print := by
  cases value with
  | null => exact isString_ascii (List.all_iff_forall_prop.mp (by decide))
  | bool value => cases value <;> exact isString_ascii (List.all_iff_forall_prop.mp (by decide))
  | number value =>
      cases value with
      | finite q => exact isString_ascii (toText_ascii _)
      | infinite negative => exact isString_ascii (List.all_iff_forall_prop.mp (by decide))
  | string value => exact isString_quote (h value rfl)

theorem isString_members {members : List (Str × Str)} (h : ∀ m ∈ members, IsString m.1 ∧ IsString m.2) :
    IsString (members.flatMap memberText) := by
  induction members with
  | nil => exact List.forall_mem_nil _
  | cons member members ih =>
      obtain ⟨⟨hname, htext⟩, hmembers⟩ := List.forall_mem_cons.mp h
      rw [List.flatMap_cons, memberText]
      refine isString_append (isString_append (isString_cons (by decide) (isString_quote hname)) ?_) (ih hmembers)
      exact isString_cons (by decide) htext

/-- An object whose names and values are printed in units of 16 bits is printed so itself. -/
theorem isString_object {members : List (Str × JsValue)} (h : ∀ m ∈ members, IsString m.1 ∧ IsString (print m.2)) :
    IsString (print (.object members)) := by
  have hrows : ∀ row ∈ enumerate (printMembers members), IsString row.1 ∧ IsString row.2 := by
    intro row hrow
    rw [(enumerate_perm _).mem_iff, printMembers_eq, List.mem_map] at hrow
    obtain ⟨member, hmember, rfl⟩ := hrow
    exact h member hmember
  rw [print]
  refine isString_append (isString_cons (by decide) ?_) (by decide)
  intro u hu
  exact isString_members hrows u (List.mem_of_mem_tail hu)

end Corebase.Json
