import Corebase.Json
import Corebase.NumberText

namespace Corebase.JsNumber

open Json (Str str hexDigit)

/-! The number that a string stands for -/

def isSpaceUnit (u : Nat) : Bool :=
  [9, 10, 11, 12, 13, 32, 0xA0, 0x1680, 0x2028, 0x2029, 0x202F, 0x205F, 0x3000, 0xFEFF].contains u ||
    (0x2000 ≤ u && u ≤ 0x200A)

def trimUnits (s : Str) : Str := ((s.dropWhile isSpaceUnit).reverse.dropWhile isSpaceUnit).reverse

/-- A whole number in a base of which the units are the digits. -/
def wholeOf (base : Nat) (digits : List Nat) : Nat := digits.foldl (fun n d => base * n + d) 0

def digitsOf (s : Str) : List Nat := s.map (· - 48)

/-- A number with the prefix of a base, which has to have digits. -/
def basedNumber (base : Nat) (s : Str) : Option Rat := do
  let digits ← s.mapM hexDigit
  if s = [] ∨ digits.any (base ≤ ·) then none else some (wholeOf base digits)

/-- The exponent after its mark. -/
def exponentOf (s : Str) : Option Int :=
  let (negative, digits) := match s with
    | 43 :: ds => (false, ds)
    | 45 :: ds => (true, ds)
    | ds => (false, ds)
  if digits = [] ∨ !digits.all Json.isDigit then none
  else some (if negative then -(wholeOf 10 (digitsOf digits)) else wholeOf 10 (digitsOf digits))

def decimalNumber (s : Str) : Option Rat :=
  let whole := s.takeWhile Json.isDigit
  let tail := s.dropWhile Json.isDigit
  let fraction := match tail with
    | 46 :: rest => rest.takeWhile Json.isDigit
    | _ => []
  let tail := match tail with
    | 46 :: rest => rest.dropWhile Json.isDigit
    | tail => tail
  let mantissa := wholeOf 10 (digitsOf (whole ++ fraction))
  if whole = [] ∧ fraction = [] then none
  else match tail with
    | [] => some (shift 10 mantissa (-fraction.length))
    | u :: rest =>
        if u = 'e'.toNat ∨ u = 'E'.toNat then
          (exponentOf rest).map fun e => shift 10 mantissa (e - fraction.length)
        else none

/-- Number of a string; none stands for NaN. -/
def toNumber (s : Str) : Option Number :=
  let s := trimUnits s
  match s with
  | [] => some (.finite 0)
  | 48 :: u :: rest =>
      if u = 'x'.toNat ∨ u = 'X'.toNat then (basedNumber 16 rest).map round
      else if u = 'o'.toNat ∨ u = 'O'.toNat then (basedNumber 8 rest).map round
      else if u = 'b'.toNat ∨ u = 'B'.toNat then (basedNumber 2 rest).map round
      else (decimalNumber s).map round
  | u :: rest =>
      let negative := u = '-'.toNat
      let size := if u = '-'.toNat ∨ u = '+'.toNat then rest else s
      if size = str "Infinity".toList then some (.infinite negative)
      else (decimalNumber size).map fun q => round (if negative then -q else q)

def isInteger : Option Number → Option Int
  | some (.finite q) => if q.den = 1 then some q.num else none
  | _ => none

/-! The digits of a whole number are read as the number -/

theorem round_natCast {n : Nat} (h : n < 2 ^ 53) : round n = .finite n := by
  rcases Nat.eq_zero_or_pos n with rfl | hn
  · rfl
  · have hpos : (0 : Rat) < n := by exact_mod_cast hn
    have hplace : place n ≤ 0 := by
      have hlow := (floorLog_spec (show 1 < 2 by norm_num) hpos).1
      have hlog : floorLog 2 (n : Rat).num.natAbs (n : Rat).den < 53 := by
        by_contra hge
        have hpow : ((2 : Nat) : Rat) ^ (53 : Int) ≤ ((2 : Nat) : Rat) ^ floorLog 2 (n : Rat).num.natAbs (n : Rat).den :=
          zpow_le_zpow_right₀ (by norm_num) (not_lt.mp hge)
        have hbig : ((2 ^ 53 : Nat) : Rat) ≤ n := by
          calc ((2 ^ 53 : Nat) : Rat) = ((2 : Nat) : Rat) ^ (53 : Int) := by norm_num
            _ ≤ _ := hpow.trans hlow
        have : 2 ^ 53 ≤ n := by exact_mod_cast hbig
        omega
      rw [place]
      omega
    have hwhole : (n : Rat) = (n * 2 ^ (-place (n : Rat)).toNat : Nat) * 2 ^ place (n : Rat) := by
      have hnat : ((-place (n : Rat)).toNat : Int) = -place (n : Rat) := Int.toNat_of_nonneg (by omega)
      push_cast
      rw [mul_assoc, ← zpow_natCast, hnat, ← zpow_add₀ (by norm_num)]
      simp
    apply round_of_near hpos hwhole
    · rw [sub_self, abs_zero]
      exact half_pos (two_zpow_pos _)
    · have hpow : ((2 : Nat) : Rat) ^ 53 ≤ ((2 : Nat) : Rat) ^ 1024 :=
        pow_le_pow_right₀ (by norm_num) (by omega)
      have hlt : (n : Rat) < ((2 : Nat) : Rat) ^ 53 := by exact_mod_cast h
      rw [Nat.cast_pow]
      exact hlt.trans_le hpow

theorem digit_unit {n : Nat} {u : Nat} (h : u ∈ str (Nat.toDigits 10 n)) : 48 ≤ u ∧ u ≤ 57 := by
  obtain ⟨c, hc, rfl⟩ := List.mem_map.mp h
  have hd := JsText.digit_plain hc
  simp only [JsText.isDigit, Bool.and_eq_true, decide_eq_true_eq] at hd
  exact hd

theorem wholeOf_toDigits (n : Nat) : wholeOf 10 (digitsOf (str (Nat.toDigits 10 n))) = n := by
  have hvalue := @Nat.ofDigitChars_ten_toDigits n
  rw [Nat.ofDigitChars_eq_foldl] at hvalue
  rw [wholeOf, digitsOf, str, List.map_map, List.foldl_map]
  exact hvalue

theorem trimUnits_self {s : Str} (h : ∀ u ∈ s, isSpaceUnit u = false) : trimUnits s = s := by
  have hdrop : ∀ t : Str, (∀ u ∈ t, isSpaceUnit u = false) → t.dropWhile isSpaceUnit = t := by
    intro t ht
    cases t with
    | nil => rfl
    | cons u us => simp [ht u (List.mem_cons_self ..)]
  rw [trimUnits, hdrop s h, hdrop s.reverse fun u hu => h u (List.mem_reverse.mp hu), List.reverse_reverse]

theorem decimalNumber_digits {s : Str} (hs : s ≠ []) (h : ∀ u ∈ s, Json.isDigit u = true) :
    decimalNumber s = some ((wholeOf 10 (digitsOf s) : Nat) : Rat) := by
  have hwhole : s.takeWhile Json.isDigit = s := List.takeWhile_eq_self_iff.mpr h
  have htail : s.dropWhile Json.isDigit = [] := List.dropWhile_eq_nil_iff.mpr h
  rw [decimalNumber]
  simp [hwhole, htail, hs, shift]

theorem toNumber_digits {n : Nat} (h : n < 2 ^ 53) : toNumber (str (Nat.toDigits 10 n)) = some (.finite n) := by
  have hne : str (Nat.toDigits 10 n) ≠ [] := by simp [str, Nat.toDigits_ne_nil]
  have hdigit : ∀ u ∈ str (Nat.toDigits 10 n), Json.isDigit u = true := by
    intro u hu
    simpa [Json.isDigit] using digit_unit hu
  have htrim : trimUnits (str (Nat.toDigits 10 n)) = str (Nat.toDigits 10 n) := by
    apply trimUnits_self
    intro u hu
    have hd := digit_unit hu
    simp [isSpaceUnit]
    omega
  have hvalue : (decimalNumber (str (Nat.toDigits 10 n))).map round = some (.finite n) := by
    rw [decimalNumber_digits hne hdigit, wholeOf_toDigits, Option.map_some, round_natCast h]
  have hunit := @digit_unit n
  rw [toNumber, htrim]
  generalize str (Nat.toDigits 10 n) = s at hne hvalue hunit
  match s with
  | [] => exact absurd rfl hne
  | u :: us =>
      have hu := hunit (List.mem_cons_self ..)
      split
      next hnil => cases hnil
      next v rest heq =>
        obtain ⟨rfl, rfl⟩ := List.cons.inj heq
        have hv := hunit (List.mem_cons_of_mem _ (List.mem_cons_self ..))
        have hx : ¬ (v = 'x'.toNat ∨ v = 'X'.toNat) := by simp; omega
        have ho : ¬ (v = 'o'.toNat ∨ v = 'O'.toNat) := by simp; omega
        have hb : ¬ (v = 'b'.toNat ∨ v = 'B'.toNat) := by simp; omega
        rw [if_neg hx, if_neg ho, if_neg hb]
        exact hvalue
      next v rest _ heq =>
        obtain ⟨rfl, rfl⟩ := List.cons.inj heq
        have hminus : ¬ u = '-'.toNat := by simp; omega
        have hplus : ¬ u = '+'.toNat := by simp; omega
        have hword : u :: us ≠ str "Infinity".toList := by
          intro hword
          have hI : u = 'I'.toNat := (List.cons.inj hword).1
          simp at hI
          omega
        simp only [hminus, hplus, or_self, if_false, if_neg hword, decide_false]
        exact hvalue

end Corebase.JsNumber
