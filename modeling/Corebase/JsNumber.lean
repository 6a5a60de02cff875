import Corebase.JsText
import Mathlib.Algebra.Order.Field.Rat
import Mathlib.Algebra.Order.Ring.Unbundled.Rat
import Mathlib.Data.Nat.Log
import Mathlib.Data.Rat.Cast.Order
import Mathlib.Tactic.FieldSimp
import Mathlib.Tactic.Linarith
import Mathlib.Tactic.Positivity
import Mathlib.Tactic.Ring

namespace Corebase.JsNumber

open JsText

/-- A number of the language other than NaN; its two zeros are one here. -/
inductive Number
  | finite (value : Rat)
  | infinite (negative : Bool)
deriving DecidableEq

/-- `m * base ^ e` -/
def shift (base m : Nat) (e : Int) : Rat :=
  if 0 ≤ e then (m * base ^ e.toNat : Nat) else mkRat m (base ^ (-e).toNat)

/-- `num / den * base ^ -e`, as a numerator and a denominator. -/
def scaled (base num den : Nat) (e : Int) : Nat × Nat :=
  if 0 ≤ e then (num, den * base ^ e.toNat) else (num * base ^ (-e).toNat, den)

/-- The greatest exponent of a power of the base that is at most `num / den`. -/
def floorLog (base num den : Nat) : Int :=
  let e : Int := Nat.log base num - Nat.log base den
  let (a, b) := scaled base num den e
  if b ≤ a then e else e - 1

/-- The nearest natural number to `a / b`, the even one of two. -/
def nearest (a b : Nat) : Nat :=
  let k := a / b
  let r := a % b
  if 2 * r < b ∨ 2 * r = b ∧ k % 2 = 0 then k else k + 1

/-- The binary64 number nearest to an exact one. -/
def round (q : Rat) : Number :=
  if q = 0 then .finite 0
  else
    let num := q.num.natAbs
    let e := max (floorLog 2 num q.den - 52) (-1074)
    let (a, b) := scaled 2 num q.den e
    let size := shift 2 (nearest a b) e
    if (2 ^ 1024 : Nat) ≤ size then .infinite (q < 0)
    else .finite (if q < 0 then -size else size)

/-- The decimal of `k` digits nearest to a positive number. -/
def candidate (q : Rat) (k : Nat) : Nat × Int :=
  let num := q.num.natAbs
  let p := floorLog 10 num q.den + 1 - k
  let (a, b) := scaled 10 num q.den p
  let s := nearest a b
  if s = 10 ^ k then (10 ^ (k - 1), p + 1) else (s, p)

/-- The digits and the exponent of the shortest decimal that stands for a positive number; 17 digits always do. -/
def shortest (q : Rat) : Nat × Int :=
  (((List.range 16).map fun k => candidate q (k + 1)).find? fun d => round (shift 10 d.1 d.2) = .finite q).getD
    (candidate q 17)

def signed (negative : Bool) (size : Rat) : Rat := if negative then -size else size

/-- The decimal that is shown for a finite number. -/
def shown (q : Rat) : Rat :=
  if q = 0 then 0 else signed (q < 0) (shift 10 (shortest |q|).1 (shortest |q|).2)

/-- How `s * 10 ^ p` is written. -/
def decimalText (s : Nat) (p : Int) : Text :=
  let digits := Nat.toDigits 10 s
  let k := digits.length
  let n : Int := p + k
  if k ≤ n ∧ n ≤ 21 then digits ++ List.replicate p.toNat '0'
  else if 0 < n ∧ n ≤ 21 then digits.take n.toNat ++ '.' :: digits.drop n.toNat
  else if -6 < n ∧ n ≤ 0 then '0' :: '.' :: (List.replicate (-n).toNat '0' ++ digits)
  else
    let exponent := (if n - 1 < 0 then '-' else '+') :: Nat.toDigits 10 (n - 1).natAbs
    digits.take 1 ++ (if k = 1 then [] else '.' :: digits.drop 1) ++ 'e' :: exponent

def toText : Number → Text
  | .finite q =>
      if q = 0 then ['0']
      else (if q < 0 then ['-'] else []) ++ decimalText (shortest |q|).1 (shortest |q|).2
  | .infinite negative => (if negative then ['-'] else []) ++ "Infinity".toList

theorem shift_eq (base m : Nat) (e : Int) : shift base m e = m * (base : Rat) ^ e := by
  unfold shift
  split
  next h =>
    obtain ⟨n, rfl⟩ := Int.eq_ofNat_of_zero_le h
    simp
  next h =>
    obtain ⟨n, hn⟩ := Int.eq_ofNat_of_zero_le (show 0 ≤ -e by omega)
    obtain rfl : e = -(n : Int) := by omega
    simp [Rat.mkRat_eq_div, div_eq_mul_inv]

theorem shift_scale (m j : Nat) (e : Int) : shift 10 (m * 10 ^ j) e = shift 10 m (e + j) := by
  rw [shift_eq, shift_eq, Int.add_comm, zpow_add₀ (by norm_num)]
  push_cast
  rw [zpow_natCast]
  ring

theorem scaled_pos {base num den : Nat} (e : Int) (hbase : 0 < base) (hnum : 0 < num) (hden : 0 < den) :
    0 < (scaled base num den e).1 ∧ 0 < (scaled base num den e).2 := by
  unfold scaled
  split
  · exact ⟨hnum, by positivity⟩
  · exact ⟨by positivity, hden⟩

/-- The scaled fraction is at least one where a smaller scaling leaves it so. -/
theorem scaled_le {base num den : Nat} {e f : Int} (hbase : 0 < base) (hfe : f ≤ e)
    (h : (scaled base num den e).2 ≤ (scaled base num den e).1) :
    (scaled base num den f).2 ≤ (scaled base num den f).1 := by
  unfold scaled at h ⊢
  by_cases he : 0 ≤ e <;> by_cases hf : 0 ≤ f
  · simp only [he, hf, if_true] at h ⊢
    have hpow : base ^ f.toNat ≤ base ^ e.toNat := Nat.pow_le_pow_right hbase (by omega)
    exact (Nat.mul_le_mul_left den hpow).trans h
  · simp only [he, hf, if_true, if_false] at h ⊢
    calc den ≤ den * base ^ e.toNat := Nat.le_mul_of_pos_right _ (Nat.pow_pos hbase)
      _ ≤ num := h
      _ ≤ num * base ^ (-f).toNat := Nat.le_mul_of_pos_right _ (Nat.pow_pos hbase)
  · omega
  · simp only [he, hf, if_false] at h ⊢
    have hpow : base ^ (-e).toNat ≤ base ^ (-f).toNat := Nat.pow_le_pow_right hbase (by omega)
    exact h.trans (Nat.mul_le_mul_left num hpow)

theorem floorLog_le {base num : Nat} (den : Nat) (hbase : 1 < base) (hnum : num ≠ 0) :
    (scaled base num den (floorLog base num den)).2 ≤ (scaled base num den (floorLog base num den)).1 := by
  simp only [floorLog]
  split
  next h => exact h
  next h =>
    have hlow : base ^ Nat.log base num ≤ num := Nat.pow_log_le_self base hnum
    have hhigh : den < base ^ (Nat.log base den + 1) := Nat.lt_pow_succ_log_self hbase den
    simp only [scaled]
    split
    next he =>
      have hexp : (Nat.log base num : Int) - Nat.log base den - 1 =
          (Nat.log base num - (Nat.log base den + 1) : Nat) := by omega
      rw [hexp, Int.toNat_natCast]
      calc den * base ^ (Nat.log base num - (Nat.log base den + 1))
          ≤ base ^ (Nat.log base den + 1) * base ^ (Nat.log base num - (Nat.log base den + 1)) :=
            Nat.mul_le_mul_right _ hhigh.le
        _ = base ^ Nat.log base num := by rw [← Nat.pow_add]; congr 1; omega
        _ ≤ num := hlow
    next he =>
      have hexp : (-((Nat.log base num : Int) - Nat.log base den - 1)).toNat =
          Nat.log base den + 1 - Nat.log base num := by omega
      rw [hexp]
      calc den ≤ base ^ (Nat.log base den + 1) := hhigh.le
        _ = base ^ Nat.log base num * base ^ (Nat.log base den + 1 - Nat.log base num) := by
            rw [← Nat.pow_add]; congr 1; omega
        _ ≤ num * base ^ (Nat.log base den + 1 - Nat.log base num) := Nat.mul_le_mul_right _ hlow

theorem nearest_pos {a b : Nat} (hb : 0 < b) (h : b ≤ a) : 0 < nearest a b := by
  have hk : 1 ≤ a / b := (Nat.one_le_div_iff hb).mpr h
  simp only [nearest]
  split <;> omega

theorem candidate_pos {q : Rat} (hq : 0 < q) {k : Nat} (hk : 0 < k) : 0 < (candidate q k).1 := by
  have hnum : q.num.natAbs ≠ 0 := by
    have := Rat.num_pos.mpr hq
    omega
  have hone := scaled_le (f := floorLog 10 q.num.natAbs q.den + 1 - k) (by norm_num : 0 < 10) (by omega)
    (floorLog_le q.den (by norm_num : 1 < 10) hnum)
  have hpos := (scaled_pos (floorLog 10 q.num.natAbs q.den + 1 - k) (by norm_num : 0 < 10)
    (Nat.pos_of_ne_zero hnum) q.den_pos).2
  simp only [candidate]
  split
  · exact Nat.pow_pos (by norm_num)
  · exact nearest_pos hpos hone

theorem shortest_pos {q : Rat} (hq : 0 < q) : 0 < (shortest q).1 := by
  unfold shortest
  cases hfind : ((List.range 16).map fun k => candidate q (k + 1)).find? fun d =>
      round (shift 10 d.1 d.2) = .finite q with
  | none => exact candidate_pos hq (by norm_num)
  | some d =>
      obtain ⟨k, -, rfl⟩ := List.mem_map.mp (List.mem_of_find?_eq_some hfind)
      exact candidate_pos hq (Nat.succ_pos k)

/-! How long the text of a number can be -/

theorem scaled_div {base num den : Nat} (e : Int) (hbase : 0 < base) :
    ((scaled base num den e).1 : Rat) / (scaled base num den e).2 = num / den * (base : Rat) ^ (-e) := by
  have hne : (base : Rat) ≠ 0 := by positivity
  unfold scaled
  split
  next h =>
    obtain ⟨n, rfl⟩ := Int.eq_ofNat_of_zero_le h
    simp only [Int.toNat_natCast, Nat.cast_mul, Nat.cast_pow, zpow_neg, zpow_natCast]
    rw [div_mul_eq_div_div, div_eq_mul_inv]
  next h =>
    obtain ⟨n, hn⟩ := Int.eq_ofNat_of_zero_le (show 0 ≤ -e by omega)
    rw [hn, Int.toNat_natCast, zpow_natCast]
    push_cast
    ring

theorem lt_floorLog {base num den : Nat} (hbase : 1 < base) (hden : 0 < den) :
    (num : Rat) / den < (base : Rat) ^ (floorLog base num den + 1) := by
  have hpos : (0 : Rat) < base := by positivity
  have hd : (0 : Rat) < den := by positivity
  simp only [floorLog]
  split
  next =>
    have hnum : (num : Rat) < (base : Rat) ^ (Nat.log base num + 1) := by
      exact_mod_cast Nat.lt_pow_succ_log_self hbase num
    have hlow : (base : Rat) ^ Nat.log base den ≤ den := by
      exact_mod_cast Nat.pow_log_le_self base hden.ne'
    rw [div_lt_iff₀ hd]
    calc (num : Rat) < (base : Rat) ^ (Nat.log base num + 1) := hnum
      _ = (base : Rat) ^ ((Nat.log base num : Int) - Nat.log base den + 1) * (base : Rat) ^ Nat.log base den := by
          rw [← zpow_natCast, ← zpow_natCast, ← zpow_add₀ hpos.ne']
          congr 1
          push_cast
          ring
      _ ≤ _ := mul_le_mul_of_nonneg_left hlow (zpow_pos hpos _).le
  next h =>
    set e : Int := Nat.log base num - Nat.log base den with he
    have hlt : ((scaled base num den e).1 : Rat) < (scaled base num den e).2 := by
      exact_mod_cast not_le.mp h
    have hb : (0 : Rat) < (scaled base num den e).2 := lt_of_le_of_lt (Nat.cast_nonneg _) hlt
    have hone := (div_lt_one hb).mpr hlt
    rw [scaled_div e (by omega), zpow_neg, ← div_eq_mul_inv, div_lt_one (zpow_pos hpos e)] at hone
    simpa using hone

theorem nearest_le (a b : Nat) : nearest a b ≤ a / b + 1 := by
  simp only [nearest]
  split <;> omega

theorem candidate_lt (q : Rat) {k : Nat} (hk : 0 < k) : (candidate q k).1 < 10 ^ k := by
  have hstep : 10 ^ (k - 1) < 10 ^ k := Nat.pow_lt_pow_right (by norm_num) (by omega)
  simp only [candidate]
  split
  next => exact hstep
  next hne =>
    set p := floorLog 10 q.num.natAbs q.den + 1 - k with hp
    have hb : 0 < (scaled 10 q.num.natAbs q.den p).2 := by
      unfold scaled
      split
      · exact Nat.mul_pos q.den_pos (by positivity)
      · exact q.den_pos
    have hlt : ((scaled 10 q.num.natAbs q.den p).1 : Rat) / (scaled 10 q.num.natAbs q.den p).2 < 10 ^ k := by
      rw [scaled_div p (by norm_num)]
      calc (q.num.natAbs : Rat) / q.den * ((10 : Nat) : Rat) ^ (-p)
          < ((10 : Nat) : Rat) ^ (floorLog 10 q.num.natAbs q.den + 1) * ((10 : Nat) : Rat) ^ (-p) :=
            mul_lt_mul_of_pos_right (lt_floorLog (by norm_num) q.den_pos) (zpow_pos (by norm_num) _)
        _ = 10 ^ k := by
            rw [← zpow_add₀ (by norm_num), hp]
            have : floorLog 10 q.num.natAbs q.den + 1 + -(floorLog 10 q.num.natAbs q.den + 1 - k) = k := by ring
            rw [this, zpow_natCast]
            norm_num
    rw [div_lt_iff₀ (Nat.cast_pos.mpr hb)] at hlt
    have hnat : (scaled 10 q.num.natAbs q.den p).1 < (scaled 10 q.num.natAbs q.den p).2 * 10 ^ k := by
      rw [Nat.mul_comm]
      exact_mod_cast hlt
    have hle := nearest_le (scaled 10 q.num.natAbs q.den p).1 (scaled 10 q.num.natAbs q.den p).2
    have hdiv := Nat.div_lt_of_lt_mul hnat
    omega

theorem candidate_exponent (q : Rat) (k : Nat) :
    (candidate q k).2 = floorLog 10 q.num.natAbs q.den + 1 - k ∨
      (candidate q k).2 = floorLog 10 q.num.natAbs q.den + 2 - k := by
  simp only [candidate]
  split
  next => exact Or.inr (by ring)
  next => exact Or.inl rfl

theorem shortest_candidate (q : Rat) : ∃ k, 1 ≤ k ∧ k ≤ 17 ∧ shortest q = candidate q k := by
  unfold shortest
  cases hfind : ((List.range 16).map fun k => candidate q (k + 1)).find? fun d =>
      round (shift 10 d.1 d.2) = .finite q with
  | none => exact ⟨17, by norm_num, le_refl 17, rfl⟩
  | some d =>
      obtain ⟨k, hk, rfl⟩ := List.mem_map.mp (List.mem_of_find?_eq_some hfind)
      have := List.mem_range.mp hk
      exact ⟨k + 1, by omega, by omega, rfl⟩

theorem floorLog_natAbs {num den m : Nat} (hnum : num < 10 ^ m) (hden : den < 10 ^ m) (hm : m ≠ 0) :
    (floorLog 10 num den).natAbs ≤ m := by
  have hn : Nat.log 10 num < m := Nat.log_lt_of_lt_pow' hm hnum
  have hd : Nat.log 10 den < m := Nat.log_lt_of_lt_pow' hm hden
  simp only [floorLog]
  split <;> omega

theorem length_toDigits {n k : Nat} (hk : 0 < k) (h : n < 10 ^ k) : (Nat.toDigits 10 n).length ≤ k :=
  (Nat.length_toDigits_le_iff (by norm_num) hk).mpr h

theorem decimalText_length {s k m : Nat} {p : Int} (hk : 1 ≤ k) (hs : s < 10 ^ k) (hm : 0 < m)
    (hp : p.natAbs + k < 10 ^ m) : (decimalText s p).length ≤ k + m + 25 := by
  have hdigits : (Nat.toDigits 10 s).length ≤ k := length_toDigits hk hs
  unfold decimalText
  simp only
  split
  next h => simp only [List.length_append, List.length_replicate]; omega
  split
  next h => simp only [List.length_append, List.length_cons, List.length_take, List.length_drop]; omega
  split
  next h => simp only [List.length_cons, List.length_append, List.length_replicate]; omega
  next h =>
    have hexponent : (Nat.toDigits 10 (p + (Nat.toDigits 10 s).length - 1).natAbs).length ≤ m := by
      apply length_toDigits hm
      have hpos : 1 ≤ (Nat.toDigits 10 s).length := Nat.length_toDigits_pos
      omega
    have hpoint : (if (Nat.toDigits 10 s).length = 1 then [] else '.' :: (Nat.toDigits 10 s).drop 1).length ≤ k := by
      split
      next => exact Nat.zero_le k
      next => simp only [List.length_cons, List.length_drop]; omega
    simp only [List.length_append, List.length_cons, List.length_take]
    omega

theorem mkRat_den_le {m d : Nat} (hd : 0 < d) : (mkRat m d).den ≤ d := by
  rw [Rat.den_mkRat, if_neg hd.ne']
  exact Nat.div_le_self d _

theorem shift_den_le {m : Nat} {e : Int} {k : Nat} (h : -k ≤ e) : (shift 2 m e).den ≤ 2 ^ k := by
  unfold shift
  split
  next => rw [Rat.den_natCast]; exact Nat.one_le_two_pow
  next => exact (mkRat_den_le (Nat.two_pow_pos _)).trans (Nat.pow_le_pow_right (by norm_num) (by omega))

theorem num_lt {x : Rat} {a b : Nat} (hx : 0 ≤ x) (hlt : x < a) (hden : x.den ≤ b) : x.num.natAbs < a * b := by
  have hnum : ((x.num.natAbs : Nat) : Rat) = x * x.den := by
    have hcast : ((x.num.natAbs : Nat) : Rat) = ((x.num.natAbs : Int) : Rat) := (Int.cast_natCast _).symm
    rw [hcast, Int.natAbs_of_nonneg (Rat.num_nonneg.mpr hx), Rat.mul_den_eq_num]
  have hdpos : (0 : Rat) < x.den := Nat.cast_pos.mpr x.den_pos
  have hcast : ((x.num.natAbs : Nat) : Rat) < ((a * b : Nat) : Rat) := by
    calc ((x.num.natAbs : Nat) : Rat) = x * x.den := hnum
      _ < a * x.den := mul_lt_mul_of_pos_right hlt hdpos
      _ ≤ a * b := mul_le_mul_of_nonneg_left (Nat.cast_le.mpr hden) (Nat.cast_nonneg a)
      _ = ((a * b : Nat) : Rat) := (Nat.cast_mul a b).symm
  exact_mod_cast hcast

theorem shift_nonneg (m : Nat) (e : Int) : 0 ≤ shift 2 m e := by
  rw [shift_eq]
  exact mul_nonneg (Nat.cast_nonneg m) (zpow_nonneg (by norm_num) e)

theorem shift_bounded {m : Nat} {e : Int} (he : -(1074 : Nat) ≤ e) (h : shift 2 m e < (2 ^ 1024 : Nat)) :
    (shift 2 m e).num.natAbs < 10 ^ 700 ∧ (shift 2 m e).den < 10 ^ 700 := by
  have hnumBig : (2 : Nat) ^ 1024 * 2 ^ 1074 < 10 ^ 700 := by decide +kernel
  have hdenBig : (2 : Nat) ^ 1074 < 10 ^ 700 := by decide +kernel
  have hden : (shift 2 m e).den ≤ 2 ^ 1074 := shift_den_le he
  exact ⟨(num_lt (shift_nonneg m e) h hden).trans hnumBig, lt_of_le_of_lt hden hdenBig⟩

/-- A finite number is a fraction of numbers below a fixed bound. -/
theorem round_bounded {q x : Rat} (h : round q = .finite x) : x.num.natAbs < 10 ^ 700 ∧ x.den < 10 ^ 700 := by
  unfold round at h
  split at h
  next =>
    obtain rfl := Number.finite.inj h
    exact ⟨by decide +kernel, by decide +kernel⟩
  next =>
    simp only at h
    split at h
    next => cases h
    next hsize =>
      have hbounded := shift_bounded (le_max_right _ _) (not_le.mp hsize)
      obtain rfl := Number.finite.inj h
      split
      · rw [Rat.neg_num, Int.natAbs_neg, Rat.neg_den]
        exact hbounded
      · exact hbounded

theorem abs_num_den (x : Rat) : (|x|).num.natAbs = x.num.natAbs ∧ (|x|).den = x.den := by
  rcases abs_choice x with h | h <;> rw [h]
  · exact ⟨rfl, rfl⟩
  · exact ⟨by rw [Rat.neg_num, Int.natAbs_neg], Rat.neg_den x⟩

/-- The text of a number is short. -/
theorem toText_length (q : Rat) : (toText (round q)).length ≤ 50 := by
  cases hround : round q with
  | infinite negative => cases negative <;> decide
  | finite x =>
      obtain ⟨hnum, hden⟩ := round_bounded hround
      simp only [toText]
      split
      next => decide
      next =>
        obtain ⟨k, hk, hle, hshort⟩ := shortest_candidate |x|
        have hlog : (floorLog 10 (|x|).num.natAbs (|x|).den).natAbs ≤ 700 := by
          rw [(abs_num_den x).1, (abs_num_den x).2]
          exact floorLog_natAbs hnum hden (by norm_num)
        have hp : (candidate |x| k).2.natAbs + k < 10 ^ 3 := by
          rcases candidate_exponent |x| k with h | h <;> omega
        have hlength := decimalText_length hk (candidate_lt |x| hk) (by norm_num) hp
        rw [hshort, List.length_append]
        split <;> simp only [List.length_cons, List.length_nil] <;> omega

end Corebase.JsNumber
