import Corebase.JsNumber

namespace Corebase.JsNumber

/-! The text of a number is read as the number -/

theorem floorLog_spec {base : Nat} (hbase : 1 < base) {x : Rat} (hx : 0 < x) :
    (base : Rat) ^ floorLog base x.num.natAbs x.den ≤ x ∧ x < (base : Rat) ^ (floorLog base x.num.natAbs x.den + 1) := by
  have hnum : x.num.natAbs ≠ 0 := by
    have := Rat.num_pos.mpr hx
    omega
  have hvalue : (x.num.natAbs : Rat) / x.den = x := by
    have hcast : (x.num.natAbs : Rat) = ((x.num.natAbs : Int) : Rat) := (Int.cast_natCast _).symm
    rw [hcast, Int.natAbs_of_nonneg (Rat.num_nonneg.mpr hx.le)]
    exact Rat.num_div_den x
  refine ⟨?_, by simpa only [hvalue] using @lt_floorLog _ x.num.natAbs _ hbase x.den_pos⟩
  have hle := floorLog_le x.den hbase hnum
  have hpos := (scaled_pos (floorLog base x.num.natAbs x.den) (by omega : 0 < base) (Nat.pos_of_ne_zero hnum) x.den_pos).2
  have hbpos : (0 : Rat) < (base : Rat) ^ floorLog base x.num.natAbs x.den := zpow_pos (by exact_mod_cast (by omega : 0 < base)) _
  have hone : (1 : Rat) ≤ ((scaled base x.num.natAbs x.den (floorLog base x.num.natAbs x.den)).1 : Rat) /
      (scaled base x.num.natAbs x.den (floorLog base x.num.natAbs x.den)).2 := by
    rw [one_le_div (by exact_mod_cast hpos)]
    exact_mod_cast hle
  rw [scaled_div _ (by omega), hvalue, zpow_neg, ← div_eq_mul_inv, one_le_div hbpos] at hone
  exact hone

theorem nearest_close (a : Nat) {b : Nat} (hb : 0 < b) : |(nearest a b : Rat) - a / b| ≤ 1 / 2 := by
  have hbq : (0 : Rat) < b := by exact_mod_cast hb
  have hdiv : (a : Rat) = b * (a / b : Nat) + (a % b : Nat) := by exact_mod_cast (Nat.div_add_mod a b).symm
  have hfrac : (a : Rat) / b = (a / b : Nat) + (a % b : Nat) / b := by
    rw [hdiv, add_div, mul_div_cancel_left₀ _ hbq.ne']
  simp only [nearest]
  split
  next h =>
    have hle : 2 * ((a % b : Nat) : Rat) ≤ b := by
      have : 2 * (a % b) ≤ b := by omega
      exact_mod_cast this
    have hnonneg : (0 : Rat) ≤ (a % b : Nat) / b := by positivity
    have hhalf : ((a % b : Nat) : Rat) / b ≤ 1 / 2 := by
      rw [div_le_div_iff₀ hbq (by norm_num)]
      linarith
    rw [hfrac, abs_le]
    constructor <;> linarith
  next h =>
    have hle : (b : Rat) ≤ 2 * (a % b : Nat) := by
      have : b ≤ 2 * (a % b) := by omega
      exact_mod_cast this
    have hlt : ((a % b : Nat) : Rat) / b ≤ 1 := by
      rw [div_le_one hbq]
      exact_mod_cast (Nat.mod_lt a hb).le
    have hhalf : 1 / 2 ≤ ((a % b : Nat) : Rat) / b := by
      rw [div_le_div_iff₀ (by norm_num) hbq]
      linarith
    rw [hfrac, abs_le]
    push_cast
    constructor <;> linarith

theorem nearest_unique {a b m : Nat} (hb : 0 < b) (h : |(a : Rat) / b - m| < 1 / 2) : nearest a b = m := by
  have hclose := nearest_close a hb
  have hlt : |(nearest a b : Rat) - m| < 1 := by
    calc |(nearest a b : Rat) - m| = |((nearest a b : Rat) - a / b) + (a / b - m)| := by ring_nf
      _ ≤ |(nearest a b : Rat) - a / b| + |(a : Rat) / b - m| := abs_add_le _ _
      _ < 1 := by linarith
  have hint : |((nearest a b : Int) - m)| < 1 := by exact_mod_cast hlt
  have := Int.abs_lt_one_iff.mp hint
  omega

/-- The exponent of the last place of a number. -/
def place (x : Rat) : Int := max (floorLog 2 x.num.natAbs x.den - 52) (-1074)

theorem round_eq {x : Rat} (hx : 0 < x) : round x =
    (let size := shift 2 (nearest (scaled 2 x.num.natAbs x.den (place x)).1 (scaled 2 x.num.natAbs x.den (place x)).2)
      (place x)
    if (2 ^ 1024 : Nat) ≤ size then .infinite false else .finite size) := by
  have hneg : ¬ x < 0 := not_lt.mpr hx.le
  unfold round
  simp only [if_neg hx.ne', if_neg hneg, decide_eq_false hneg]
  rfl

theorem scaled_value {base : Nat} (hbase : 0 < base) {x : Rat} (hx : 0 < x) (e : Int) :
    ((scaled base x.num.natAbs x.den e).1 : Rat) / (scaled base x.num.natAbs x.den e).2 = x * (base : Rat) ^ (-e) := by
  have hcast : (x.num.natAbs : Rat) = ((x.num.natAbs : Int) : Rat) := (Int.cast_natCast _).symm
  rw [scaled_div e hbase, hcast, Int.natAbs_of_nonneg (Rat.num_nonneg.mpr hx.le), Rat.num_div_den]

theorem scaled_den_pos {base : Nat} (hbase : 0 < base) {x : Rat} (hx : 0 < x) (e : Int) :
    0 < (scaled base x.num.natAbs x.den e).2 := by
  have hnum := Rat.num_pos.mpr hx
  exact (scaled_pos e hbase (by omega) x.den_pos).2

/-- A number is rounded to the multiple of its last place that is less than half of it away. -/
theorem round_of_near {x v : Rat} (hv : 0 < v) {m : Nat} (hx : x = m * 2 ^ place v) (hnear : |v - x| < 2 ^ place v / 2)
    (hlt : x < (2 ^ 1024 : Nat)) : round v = .finite x := by
  have hpos : (0 : Rat) < 2 ^ place v := zpow_pos (by norm_num) _
  have hm : nearest (scaled 2 v.num.natAbs v.den (place v)).1 (scaled 2 v.num.natAbs v.den (place v)).2 = m := by
    apply nearest_unique (scaled_den_pos (by norm_num) hv _)
    rw [scaled_value (by norm_num) hv]
    have hscale : v * ((2 : Nat) : Rat) ^ (-place v) - m = (v - x) / 2 ^ place v := by
      rw [hx, zpow_neg, Nat.cast_ofNat, sub_div, mul_div_assoc, div_self hpos.ne', mul_one, div_eq_mul_inv]
    rw [hscale, abs_div, abs_of_pos hpos, div_lt_div_iff₀ hpos (by norm_num)]
    linarith
  have hsize : shift 2 m (place v) = x := by
    rw [shift_eq, hx]
    norm_num
  rw [round_eq hv]
  simp only [hm, hsize, if_neg (not_le.mpr hlt)]

theorem place_of_round {x : Rat} (hx : 0 < x) (h : round x = .finite x) :
    (∃ m : Nat, x = m * 2 ^ place x) ∧ x < (2 ^ 1024 : Nat) := by
  rw [round_eq hx] at h
  simp only at h
  split at h
  next => cases h
  next hsize =>
    have hvalue := Number.finite.inj h
    refine ⟨⟨nearest (scaled 2 x.num.natAbs x.den (place x)).1 (scaled 2 x.num.natAbs x.den (place x)).2, ?_⟩,
      by simpa only [hvalue] using not_le.mp hsize⟩
    rw [shift_eq] at hvalue
    simpa using hvalue.symm

/-- The decimal of 17 digits is near. -/
theorem candidate_near {x : Rat} (hx : 0 < x) :
    |shift 10 (candidate x 17).1 (candidate x 17).2 - x| ≤ x * 10 ^ (-16 : Int) / 2 := by
  obtain ⟨hlow, -⟩ := floorLog_spec (show 1 < 10 by norm_num) hx
  set f := floorLog 10 x.num.natAbs x.den with hf
  have hten : ((10 : Nat) : Rat) = 10 := by norm_num
  have hpos : (0 : Rat) < 10 ^ (f + 1 - 17) := zpow_pos (by norm_num) _
  have hvalue : shift 10 (candidate x 17).1 (candidate x 17).2 =
      nearest (scaled 10 x.num.natAbs x.den (f + 1 - 17)).1 (scaled 10 x.num.natAbs x.den (f + 1 - 17)).2 *
        10 ^ (f + 1 - 17) := by
    simp only [candidate, ← hf]
    split
    next h =>
      have hstep := shift_scale 1 16 (f + 1 - 17 + 1)
      push_cast at h ⊢
      rw [h, shift_eq, hten, zpow_add₀ (by norm_num)]
      push_cast
      ring
    next => rw [shift_eq, hten]; rfl
  have hden := scaled_den_pos (show 0 < 10 by norm_num) hx (f + 1 - 17)
  have hclose := nearest_close (scaled 10 x.num.natAbs x.den (f + 1 - 17)).1 hden
  rw [scaled_value (by norm_num) hx, hten] at hclose
  have hscale : |shift 10 (candidate x 17).1 (candidate x 17).2 - x| ≤ 10 ^ (f + 1 - 17) / 2 := by
    have hfactor : shift 10 (candidate x 17).1 (candidate x 17).2 - x =
        (nearest (scaled 10 x.num.natAbs x.den (f + 1 - 17)).1 (scaled 10 x.num.natAbs x.den (f + 1 - 17)).2 -
          x * 10 ^ (-(f + 1 - 17))) * 10 ^ (f + 1 - 17) := by
      rw [hvalue, sub_mul, mul_assoc x, ← zpow_add₀ (by norm_num)]
      simp
    rw [hfactor, abs_mul, abs_of_pos hpos]
    calc _ ≤ 1 / 2 * (10 : Rat) ^ (f + 1 - 17) := mul_le_mul_of_nonneg_right hclose hpos.le
      _ = 10 ^ (f + 1 - 17) / 2 := by ring
  have hbound : (10 : Rat) ^ (f + 1 - 17) ≤ x * 10 ^ (-16 : Int) := by
    have hsplit : (10 : Rat) ^ (f + 1 - 17) = 10 ^ f * 10 ^ (-16 : Int) := by
      rw [← zpow_add₀ (by norm_num)]
      congr 1
      ring
    rw [hsplit]
    exact mul_le_mul_of_nonneg_right (by rwa [hten] at hlow) (by positivity)
  exact hscale.trans ((div_le_div_iff_of_pos_right (by norm_num)).mpr hbound)

theorem two_zpow_pos (e : Int) : (0 : Rat) < 2 ^ e := zpow_pos (by norm_num) e

theorem two_zpow_succ (e : Int) : (2 : Rat) ^ (e + 1) = 2 * 2 ^ e := by
  rw [zpow_add_one₀ (by norm_num), mul_comm]

/-- Of the multiples of one power of two, the next one after a greater power is a step away. -/
theorem step_le {m : Nat} {e k : Int} (hk : e ≤ k) :
    ((m : Rat) * 2 ^ e < 2 ^ k → (m : Rat) * 2 ^ e + 2 ^ e ≤ 2 ^ k) ∧
      ((2 : Rat) ^ k < m * 2 ^ e → (2 : Rat) ^ k + 2 ^ e ≤ m * 2 ^ e) := by
  obtain ⟨j, hj⟩ := Int.eq_ofNat_of_zero_le (show 0 ≤ k - e by omega)
  have hpower : (2 : Rat) ^ k = ((2 ^ j : Nat) : Rat) * 2 ^ e := by
    rw [show k = (j : Int) + e by omega, zpow_add₀ (by norm_num), zpow_natCast]
    push_cast
    rfl
  have hpos := two_zpow_pos e
  rw [hpower]
  constructor
  · intro h
    have hlt : m + 1 ≤ 2 ^ j := by exact_mod_cast lt_of_mul_lt_mul_right h hpos.le
    calc (m : Rat) * 2 ^ e + 2 ^ e = ((m + 1 : Nat) : Rat) * 2 ^ e := by push_cast; ring
      _ ≤ ((2 ^ j : Nat) : Rat) * 2 ^ e := mul_le_mul_of_nonneg_right (by exact_mod_cast hlt) hpos.le
  · intro h
    have hlt : 2 ^ j + 1 ≤ m := by exact_mod_cast lt_of_mul_lt_mul_right h hpos.le
    calc ((2 ^ j : Nat) : Rat) * 2 ^ e + 2 ^ e = ((2 ^ j + 1 : Nat) : Rat) * 2 ^ e := by push_cast; ring
      _ ≤ (m : Rat) * 2 ^ e := mul_le_mul_of_nonneg_right (by exact_mod_cast hlt) hpos.le

/-- What is as near to a number as 17 digits bring it is rounded to the number. -/
theorem round_near {x v : Rat} (hx : 0 < x) (h : round x = .finite x) (hnear : |v - x| ≤ x * 10 ^ (-16 : Int) / 2) :
    round v = .finite x := by
  obtain ⟨⟨m, hm⟩, hlt⟩ := place_of_round hx h
  obtain ⟨hlow, hhigh⟩ := floorLog_spec (show 1 < 2 by norm_num) hx
  rw [Nat.cast_ofNat] at hlow hhigh
  set k := floorLog 2 x.num.natAbs x.den with hk
  have hplace : place x = max (k - 52) (-1074) := rfl
  have hstep : 2 ^ (k - 53) < (2 : Rat) ^ place x := zpow_lt_zpow_right₀ (by norm_num) (by omega)
  have hclose : |v - x| < x * 2 ^ (-54 : Int) := by
    have hsmall : (10 : Rat) ^ (-16 : Int) / 2 < 2 ^ (-54 : Int) := by norm_num
    calc |v - x| ≤ x * (10 ^ (-16 : Int) / 2) := by linarith
      _ < x * 2 ^ (-54 : Int) := mul_lt_mul_of_pos_left hsmall hx
  have hbound : x * 2 ^ (-54 : Int) < 2 ^ (k - 53) := by
    calc x * 2 ^ (-54 : Int) < 2 ^ (k + 1) * 2 ^ (-54 : Int) := mul_lt_mul_of_pos_right hhigh (two_zpow_pos _)
      _ = 2 ^ (k - 53) := by rw [← zpow_add₀ (by norm_num)]; congr 1; ring
  obtain ⟨hbelowX, haboveX⟩ := abs_lt.mp hclose
  have hle : place x ≤ k := by
    by_contra hgt
    have hone : (1 : Rat) ≤ m := by
      have hne : m ≠ 0 := by
        rintro rfl
        rw [Nat.cast_zero, zero_mul] at hm
        exact hx.ne' hm
      exact_mod_cast Nat.pos_of_ne_zero hne
    have hge : (2 : Rat) ^ (k + 1) ≤ 2 ^ place x := zpow_le_zpow_right₀ (by norm_num) (by omega)
    nlinarith [two_zpow_pos (place x)]
  have hbelow : v < 2 ^ (k + 1) := by
    have hroom := (step_le (m := m) (show place x ≤ k + 1 by omega)).1 (hm ▸ hhigh)
    rw [← hm] at hroom
    linarith
  have hhalf : (2 : Rat) ^ (-54 : Int) < 1 / 2 := by norm_num
  have habove : 2 ^ (k - 1) < v := by
    have hdouble : (2 : Rat) ^ k = 2 * 2 ^ (k - 1) := by rw [← two_zpow_succ]; congr 1; ring
    have hhalved : x * 2 ^ (-54 : Int) < x * (1 / 2) := mul_lt_mul_of_pos_left hhalf hx
    have hsum : ∀ t : Rat, -t < v - x → t < x * (1 / 2) → x * (1 / 2) < v := fun t h h' => by linarith
    have hrest := hsum _ hbelowX hhalved
    linarith only [hdouble, hlow, hrest]
  have hv : 0 < v := lt_trans (two_zpow_pos _) habove
  obtain ⟨hvlow, hvhigh⟩ := floorLog_spec (show 1 < 2 by norm_num) hv
  rw [Nat.cast_ofNat] at hvlow hvhigh
  set j := floorLog 2 v.num.natAbs v.den with hj
  have hplaceV : place v = max (j - 52) (-1074) := rfl
  have hjle : j < k + 1 := (zpow_lt_zpow_iff_right₀ (by norm_num)).mp (hvlow.trans_lt hbelow)
  have hjge : k - 1 < j + 1 := (zpow_lt_zpow_iff_right₀ (by norm_num)).mp (habove.trans hvhigh)
  by_cases hsame : place v = place x
  · apply round_of_near hv (m := m) (hsame ▸ hm) _ hlt
    have hdouble : (2 : Rat) ^ (k - 52) = 2 * 2 ^ (k - 53) := by rw [← two_zpow_succ]; congr 1; ring
    have hge : (2 : Rat) ^ (k - 52) ≤ 2 ^ place v := zpow_le_zpow_right₀ (by norm_num) (by omega)
    linarith
  · -- the power of two that the number is lies just above
    have hpred : j = k - 1 := by omega
    have hx52 : place x = k - 52 := by omega
    have hv53 : place v = k - 53 := by omega
    have hpower : x = 2 ^ k := by
      apply le_antisymm _ hlow
      by_contra hgt
      have hroom := (step_le (m := m) hle).2 (hm ▸ not_le.mp hgt)
      rw [← hm] at hroom
      have hvk : v < 2 ^ k := by simpa [hpred] using hvhigh
      linarith
    apply round_of_near hv (m := 2 ^ 53) _ _ hlt
    · have hcast : ((2 ^ 53 : Nat) : Rat) = 2 ^ (53 : Int) := by norm_num
      rw [hpower, hv53, hcast, ← zpow_add₀ (by norm_num)]
      congr 1
      ring
    · have hquarter : (2 : Rat) ^ k * 2 ^ (-54 : Int) = 2 ^ place v / 2 := by
        rw [hv53, eq_div_iff (by norm_num), ← zpow_add₀ (by norm_num), mul_comm, ← two_zpow_succ]
        congr 1
        ring
      rw [← hquarter, ← hpower]
      exact hclose

theorem round_shortest {x : Rat} (hx : 0 < x) (h : round x = .finite x) :
    round (shift 10 (shortest x).1 (shortest x).2) = .finite x := by
  unfold shortest
  cases hfind : ((List.range 16).map fun k => candidate x (k + 1)).find? fun d =>
      round (shift 10 d.1 d.2) = .finite x with
  | none => exact round_near hx h (candidate_near hx)
  | some d => simpa using List.find?_some hfind

theorem round_neg_eq {x : Rat} (hx : 0 < x) : round (-x) =
    (let size := shift 2 (nearest (scaled 2 x.num.natAbs x.den (place x)).1 (scaled 2 x.num.natAbs x.den (place x)).2)
      (place x)
    if (2 ^ 1024 : Nat) ≤ size then .infinite true else .finite (-size)) := by
  have hneg : -x < 0 := neg_neg_of_pos hx
  unfold round
  simp only [if_neg hneg.ne, if_pos hneg, decide_eq_true hneg, Rat.neg_num, Int.natAbs_neg, Rat.neg_den]
  rfl

/-- A number and its negative are rounded alike. -/
theorem round_neg_iff {x y : Rat} (hx : 0 < x) : round (-x) = .finite (-y) ↔ round x = .finite y := by
  rw [round_eq hx, round_neg_eq hx]
  simp only
  split
  next => exact iff_of_false (by rintro ⟨⟩) (by rintro ⟨⟩)
  next => rw [Number.finite.injEq, Number.finite.injEq, neg_inj]

/-- A number is printed with as many digits as it takes to read it again. -/
theorem round_shown {x : Rat} (h : round x = .finite x) : round (shown x) = .finite x := by
  by_cases hzero : x = 0
  · subst hzero
    rfl
  by_cases hneg : x < 0
  · have hpos : 0 < -x := neg_pos.mpr hneg
    have hmirror : round (-x) = .finite (-x) := by
      rwa [← round_neg_iff hpos, neg_neg]
    have hdecimal : 0 < shift 10 (shortest (-x)).1 (shortest (-x)).2 := by
      rw [shift_eq]
      exact mul_pos (Nat.cast_pos.mpr (shortest_pos hpos)) (zpow_pos (by norm_num) _)
    have hshort := (round_neg_iff hdecimal).mpr (round_shortest hpos hmirror)
    rw [neg_neg] at hshort
    simpa [shown, hzero, hneg, signed, abs_of_neg hneg] using hshort
  · have hpos : 0 < x := lt_of_le_of_ne (not_lt.mp hneg) (Ne.symm hzero)
    simpa [shown, hzero, hneg, signed, abs_of_pos hpos] using round_shortest hpos h

end Corebase.JsNumber
