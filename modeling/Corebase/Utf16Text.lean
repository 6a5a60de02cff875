import Corebase.StorageUrls

namespace Corebase.Utf16Text

open JsText (Text)
open Json (Str IsString isLead isTrail)
open Jwt (utf16 replacement)
open StorageUrls (units isString_units)

/-- A string as it is written in UTF-8: a surrogate that is alone becomes the replacement character. -/
def written : Str → Text
  | [] => []
  | [u] => [if isLead u || isTrail u then Char.ofNat replacement else Char.ofNat u]
  | u :: v :: us =>
      if isLead u && isTrail v then Char.ofNat (0x10000 + (u - 0xD800) * 0x400 + (v - 0xDC00)) :: written us
      else (if isLead u || isTrail u then Char.ofNat replacement else Char.ofNat u) :: written (v :: us)

theorem units_cons (c : Char) (t : Text) : units (c :: t) = utf16 c.toNat ++ units t := rfl

theorem utf16_pos (c : Char) : 0 < (utf16 c.toNat).length := by
  rw [utf16]
  split
  · exact Nat.one_pos
  · exact Nat.two_pos

theorem units_append (a b : Text) : units (a ++ b) = units a ++ units b := List.flatMap_append

theorem char_scalar (c : Char) : c.toNat < 0x110000 ∧ (c.toNat < 0xD800 ∨ 0xDFFF < c.toNat) := by
  have hvalid := c.valid
  have hval : c.toNat = c.val.toNat := rfl
  simp only [UInt32.isValidChar, Nat.isValidChar] at hvalid
  omega

theorem toNat_ofNat {n : Nat} (h : n < 0x110000) (hscalar : n < 0xD800 ∨ 0xDFFF < n) : (Char.ofNat n).toNat = n := by
  have hvalid : n.isValidChar := by
    simp only [Nat.isValidChar]
    omega
  rw [Char.ofNat, dif_pos hvalid]
  rfl

theorem not_surrogate {n : Nat} (h : n < 0xD800 ∨ 0xDFFF < n) : isLead n = false ∧ isTrail n = false := by
  simp only [isLead, isTrail, Bool.and_eq_false_iff, decide_eq_false_iff_not]
  omega

theorem written_cons {u : Nat} (h : u < 0xD800 ∨ 0xDFFF < u) (us : Str) : written (u :: us) = Char.ofNat u :: written us := by
  obtain ⟨hlead, htrail⟩ := not_surrogate h
  cases us with
  | nil => simp [written, hlead, htrail]
  | cons v us => simp [written, hlead, htrail]

theorem written_utf16 (c : Char) (us : Str) : written (utf16 c.toNat ++ us) = c :: written us := by
  obtain ⟨hlt, hscalar⟩ := char_scalar c
  by_cases hplane : c.toNat < 0x10000
  · rw [utf16, if_pos hplane]
    have hone := written_cons hscalar us
    rwa [Char.ofNat_toNat] at hone
  · rw [utf16, if_neg hplane, List.cons_append, List.cons_append, List.nil_append]
    have hlead : isLead (0xD800 + (c.toNat - 0x10000) / 0x400) = true := by
      simp only [isLead, Bool.and_eq_true, decide_eq_true_eq]
      omega
    have htrail : isTrail (0xDC00 + (c.toNat - 0x10000) % 0x400) = true := by
      simp only [isTrail, Bool.and_eq_true, decide_eq_true_eq]
      omega
    have hpoint : 0x10000 + (0xD800 + (c.toNat - 0x10000) / 0x400 - 0xD800) * 0x400 +
        (0xDC00 + (c.toNat - 0x10000) % 0x400 - 0xDC00) = c.toNat := by omega
    rw [written, hlead, htrail, hpoint, Char.ofNat_toNat]
    rfl

theorem written_units_append (t : Text) (us : Str) : written (units t ++ us) = t ++ written us := by
  induction t with
  | nil => rfl
  | cons c t ih => rw [units_cons, List.append_assoc, written_utf16, ih, List.cons_append]

@[simp] theorem written_units (t : Text) : written (units t) = t := by
  simpa [written] using written_units_append t []

theorem units_prefix {a b : Text} : units a <+: units b ↔ a <+: b := by
  constructor
  · rintro ⟨rest, hrest⟩
    refine ⟨written rest, ?_⟩
    rw [← written_units_append, hrest, written_units]
  · rintro ⟨rest, rfl⟩
    exact ⟨units rest, (units_append a rest).symm⟩

theorem units_one {n : Nat} (h : n < 0x10000) (hscalar : n < 0xD800 ∨ 0xDFFF < n) : units [Char.ofNat n] = [n] := by
  rw [units, List.flatMap_singleton, toNat_ofNat (by omega) hscalar, utf16, if_pos h]

/-- A string and what is written for it have the same length. -/
theorem units_written_length {s : Str} (h : IsString s) : (units (written s)).length = s.length := by
  have hone : ∀ u, u < 0x10000 →
      (units [if isLead u || isTrail u then Char.ofNat replacement else Char.ofNat u]).length = 1 := by
    intro u hu
    by_cases hs : (isLead u || isTrail u) = true
    · rw [if_pos hs, units_one (by decide) (by decide)]
      rfl
    · rw [if_neg hs, units_one hu]
      · rfl
      · simp only [isLead, isTrail, Bool.or_eq_true, Bool.and_eq_true, decide_eq_true_eq] at hs
        omega
  induction s using written.induct with
  | case1 => rfl
  | case2 u => exact hone u (h u (List.mem_cons_self ..))
  | case3 u v us hpair ih =>
      obtain ⟨hu, hv⟩ := Bool.and_eq_true_iff.mp hpair
      simp only [isLead, isTrail, Bool.and_eq_true, decide_eq_true_eq] at hu hv
      rw [written, if_pos hpair, units_cons, toNat_ofNat (by omega) (by omega), utf16, if_neg (by omega),
        List.length_append, ih fun x hx => h x (List.mem_cons_of_mem _ (List.mem_cons_of_mem _ hx))]
      simp only [List.length_cons, List.length_nil]
      omega
  | case4 u v us hpair ih =>
      obtain ⟨hu, hus⟩ := List.forall_mem_cons.mp h
      rw [written, if_neg hpair, ← List.singleton_append, units_append, List.length_append, hone u hu, ih hus]
      simp only [List.length_cons]
      omega

end Corebase.Utf16Text
