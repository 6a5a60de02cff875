import Corebase.JsonUnits
import Corebase.Jwt

namespace Corebase.Jwt

open Json

/-! Bytes as letters -/

def letter (n : Nat) : Nat :=
  if n < 26 then n + 65 else if n < 52 then n + 71 else if n < 62 then n - 4 else if n = 62 then '-'.toNat else '_'.toNat

/-- A buffer in base64url, without padding. -/
def b64url : List Nat → Str
  | a :: b :: c :: rest =>
      letter (a / 4) :: letter (a % 4 * 16 + b / 16) :: letter (b % 16 * 4 + c / 64) :: letter (c % 64) :: b64url rest
  | [a, b] => [letter (a / 4), letter (a % 4 * 16 + b / 16), letter (b % 16 * 4)]
  | [a] => [letter (a / 4), letter (a % 4 * 16)]
  | [] => []

theorem sextet_letter {n : Nat} (h : n < 64) : sextet (letter n) = some n := by
  revert n
  decide

/-- What is written in base64url is read again. -/
theorem unb64u_b64url {bytes : List Nat} (h : ∀ b ∈ bytes, b < 256) : unb64u (b64url bytes) = bytes := by
  induction bytes using b64url.induct with
  | case1 a b c rest ih =>
      obtain ⟨ha, h⟩ := List.forall_mem_cons.mp h
      obtain ⟨hb, h⟩ := List.forall_mem_cons.mp h
      obtain ⟨hc, hrest⟩ := List.forall_mem_cons.mp h
      have hread := ih hrest
      simp only [unb64u] at hread ⊢
      simp only [b64url, List.filterMap_cons, sextet_letter (show a / 4 < 64 by omega),
        sextet_letter (show a % 4 * 16 + b / 16 < 64 by omega), sextet_letter (show b % 16 * 4 + c / 64 < 64 by omega),
        sextet_letter (show c % 64 < 64 by omega), groups, hread]
      congr 1
      · omega
      congr 1
      · omega
      congr 1
      omega
  | case2 a b =>
      obtain ⟨ha, h⟩ := List.forall_mem_cons.mp h
      obtain ⟨hb, -⟩ := List.forall_mem_cons.mp h
      simp only [unb64u, b64url, List.filterMap_cons, List.filterMap_nil, sextet_letter (show a / 4 < 64 by omega),
        sextet_letter (show a % 4 * 16 + b / 16 < 64 by omega), sextet_letter (show b % 16 * 4 < 64 by omega), groups]
      congr 1
      · omega
      congr 1
      omega
  | case3 a =>
      obtain ⟨ha, -⟩ := List.forall_mem_cons.mp h
      simp only [unb64u, b64url, List.filterMap_cons, List.filterMap_nil, sextet_letter (show a / 4 < 64 by omega),
        sextet_letter (show a % 4 * 16 < 64 by omega), groups]
      congr 1
      omega
  | case4 => rfl

/-- What holds of the letters holds of a text of them. -/
theorem forall_b64url {P : Nat → Prop} (hP : ∀ n < 64, P (letter n)) {bytes : List Nat} (h : ∀ b ∈ bytes, b < 256) :
    ∀ u ∈ b64url bytes, P u := by
  induction bytes using b64url.induct with
  | case1 a b c rest ih =>
      obtain ⟨ha, h⟩ := List.forall_mem_cons.mp h
      obtain ⟨hb, h⟩ := List.forall_mem_cons.mp h
      obtain ⟨hc, hrest⟩ := List.forall_mem_cons.mp h
      simp only [b64url, List.forall_mem_cons]
      exact ⟨hP _ (by omega), hP _ (by omega), hP _ (by omega), hP _ (by omega), ih hrest⟩
  | case2 a b =>
      obtain ⟨ha, h⟩ := List.forall_mem_cons.mp h
      obtain ⟨hb, -⟩ := List.forall_mem_cons.mp h
      simp only [b64url, List.forall_mem_cons]
      exact ⟨hP _ (by omega), hP _ (by omega), hP _ (by omega), List.forall_mem_nil _⟩
  | case3 a =>
      obtain ⟨ha, -⟩ := List.forall_mem_cons.mp h
      simp only [b64url, List.forall_mem_cons]
      exact ⟨hP _ (by omega), hP _ (by omega), List.forall_mem_nil _⟩
  | case4 => exact List.forall_mem_nil _

theorem b64url_ascii {bytes : List Nat} (h : ∀ b ∈ bytes, b < 256) : ∀ u ∈ b64url bytes, u < 128 ∧ u ≠ '.'.toNat :=
  forall_b64url (by decide) h

theorem b64url_ne {bytes : List Nat} (h : bytes ≠ []) : b64url bytes ≠ [] := by
  match bytes with
  | [] => exact absurd rfl h
  | [_] | [_, _] | _ :: _ :: _ :: _ => simp [b64url]

/-! Strings as bytes -/

def encodePoint (n : Nat) : List Nat :=
  if n < 0x80 then [n]
  else if n < 0x800 then [0xC0 + n / 64, 0x80 + n % 64]
  else if n < 0x10000 then [0xE0 + n / 4096, 0x80 + n / 64 % 64, 0x80 + n % 64]
  else [0xF0 + n / 262144, 0x80 + n / 4096 % 64, 0x80 + n / 64 % 64, 0x80 + n % 64]

/-- A surrogate that is alone is written as the replacement character. -/
def encodeUnit (u : Nat) : List Nat := encodePoint (if isLead u || isTrail u then replacement else u)

/-- A string as a buffer, written as UTF-8. -/
def encode : Str → List Nat
  | u :: v :: us =>
      if isLead u && isTrail v then encodePoint (0x10000 + (u - 0xD800) * 0x400 + (v - 0xDC00)) ++ encode us
      else encodeUnit u ++ encode (v :: us)
  | [u] => encodeUnit u
  | [] => []

theorem utf8_first {b : Nat} {units : Str} {pending : Option Pending} (h : firstByte b = (units, pending))
    (bytes : List Nat) : utf8 none (b :: bytes) = units ++ utf8 pending bytes := by
  rw [utf8]
  simp only [Option.elim_none, h]

theorem utf8_last {lower upper p b : Nat} (hlow : lower ≤ b) (hhigh : b ≤ upper) (bytes : List Nat) :
    utf8 (some ⟨1, lower, upper, p⟩) (b :: bytes) = utf16 (p * 64 + (b - 0x80)) ++ utf8 none bytes := by
  rw [utf8]
  simp only [Option.elim_some, nextByte, if_pos (And.intro hlow hhigh), if_true]

theorem utf8_more {k lower upper p b : Nat} (hlow : lower ≤ b) (hhigh : b ≤ upper) (bytes : List Nat) :
    utf8 (some ⟨k + 2, lower, upper, p⟩) (b :: bytes) =
      utf8 (some ⟨k + 1, 0x80, 0xBF, p * 64 + (b - 0x80)⟩) bytes := by
  rw [utf8]
  simp only [Option.elim_some, nextByte, if_pos (And.intro hlow hhigh), if_neg (show ¬ k + 2 = 1 by omega)]
  rfl

theorem first_two {n : Nat} (hlow : 0x80 ≤ n) (hhigh : n < 0x800) :
    firstByte (0xC0 + n / 64) = ([], some ⟨1, 0x80, 0xBF, n / 64⟩) := by
  rw [firstByte, if_neg (by omega), if_pos (by omega), Nat.add_sub_cancel_left]

theorem first_three {n : Nat} (hhigh : n < 0x10000) : firstByte (0xE0 + n / 4096) =
    ([], some ⟨2, if n / 4096 = 0 then 0xA0 else 0x80, if n / 4096 = 13 then 0x9F else 0xBF, n / 4096⟩) := by
  have hzero : (0xE0 + n / 4096 = 0xE0) = (n / 4096 = 0) := propext (by omega)
  have hthirteen : (0xE0 + n / 4096 = 0xED) = (n / 4096 = 13) := propext (by omega)
  rw [firstByte, if_neg (by omega), if_neg (by omega), if_pos (by omega), Nat.add_sub_cancel_left]
  simp only [hzero, hthirteen]

theorem first_four {n : Nat} (hhigh : n < 0x110000) : firstByte (0xF0 + n / 262144) =
    ([], some ⟨3, if n / 262144 = 0 then 0x90 else 0x80, if n / 262144 = 4 then 0x8F else 0xBF, n / 262144⟩) := by
  have hzero : (0xF0 + n / 262144 = 0xF0) = (n / 262144 = 0) := propext (by omega)
  have hfour : (0xF0 + n / 262144 = 0xF4) = (n / 262144 = 4) := propext (by omega)
  rw [firstByte, if_neg (by omega), if_neg (by omega), if_neg (by omega), if_pos (by omega), Nat.add_sub_cancel_left]
  simp only [hzero, hfour]

/-- The bytes of a code point are read as it. -/
theorem utf8_point {n : Nat} (hn : n < 0x110000) (hsurrogate : n < 0xD800 ∨ 0xDFFF < n) (bytes : List Nat) :
    utf8 none (encodePoint n ++ bytes) = utf16 n ++ utf8 none bytes := by
  unfold encodePoint
  split
  next h =>
    have hunit : utf16 n = [n] := if_pos (by omega)
    rw [hunit]
    exact utf8_first (by rw [firstByte, if_pos h]) bytes
  split
  next hlow hhigh =>
    have hpoint : n / 64 * 64 + (0x80 + n % 64 - 0x80) = n := by omega
    have hlast := utf8_last (p := n / 64) (show 0x80 ≤ 0x80 + n % 64 by omega) (show _ ≤ 0xBF by omega) bytes
    rw [hpoint] at hlast
    exact (utf8_first (first_two (by omega) hhigh) _).trans hlast
  split
  next hlow hhigh =>
    have hsecond : (if n / 4096 = 0 then 0xA0 else 0x80) ≤ 0x80 + n / 64 % 64 ∧
        0x80 + n / 64 % 64 ≤ if n / 4096 = 13 then 0x9F else 0xBF := by
      split <;> split <;> omega
    have hpoint : (n / 4096 * 64 + (0x80 + n / 64 % 64 - 0x80)) * 64 + (0x80 + n % 64 - 0x80) = n := by omega
    have hlast := utf8_last (p := n / 4096 * 64 + (0x80 + n / 64 % 64 - 0x80)) (show 0x80 ≤ 0x80 + n % 64 by omega)
      (show _ ≤ 0xBF by omega) bytes
    rw [hpoint] at hlast
    exact (utf8_first (first_three hhigh) _).trans ((utf8_more (k := 0) hsecond.1 hsecond.2 _).trans hlast)
  next hlow =>
    have hsecond : (if n / 262144 = 0 then 0x90 else 0x80) ≤ 0x80 + n / 4096 % 64 ∧
        0x80 + n / 4096 % 64 ≤ if n / 262144 = 4 then 0x8F else 0xBF := by
      split <;> split <;> omega
    have hpoint : ((n / 262144 * 64 + (0x80 + n / 4096 % 64 - 0x80)) * 64 + (0x80 + n / 64 % 64 - 0x80)) * 64 +
        (0x80 + n % 64 - 0x80) = n := by omega
    have hthird := utf8_more (k := 0) (p := n / 262144 * 64 + (0x80 + n / 4096 % 64 - 0x80))
      (show 0x80 ≤ 0x80 + n / 64 % 64 by omega) (show _ ≤ 0xBF by omega) ((0x80 + n % 64) :: bytes)
    have hlast := utf8_last
      (p := (n / 262144 * 64 + (0x80 + n / 4096 % 64 - 0x80)) * 64 + (0x80 + n / 64 % 64 - 0x80))
      (show 0x80 ≤ 0x80 + n % 64 by omega) (show _ ≤ 0xBF by omega) bytes
    rw [hpoint] at hlast
    exact (utf8_first (first_four hn) _).trans ((utf8_more (k := 1) hsecond.1 hsecond.2 _).trans (hthird.trans hlast))

theorem lead_bounds {u : Nat} (h : isLead u = true) : 0xD800 ≤ u ∧ u ≤ 0xDBFF := by
  simpa [isLead] using h

theorem trail_bounds {u : Nat} (h : isTrail u = true) : 0xDC00 ≤ u ∧ u ≤ 0xDFFF := by
  simpa [isTrail] using h

/-- A well-formed string is read from its bytes. -/
theorem text_encode {us : Str} (hus : ∀ u ∈ us, u < 0x10000) (h : wellFormed false us = true) : text (encode us) = us := by
  have hunit : ∀ u, u < 0x10000 → isLead u = false → isTrail u = false → ∀ bytes,
      utf8 none (encodeUnit u ++ bytes) = u :: utf8 none bytes := by
    intro u hu hlead htrail bytes
    have hplain : u < 0xD800 ∨ 0xDFFF < u := by
      simp only [isLead, isTrail, Bool.and_eq_false_iff, decide_eq_false_iff_not] at hlead htrail
      omega
    have hself : utf16 u = [u] := if_pos hu
    simp only [encodeUnit, hlead, htrail, Bool.or_self, Bool.false_eq_true, if_false]
    rw [utf8_point (by omega) hplain, hself]
    rfl
  unfold text
  induction us using encode.induct with
  | case1 u v us hpair ih =>
      obtain ⟨hlead, htrail⟩ := Bool.and_eq_true_iff.mp hpair
      have hl := lead_bounds hlead
      have ht := trail_bounds htrail
      have hrest : wellFormed false us = true := by simpa [wellFormed, hlead, htrail] using h
      have hpoint : utf16 (0x10000 + (u - 0xD800) * 0x400 + (v - 0xDC00)) = [u, v] := by
        have hhigh : 0xD800 + (0x10000 + (u - 0xD800) * 0x400 + (v - 0xDC00) - 0x10000) / 0x400 = u := by omega
        have hlow : 0xDC00 + (0x10000 + (u - 0xD800) * 0x400 + (v - 0xDC00) - 0x10000) % 0x400 = v := by omega
        rw [utf16, if_neg (by omega), hhigh, hlow]
      rw [encode, if_pos hpair, utf8_point (by omega) (by omega), hpoint,
        ih (fun x hx => hus x (List.mem_cons_of_mem u (List.mem_cons_of_mem v hx))) hrest]
      rfl
  | case2 u v us hpair ih =>
      have hsplit : wellFormed false (u :: v :: us) = (!isLead u && !isTrail u && wellFormed false (v :: us)) := by
        rw [wellFormed, if_neg (by simp), if_neg (by simpa using hpair)]
      rw [hsplit, Bool.and_eq_true, Bool.and_eq_true, Bool.not_eq_true', Bool.not_eq_true'] at h
      rw [encode, if_neg hpair, hunit u (hus u List.mem_cons_self) h.1.1 h.1.2,
        ih (fun x hx => hus x (List.mem_cons_of_mem u hx)) h.2]
  | case3 u =>
      simp only [wellFormed, List.head?_nil, Option.any_none, Bool.and_false, Bool.false_eq_true, if_false, Bool.and_true,
        Bool.and_eq_true, Bool.not_eq_true'] at h
      have hself := hunit u (hus u List.mem_cons_self) h.1 h.2 []
      rwa [List.append_nil] at hself
  | case4 => rfl

theorem encodePoint_lt {n : Nat} (h : n < 0x110000) : ∀ b ∈ encodePoint n, b < 256 := by
  intro b hb
  unfold encodePoint at hb
  split at hb
  next => simp only [List.mem_cons, List.not_mem_nil, or_false] at hb; omega
  split at hb
  next => simp only [List.mem_cons, List.not_mem_nil, or_false] at hb; omega
  split at hb
  next => simp only [List.mem_cons, List.not_mem_nil, or_false] at hb; omega
  next => simp only [List.mem_cons, List.not_mem_nil, or_false] at hb; omega

theorem encodeUnit_lt {u : Nat} (h : u < 0x10000) : ∀ b ∈ encodeUnit u, b < 256 := by
  unfold encodeUnit
  apply encodePoint_lt
  split
  next => decide
  next => omega

theorem encode_lt {us : Str} (h : ∀ u ∈ us, u < 0x10000) : ∀ b ∈ encode us, b < 256 := by
  induction us using encode.induct with
  | case1 u v us hpair ih =>
      have hl := lead_bounds (Bool.and_eq_true_iff.mp hpair).1
      have ht := trail_bounds (Bool.and_eq_true_iff.mp hpair).2
      have hrest := ih fun x hx => h x (List.mem_cons_of_mem u (List.mem_cons_of_mem v hx))
      rw [encode, if_pos hpair]
      intro b hb
      exact (List.mem_append.mp hb).elim (encodePoint_lt (by omega) b) (hrest b)
  | case2 u v us hpair ih =>
      have hrest := ih fun x hx => h x (List.mem_cons_of_mem u hx)
      rw [encode, if_neg hpair]
      intro b hb
      exact (List.mem_append.mp hb).elim (encodeUnit_lt (h u List.mem_cons_self) b) (hrest b)
  | case3 u => exact encodeUnit_lt (h u List.mem_cons_self)
  | case4 => exact List.forall_mem_nil _

/-! What is written in ASCII -/

theorem encodePoint_ascii {n : Nat} (h : ∀ b ∈ encodePoint n, b < 128) : n < 128 := by
  by_contra hn
  have hfirst : ∃ b ∈ encodePoint n, 128 ≤ b := by
    unfold encodePoint
    rw [if_neg (by omega)]
    split
    next => exact ⟨_, List.mem_cons_self, by omega⟩
    split <;> exact ⟨_, List.mem_cons_self, by omega⟩
  obtain ⟨b, hb, hle⟩ := hfirst
  exact absurd (h b hb) (by omega)

theorem encodeUnit_ascii {u : Nat} (h : ∀ b ∈ encodeUnit u, b < 128) : u < 128 := by
  have hpoint := encodePoint_ascii h
  split at hpoint
  next => exact absurd hpoint (by decide)
  next => exact hpoint

theorem encodeUnit_self {u : Nat} (h : u < 128) : encodeUnit u = [u] := by
  have hplain : (isLead u || isTrail u) = false := by simp [isLead, isTrail]; omega
  rw [encodeUnit, hplain, if_neg Bool.false_ne_true, encodePoint, if_pos (by omega)]

theorem encode_self {us : Str} (h : ∀ u ∈ us, u < 128) : encode us = us := by
  induction us using encode.induct with
  | case1 u v us hpair ih =>
      have hu := h u List.mem_cons_self
      have hlead := lead_bounds (Bool.and_eq_true_iff.mp hpair).1
      omega
  | case2 u v us hpair ih =>
      rw [encode, if_neg hpair, encodeUnit_self (h u List.mem_cons_self), ih fun x hx => h x (List.mem_cons_of_mem u hx)]
      rfl
  | case3 u => exact encodeUnit_self (h u List.mem_cons_self)
  | case4 => rfl

theorem ascii_of_encode {us : Str} (h : ∀ b ∈ encode us, b < 128) : ∀ u ∈ us, u < 128 := by
  induction us using encode.induct with
  | case1 u v us hpair ih =>
      rw [encode, if_pos hpair, List.forall_mem_append] at h
      have hpoint := encodePoint_ascii h.1
      omega
  | case2 u v us hpair ih =>
      rw [encode, if_neg hpair, List.forall_mem_append] at h
      exact List.forall_mem_cons.mpr ⟨encodeUnit_ascii h.1, ih h.2⟩
  | case3 u => exact List.forall_mem_cons.mpr ⟨encodeUnit_ascii h, List.forall_mem_nil _⟩
  | case4 => exact List.forall_mem_nil _

/-- A text of ASCII is the only one that has its bytes. -/
theorem encode_inj_ascii {us vs : Str} (h : ∀ v ∈ vs, v < 128) (hencode : encode us = encode vs) : us = vs := by
  rw [encode_self h] at hencode
  have hus : ∀ u ∈ us, u < 128 := ascii_of_encode (hencode ▸ h)
  rwa [encode_self hus] at hencode

end Corebase.Jwt
