import Corebase.JsText

namespace Corebase.Utf8Text

open JsText (Text)

abbrev Buffer := List UInt8

/-! The text that any bytes are read as -/

def replacement : Char := '\ufffd'

/-- What has been read of a character, how many bytes it still needs, and the range of the next one. -/
structure Pending where
  value : Nat
  needed : Nat
  lower : Nat
  upper : Nat
deriving DecidableEq

/-- The first byte of a character. -/
def lead (b : Nat) : Text × Option Pending :=
  if b < 0x80 then ([Char.ofNat b], none)
  else if 0xc2 ≤ b ∧ b ≤ 0xdf then ([], some ⟨b - 0xc0, 1, 0x80, 0xbf⟩)
  else if 0xe0 ≤ b ∧ b ≤ 0xef then
    ([], some ⟨b - 0xe0, 2, if b = 0xe0 then 0xa0 else 0x80, if b = 0xed then 0x9f else 0xbf⟩)
  else if 0xf0 ≤ b ∧ b ≤ 0xf4 then
    ([], some ⟨b - 0xf0, 3, if b = 0xf0 then 0x90 else 0x80, if b = 0xf4 then 0x8f else 0xbf⟩)
  else ([replacement], none)

def step : Option Pending → Nat → Text × Option Pending
  | none, b => lead b
  | some p, b =>
      if p.lower ≤ b ∧ b ≤ p.upper then
        let value := 64 * p.value + (b - 0x80)
        if p.needed = 1 then ([Char.ofNat value], none) else ([], some ⟨value, p.needed - 1, 0x80, 0xbf⟩)
      -- what is broken off is replaced, and the byte is read as the first of a character
      else (replacement :: (lead b).1, (lead b).2)

def decodeFrom : Option Pending → Buffer → Text
  | none, [] => []
  | some _, [] => [replacement]
  | p, b :: bs => (step p b.toNat).1 ++ decodeFrom (step p b.toNat).2 bs

def decode (buf : Buffer) : Text := decodeFrom none buf

def encode (t : Text) : Buffer := t.flatMap String.utf8EncodeChar

/-! Texts that are written are read again -/

section RoundTrip

variable {b value needed lower upper : Nat} {bs : Buffer} {p : Pending}

theorem toNat_byte (h : b < 256) : (UInt8.ofNat b).toNat = b := by
  rw [UInt8.toNat_ofNat']
  exact Nat.mod_eq_of_lt h

theorem decode_lead (h : b < 256) (hlead : lead b = ([], some p)) :
    decodeFrom none (UInt8.ofNat b :: bs) = decodeFrom (some p) bs := by
  rw [decodeFrom, toNat_byte h, step, hlead, List.nil_append]

theorem decode_more (h : lower ≤ b ∧ b ≤ upper) (hb : b < 256) (hneeded : needed ≠ 1) :
    decodeFrom (some ⟨value, needed, lower, upper⟩) (UInt8.ofNat b :: bs) =
      decodeFrom (some ⟨64 * value + (b - 0x80), needed - 1, 0x80, 0xbf⟩) bs := by
  rw [decodeFrom, toNat_byte hb, step, if_pos h, if_neg hneeded, List.nil_append]

theorem decode_last (h : lower ≤ b ∧ b ≤ upper) (hb : b < 256) {c : Char}
    (hc : 64 * value + (b - 0x80) = c.toNat) :
    decodeFrom (some ⟨value, 1, lower, upper⟩) (UInt8.ofNat b :: bs) = c :: decodeFrom none bs := by
  rw [decodeFrom, toNat_byte hb, step, if_pos h, if_pos rfl, hc, Char.ofNat_toNat, List.singleton_append]

theorem utf8_eq (c : Char) {n : Nat} (h : c.toNat = n) : String.utf8EncodeChar c =
    if n ≤ 0x7f then [UInt8.ofNat n]
    else if n ≤ 0x7ff then [UInt8.ofNat (n / 64 % 32 + 0xc0), UInt8.ofNat (n % 64 + 0x80)]
    else if n ≤ 0xffff then [UInt8.ofNat (n / 4096 % 16 + 0xe0), UInt8.ofNat (n / 64 % 64 + 0x80),
      UInt8.ofNat (n % 64 + 0x80)]
    else [UInt8.ofNat (n / 262144 % 8 + 0xf0), UInt8.ofNat (n / 4096 % 64 + 0x80),
      UInt8.ofNat (n / 64 % 64 + 0x80), UInt8.ofNat (n % 64 + 0x80)] := by
  subst h
  rfl

theorem decode_char (c : Char) (bs : Buffer) :
    decodeFrom none (String.utf8EncodeChar c ++ bs) = c :: decodeFrom none bs := by
  have hvalid : c.toNat < 0xd800 ∨ 0xdfff < c.toNat ∧ c.toNat < 0x110000 := c.valid
  generalize hn : c.toNat = n at hvalid
  rw [utf8_eq c hn]
  by_cases hone : n ≤ 0x7f
  · rw [if_pos hone, List.singleton_append, decodeFrom, toNat_byte (by omega), step, lead, if_pos (by omega), ← hn,
      Char.ofNat_toNat, List.singleton_append]
  by_cases htwo : n ≤ 0x7ff
  · have hlead : lead (n / 64 % 32 + 0xc0) = ([], some ⟨n / 64 % 32, 1, 0x80, 0xbf⟩) := by
      rw [lead, if_neg (by omega), if_pos (by omega), Nat.add_sub_cancel]
    rw [if_neg hone, if_pos htwo, List.cons_append, List.singleton_append, decode_lead (by omega) hlead]
    exact decode_last (by omega) (by omega) (by omega)
  by_cases hthree : n ≤ 0xffff
  · have hlead : lead (n / 4096 % 16 + 0xe0) = ([], some ⟨n / 4096 % 16, 2,
        if n / 4096 % 16 + 0xe0 = 0xe0 then 0xa0 else 0x80, if n / 4096 % 16 + 0xe0 = 0xed then 0x9f else 0xbf⟩) := by
      rw [lead, if_neg (by omega), if_neg (by omega), if_pos (by omega), Nat.add_sub_cancel]
    -- a second byte out of range would be of a shorter character or of a surrogate
    have hsecond : (if n / 4096 % 16 + 0xe0 = 0xe0 then 0xa0 else 0x80) ≤ n / 64 % 64 + 0x80 ∧
        n / 64 % 64 + 0x80 ≤ if n / 4096 % 16 + 0xe0 = 0xed then 0x9f else 0xbf := by
      split <;> split <;> omega
    rw [if_neg hone, if_neg htwo, if_pos hthree, List.cons_append, List.cons_append, List.singleton_append,
      decode_lead (by omega) hlead, decode_more hsecond (by omega) (by decide)]
    exact decode_last (by omega) (by omega) (by omega)
  · have hlead : lead (n / 262144 % 8 + 0xf0) = ([], some ⟨n / 262144 % 8, 3,
        if n / 262144 % 8 + 0xf0 = 0xf0 then 0x90 else 0x80, if n / 262144 % 8 + 0xf0 = 0xf4 then 0x8f else 0xbf⟩) := by
      rw [lead, if_neg (by omega), if_neg (by omega), if_neg (by omega), if_pos (by omega), Nat.add_sub_cancel]
    have hsecond : (if n / 262144 % 8 + 0xf0 = 0xf0 then 0x90 else 0x80) ≤ n / 4096 % 64 + 0x80 ∧
        n / 4096 % 64 + 0x80 ≤ if n / 262144 % 8 + 0xf0 = 0xf4 then 0x8f else 0xbf := by
      split <;> split <;> omega
    rw [if_neg hone, if_neg htwo, if_neg hthree, List.cons_append, List.cons_append, List.cons_append,
      List.singleton_append, decode_lead (by omega) hlead, decode_more hsecond (by omega) (by decide),
      decode_more (by omega) (by omega) (by decide)]
    exact decode_last (by omega) (by omega) (by omega)

theorem decode_encode (t : Text) : decode (encode t) = t := by
  induction t with
  | nil => rfl
  | cons c cs ih =>
      rw [encode, List.flatMap_cons, decode, decode_char]
      exact congrArg (c :: ·) ih

end RoundTrip

end Corebase.Utf8Text
