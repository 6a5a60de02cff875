import Mathlib.Data.Bool.AllAny
import Corebase.DotSegments
import Corebase.UrlPath

namespace Corebase.UrlReference

open JsText
open DotSegments (Bytes hexValue slash)

/-! Texts as bytes -/

/-- A text in UTF-8. -/
def bytes (t : Text) : Bytes := t.flatMap fun c => (String.utf8EncodeChar c).map UInt8.toNat

theorem bytes_append (s t : Text) : bytes (s ++ t) = bytes s ++ bytes t := List.flatMap_append

theorem bytes_lt (t : Text) : ∀ b ∈ bytes t, b < 256 := by
  intro b hb
  obtain ⟨c, -, hc⟩ := List.mem_flatMap.mp hb
  obtain ⟨byte, -, rfl⟩ := List.mem_map.mp hc
  exact byte.toNat_lt

theorem utf8_ascii {c : Char} (h : c.toNat < 128) : (String.utf8EncodeChar c).map UInt8.toNat = [c.toNat] := by
  have hval : c.val.toNat = c.toNat := rfl
  have hbyte : (UInt8.ofNat c.val.toNat).toNat = c.toNat := by
    rw [UInt8.toNat_ofNat', hval]
    omega
  rw [String.utf8EncodeChar, if_pos (by omega), List.map_singleton, hbyte]

theorem bytes_ascii {t : Text} (h : ∀ c ∈ t, c.toNat < 128) : bytes t = t.map Char.toNat := by
  induction t with
  | nil => rfl
  | cons c cs ih =>
      obtain ⟨hc, hcs⟩ := List.forall_mem_cons.mp h
      rw [bytes, List.flatMap_cons, utf8_ascii hc, ← bytes, ih hcs]
      rfl

theorem utf8_high {c : Char} (h : 128 ≤ c.toNat) : ∀ b ∈ (String.utf8EncodeChar c).map UInt8.toNat, 128 ≤ b := by
  have hval : c.val.toNat = c.toNat := rfl
  have hbyte : ∀ n, 128 ≤ n → n < 256 → 128 ≤ (UInt8.ofNat n).toNat := by
    intro n hlow hhigh
    rw [UInt8.toNat_ofNat']
    omega
  rw [String.utf8EncodeChar, hval, if_neg (by omega)]
  split
  next =>
    simp only [List.map_cons, List.map_nil, List.forall_mem_cons]
    exact ⟨hbyte _ (by omega) (by omega), hbyte _ (by omega) (by omega), List.forall_mem_nil _⟩
  split
  next =>
    simp only [List.map_cons, List.map_nil, List.forall_mem_cons]
    exact ⟨hbyte _ (by omega) (by omega), hbyte _ (by omega) (by omega), hbyte _ (by omega) (by omega),
      List.forall_mem_nil _⟩
  next =>
    simp only [List.map_cons, List.map_nil, List.forall_mem_cons]
    exact ⟨hbyte _ (by omega) (by omega), hbyte _ (by omega) (by omega), hbyte _ (by omega) (by omega),
      hbyte _ (by omega) (by omega), List.forall_mem_nil _⟩

/-- A byte of ASCII is of a character of ASCII. -/
theorem mem_bytes_ascii {t : Text} {b : Nat} (hb : b < 128) (h : b ∈ bytes t) : ∃ c ∈ t, c.toNat = b := by
  obtain ⟨c, hc, hmem⟩ := List.mem_flatMap.mp h
  by_cases hlow : c.toNat < 128
  · rw [utf8_ascii hlow] at hmem
    exact ⟨c, hc, (List.mem_singleton.mp hmem).symm⟩
  · exact absurd (utf8_high (not_lt.mp hlow) b hmem) (by omega)

theorem not_mem_bytes {t : Text} {c : Char} (hc : c.toNat < 128) (h : c ∉ t) : c.toNat ∉ bytes t := by
  intro hmem
  obtain ⟨d, hd, heq⟩ := mem_bytes_ascii hc hmem
  exact h (Char.toNat_inj.mp heq ▸ hd)

theorem splitOn_head {a : Nat} {u : Bytes} (h : a ∉ u) (xs : Bytes) :
    (u ++ xs).splitOn a = (xs.splitOn a).modifyHead (u ++ ·) := by
  induction u with
  | nil => cases hxs : xs.splitOn a <;> simp [hxs]
  | cons x u ih =>
      obtain ⟨hx, hu⟩ := not_or.mp (mt List.mem_cons.mpr h)
      rw [List.cons_append, List.splitOn_cons_eq_if_modifyHead, if_neg (by simpa using Ne.symm hx), ih hu]
      cases xs.splitOn a <;> rfl

theorem bytes_splitOn (t : Text) : (bytes t).splitOn slash = (t.splitOn '/').map bytes := by
  induction t with
  | nil => rfl
  | cons c cs ih =>
      have hbytes : bytes (c :: cs) = bytes [c] ++ bytes cs := bytes_append [c] cs
      by_cases hc : c = '/'
      · subst c
        have hslash : bytes ['/'] = [slash] := by decide
        rw [hbytes, hslash, List.singleton_append, List.splitOn_cons_eq_if_modifyHead, List.splitOn_cons_eq_if_modifyHead,
          if_pos (by simp), if_pos (by simp), ih]
        rfl
      · have hnot : slash ∉ bytes [c] := @not_mem_bytes [c] '/' (by decide) (mt List.mem_singleton.mp (Ne.symm hc))
        rw [hbytes, splitOn_head hnot, ih, List.splitOn_cons_eq_if_modifyHead, if_neg (by simpa using hc)]
        cases cs.splitOn '/' with
        | nil => rfl
        | cons s rest => exact congrArg (· :: rest.map bytes) (bytes_append [c] s).symm

theorem map_ofNat_bytes (t : Text) : (bytes t).map UInt8.ofNat = t.flatMap String.utf8EncodeChar := by
  have hbyte : UInt8.ofNat ∘ UInt8.toNat = id := funext fun _ => UInt8.ofNat_toNat
  simp [bytes, List.map_flatMap, hbyte]

theorem utf8Encode_eq (t : Text) : t.utf8Encode = ((bytes t).map UInt8.ofNat).toByteArray := by
  rw [map_ofNat_bytes, List.utf8Encode]

theorem bytes_inj {t u : Text} (h : bytes t = bytes u) : t = u := by
  have hdecode := congrArg (fun bs : Bytes => (bs.map UInt8.ofNat).toByteArray.utf8Decode?) h
  simpa [← utf8Encode_eq] using hdecode

/-- The text that the bytes are read as, where they are UTF-8. -/
def fromUtf8 (bs : Bytes) : Option Text := ((bs.map UInt8.ofNat).toByteArray.utf8Decode?).map Array.toList

theorem fromUtf8_bytes (t : Text) : fromUtf8 (bytes t) = some t := by
  rw [fromUtf8, ← utf8Encode_eq, List.utf8Decode?_utf8Encode]
  rfl

theorem bytes_of_fromUtf8 {bs : Bytes} (hbs : ∀ b ∈ bs, b < 256) {t : Text} (h : fromUtf8 bs = some t) : bytes t = bs := by
  obtain ⟨chars, hchars, rfl⟩ := Option.map_eq_some_iff.mp h
  have hencode := @ByteArray.utf8Encode_get_utf8Decode? (bs.map UInt8.ofNat).toByteArray (by rw [hchars]; rfl)
  simp only [hchars, Option.get_some, utf8Encode_eq] at hencode
  have hlists := List.toByteArray_inj.mp hencode
  have hself : ∀ {l : Bytes}, (∀ b ∈ l, b < 256) → (l.map UInt8.ofNat).map UInt8.toNat = l := by
    intro l hl
    rw [List.map_map]
    conv_rhs => rw [← List.map_id l]
    apply List.map_congr_left
    intro b hb
    rw [Function.comp_apply, UInt8.toNat_ofNat', Nat.mod_eq_of_lt (hl b hb)]
    rfl
  have hvalues := congrArg (List.map UInt8.toNat) hlists
  rwa [hself hbs, hself (bytes_lt _)] at hvalues

/-! Percent signs -/

/-- The byte that two characters after a percent sign stand for. -/
def escapedByte (a b : Char) : Option Nat :=
  (hexValue a.toNat).bind fun high => (hexValue b.toNat).map fun low => 16 * high + low

/-- The bytes of a text whose percent signs all escape one. -/
def unescape : Text → Option Bytes
  | '%' :: a :: b :: rest => (escapedByte a b).bind fun byte => (unescape rest).map (byte :: ·)
  | c :: rest => if c = '%' then none else (unescape rest).map (bytes [c] ++ ·)
  | [] => some []

/-- decodeURIComponent -/
def decodeComponent (t : Text) : Option Text := (unescape t).bind fromUtf8

/-- The characters that encodeURIComponent leaves alone. -/
def isUnreserved (c : Char) : Bool := isLetter c || isDigit c || c ∈ ['-', '_', '.', '!', '~', '*', '\x27', '(', ')']

/-- encodeURIComponent -/
def encodeComponent (t : Text) : Text := t.flatMap (percentEncode fun c => !isUnreserved c)

theorem unescape_cons {c : Char} (h : c ≠ '%') (t : Text) : unescape (c :: t) = (unescape t).map (bytes [c] ++ ·) := by
  rw [unescape, if_neg h]
  rintro a b rest rfl
  exact absurd rfl h

theorem unescape_percent (a b : Char) (t : Text) :
    unescape ('%' :: a :: b :: t) = (escapedByte a b).bind fun byte => (unescape t).map (byte :: ·) := by
  rw [unescape]

/-- How the bytes come from the text. -/
inductive Unescapes : Text → Bytes → Prop
  | nil : Unescapes [] []
  | escape {a b : Char} {byte : Nat} {t : Text} {bs : Bytes} (hbyte : escapedByte a b = some byte) (h : Unescapes t bs) :
      Unescapes ('%' :: a :: b :: t) (byte :: bs)
  | char {c : Char} {t : Text} {bs : Bytes} (hc : c ≠ '%') (h : Unescapes t bs) : Unescapes (c :: t) (bytes [c] ++ bs)

theorem unescapes {t : Text} {bs : Bytes} (h : unescape t = some bs) : Unescapes t bs := by
  induction t using unescape.induct generalizing bs with
  | case1 a b rest ih =>
      rw [unescape_percent] at h
      obtain ⟨byte, hbyte, h⟩ := Option.bind_eq_some_iff.mp h
      obtain ⟨tail, htail, rfl⟩ := Option.map_eq_some_iff.mp h
      exact .escape hbyte (ih htail)
  | case2 rest hrest =>
      rw [unescape, if_pos rfl] at h
      · cases h
      · exact hrest
  | case3 c rest hrest hc ih =>
      rw [unescape_cons hc] at h
      obtain ⟨tail, htail, rfl⟩ := Option.map_eq_some_iff.mp h
      exact .char hc (ih htail)
  | case4 =>
      cases h
      exact .nil

theorem unescape_plain {t : Text} (h : '%' ∉ t) : unescape t = some (bytes t) := by
  induction t with
  | nil => rfl
  | cons c cs ih =>
      obtain ⟨hc, hcs⟩ := not_or.mp (mt List.mem_cons.mpr h)
      rw [unescape_cons (Ne.symm hc), ih hcs, Option.map_some, ← bytes_append]
      rfl

theorem hexValue_lt {n v : Nat} (h : hexValue n = some v) : v < 16 := by
  unfold hexValue at h
  grind

theorem escapedByte_lt {a b : Char} {byte : Nat} (h : escapedByte a b = some byte) : byte < 256 := by
  obtain ⟨high, hhigh, h⟩ := Option.bind_eq_some_iff.mp h
  obtain ⟨low, hlow, rfl⟩ := Option.map_eq_some_iff.mp h
  have hhighLt := hexValue_lt hhigh
  have hlowLt := hexValue_lt hlow
  omega

theorem Unescapes.lt {t : Text} {bs : Bytes} (h : Unescapes t bs) : ∀ b ∈ bs, b < 256 := by
  induction h with
  | nil => exact List.forall_mem_nil _
  | escape hbyte _ ih => exact List.forall_mem_cons.mpr ⟨escapedByte_lt hbyte, ih⟩
  | @char c _ _ hc _ ih => exact List.forall_mem_append.mpr ⟨bytes_lt [c], ih⟩

theorem bytes_ne (c : Char) : bytes [c] ≠ [] := by
  simp [bytes, String.utf8EncodeChar_ne_nil]

theorem length_bytes_cons (c : Char) (t : Text) : (bytes t).length < (bytes (c :: t)).length := by
  have hpos := List.length_pos_of_ne_nil (bytes_ne c)
  have happend : bytes (c :: t) = bytes [c] ++ bytes t := bytes_append [c] t
  rw [happend, List.length_append]
  omega

/-- An escape is longer than its byte. -/
theorem Unescapes.length {t : Text} {bs : Bytes} (h : Unescapes t bs) :
    bs.length ≤ (bytes t).length ∧ ('%' ∈ t → bs.length < (bytes t).length) := by
  induction h with
  | nil => exact ⟨le_refl _, fun hmem => absurd hmem List.not_mem_nil⟩
  | @escape a b byte t bs _ _ ih =>
      have hb := length_bytes_cons b t
      have ha := length_bytes_cons a (b :: t)
      have hpercent := length_bytes_cons '%' (a :: b :: t)
      have hlength := ih.1
      rw [List.length_cons]
      omega
  | @char c t bs hc _ ih =>
      have happend : bytes (c :: t) = bytes [c] ++ bytes t := bytes_append [c] t
      rw [happend, List.length_append, List.length_append]
      refine ⟨by omega, fun hmem => ?_⟩
      have hlt := ih.2 ((List.mem_cons.mp hmem).resolve_left (Ne.symm hc))
      omega

/-! Encoded texts -/

theorem escapedByte_hexDigit {byte : Nat} (h : byte < 256) :
    escapedByte (hexDigit (byte / 16)) (hexDigit (byte % 16)) = some byte := by
  have hdigit : ∀ n < 16, hexValue (hexDigit n).toNat = some n := by decide
  rw [escapedByte, hdigit _ (by omega), hdigit _ (Nat.mod_lt _ (by decide)), Option.bind_some, Option.map_some]
  exact congrArg some (Nat.div_add_mod byte 16)

theorem unescape_percentBytes {bs : Bytes} (h : ∀ b ∈ bs, b < 256) (t : Text) :
    unescape (bs.flatMap percentByte ++ t) = (unescape t).map (bs ++ ·) := by
  induction bs with
  | nil => exact Option.map_id'.symm
  | cons b bs ih =>
      obtain ⟨hb, hbs⟩ := List.forall_mem_cons.mp h
      have htext : (b :: bs).flatMap percentByte ++ t =
          '%' :: hexDigit (b / 16) :: hexDigit (b % 16) :: (bs.flatMap percentByte ++ t) := rfl
      rw [htext, unescape_percent, escapedByte_hexDigit hb, Option.bind_some, ih hbs, Option.map_map]
      rfl

theorem unescape_percentEncode {inSet : Char → Bool} {c : Char} (h : inSet c = true ∨ c ≠ '%') (t : Text) :
    unescape (percentEncode inSet c ++ t) = (unescape t).map (bytes [c] ++ ·) := by
  have hbytes : bytes [c] = (String.utf8EncodeChar c).map UInt8.toNat := List.flatMap_singleton _ _
  by_cases hset : inSet c = true
  · rw [percentEncode, if_pos hset, ← hbytes]
    exact unescape_percentBytes (bytes_lt [c]) t
  · rw [percentEncode, if_neg hset]
    exact unescape_cons (h.resolve_left hset) t

theorem unescape_encode {inSet : Char → Bool} (h : inSet '%' = true) (t : Text) :
    unescape (t.flatMap (percentEncode inSet)) = some (bytes t) := by
  induction t with
  | nil => rfl
  | cons c cs ih =>
      have hc : inSet c = true ∨ c ≠ '%' := by
        by_cases hpercent : c = '%'
        · exact .inl (hpercent ▸ h)
        · exact .inr hpercent
      rw [List.flatMap_cons, unescape_percentEncode hc, ih, Option.map_some, ← bytes_append]
      rfl

theorem unescape_encodeComponent (t : Text) : unescape (encodeComponent t) = some (bytes t) := unescape_encode rfl t

/-- What is written as a component is read again. -/
theorem decode_encode (t : Text) : decodeComponent (encodeComponent t) = some t := by
  rw [decodeComponent, unescape_encodeComponent, Option.bind_some, fromUtf8_bytes]

/-- What a URL makes of a segment of its path. -/
def encodePath (t : Text) : Text := t.flatMap (percentEncode inPathSet)

theorem inPathSet_hex {c : Char} {v : Nat} (h : hexValue c.toNat = some v) : inPathSet c = false := by
  have hnone : ∀ d ∈ [' ', '"', '#', '<', '>', '?', '^', '\x60', '\x7b', '\x7d'], hexValue d.toNat = none :=
    List.all_iff_forall_prop.mp (by decide)
  rw [Bool.eq_false_iff]
  intro hset
  simp only [inPathSet, Bool.or_eq_true, decide_eq_true_eq] at hset
  rcases hset with (hlow | hhigh) | hmem
  · unfold hexValue at h
    grind
  · unfold hexValue at h
    grind
  · rw [hnone c hmem] at h
    cases h

/-- An encoded character begins with itself or with a percent sign. -/
theorem percentEncode_first (c : Char) : percentEncode inPathSet c = [c] ∨
    ∃ rest, percentEncode inPathSet c = '%' :: rest ∧ hexValue c.toNat = none := by
  by_cases hset : inPathSet c = true
  · refine .inr ?_
    have hbytes : bytes [c] = (String.utf8EncodeChar c).map UInt8.toNat := List.flatMap_singleton _ _
    obtain ⟨b, bs, hcons⟩ := List.exists_cons_of_ne_nil (bytes_ne c)
    refine ⟨hexDigit (b / 16) :: hexDigit (b % 16) :: bs.flatMap percentByte, ?_, ?_⟩
    · rw [percentEncode, if_pos hset, ← hbytes, hcons]
      rfl
    · by_contra hhex
      obtain ⟨v, hv⟩ := Option.ne_none_iff_exists'.mp hhex
      rw [inPathSet_hex hv] at hset
      cases hset
  · rw [percentEncode, if_neg hset]
    exact .inl rfl

theorem unescape_bad {a b : Char} (h : hexValue a.toNat = none ∨ hexValue b.toNat = none) (t : Text) :
    unescape ('%' :: a :: b :: t) = none := by
  have hbyte : escapedByte a b = none := by
    rcases h with h | h
    · rw [escapedByte, h]
      rfl
    · rw [escapedByte, h]
      cases hexValue a.toNat <;> rfl
  rw [unescape_percent, hbyte]
  rfl

theorem encodePath_cons (c : Char) (t : Text) : encodePath (c :: t) = percentEncode inPathSet c ++ encodePath t :=
  List.flatMap_cons

theorem encodePath_percent (t : Text) : encodePath ('%' :: t) = '%' :: encodePath t := rfl

/-- The escapes of a segment stand for what they stood for. -/
theorem unescape_encodePath (t : Text) : unescape (encodePath t) = unescape t := by
  have hpercent : hexValue '%'.toNat = none := by decide
  induction t using unescape.induct with
  | case1 a b rest ih =>
      rw [encodePath_percent, encodePath_cons, encodePath_cons]
      rcases percentEncode_first a with ha | ⟨as, ha, hhex⟩
      · rcases percentEncode_first b with hb | ⟨bs, hb, hhex⟩
        · rw [ha, hb, List.singleton_append, List.singleton_append, unescape_percent, unescape_percent, ih]
        · rw [ha, hb, List.singleton_append, List.cons_append, unescape_bad (.inr hpercent), unescape_bad (.inr hhex)]
      · obtain ⟨x, xs, hx⟩ : ∃ x xs, as ++ (percentEncode inPathSet b ++ encodePath rest) = x :: xs := by
          rcases percentEncode_first b with hb | ⟨bs, hb, -⟩ <;> cases as <;> simp [hb]
        rw [ha, List.cons_append, hx, unescape_bad (.inl hpercent), unescape_bad (.inl hhex)]
  | case2 rest hrest =>
      cases rest with
      | nil => rfl
      | cons a rest =>
          cases rest with
          | nil =>
              rw [encodePath_percent, encodePath_cons]
              rcases percentEncode_first a with ha | ⟨as, ha, -⟩
              · rw [ha]
                rfl
              · rw [ha, List.cons_append]
                cases as with
                | nil => rfl
                | cons x xs => rw [List.cons_append, unescape_bad (.inl hpercent)]; rfl
          | cons b rest => exact absurd rfl (hrest a b rest rfl)
  | case3 c rest hrest hc ih => rw [encodePath_cons, unescape_percentEncode (.inr hc), ih, unescape_cons hc]
  | case4 => rfl

/-! Dot segments -/

theorem toLower_cases (c : Char) : c.toLower = c ∨ ∃ n < 91, 65 ≤ n ∧ c = Char.ofNat n := by
  by_cases hupper : 65 ≤ c.toNat ∧ c.toNat < 91
  · exact .inr ⟨c.toNat, hupper.2, hupper.1, (Char.ofNat_toNat c).symm⟩
  · have hval : c.toNat = c.val.toNat := rfl
    have hnot : ¬(c.val ≥ 'A'.val ∧ c.val ≤ 'Z'.val) := by
      rw [ge_iff_le, UInt32.le_iff_toNat_le, UInt32.le_iff_toNat_le]
      have hA : 'A'.val.toNat = 65 := rfl
      have hZ : 'Z'.val.toNat = 90 := rfl
      omega
    exact .inl (dif_neg hnot)

theorem toLower_char {c d : Char} (hd : ∀ n < 91, 65 ≤ n → (Char.ofNat n).toLower ≠ d) (h : c.toLower = d) : c = d := by
  rcases toLower_cases c with hc | ⟨n, hhigh, hlow, rfl⟩
  · exact hc ▸ h
  · exact absurd h (hd n hhigh hlow)

theorem toLower_e {c : Char} (h : c.toLower = 'e') : c = 'e' ∨ c = 'E' := by
  have hall : ∀ n < 91, 65 ≤ n → (Char.ofNat n).toLower = 'e' → Char.ofNat n = 'E' := by decide
  rcases toLower_cases c with hc | ⟨n, hhigh, hlow, rfl⟩
  · exact .inl (hc ▸ h)
  · exact .inr (hall n hhigh hlow h)

/-- A dot at the beginning, as itself -/
theorem unescape_dot {s t : Text} (h : s.map Char.toLower = '.' :: t) :
    ∃ rest, rest.map Char.toLower = t ∧ unescape s = (unescape rest).map (46 :: ·) := by
  obtain ⟨c, rest, rfl, hc, hrest⟩ := List.map_eq_cons_iff.mp h
  obtain rfl := toLower_char (by decide) hc
  exact ⟨rest, hrest, unescape_cons (by decide) rest⟩

/-- A dot at the beginning, as an escape -/
theorem unescape_escape {s t : Text} (h : s.map Char.toLower = '%' :: '2' :: 'e' :: t) :
    ∃ rest, rest.map Char.toLower = t ∧ unescape s = (unescape rest).map (46 :: ·) := by
  obtain ⟨a, s, rfl, ha, hs⟩ := List.map_eq_cons_iff.mp h
  obtain ⟨b, s, rfl, hb, hs⟩ := List.map_eq_cons_iff.mp hs
  obtain ⟨c, rest, rfl, hc, hrest⟩ := List.map_eq_cons_iff.mp hs
  obtain rfl := toLower_char (by decide) ha
  obtain rfl := toLower_char (by decide) hb
  refine ⟨rest, hrest, ?_⟩
  rw [unescape_percent]
  rcases toLower_e hc with rfl | rfl <;> rfl

theorem unescape_end {s : Text} (h : s.map Char.toLower = []) : unescape s = some [] := by
  obtain rfl := List.map_eq_nil_iff.mp h
  rfl

theorem unescape_singleDot {s : Text} (h : isSingleDot s = true) : unescape s = some DotSegments.dot := by
  simp only [isSingleDot, List.mem_cons, List.not_mem_nil, or_false, decide_eq_true_eq] at h
  rcases h with h | h
  · obtain ⟨rest, hrest, hs⟩ := unescape_dot h
    rw [hs, unescape_end hrest]
    rfl
  · obtain ⟨rest, hrest, hs⟩ := unescape_escape h
    rw [hs, unescape_end hrest]
    rfl

theorem unescape_doubleDot {s : Text} (h : isDoubleDot s = true) : unescape s = some DotSegments.dotDot := by
  simp only [isDoubleDot, List.mem_cons, List.not_mem_nil, or_false, decide_eq_true_eq] at h
  rcases h with h | h | h | h
  · obtain ⟨rest, hrest, hs⟩ := unescape_dot h
    obtain ⟨rest, hrest, ht⟩ := unescape_dot hrest
    rw [hs, ht, unescape_end hrest]
    rfl
  · obtain ⟨rest, hrest, hs⟩ := unescape_dot h
    obtain ⟨rest, hrest, ht⟩ := unescape_escape hrest
    rw [hs, ht, unescape_end hrest]
    rfl
  · obtain ⟨rest, hrest, hs⟩ := unescape_escape h
    obtain ⟨rest, hrest, ht⟩ := unescape_dot hrest
    rw [hs, ht, unescape_end hrest]
    rfl
  · obtain ⟨rest, hrest, hs⟩ := unescape_escape h
    obtain ⟨rest, hrest, ht⟩ := unescape_escape hrest
    rw [hs, ht, unescape_end hrest]
    rfl

/-! The path of a reference -/

theorem readPath_query (path : List Text) (segment p rest : Text) :
    readPath path segment (p ++ '?' :: rest) = readPath path segment p := by
  induction p generalizing path segment with
  | nil => rfl
  | cons c cs ih =>
      rw [List.cons_append, readPath, readPath, ih, ih]

def endsPath (c : Char) : Bool := c = '?' || c = '#'

theorem addSegment_plain {path : List Text} {segment : Text} (hsingle : isSingleDot segment = false)
    (hdouble : isDoubleDot segment = false) (last : Bool) : addSegment path segment last = path ++ [segment] := by
  rw [addSegment, hsingle, hdouble]
  rfl

theorem encodePath_append (a b : Text) : encodePath (a ++ b) = encodePath a ++ encodePath b := List.flatMap_append

/-- A path without dot segments and reverse slashes is read segment by segment. -/
theorem readPath_segments {path : List Text} {x cs : Text} (hx : '/' ∉ x) (hback : '\\' ∉ cs)
    (hdots : ∀ s ∈ (x ++ cs.takeWhile fun c => !endsPath c).splitOn '/',
      isSingleDot (encodePath s) = false ∧ isDoubleDot (encodePath s) = false) :
    readPath path (encodePath x) cs = path ++ ((x ++ cs.takeWhile fun c => !endsPath c).splitOn '/').map encodePath := by
  induction cs generalizing path x with
  | nil =>
      rw [List.takeWhile_nil, List.append_nil, List.splitOn_eq_singleton hx] at hdots ⊢
      obtain ⟨hsingle, hdouble⟩ := hdots x (List.mem_singleton.mpr rfl)
      exact addSegment_plain hsingle hdouble true
  | cons c cs ih =>
      obtain ⟨hc, hcs⟩ := not_or.mp (mt List.mem_cons.mpr hback)
      by_cases hslash : c = '/'
      · subst c
        have htake : ('/' :: cs).takeWhile (fun c => !endsPath c) = '/' :: cs.takeWhile fun c => !endsPath c := rfl
        rw [htake, List.splitOn_append_cons_self_of_not_mem hx] at hdots ⊢
        obtain ⟨⟨hsingle, hdouble⟩, hrest⟩ := List.forall_mem_cons.mp hdots
        rw [readPath, if_pos (show isSlash '/' = true from rfl), addSegment_plain hsingle hdouble]
        rw [show ([] : Text) = encodePath [] from rfl, ih List.not_mem_nil hcs hrest, List.append_assoc]
        rfl
      · have hnot : isSlash c = false := by simp [isSlash, hslash, Ne.symm hc]
        by_cases hends : endsPath c = true
        · have htake : (c :: cs).takeWhile (fun c => !endsPath c) = [] := by simp [hends]
          rw [htake, List.append_nil, List.splitOn_eq_singleton hx] at hdots ⊢
          obtain ⟨hsingle, hdouble⟩ := hdots x (List.mem_singleton.mpr rfl)
          simp only [endsPath, Bool.or_eq_true, decide_eq_true_eq] at hends
          rw [readPath, if_neg (by rw [hnot]; decide), if_pos hends]
          exact addSegment_plain hsingle hdouble true
        · have htake : (c :: cs).takeWhile (fun c => !endsPath c) = c :: cs.takeWhile fun c => !endsPath c := by
            simp [hends]
          have hmove : x ++ c :: cs.takeWhile (fun c => !endsPath c) =
              (x ++ [c]) ++ cs.takeWhile fun c => !endsPath c := by simp
          rw [htake, hmove] at hdots ⊢
          simp only [endsPath, Bool.or_eq_true, decide_eq_true_eq] at hends
          have hx' : '/' ∉ x ++ [c] := by simp [hx, Ne.symm hslash]
          rw [readPath, if_neg (by rw [hnot]; decide), if_neg hends, ← ih hx' hcs hdots, encodePath_append]
          rw [encodePath_cons, show encodePath [] = [] from rfl, List.append_nil]

/-- Each segment that is read is a piece of the text between two slashes, if it is not empty. -/
theorem mem_readPath {path : List Text} {x cs : Text} (hx : ∀ c ∈ x, isSlash c = false) {s : Text}
    (hs : s ∈ readPath path (encodePath x) cs) :
    s ∈ path ∨ s = [] ∨ ∃ y, s = encodePath y ∧ y <:+: x ++ cs ∧ ∀ c ∈ y, isSlash c = false := by
  have hadd : ∀ {path : List Text} {x : Text} {last : Bool} {s : Text}, s ∈ addSegment path (encodePath x) last →
      s ∈ path ∨ s = [] ∨ s = encodePath x := by
    intro path x last s hs
    have hdrop : s ∈ path.dropLast → s ∈ path := fun h => (List.dropLast_sublist path).subset h
    have hlast : ∀ {l : List Text} {t : Text}, s ∈ l ++ [t] → s ∈ l ∨ s = t := fun h =>
      (List.mem_append.mp h).imp_right List.mem_singleton.mp
    unfold addSegment at hs
    split at hs
    · split at hs
      · exact (hlast hs).imp hdrop .inl
      · exact .inl (hdrop hs)
    split at hs
    · split at hs
      · exact (hlast hs).imp_right .inl
      · exact .inl hs
    · exact (hlast hs).imp_right .inr
  induction cs generalizing path x with
  | nil =>
      rcases hadd hs with h | h | h
      · exact .inl h
      · exact .inr (.inl h)
      · exact .inr (.inr ⟨x, h, (List.prefix_append x []).isInfix, hx⟩)
  | cons c cs ih =>
      have hhead : s ∈ path ∨ s = [] ∨ s = encodePath x →
          s ∈ path ∨ s = [] ∨ ∃ y, s = encodePath y ∧ y <:+: x ++ c :: cs ∧ ∀ c ∈ y, isSlash c = false :=
        Or.imp_right (Or.imp_right fun h => ⟨x, h, (List.prefix_append x _).isInfix, hx⟩)
      rw [readPath] at hs
      split at hs
      · have hsuffix : cs <:+ x ++ c :: cs := ⟨x ++ [c], by simp⟩
        rcases ih (List.forall_mem_nil _) hs with h | h | ⟨y, h, hy, hplain⟩
        · exact hhead (hadd h)
        · exact .inr (.inl h)
        · exact .inr (.inr ⟨y, h, hy.trans hsuffix.isInfix, hplain⟩)
      next hslash =>
        split at hs
        · exact hhead (hadd hs)
        · have hx' : ∀ d ∈ x ++ [c], isSlash d = false :=
            List.forall_mem_append.mpr ⟨hx, List.forall_mem_singleton.mpr (Bool.eq_false_iff.mpr hslash)⟩
          have hsegment : encodePath x ++ percentEncode inPathSet c = encodePath (x ++ [c]) := by
            rw [encodePath_append, encodePath_cons, show encodePath [] = [] from rfl, List.append_nil]
          rw [hsegment] at hs
          have hmove : x ++ c :: cs = (x ++ [c]) ++ cs := by simp
          rw [hmove]
          exact ih hx' hs

/-! The length of what is read -/

/-- How many bytes a segment stands for, with its slash. -/
def weight (raw : Text) : Nat := (unescape raw).elim 0 List.length + 1

theorem weight_le (x : Text) : weight (encodePath x) ≤ (bytes x).length + 1 ∧
    ('%' ∈ x → weight (encodePath x) < (bytes x).length + 1) := by
  rw [weight, unescape_encodePath]
  cases h : unescape x with
  | none =>
      refine ⟨Nat.succ_le_succ (Nat.zero_le _), fun hmem => ?_⟩
      have hpos := length_bytes_cons '%' []
      cases x with
      | nil => exact absurd hmem List.not_mem_nil
      | cons c cs =>
          have hcons := length_bytes_cons c cs
          simp only [Option.elim_none]
          omega
  | some bs =>
      obtain ⟨hle, hlt⟩ := (unescapes h).length
      exact ⟨Nat.succ_le_succ hle, fun hmem => Nat.succ_lt_succ (hlt hmem)⟩

def totalWeight (raws : List Text) : Nat := (raws.map weight).sum

theorem totalWeight_append (a b : List Text) : totalWeight (a ++ b) = totalWeight a + totalWeight b := by
  simp [totalWeight]

theorem totalWeight_dropLast (raws : List Text) : totalWeight raws.dropLast ≤ totalWeight raws := by
  rcases List.eq_nil_or_concat' raws with rfl | ⟨front, last, rfl⟩
  · exact le_refl _
  · rw [List.dropLast_concat, totalWeight_append]
    omega

theorem weight_addSegment (path : List Text) (x : Text) (last : Bool) :
    totalWeight (addSegment path (encodePath x) last) ≤ totalWeight path + (bytes x).length + 1 ∧
      ('%' ∈ x → totalWeight (addSegment path (encodePath x) last) < totalWeight path + (bytes x).length + 1) := by
  have hdrop := totalWeight_dropLast path
  have hempty : totalWeight [[]] = 1 := rfl
  have hone : totalWeight [encodePath x] = weight (encodePath x) := by simp [totalWeight]
  have hx := weight_le x
  have hpos : '%' ∈ x → 0 < (bytes x).length := by
    intro hmem
    have hlt := hx.2 hmem
    unfold weight at hlt
    omega
  unfold addSegment
  split
  · split
    · rw [totalWeight_append, hempty]
      exact ⟨by omega, fun hmem => by have := hpos hmem; omega⟩
    · exact ⟨by omega, fun hmem => by have := hpos hmem; omega⟩
  split
  · split
    · rw [totalWeight_append, hempty]
      exact ⟨by omega, fun hmem => by have := hpos hmem; omega⟩
    · exact ⟨by omega, fun hmem => by have := hpos hmem; omega⟩
  · rw [totalWeight_append, hone]
    exact ⟨by omega, fun hmem => by have := hx.2 hmem; omega⟩

/-- Nothing that is read is longer than what was written up to the end of the path. -/
theorem weight_readPath (path : List Text) (x cs : Text) :
    totalWeight (readPath path (encodePath x) cs) ≤
        totalWeight path + (bytes (x ++ cs.takeWhile fun c => !endsPath c)).length + 1 ∧
      ('%' ∈ x ++ (cs.takeWhile fun c => !endsPath c) → totalWeight (readPath path (encodePath x) cs) <
        totalWeight path + (bytes (x ++ cs.takeWhile fun c => !endsPath c)).length + 1) := by
  induction cs generalizing path x with
  | nil =>
      rw [List.takeWhile_nil, List.append_nil]
      exact weight_addSegment path x true
  | cons c cs ih =>
      by_cases hslash : isSlash c = true
      · have htake : (c :: cs).takeWhile (fun c => !endsPath c) = c :: cs.takeWhile fun c => !endsPath c := by
          simp only [isSlash, Bool.or_eq_true, decide_eq_true_eq] at hslash
          rcases hslash with rfl | rfl <;> rfl
        have hadd := weight_addSegment path x false
        obtain ⟨hle, hlt⟩ := ih (addSegment path (encodePath x) false) []
        have hc := length_bytes_cons c (cs.takeWhile fun c => !endsPath c)
        rw [readPath, if_pos hslash, htake, bytes_append, List.length_append]
        rw [List.nil_append, show encodePath [] = [] from rfl] at hle hlt
        refine ⟨by omega, fun hmem => ?_⟩
        rcases List.mem_append.mp hmem with hmem | hmem
        · have := hadd.2 hmem
          omega
        · have hnot : '%' ≠ c := by
            rintro rfl
            cases hslash
          have := hlt ((List.mem_cons.mp hmem).resolve_left hnot)
          omega
      · by_cases hends : endsPath c = true
        · have htake : (c :: cs).takeWhile (fun c => !endsPath c) = [] := by simp [hends]
          have hmark : c = '?' ∨ c = '#' := by simpa [endsPath] using hends
          rw [readPath, if_neg hslash, if_pos hmark, htake, List.append_nil]
          exact weight_addSegment path x true
        · have htake : (c :: cs).takeWhile (fun c => !endsPath c) = c :: cs.takeWhile fun c => !endsPath c := by
            simp [hends]
          have hmark : ¬(c = '?' ∨ c = '#') := by simpa [endsPath] using hends
          have hmove : x ++ c :: cs.takeWhile (fun c => !endsPath c) =
              (x ++ [c]) ++ cs.takeWhile fun c => !endsPath c := by simp
          have hsegment : encodePath x ++ percentEncode inPathSet c = encodePath (x ++ [c]) := by
            rw [encodePath_append, encodePath_cons, show encodePath [] = [] from rfl, List.append_nil]
          rw [readPath, if_neg hslash, if_neg hmark, htake, hmove, hsegment]
          exact ih path (x ++ [c])

def isQuiet (c : Char) : Bool := !isSlash c && !endsPath c && !inPathSet c

/-- A segment that is read as it is written. -/
structure Quiet (w : Text) : Prop where
  chars : ∀ c ∈ w, isQuiet c = true
  noSingle : isSingleDot w = false
  noDouble : isDoubleDot w = false

theorem readPath_quiet {c : Char} (h : isQuiet c = true) (path : List Text) (segment cs : Text) :
    readPath path segment (c :: cs) = readPath path (segment ++ [c]) cs := by
  simp only [isQuiet, Bool.and_eq_true, Bool.not_eq_true'] at h
  obtain ⟨⟨hslash, hends⟩, hset⟩ := h
  have hnot : ¬(c = '?' ∨ c = '#') := by simpa [endsPath] using hends
  have hencode : percentEncode inPathSet c = [c] := by rw [percentEncode, hset]; rfl
  rw [readPath, hslash, if_neg Bool.false_ne_true, if_neg hnot, hencode]

theorem readPath_run {w : Text} (h : ∀ c ∈ w, isQuiet c = true) (path : List Text) (segment cs : Text) :
    readPath path segment (w ++ cs) = readPath path (segment ++ w) cs := by
  induction w generalizing segment with
  | nil => rw [List.append_nil, List.nil_append]
  | cons c w ih =>
      obtain ⟨hc, hw⟩ := List.forall_mem_cons.mp h
      rw [List.cons_append, readPath_quiet hc, ih hw, List.append_assoc, List.singleton_append]

theorem Quiet.readPath_last {w : Text} (h : Quiet w) (path : List Text) : readPath path [] w = path ++ [w] := by
  have hrun := readPath_run h.chars path [] []
  rw [List.append_nil, List.nil_append] at hrun
  rw [hrun]
  exact addSegment_plain h.noSingle h.noDouble true

theorem Quiet.readPath_next {w : Text} (h : Quiet w) (path : List Text) (rest : Text) :
    readPath path [] (w ++ '/' :: rest) = readPath (path ++ [w]) [] rest := by
  rw [readPath_run h.chars, List.nil_append, readPath, if_pos (show isSlash '/' = true from rfl),
    addSegment_plain h.noSingle h.noDouble]

theorem readPath_pathText {words : List Text} (h : ∀ w ∈ words, Quiet w) {w : Text} (hw : Quiet w) (path : List Text)
    (rest : Text) : readPath path [] (w ++ (pathText words ++ '/' :: rest)) = readPath (path ++ w :: words) [] rest := by
  induction words generalizing path w with
  | nil => exact hw.readPath_next path rest
  | cons v words ih =>
      obtain ⟨hv, hwords⟩ := List.forall_mem_cons.mp h
      have htext : pathText (v :: words) ++ '/' :: rest = '/' :: (v ++ (pathText words ++ '/' :: rest)) := by
        simp [pathText]
      rw [htext, hw.readPath_next, ih hwords hv, List.append_assoc, List.singleton_append]

/-- A path that is put together from words, with something after them -/
theorem startPath_words {words : List Text} (h : ∀ w ∈ words, Quiet w) (rest : Text) :
    startPath (pathText words ++ '/' :: rest) = readPath words [] rest := by
  cases words with
  | nil => rfl
  | cons w words =>
      obtain ⟨hw, hwords⟩ := List.forall_mem_cons.mp h
      have htext : pathText (w :: words) ++ '/' :: rest = '/' :: (w ++ (pathText words ++ '/' :: rest)) := by
        simp [pathText]
      rw [htext, startPath, if_pos (show isSlash '/' = true from rfl), readPath_pathText hwords hw]
      rfl

theorem startPath_pathText {words : List Text} (hne : words ≠ []) (h : ∀ w ∈ words, Quiet w) :
    startPath (pathText words) = words := by
  obtain ⟨front, last, rfl⟩ := (List.eq_nil_or_concat' words).resolve_left hne
  obtain ⟨hfront, hlast⟩ := List.forall_mem_append.mp h
  have htext : pathText (front ++ [last]) = pathText front ++ '/' :: last := by simp [pathText]
  rw [htext, startPath_words hfront, (hlast last (List.mem_singleton.mpr rfl)).readPath_last]

theorem preprocess_self {t : Text} (hdropped : ∀ c ∈ t, isDropped c = false) (hfirst : ∀ c ∈ t.head?, isEdge c = false)
    (hlast : ∀ c ∈ t.getLast?, isEdge c = false) : preprocess t = t := by
  have hkeep : ∀ {l : Text}, (∀ c ∈ l.head?, isEdge c = false) → l.dropWhile isEdge = l := by
    intro l hl
    cases l with
    | nil => rfl
    | cons c cs => exact List.dropWhile_cons_of_neg (by rw [hl c rfl]; decide)
  have hfilter : t.filter (fun c => !isDropped c) = t :=
    List.filter_eq_self.mpr fun c hc => by rw [hdropped c hc]; rfl
  rw [preprocess, hkeep hfirst, hkeep (by rwa [List.head?_reverse]), List.reverse_reverse, hfilter]

/-- The escapes of a text stand for another text. -/
theorem decodeComponent_iff {t s : Text} : decodeComponent t = some s ↔ unescape t = some (bytes s) := by
  constructor
  · intro h
    obtain ⟨bs, hbs, hs⟩ := Option.bind_eq_some_iff.mp h
    rw [hbs, bytes_of_fromUtf8 (unescapes hbs).lt hs]
  · intro h
    rw [decodeComponent, h, Option.bind_some, fromUtf8_bytes]

/-- What is read as an ordinary segment is no dot segment. -/
theorem not_dots {raw s : Text} (h : decodeComponent raw = some s) (hs : s ≠ ['.'] ∧ s ≠ ['.', '.']) :
    isSingleDot raw = false ∧ isDoubleDot raw = false := by
  have hbytes := decodeComponent_iff.mp h
  have hdot : bytes ['.'] = DotSegments.dot := by decide
  have hdotDot : bytes ['.', '.'] = DotSegments.dotDot := by decide
  constructor
  · rw [Bool.eq_false_iff]
    intro hsingle
    rw [unescape_singleDot hsingle, ← hdot] at hbytes
    exact hs.1 (bytes_inj (Option.some.inj hbytes).symm)
  · rw [Bool.eq_false_iff]
    intro hdouble
    rw [unescape_doubleDot hdouble, ← hdotDot] at hbytes
    exact hs.2 (bytes_inj (Option.some.inj hbytes).symm)

theorem isUnreserved_lt {c : Char} (h : isUnreserved c = true) : c.toNat < 128 := by
  have hval : c.toNat = c.val.toNat := rfl
  have hmarks : ∀ d ∈ ['-', '_', '.', '!', '~', '*', '\x27', '(', ')'], d.toNat < 128 :=
    List.all_iff_forall_prop.mp (by decide)
  simp only [isUnreserved, isLetter, isDigit, Bool.or_eq_true, Bool.and_eq_true, decide_eq_true_eq, Char.le_def,
    UInt32.le_iff_toNat_le] at h
  have hZ : 'Z'.val.toNat = 90 := rfl
  have hz : 'z'.val.toNat = 122 := rfl
  have h9 : '9'.val.toNat = 57 := rfl
  rcases h with (h | h) | h
  · omega
  · omega
  · exact hmarks c h

theorem isQuiet_unreserved {c : Char} (h : isUnreserved c = true) : isQuiet c = true := by
  have hall : ∀ n < 128, isUnreserved (Char.ofNat n) = true → isQuiet (Char.ofNat n) = true := by decide
  have hc := hall c.toNat (isUnreserved_lt h)
  rw [Char.ofNat_toNat] at hc
  exact hc h

theorem isQuiet_component (t : Text) : ∀ c ∈ encodeComponent t, isQuiet c = true := by
  have hdigit : ∀ n < 16, isQuiet (hexDigit n) = true := by decide
  intro c hc
  obtain ⟨d, -, hd⟩ := List.mem_flatMap.mp hc
  unfold percentEncode at hd
  split at hd
  · obtain ⟨b, hb, hmem⟩ := List.mem_flatMap.mp hd
    obtain ⟨byte, -, rfl⟩ := List.mem_map.mp hb
    have hlt : byte.toNat < 256 := byte.toNat_lt
    simp only [percentByte, List.mem_cons, List.not_mem_nil, or_false] at hmem
    rcases hmem with rfl | rfl | rfl
    · decide
    · exact hdigit _ (by omega)
    · exact hdigit _ (Nat.mod_lt _ (by decide))
  · next hset =>
      rw [List.mem_singleton.mp hd]
      exact isQuiet_unreserved (by simpa using hset)

/-- A component that is no dot segment -/
theorem quiet_component {t : Text} (h : t ≠ ['.'] ∧ t ≠ ['.', '.']) : Quiet (encodeComponent t) where
  chars := isQuiet_component t
  noSingle := (not_dots (decode_encode t) h).1
  noDouble := (not_dots (decode_encode t) h).2

theorem isEdge_quiet {c : Char} (h : isQuiet c = true) : isEdge c = false := by
  simp only [isQuiet, inPathSet, Bool.and_eq_true, Bool.not_eq_true', Bool.or_eq_false_iff, decide_eq_false_iff_not] at h
  obtain ⟨-, ⟨hlow, -⟩, hmem⟩ := h
  apply decide_eq_false
  intro hle
  have hspace : c = ' ' := Char.toNat_inj.mp (show c.toNat = 32 by omega)
  exact hmem (hspace ▸ List.mem_cons_self)

theorem preprocess_pathText {words : List Text} (h : ∀ w ∈ words, Quiet w) : preprocess (pathText words) = pathText words := by
  have hedge : ∀ c ∈ pathText words, isEdge c = false := by
    intro c hc
    obtain ⟨w, hw, hmem⟩ := List.mem_flatMap.mp hc
    rcases List.mem_cons.mp hmem with rfl | hmem
    · rfl
    · exact isEdge_quiet ((h w hw).chars c hmem)
  refine preprocess_self (fun c hc => ?_) (fun c hc => hedge c (List.mem_of_mem_head? hc))
    (fun c hc => hedge c (List.mem_of_mem_getLast? hc))
  by_contra hdropped
  simp only [isDropped, Bool.not_eq_false, Bool.or_eq_true, decide_eq_true_eq] at hdropped
  rcases hdropped with (rfl | rfl) | rfl <;> exact absurd (hedge _ hc) (by decide)

end Corebase.UrlReference
