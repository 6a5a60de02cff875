import Mathlib.Algebra.Ring.Nat
import Mathlib.Data.List.TakeWhile

namespace Corebase.JsText

abbrev Text := List Char

instance : LawfulBEq Text := inferInstance

/-- The characters of the pattern \s, which are also the ones that trim removes. -/
def isSpace (c : Char) : Bool :=
  c ∈ ['\t', '\n', '\x0b', '\x0c', '\r', ' ', '\u00a0', '\u1680', '\u2028', '\u2029', '\u202f',
    '\u205f', '\u3000', '\ufeff'] || ('\u2000' ≤ c && c ≤ '\u200a')

def isLetter (c : Char) : Bool := ('A' ≤ c && c ≤ 'Z') || ('a' ≤ c && c ≤ 'z')

def isDigit (c : Char) : Bool := '0' ≤ c && c ≤ '9'

/-- Every UTF-16 unit of the character is above 127. -/
def isHigh (c : Char) : Bool := 127 < c.toNat

/-- Beyond ASCII only the characters whose upper case is ASCII are spelled out:
the result is only ever compared with ASCII keywords. -/
def upperCase (c : Char) : Text :=
  if c = '\u0131' then ['I']
  else if c = '\u017f' then ['S']
  else if c = '\u00df' then ['S', 'S']
  else if c = '\ufb00' then ['F', 'F']
  else if c = '\ufb01' then ['F', 'I']
  else if c = '\ufb02' then ['F', 'L']
  else if c = '\ufb03' then ['F', 'F', 'I']
  else if c = '\ufb04' then ['F', 'F', 'L']
  else if c = '\ufb05' || c = '\ufb06' then ['S', 'T']
  else [c.toUpper]

def toUpperCase (s : Text) : Text := s.flatMap upperCase

/-- The substring from one index up to another; an index past the end means the end. -/
def slice (s : Text) (start stop : Nat) : Text := (s.take stop).drop start

def trimStart (s : Text) : Text := s.dropWhile isSpace

def trim (s : Text) : Text := (trimStart (trimStart s).reverse).reverse

/-- The index of the first occurrence. -/
def indexOf (pat : Text) : Text → Option Nat
  | [] => if pat = [] then some 0 else none
  | c :: cs => if pat.isPrefixOf (c :: cs) then some 0 else (indexOf pat cs).map (· + 1)

def join (sep : Text) : List Text → Text
  | [] => []
  | [s] => s
  | s :: t :: ss => s ++ sep ++ join sep (t :: ss)

/-- The length of a string in UTF-16 units. -/
def length (s : Text) : Nat := (s.map fun c => if c.toNat < 0x10000 then 1 else 2).sum

/-- The elements of a Set built from the list, in insertion order. -/
def distinct : List Text → List Text
  | [] => []
  | s :: ss => s :: (distinct ss).filter (· ≠ s)

theorem take_takeWhile (p : Char → Bool) (cs : Text) : cs.take (cs.takeWhile p).length = cs.takeWhile p :=
  (List.prefix_iff_eq_take.mp (List.takeWhile_prefix p)).symm

theorem drop_takeWhile (p : Char → Bool) (cs : Text) : cs.drop (cs.takeWhile p).length = cs.dropWhile p := by
  have h : (cs.takeWhile p ++ cs.dropWhile p).drop (cs.takeWhile p).length = cs.dropWhile p :=
    List.drop_left
  rwa [List.takeWhile_append_dropWhile] at h

theorem takeWhile_stop {p : Char → Bool} {w b : Text} (hw : ∀ c ∈ w, p c = true)
    (h : ∀ c, b.head? = some c → p c = false) :
    (w ++ b).takeWhile p = w ∧ (w ++ b).dropWhile p = b := by
  rw [List.takeWhile_append_of_pos hw, List.dropWhile_append_of_pos hw]
  cases b with
  | nil => simp
  | cons c cs => simp [h c rfl]

theorem cons_of_head {cs : Text} {c : Char} (h : cs.head? = some c) : ∃ ds, cs = c :: ds := by
  cases cs with
  | nil => cases h
  | cons d ds => exact ⟨ds, by rw [Option.some.inj h]⟩

theorem head_dropWhile {p : Char → Bool} {cs : Text} {c : Char} (h : (cs.dropWhile p).head? = some c) :
    p c = false := by
  induction cs with
  | nil => cases h
  | cons d ds ih =>
      by_cases hd : p d = true
      · rw [List.dropWhile_cons_of_pos hd] at h
        exact ih h
      · rw [List.dropWhile_cons_of_neg hd] at h
        obtain rfl : d = c := Option.some.inj h
        simpa using hd

theorem digit_plain {n : Nat} {c : Char} (h : c ∈ Nat.toDigits 10 n) : isDigit c = true := by
  have hd := Nat.isDigit_of_mem_toDigits (by decide) (by decide) h
  simp only [Char.isDigit, ge_iff_le, Bool.and_eq_true, decide_eq_true_eq] at hd
  simp only [isDigit, Bool.and_eq_true, decide_eq_true_eq]
  exact hd

end Corebase.JsText
