import Corebase.TokenTests

namespace Corebase.SqlBrackets

open JsText SqlLex SqlGuard TokenTests

def isParen (t : Token) : Bool := t.isPunct '(' || t.isPunct ')'

/-- Tokens whose parentheses match. -/
inductive Balanced : List Token → Prop
  | nil : Balanced []
  | token {t : Token} {ts : List Token} : isParen t = false → Balanced ts → Balanced (t :: ts)
  | group {l r : Token} {inner ts : List Token} : l.isPunct '(' = true → Balanced inner →
      r.isPunct ')' = true → Balanced ts → Balanced (l :: (inner ++ r :: ts))

theorem depthAfter_token {t : Token} (depth : Nat) (h : isParen t = false) : depthAfter depth t = depth := by
  simp only [isParen, Bool.or_eq_false_iff] at h
  simp [depthAfter, h.1, h.2]

theorem depthAfter_open {t : Token} (depth : Nat) (h : t.isPunct '(' = true) :
    depthAfter depth t = depth + 1 := by
  simp [depthAfter, h]

theorem depthAfter_close {t : Token} (depth : Nat) (h : t.isPunct ')' = true) :
    depthAfter (depth + 1) t = depth := by
  simp [depthAfter, h, isPunct_ne h (show ')' ≠ '(' by decide)]

theorem isParen_name {t : Token} (h : isName t = true) : isParen t = false := by
  rw [isParen, isName_isPunct h, isName_isPunct h]
  rfl

theorem isParen_isWord {t : Token} {w : String} (h : t.isWord w = true) : isParen t = false :=
  isParen_name (isWord_isName h)

/-- A punctuation character that is no parenthesis. -/
theorem isParen_punct {t : Token} {c : Char} (h : t.isPunct c = true) (hl : c ≠ '(') (hr : c ≠ ')') :
    isParen t = false := by
  rw [isParen, isPunct_ne h hl, isPunct_ne h hr]
  rfl

variable {p : Token → Bool}

theorem topLevel_group {l r : Token} {inner : List Token} (depth : Nat) (rest : List Token)
    (hl : l.isPunct '(' = true) (hr : r.isPunct ')' = true)
    (hi : ∀ depth rest, topLevel p depth (inner ++ rest) = (topLevel p depth inner || topLevel p depth rest)) :
    topLevel p depth (l :: (inner ++ r :: rest)) =
      ((depth = 0 && p l) || (topLevel p (depth + 1) inner || topLevel p depth rest)) := by
  rw [topLevel, depthAfter_open depth hl, hi, topLevel, depthAfter_close depth hr]
  simp

theorem topLevel_append {ts : List Token} (h : Balanced ts) (depth : Nat) (rest : List Token) :
    topLevel p depth (ts ++ rest) = (topLevel p depth ts || topLevel p depth rest) := by
  induction h generalizing depth rest with
  | nil => rfl
  | token ht _ ih => simp only [List.cons_append, topLevel, depthAfter_token _ ht, ih, Bool.or_assoc]
  | group hl _ hr _ ihi ih =>
      rw [List.cons_append, List.append_assoc, List.cons_append, topLevel_group _ _ hl hr ihi,
        topLevel_group _ _ hl hr ihi, ih]
      simp only [Bool.or_assoc]

/-- A token inside parentheses is not one outside them. -/
theorem topLevel_inside {ts : List Token} (h : Balanced ts) (depth : Nat) :
    topLevel p (depth + 1) ts = false := by
  induction h generalizing depth with
  | nil => rfl
  | token ht _ ih =>
      rw [topLevel, depthAfter_token _ ht, ih]
      simp
  | group hl hi hr _ ihi ih =>
      rw [topLevel_group _ _ hl hr fun _ _ => topLevel_append hi _ _, ihi, ih]
      simp

theorem topLevel_skip {l r : Token} {inner : List Token} (rest : List Token) (hl : l.isPunct '(' = true)
    (hi : Balanced inner) (hr : r.isPunct ')' = true) (hp : p l = false) :
    topLevel p 0 (l :: (inner ++ r :: rest)) = topLevel p 0 rest := by
  rw [topLevel_group _ _ hl hr fun _ _ => topLevel_append hi _ _, topLevel_inside hi, hp]
  simp

/-- The commas of tokens whose parentheses match, and then those of the tokens after them. -/
theorem afterCommas_append {ts : List Token} (h : Balanced ts) (depth : Nat) (rest : List Token) :
    afterCommas depth (ts ++ rest) = (afterCommas depth ts).map (· ++ rest) ++ afterCommas depth rest := by
  induction h generalizing depth rest with
  | nil => rfl
  | token ht _ ih =>
      rw [List.cons_append, afterCommas, afterCommas, depthAfter_token _ ht, ih]
      split <;> simp
  | @group l r inner ts hl _ hr _ ihi ih =>
      have hgroup : ∀ rest, afterCommas depth (l :: (inner ++ r :: rest)) =
          (afterCommas (depth + 1) inner).map (· ++ r :: rest) ++ afterCommas depth rest := by
        intro rest
        rw [afterCommas, depthAfter_open _ hl, ihi, afterCommas, depthAfter_close _ hr,
          isPunct_ne hl (by decide), isPunct_ne hr (by decide)]
        simp
      rw [List.cons_append, List.append_assoc, List.cons_append, hgroup, hgroup, ih]
      simp [Function.comp_def]

theorem afterCommas_none {ts : List Token} (h : ∀ t ∈ ts, t.isPunct ',' = false) (depth : Nat) :
    afterCommas depth ts = [] := by
  induction ts generalizing depth with
  | nil => rfl
  | cons t ts ih => simp [afterCommas, h t (by simp), ih fun u hu => h u (by simp [hu])]

theorem Balanced.append {us vs : List Token} (hu : Balanced us) (hv : Balanced vs) : Balanced (us ++ vs) := by
  induction hu with
  | nil => exact hv
  | token ht _ ih => exact .token ht ih
  | @group l r inner ts hl hi hr _ _ ih =>
      rw [List.cons_append, List.append_assoc, List.cons_append]
      exact .group hl hi hr ih

theorem foldl_balanced {ts : List Token} (h : Balanced ts) (depth : Nat) : ts.foldl depthAfter depth = depth := by
  induction h generalizing depth with
  | nil => rfl
  | token ht _ ih => rw [List.foldl_cons, depthAfter_token _ ht, ih]
  | group hl _ hr _ ihi ih =>
      rw [List.foldl_cons, List.foldl_append, List.foldl_cons, depthAfter_open _ hl, ihi, depthAfter_close _ hr, ih]

theorem Balanced.of_plain {ts : List Token} (h : ∀ t ∈ ts, isParen t = false) : Balanced ts := by
  induction ts with
  | nil => exact .nil
  | cons t ts ih => exact .token (h t (by simp)) (ih fun u hu => h u (by simp [hu]))

theorem Balanced.tail {t : Token} {ts : List Token} (h : Balanced (t :: ts)) (ht : isParen t = false) :
    Balanced ts := by
  cases h with
  | token _ h => exact h
  | group hl _ _ _ => simp [isParen, hl] at ht

theorem Balanced.dropWhile {ts : List Token} {ws : List String} (h : Balanced ts) :
    Balanced (ts.dropWhile (isOneOf ws)) := by
  induction ts with
  | nil => exact h
  | cons t ts ih =>
      by_cases ht : isOneOf ws t = true
      · rw [List.dropWhile_cons_of_pos ht]
        exact ih (h.tail (isParen_name (isOneOf_isName ht)))
      · rw [List.dropWhile_cons_of_neg ht]
        exact h

theorem Balanced.dottedParts (s : Statement) {ts : List Token} (h : Balanced ts) :
    Balanced (SqlGuard.dottedParts s ts).2 := by
  fun_induction SqlGuard.dottedParts s ts with
  | case1 d t ts hdt parts rest heq ih =>
      rw [Bool.and_eq_true] at hdt
      rw [heq] at ih
      exact ih ((h.tail (isParen_punct hdt.1 (by decide) (by decide))).tail (isParen_name hdt.2))
  | case2 d t ts hdt => exact h
  | case3 ts hts => exact h

theorem Balanced.dottedName (s : Statement) {ts : List Token} {got : Text × List Token} (h : Balanced ts)
    (hgot : SqlGuard.dottedName s ts = some got) : Balanced got.2 := by
  cases ts with
  | nil => cases hgot
  | cons t ts =>
      rw [SqlGuard.dottedName] at hgot
      split at hgot
      · rename_i ht
        cases hgot
        exact (h.tail (isParen_name ht)).dottedParts s
      · cases hgot

end Corebase.SqlBrackets
