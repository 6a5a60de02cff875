import Mathlib.Data.List.Infix

namespace Corebase.LikePattern

inductive Token
  | exact (c : Char)
  | one
  | many
deriving DecidableEq

/-- The tokens of a pattern whose escape character is a backslash, which may not stand at its end. -/
def tokens : List Char → Option (List Token)
  | [] => some []
  | c :: rest =>
      if c = '\\' then
        match rest with
        | [] => none
        | d :: rest => (tokens rest).map (.exact d :: ·)
      else if c = '%' then (tokens rest).map (.many :: ·)
      else if c = '_' then (tokens rest).map (.one :: ·)
      else (tokens rest).map (.exact c :: ·)

def like : List Token → List Char → Bool
  | [], text => text.isEmpty
  | .exact _ :: _, [] => false
  | .exact c :: ts, x :: text => c = x && like ts text
  | .one :: _, [] => false
  | .one :: ts, _ :: text => like ts text
  | .many :: ts, text => text.tails.any (like ts)

def special (c : Char) : Bool := c = '\\' || c = '%' || c = '_'

/-- The pattern of a text in which nothing is special. -/
def escape (text : List Char) : List Char := text.flatMap fun c => if special c then ['\\', c] else [c]

theorem tokens_escaped (d : Char) (rest : List Char) :
    tokens ('\\' :: d :: rest) = (tokens rest).map (.exact d :: ·) := rfl

/-- A character that does not escape the next one. -/
theorem tokens_unescaped {c : Char} (h : c ≠ '\\') (rest : List Char) :
    tokens (c :: rest) = if c = '%' then (tokens rest).map (.many :: ·)
      else if c = '_' then (tokens rest).map (.one :: ·) else (tokens rest).map (.exact c :: ·) := by
  rw [tokens.eq_def]
  exact if_neg h

theorem tokens_many (rest : List Char) : tokens ('%' :: rest) = (tokens rest).map (.many :: ·) := by
  rw [tokens_unescaped (by decide), if_pos rfl]

theorem tokens_one (rest : List Char) : tokens ('_' :: rest) = (tokens rest).map (.one :: ·) := by
  rw [tokens_unescaped (by decide), if_neg (by decide), if_pos rfl]

theorem tokens_exact {c : Char} (h : special c = false) (rest : List Char) :
    tokens (c :: rest) = (tokens rest).map (.exact c :: ·) := by
  simp only [special, Bool.or_eq_false_iff, decide_eq_false_iff_not] at h
  rw [tokens_unescaped h.1.1, if_neg h.1.2, if_neg h.2]

theorem tokens_plain {text : List Char} (h : ∀ c ∈ text, special c = false) (rest : List Char) :
    tokens (text ++ rest) = (tokens rest).map (text.map .exact ++ ·) := by
  induction text with
  | nil => simp
  | cons c text ih =>
      obtain ⟨hc, htext⟩ := List.forall_mem_cons.mp h
      rw [List.cons_append, tokens_exact hc, ih htext, Option.map_map]
      rfl

theorem tokens_escape (text rest : List Char) :
    tokens (escape text ++ rest) = (tokens rest).map (text.map .exact ++ ·) := by
  induction text with
  | nil => simp [escape]
  | cons c text ih =>
      have hstep : tokens (escape (c :: text) ++ rest) = (tokens (escape text ++ rest)).map (.exact c :: ·) := by
        rw [escape, List.flatMap_cons, List.append_assoc]
        by_cases hc : special c = true
        · rw [if_pos hc]
          exact tokens_escaped c _
        · rw [if_neg hc]
          exact tokens_exact (Bool.not_eq_true _ ▸ hc) _
      rw [hstep, ih, Option.map_map]
      rfl

theorem like_many (text : List Char) : like [.many] text = true := by
  rw [like, List.any_eq_true]
  exact ⟨[], (List.mem_tails _ _).mpr (List.nil_suffix), rfl⟩

/-- What is matched by a text and anything after it. -/
theorem like_start (start text : List Char) :
    like (start.map .exact ++ [.many]) text = true ↔ start <+: text := by
  induction start generalizing text with
  | nil => simp [like_many]
  | cons c start ih =>
      cases text with
      | nil => simp [like]
      | cons x text => simp [like, ih, List.cons_prefix_cons]

theorem like_escape (start text : List Char) :
    (tokens (escape start ++ ['%'])).any (like · text) = true ↔ start <+: text := by
  have htokens : tokens (escape start ++ ['%']) = some (start.map .exact ++ [.many]) := tokens_escape start ['%']
  rw [htokens]
  exact like_start start text

theorem like_plain {start : List Char} (h : ∀ c ∈ start, special c = false) (text : List Char) :
    (tokens (start ++ ['%'])).any (like · text) = true ↔ start <+: text := by
  have htokens : tokens (start ++ ['%']) = some (start.map .exact ++ [.many]) := tokens_plain h ['%']
  rw [htokens]
  exact like_start start text

/-! A pattern that is closed by a percent sign -/

theorem tokens_closed (text : List Char) : ∃ ts, ts ≠ [] ∧ tokens (text ++ ['%']) = some ts := by
  induction text using tokens.induct with
  | case1 => exact ⟨[.many], List.cons_ne_nil _ _, rfl⟩
  | case2 => exact ⟨[.exact '%'], List.cons_ne_nil _ _, rfl⟩
  | case3 d rest ih =>
      obtain ⟨ts, -, hts⟩ := ih
      exact ⟨.exact d :: ts, List.cons_ne_nil _ _, by rw [List.cons_append, List.cons_append, tokens_escaped, hts]; rfl⟩
  | case4 rest _ ih =>
      obtain ⟨ts, -, hts⟩ := ih
      exact ⟨.many :: ts, List.cons_ne_nil _ _, by rw [List.cons_append, tokens_many, hts]; rfl⟩
  | case5 rest _ _ ih =>
      obtain ⟨ts, -, hts⟩ := ih
      exact ⟨.one :: ts, List.cons_ne_nil _ _, by rw [List.cons_append, tokens_one, hts]; rfl⟩
  | case6 c rest h₁ h₂ h₃ ih =>
      obtain ⟨ts, -, hts⟩ := ih
      refine ⟨.exact c :: ts, List.cons_ne_nil _ _, ?_⟩
      rw [List.cons_append, tokens_exact (by simp [special, h₁, h₂, h₃]), hts]
      rfl

/-- The shortest text that is matched, with an `x` for a character that is left open. -/
def shortest : List Token → List Char
  | [] => []
  | .exact c :: ts => c :: shortest ts
  | .one :: ts => 'x' :: shortest ts
  | .many :: ts => shortest ts

theorem like_shortest (ts : List Token) : like ts (shortest ts) = true := by
  induction ts with
  | nil => rfl
  | cons t ts ih =>
      cases t with
      | exact c => simpa [like, shortest] using ih
      | one => exact ih
      | many =>
          rw [like, List.any_eq_true]
          exact ⟨_, (List.mem_tails _ _).mpr (List.suffix_refl _), ih⟩

/-- Where the shortest text is empty, everything is matched. -/
theorem like_of_shortest_nil {ts : List Token} (hne : ts ≠ []) (h : shortest ts = []) (text : List Char) :
    like ts text = true := by
  induction ts with
  | nil => exact absurd rfl hne
  | cons t ts ih =>
      cases t with
      | exact c => cases h
      | one => cases h
      | many =>
          rw [like, List.any_eq_true]
          cases ts with
          | nil => exact ⟨[], (List.mem_tails _ _).mpr List.nil_suffix, rfl⟩
          | cons t ts => exact ⟨text, (List.mem_tails _ _).mpr (List.suffix_refl _), ih (List.cons_ne_nil _ _) h⟩

end Corebase.LikePattern
