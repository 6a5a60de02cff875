import Corebase.GuardClasses

namespace Corebase.GuardTokens

open JsText SqlLex ServerScan GuardClasses

/-- The semicolons outside all parentheses, by their index. -/
def semicolonsFrom (depth i : Nat) : Text → List ServerScan.Class → List Nat
  | c :: cs, k :: ks =>
      if k = .code ∧ c = '(' then semicolonsFrom (depth + 1) (i + 1) cs ks
      else if k = .code ∧ c = ')' then semicolonsFrom (depth - 1) (i + 1) cs ks
      else if k = .code ∧ c = ';' ∧ depth = 0 then i :: semicolonsFrom depth (i + 1) cs ks
      else semicolonsFrom depth (i + 1) cs ks
  | _, _ => []

/-- The semicolons at which a scan with these classes ends a statement. -/
def semicolons (sql : Text) (ks : List ServerScan.Class) : List Nat := semicolonsFrom 0 0 sql ks

/-- The semicolon tokens at which split ends a statement. -/
def cuts : Nat → List Token → List Nat
  | _, [] => []
  | depth, t :: ts =>
      if t.isPunct ';' ∧ depth = 0 then t.start :: cuts depth ts else cuts (depthAfter depth t) ts

theorem semicolonsFrom_mono {ks ks' : List ServerScan.Class} (h : ks <+: ks') (depth i : Nat) (cs : Text) :
    semicolonsFrom depth i cs ks ⊆ semicolonsFrom depth i cs ks' := by
  induction cs generalizing ks ks' depth i with
  | nil => simp [semicolonsFrom]
  | cons c cs ih =>
      cases ks with
      | nil => simp [semicolonsFrom]
      | cons k ks =>
          obtain ⟨rest, rfl⟩ := h
          have ih' := fun depth i => ih (List.prefix_append ks rest) depth i
          rw [List.cons_append, semicolonsFrom, semicolonsFrom]
          split
          · exact ih' _ _
          split
          · exact ih' _ _
          split
          · exact List.cons_subset_cons _ (ih' _ _)
          · exact ih' _ _

/-- Text that holds no parenthesis and no semicolon of the code. -/
theorem semicolonsFrom_skip (depth i : Nat) (k : ServerScan.Class) (pre rest : Text) (ks : List ServerScan.Class)
    (h : k = .code → ∀ c ∈ pre, c ≠ '(' ∧ c ≠ ')' ∧ c ≠ ';') :
    semicolonsFrom depth i (pre ++ rest) (paint k pre ++ ks) =
      semicolonsFrom depth (i + pre.length) rest ks := by
  induction pre generalizing i with
  | nil => rfl
  | cons c pre ih =>
      have hc := fun hk => h hk c (by simp)
      have ih := ih (i + 1) fun hk d hd => h hk d (by simp [hd])
      change semicolonsFrom depth i (c :: (pre ++ rest)) (k :: (paint k pre ++ ks)) = _
      rw [semicolonsFrom, if_neg fun hk => (hc hk.1).1 hk.2, if_neg fun hk => (hc hk.1).2.1 hk.2,
        if_neg fun hk => (hc hk.1).2.2 hk.2.1, ih, List.length_cons]
      congr 1
      omega

theorem semicolonsFrom_take (depth i : Nat) (k : ServerScan.Class) (n : Nat) (cs : Text) (ks : List ServerScan.Class)
    (h : k = .code → ∀ c ∈ cs.take n, c ≠ '(' ∧ c ≠ ')' ∧ c ≠ ';') :
    semicolonsFrom depth i cs (paint k (cs.take n) ++ ks) =
      semicolonsFrom depth (i + (cs.take n).length) (cs.drop n) ks := by
  have hs := semicolonsFrom_skip depth i k (cs.take n) (cs.drop n) ks h
  rwa [List.take_append_drop] at hs

def isCutChar (c : Char) : Bool := c = '(' || c = ')' || c = ';'

theorem cutChar_word {c : Char} (h : isWordChar c = true) : isCutChar c = false := by
  rw [Bool.eq_false_iff]
  intro hc
  simp only [isCutChar, Bool.or_eq_true, decide_eq_true_eq] at hc
  rcases hc with (rfl | rfl) | rfl <;> revert h <;> decide

theorem cutChar_number {c : Char} (h : isNumberChar c = true) : isCutChar c = false := by
  rw [Bool.eq_false_iff]
  intro hc
  simp only [isCutChar, Bool.or_eq_true, decide_eq_true_eq] at hc
  rcases hc with (rfl | rfl) | rfl <;> revert h <;> decide

/-- A token that is no string and no quoted name is one character or holds none that cuts. -/
theorem lexeme_code {c : Char} {cs : Text} {k : TokenKind} {n : Nat}
    (h : lexeme (c :: cs) = (.token k, n)) (hs : k ≠ .string) (hi : k ≠ .ident) :
    k = .punct ∧ n = 1 ∨ (k = .word ∨ k = .number) ∧ ∀ d ∈ (c :: cs).take n, isCutChar d = false := by
  simp only [lexeme] at h
  split at h
  · cases h
  split at h
  · cases h
  split at h
  · cases h
  split at h
  · cases h; exact absurd rfl hs
  split at h
  · cases h; exact absurd rfl hs
  split at h
  · cases h; exact absurd rfl hs
  split at h
  · cases h; exact absurd rfl hi
  split at h
  next hd =>
    cases h
    refine .inr ⟨.inr rfl, ?_⟩
    rw [Nat.add_comm, List.take_succ_cons, take_takeWhile]
    intro d hmem
    rcases List.mem_cons.mp hmem with rfl | hmem
    · exact cutChar_number (by simp [isNumberChar, hd])
    · exact cutChar_number (List.mem_takeWhile_imp hmem)
  split at h
  next hw =>
    cases h
    refine .inr ⟨.inl rfl, ?_⟩
    rw [take_takeWhile]
    exact fun d hmem => cutChar_word (List.mem_takeWhile_imp hmem)
  · cases h
    exact .inl ⟨rfl, rfl⟩

theorem cuts_other {t : Token} (depth : Nat) (ts : List Token) (h : t.kind ≠ .punct) :
    cuts depth (t :: ts) = cuts depth ts := by
  simp [cuts, depthAfter, Token.isPunct, h]

/-- The index after a token counts characters, except past the end of the input. -/
theorem drop_nil_of_width {n : Nat} {cs : Text} (h : (cs.take n).length ≠ n) : cs.drop n = [] := by
  rw [List.length_take] at h
  exact List.drop_of_length_le (by omega)

theorem noCut {pre : Text} (h : ∀ d ∈ pre, isCutChar d = false) :
    ∀ d ∈ pre, d ≠ '(' ∧ d ≠ ')' ∧ d ≠ ';' := by
  intro d hd
  have hc := h d hd
  simp only [isCutChar, Bool.or_eq_false_iff, decide_eq_false_iff_not] at hc
  exact ⟨hc.1.1, hc.1.2, hc.2⟩

theorem semicolonsFrom_punct (depth i : Nat) (c : Char) (cs : Text) (ks : List ServerScan.Class) (ts : List Token)
    (h : ∀ depth, semicolonsFrom depth (i + 1) cs ks = cuts depth ts) :
    semicolonsFrom depth i (c :: cs) (.code :: ks) = cuts depth (⟨.punct, [c], i, i + 1⟩ :: ts) := by
  simp only [semicolonsFrom, cuts, depthAfter, Token.isPunct, true_and, decide_true, Bool.true_and,
    decide_eq_true_eq, List.cons.injEq, and_true, h]
  by_cases hl : c = '('
  · subst hl
    simp
  by_cases hr : c = ')'
  · subst hr
    simp
  by_cases hs : c = ';' ∧ depth = 0
  · obtain ⟨rfl, rfl⟩ := hs
    simp
  · simp [hl, hr, hs]

/-- The guard splits at the semicolons that it reads as code outside parentheses. -/
theorem semicolonsFrom_guard (fuel depth i : Nat) (cs : Text) (h : cs.length ≤ fuel) :
    semicolonsFrom depth i cs (guardClasses cs) = cuts depth (tokensFrom i (pieces cs)) := by
  induction fuel generalizing depth i cs with
  | zero =>
      obtain rfl : cs = [] := List.length_eq_zero_iff.mp (by omega)
      rfl
  | succ fuel ih =>
      cases cs with
      | nil => rfl
      | cons c cs =>
          cases hx : lexeme (c :: cs) with
          | mk x n =>
              have hpos : 0 < n := by
                have hp := lexeme_pos c cs
                rwa [hx] at hp
              have hrest : ∀ depth, semicolonsFrom depth (i + ((c :: cs).take n).length) ((c :: cs).drop n)
                  (guardClasses ((c :: cs).drop n)) = cuts depth (tokensFrom (i + n) (pieces ((c :: cs).drop n))) := by
                intro depth
                by_cases hn : ((c :: cs).take n).length = n
                · rw [hn]
                  apply ih
                  simp only [List.length_drop, List.length_cons] at h ⊢
                  omega
                · rw [drop_nil_of_width hn]
                  rfl
              rw [guard_step c cs hx, pieces_cons, hx]
              cases x with
              | blank => rw [semicolonsFrom_take _ _ _ _ _ _ (by simp [lexemeClass])]; exact hrest depth
              | comment => rw [semicolonsFrom_take _ _ _ _ _ _ (by simp [lexemeClass])]; exact hrest depth
              | token k =>
                  cases k with
                  | string =>
                      rw [semicolonsFrom_take _ _ _ _ _ _ (by simp [lexemeClass])]
                      exact (hrest depth).trans (cuts_other depth _ (by simp)).symm
                  | ident =>
                      rw [semicolonsFrom_take _ _ _ _ _ _ (by simp [lexemeClass])]
                      exact (hrest depth).trans (cuts_other depth _ (by simp)).symm
                  | word =>
                      rcases lexeme_code hx (by simp) (by simp) with ⟨hk, -⟩ | ⟨-, hcs⟩
                      · cases hk
                      rw [semicolonsFrom_take _ _ _ _ _ _ fun _ => noCut hcs]
                      exact (hrest depth).trans (cuts_other depth _ (by simp)).symm
                  | number =>
                      rcases lexeme_code hx (by simp) (by simp) with ⟨hk, -⟩ | ⟨-, hcs⟩
                      · cases hk
                      rw [semicolonsFrom_take _ _ _ _ _ _ fun _ => noCut hcs]
                      exact (hrest depth).trans (cuts_other depth _ (by simp)).symm
                  | punct =>
                      obtain rfl : n = 1 := by
                        rcases lexeme_code hx (by simp) (by simp) with ⟨-, hn⟩ | ⟨hk | hk, -⟩
                        · exact hn
                        · cases hk
                        · cases hk
                      exact semicolonsFrom_punct depth i c _ _ _ hrest

theorem getElem_paint {k : ServerScan.Class} {pre : Text} {ks : List ServerScan.Class} {j : Nat} (h : j < pre.length) :
    (paint k pre ++ ks)[j]? = some k := by
  rw [paint, List.getElem?_append_left (by simpa using h)]
  simp [h]

theorem getElem_paint_rest {k : ServerScan.Class} {pre : Text} {ks : List ServerScan.Class} {j : Nat} (h : pre.length ≤ j) :
    (paint k pre ++ ks)[j]? = ks[j - pre.length]? := by
  rw [paint, List.getElem?_append_right (by simpa using h), List.length_map]

/-- A token that is neither a string nor a quoted name. -/
def isPlain (t : Token) : Bool := t.kind ≠ .string && t.kind ≠ .ident

theorem tokensFrom_piece {i n : Nat} {x : Lexeme} {s : Text} {ps : List Piece}
    (h : lexemeClass x s = .code) : ∃ t ∈ tokensFrom i (⟨x, n, s⟩ :: ps),
      t.start = i ∧ t.stop = i + n ∧ isPlain t = true := by
  cases x with
  | blank => cases h
  | comment => cases h
  | token k =>
      cases k with
      | string => cases h
      | ident => cases h
      | word => exact ⟨_, List.mem_cons_self, rfl, rfl, by simp [isPlain]⟩
      | punct => exact ⟨_, List.mem_cons_self, rfl, rfl, by simp [isPlain]⟩
      | number => exact ⟨_, List.mem_cons_self, rfl, rfl, by simp [isPlain]⟩

theorem mem_tokensFrom {t : Token} {i n : Nat} {x : Lexeme} {s : Text} {ps : List Piece}
    (h : t ∈ tokensFrom (i + n) ps) : t ∈ tokensFrom i (⟨x, n, s⟩ :: ps) := by
  cases x with
  | blank => exact h
  | comment => exact h
  | token k => cases k <;> exact List.mem_cons_of_mem _ h

/-- What the guard reads as code is part of a token that is neither a string nor a name. -/
theorem code_token (fuel i j : Nat) (cs : Text) (h : cs.length ≤ fuel)
    (hj : (guardClasses cs)[j]? = some .code) :
    ∃ t ∈ tokensFrom i (pieces cs), t.start ≤ i + j ∧ i + j < t.stop ∧ isPlain t = true := by
  induction fuel generalizing i j cs with
  | zero =>
      obtain rfl : cs = [] := List.length_eq_zero_iff.mp (by omega)
      cases hj
  | succ fuel ih =>
      cases cs with
      | nil => cases hj
      | cons c cs =>
          cases hx : lexeme (c :: cs) with
          | mk x n =>
              have hpos : 0 < n := by
                have hp := lexeme_pos c cs
                rwa [hx] at hp
              rw [guard_step c cs hx] at hj
              rw [pieces_cons, hx]
              by_cases hlt : j < ((c :: cs).take n).length
              · rw [getElem_paint hlt] at hj
                obtain ⟨t, ht, hstart, hstop, hplain⟩ := tokensFrom_piece (Option.some.inj hj)
                rw [List.length_take] at hlt
                exact ⟨t, ht, by omega, by omega, hplain⟩
              · rw [getElem_paint_rest (by omega)] at hj
                have hn : ((c :: cs).take n).length = n := by
                  by_contra hn
                  rw [drop_nil_of_width hn] at hj
                  cases hj
                rw [hn] at hlt hj
                have hlen : ((c :: cs).drop n).length ≤ fuel := by
                  simp only [List.length_drop, List.length_cons] at h ⊢
                  omega
                obtain ⟨t, ht, hstart, hstop, hplain⟩ := ih (i + n) (j - n) _ hlen hj
                exact ⟨t, mem_tokensFrom ht, by omega, by omega, hplain⟩

theorem piecesFrom_width (fuel : Nat) (cs : Text) : ∀ p ∈ piecesFrom fuel cs, 0 < p.width := by
  induction fuel generalizing cs with
  | zero => cases cs <;> simp [piecesFrom]
  | succ fuel ih =>
      cases cs with
      | nil => simp [piecesFrom]
      | cons c cs =>
          intro p hp
          rcases List.mem_cons.mp hp with rfl | hp
          · exact lexeme_pos c cs
          · exact ih _ p hp

theorem tokensFrom_start (i : Nat) (ps : List Piece) : ∀ t ∈ tokensFrom i ps, i ≤ t.start := by
  fun_induction tokensFrom i ps with
  | case1 => simp
  | case2 i n s ps ih =>
      intro t ht
      rcases List.mem_cons.mp ht with rfl | ht
      · exact Nat.le_refl _
      · exact Nat.le_trans (Nat.le_add_right i n) (ih t ht)
  | case3 i k n s ps hk ih =>
      intro t ht
      rcases List.mem_cons.mp ht with rfl | ht
      · exact Nat.le_refl _
      · exact Nat.le_trans (Nat.le_add_right i n) (ih t ht)
  | case4 i x n s ps hw hk ih => exact fun t ht => Nat.le_trans (Nat.le_add_right i n) (ih t ht)

theorem tokensFrom_sorted (i : Nat) (ps : List Piece) (h : ∀ p ∈ ps, 0 < p.width) :
    (tokensFrom i ps).Pairwise fun t u => t.start < u.start := by
  fun_induction tokensFrom i ps with
  | case1 => exact .nil
  | case2 i n s ps ih =>
      have hn : 0 < n := h _ List.mem_cons_self
      refine .cons ?_ (ih fun p hp => h p (by simp [hp]))
      intro t ht
      have hs := tokensFrom_start (i + n) ps t ht
      simp only
      omega
  | case3 i k n s ps hk ih =>
      have hn : 0 < n := h _ List.mem_cons_self
      refine .cons ?_ (ih fun p hp => h p (by simp [hp]))
      intro t ht
      have hs := tokensFrom_start (i + n) ps t ht
      simp only
      omega
  | case4 i x n s ps hw hk ih => exact ih fun p hp => h p (by simp [hp])

theorem lex_sorted (sql : Text) : (lex sql).Pairwise fun t u => t.start < u.start :=
  tokensFrom_sorted 0 _ (piecesFrom_width _ sql)

theorem push_start {sql : Text} {current : List Token} {stop : Nat} {s : Statement}
    (h : s ∈ push sql current stop) : (∃ t ∈ current, s.start = t.start) ∧ s.stop = stop := by
  cases current with
  | nil => cases h
  | cons t ts =>
      simp only [push] at h
      split at h
      · cases h
      · obtain rfl := List.mem_singleton.mp h
        exact ⟨⟨t, List.mem_cons_self, rfl⟩, rfl⟩

theorem splitFrom_start {sql : Text} {depth : Nat} {current ts : List Token} {s : Statement}
    (h : s ∈ splitFrom sql depth current ts) : ∃ t ∈ current ++ ts, s.start = t.start := by
  induction ts generalizing depth current with
  | nil =>
      rw [List.append_nil]
      exact (push_start h).1
  | cons t ts ih =>
      rw [splitFrom] at h
      split at h
      · rcases List.mem_append.mp h with h | h
        · obtain ⟨u, hu, hs⟩ := (push_start h).1
          exact ⟨u, List.mem_append_left _ hu, hs⟩
        · obtain ⟨u, hu, hs⟩ := ih h
          exact ⟨u, by simpa using .inr (.inr hu), hs⟩
      · obtain ⟨u, hu, hs⟩ := ih h
        exact ⟨u, by simpa [or_assoc] using hu, hs⟩

theorem mem_cuts {i depth : Nat} {ts : List Token} (h : i ∈ cuts depth ts) : ∃ t ∈ ts, i = t.start := by
  induction ts generalizing depth with
  | nil => cases h
  | cons t ts ih =>
      rw [cuts] at h
      split at h
      · rcases List.mem_cons.mp h with rfl | h
        · exact ⟨t, List.mem_cons_self, rfl⟩
        · obtain ⟨u, hu, hi⟩ := ih h
          exact ⟨u, List.mem_cons_of_mem _ hu, hi⟩
      · obtain ⟨u, hu, hi⟩ := ih h
        exact ⟨u, List.mem_cons_of_mem _ hu, hi⟩

/-- No statement extends over a semicolon at which split cuts. -/
theorem splitFrom_cuts {sql : Text} {depth i : Nat} {current ts : List Token} {s : Statement}
    (hts : ts.Pairwise fun t u => t.start < u.start) (hi : i ∈ cuts depth ts)
    (hs : s ∈ splitFrom sql depth current ts) : i < s.start ∨ s.stop ≤ i := by
  induction ts generalizing depth current with
  | nil => cases hi
  | cons t ts ih =>
      obtain ⟨hhead, htail⟩ := List.pairwise_cons.mp hts
      rw [cuts] at hi
      rw [splitFrom] at hs
      split at hi
      next hcut =>
        rw [if_pos hcut] at hs
        rcases List.mem_cons.mp hi with rfl | hi
        · rcases List.mem_append.mp hs with hs | hs
          · exact .inr (Nat.le_of_eq (push_start hs).2)
          · obtain ⟨u, hu, hs⟩ := splitFrom_start hs
            exact .inl (hs ▸ hhead u hu)
        · rcases List.mem_append.mp hs with hs | hs
          · obtain ⟨u, hu, rfl⟩ := mem_cuts hi
            exact .inr ((push_start hs).2 ▸ Nat.le_of_lt (hhead u hu))
          · exact ih htail hi hs
      next hcut =>
        rw [if_neg hcut] at hs
        exact ih htail hi hs

theorem split_semicolons {sql : Text} {i : Nat} {s : Statement}
    (hi : i ∈ semicolons sql (guardClasses sql)) (hs : s ∈ split sql) : i < s.start ∨ s.stop ≤ i := by
  refine splitFrom_cuts (lex_sorted sql) ?_ hs
  rwa [semicolons, semicolonsFrom_guard _ 0 0 sql (Nat.le_refl _)] at hi

end Corebase.GuardTokens
