import Corebase.LexSteps

namespace Corebase.LexShape

open JsText SqlLex GuardClasses GuardTokens LexSteps

/-! The texts that are not tokens -/

/-- A block comment after its opening, from one depth to another; it ends where no comment is open. -/
inductive Inside : Nat → Text → Nat → Prop
  | stop (depth : Nat) : Inside (depth + 1) [] (depth + 1)
  | last : Inside 1 ['*', '/'] 0
  | opened {depth rest : Nat} {cs : Text} : Inside (depth + 1) cs rest → Inside depth ('/' :: '*' :: cs) rest
  | closed {depth rest : Nat} {cs : Text} : Inside (depth + 1) cs rest →
      Inside (depth + 2) ('*' :: '/' :: cs) rest
  | other {depth rest : Nat} {c : Char} {cs : Text} : ¬ (c = '/' ∧ cs.head? = some '*') →
      ¬ (c = '*' ∧ cs.head? = some '/') → Inside depth cs rest → Inside depth (c :: cs) rest

/-- A comment and the text that follows it. -/
inductive Comment : Text → Text → Prop
  | line {body after : Text} : '\n' ∉ body → (after = [] ∨ after.head? = some '\n') →
      Comment ('-' :: '-' :: body) after
  | block {depth : Nat} {body after : Text} : Inside 1 body depth → (depth = 0 ∨ after = []) →
      Comment ('/' :: '*' :: body) after

/-- A text at whose end stands a backslash that none escapes. -/
inductive Dangling : Text → Prop
  | last : Dangling ['\\']
  | escaped {c : Char} {cs : Text} : Dangling cs → Dangling ('\\' :: c :: cs)
  | other {c : Char} {cs : Text} : c ≠ '\\' → Dangling cs → Dangling (c :: cs)

/-! What the tokens of a text are to it -/

/-- A blank, or a character of a comment that no token touches. -/
inductive Skipped (sql : Text) (i : Nat) : Prop
  | blank (c : Char) : sql[i]? = some c → isSpace c = true → Skipped sql i
  | comment (before text after : Text) : sql = before ++ (text ++ after) → Comment text after →
      before.length ≤ i → i < before.length + text.length →
      (∀ t ∈ lex sql, t.stop ≤ before.length ∨ before.length + text.length ≤ t.start) → Skipped sql i

structure Shape (sql : Text) : Prop where
  /-- More turns than there are characters are never taken. -/
  ends : ∀ fuel, sql.length ≤ fuel → piecesFrom fuel sql = pieces sql
  moves : ∀ p ∈ pieces sql, 0 < p.width
  covers : (pieces sql).flatMap Piece.text = sql
  nonempty : ∀ t ∈ lex sql, t.start < t.stop ∧ t.start < sql.length
  apart : (lex sql).Pairwise fun t u => t.stop ≤ u.start
  outside : ∀ i < sql.length, (∀ t ∈ lex sql, ¬ (t.start ≤ i ∧ i < t.stop)) → Skipped sql i

structure Sliced (sql : Text) : Prop extends Shape sql where
  inside : ∀ t ∈ lex sql, t.stop ≤ sql.length
  verbatim : ∀ t ∈ lex sql, t.value = slice sql t.start t.stop

/-- An escape string that the input ends in, after a backslash with nothing to escape. -/
def CutShort (sql : Text) (t : Token) : Prop :=
  t.kind = .string ∧ ∃ c body, (c = 'E' ∨ c = 'e') ∧ Dangling body ∧ sql.drop t.start = c :: '\x27' :: body

structure Spelled (sql : Text) : Prop extends Shape sql where
  inside : ∀ t ∈ lex sql, t.stop ≤ sql.length ∨ CutShort sql t
  spelled : ∀ t ∈ lex sql, t.value =
    if t.kind = .word then toUpperCase (slice sql t.start t.stop) else slice sql t.start t.stop

/-! How far one turn moves -/

theorem escapeBody_over {cs : Text} (h : cs.length < escapeBody cs) : Dangling cs := by
  fun_induction escapeBody cs with
  | case1 => exact absurd h (Nat.lt_irrefl _)
  | case2 => exact .last
  | case3 c cs ih =>
      rw [List.length_cons, List.length_cons] at h
      exact .escaped (ih (by omega))
  | case4 cs ih =>
      rw [List.length_cons, List.length_cons] at h
      exact .other (by decide) (.other (by decide) (ih (by omega)))
  | case5 cs hne =>
      rw [List.length_cons] at h
      omega
  | case6 c cs hlast hescape hpair hquote ih =>
      rw [List.length_cons] at h
      refine .other ?_ (ih (by omega))
      rintro rfl
      cases cs with
      | nil => exact hlast rfl rfl
      | cons d cs => exact hescape d cs rfl rfl

theorem indexOf_le {pat cs : Text} {i : Nat} (h : indexOf pat cs = some i) : i + pat.length ≤ cs.length := by
  induction cs generalizing i with
  | nil =>
      rw [indexOf] at h
      split at h
      next hpat =>
        cases h
        rw [hpat]
        exact Nat.le_refl 0
      · cases h
  | cons c cs ih =>
      rw [indexOf] at h
      split at h
      next hpat =>
        cases h
        rw [Nat.zero_add]
        exact (List.isPrefixOf_iff_prefix.mp hpat).length_le
      next =>
        obtain ⟨j, hj, rfl⟩ := Option.map_eq_some_iff.mp h
        have hle := ih hj
        rw [List.length_cons]
        omega

theorem dollarBody_le {delim cs : Text} (h : delim.length ≤ cs.length) : dollarBody delim cs ≤ cs.length := by
  rw [dollarBody]
  cases hclose : indexOf delim (cs.drop delim.length) with
  | none => exact Nat.le_refl _
  | some i =>
      have hle := indexOf_le hclose
      rw [List.length_drop] at hle
      dsimp only
      omega

theorem quotedBody_le (quote : Char) (cs : Text) : quotedBody quote cs ≤ cs.length := by
  fun_induction quotedBody quote cs with
  | case1 => exact Nat.le_refl _
  | case2 => exact Nat.le_refl _
  | case3 cs ih =>
      rw [List.length_cons, List.length_cons]
      omega
  | case4 d cs hne =>
      rw [List.length_cons]
      omega
  | case5 c d cs hne ih =>
      rw [List.length_cons] at ih ⊢
      rw [List.length_cons]
      omega

theorem head_take {cs : Text} {n : Nat} {c : Char} (h : (cs.take n).head? = some c) : ∃ ds, cs = c :: ds := by
  cases cs with
  | nil => simp at h
  | cons d ds =>
      cases n with
      | zero => simp at h
      | succ n =>
          cases h
          exact ⟨ds, rfl⟩

theorem inside_block {depth : Nat} (cs : Text) (hdepth : depth ≠ 0) :
    blockComment depth cs ≤ cs.length ∧ ∃ rest, Inside depth (cs.take (blockComment depth cs)) rest ∧
      (rest = 0 ∨ cs.drop (blockComment depth cs) = []) := by
  obtain ⟨depth, rfl⟩ := Nat.exists_eq_succ_of_ne_zero hdepth
  clear hdepth
  generalize hd : depth.succ = d
  fun_induction blockComment d cs generalizing depth with
  | case1 d cs ih =>
      obtain ⟨hle, rest, hinside, hend⟩ := ih (depth + 1) (by omega)
      rw [Nat.add_comm 2]
      exact ⟨by simpa using hle, rest, .opened hinside, hend⟩
  | case2 d cs hclose =>
      obtain rfl : d = 1 := by omega
      exact ⟨by simp, 0, .last, .inl rfl⟩
  | case3 d cs hclose ih =>
      obtain ⟨hle, rest, hinside, hend⟩ := ih (depth - 1) (by omega)
      obtain ⟨e, rfl⟩ := Nat.exists_eq_add_of_le' (show 2 ≤ d by omega)
      rw [Nat.add_comm 2]
      exact ⟨by simpa using hle, rest, .closed hinside, hend⟩
  | case4 d c cs hopen hclose ih =>
      obtain ⟨hle, rest, hinside, hend⟩ := ih depth hd
      rw [Nat.add_comm 1]
      refine ⟨Nat.succ_le_succ hle, rest, .other ?_ ?_ hinside, hend⟩
      · rintro ⟨hc, hhead⟩
        obtain ⟨ds, hds⟩ := head_take hhead
        exact hopen ds hc hds
      · rintro ⟨hc, hhead⟩
        obtain ⟨ds, hds⟩ := head_take hhead
        exact hclose ds hc hds
  | case5 d =>
      subst hd
      exact ⟨Nat.le_refl 0, depth + 1, .stop depth, .inr rfl⟩

theorem comment_piece {c : Char} {cs : Text} {n : Nat} (h : lexeme (c :: cs) = (.comment, n)) :
    n ≤ (c :: cs).length ∧ Comment ((c :: cs).take n) ((c :: cs).drop n) := by
  rcases lexeme_comment h with ⟨rfl, hhead, rfl⟩ | ⟨rfl, hhead, rfl⟩
  · obtain ⟨cs, rfl⟩ := cons_of_head hhead
    rw [show lineComment ('-' :: '-' :: cs) = (cs.takeWhile (· ≠ '\n')).length + 2 by simp [lineComment]]
    refine ⟨Nat.add_le_add_right (List.takeWhile_prefix _).length_le 2, ?_⟩
    rw [List.take_succ_cons, List.take_succ_cons, List.drop_succ_cons, List.drop_succ_cons]
    refine .line ?_ ?_
    · rw [← List.prefix_iff_eq_take.mp (List.takeWhile_prefix _)]
      intro hmem
      have hne := List.mem_takeWhile_imp hmem
      simp at hne
    · rw [drop_takeWhile]
      cases hrest : cs.dropWhile (· ≠ '\n') with
      | nil => exact .inl rfl
      | cons d ds =>
          have hd := head_dropWhile (congrArg List.head? hrest)
          exact .inr (congrArg some (by simpa using hd))
  · obtain ⟨cs, rfl⟩ := cons_of_head hhead
    obtain ⟨hle, rest, hinside, hend⟩ := inside_block cs Nat.one_ne_zero
    rw [blockComment, Nat.add_comm 2]
    exact ⟨by simpa using hle, .block hinside hend⟩

/-- Only an escape string can move past the end. -/
theorem lexeme_width {c : Char} {cs : Text} {x : Lexeme} {n : Nat} (h : lexeme (c :: cs) = (x, n))
    (hn : (c :: cs).length < n) :
    x = .token .string ∧ (c = 'E' ∨ c = 'e') ∧ ∃ body, cs = '\x27' :: body ∧ Dangling body := by
  have hout : ¬ n ≤ (c :: cs).length := not_le.mpr hn
  by_cases hcomment : x = .comment
  · subst hcomment
    exact absurd (comment_piece h).1 hout
  by_cases hblank : x = .blank
  · subst hblank
    obtain ⟨-, rfl⟩ := lexeme_blank h
    simp at hn
  simp only [lexeme] at h
  split at h
  next => exact absurd (congrArg Prod.fst h).symm hblank
  split at h
  next => exact absurd (congrArg Prod.fst h).symm hcomment
  split at h
  next => exact absurd (congrArg Prod.fst h).symm hcomment
  split at h
  next delim hdelim =>
    cases h
    exact absurd (dollarBody_le (dollarTag_le hdelim)) hout
  split at h
  next hescape =>
    cases h
    obtain ⟨cs, rfl⟩ := cons_of_head hescape.2
    refine ⟨rfl, hescape.1, cs, rfl, escapeBody_over ?_⟩
    rw [List.length_cons, List.length_cons, List.tail_cons] at hn
    omega
  split at h
  next =>
    cases h
    have hle := quotedBody_le '\x27' cs
    rw [List.length_cons] at hn
    omega
  split at h
  next =>
    cases h
    have hle := quotedBody_le '"' cs
    rw [List.length_cons] at hn
    omega
  split at h
  next =>
    cases h
    have hle := (List.takeWhile_prefix (l := cs) isNumberChar).length_le
    rw [List.length_cons] at hn
    omega
  split at h
  next =>
    cases h
    exact absurd (List.takeWhile_prefix (l := c :: cs) isWordChar).length_le hout
  next =>
    cases h
    simp at hn

/-! The turn that moves over an index -/

/-- The tokens before the turn, the one of the turn if there is any, and those after it. -/
theorem lexFrom_at (i : Nat) {cs : Text} {j : Nat} (h : j < cs.length) :
    ∃ pre c ds x n earlier, cs = pre ++ c :: ds ∧ lexeme (c :: ds) = (x, n) ∧
      pre.length ≤ j ∧ j < pre.length + n ∧
      lexFrom i cs = earlier ++ (tokensFrom (i + pre.length) [⟨x, n, (c :: ds).take n⟩] ++
        lexFrom (i + pre.length + n) ((c :: ds).drop n)) ∧ ∀ t ∈ earlier, t.stop ≤ i + pre.length := by
  induction hn : cs.length using Nat.strong_induction_on generalizing i j cs with
  | _ len ih =>
      cases cs with
      | nil => cases h
      | cons c cs =>
          cases hx : lexeme (c :: cs) with
          | mk x n =>
              by_cases hj : j < n
              · exact ⟨[], c, cs, x, n, [], rfl, hx, Nat.zero_le j, by simpa using hj,
                  by simpa using lexFrom_cons i hx, by simp⟩
              · have hpos := lexeme_pos c cs
                rw [hx] at hpos
                dsimp only at hpos
                have hlen : ((c :: cs).drop n).length = len - n := by rw [List.length_drop, hn]
                obtain ⟨pre, d, ds, y, m, earlier, hcs, hy, hle, hlt, htokens, hearlier⟩ :=
                  ih (len - n) (by omega) (i + n) (j := j - n) (by omega) hlen
                have htake : ((c :: cs).take n).length = n := by
                  rw [List.length_take]
                  omega
                have hindex : i + ((c :: cs).take n ++ pre).length = i + n + pre.length := by
                  rw [List.length_append, htake, Nat.add_assoc]
                refine ⟨(c :: cs).take n ++ pre, d, ds, y, m,
                  tokensFrom i [⟨x, n, (c :: cs).take n⟩] ++ earlier, ?_, hy, ?_, ?_, ?_, ?_⟩
                · rw [List.append_assoc, ← hcs, List.take_append_drop]
                · rw [List.length_append, htake]
                  omega
                · rw [List.length_append, htake]
                  omega
                · rw [hindex, lexFrom_cons i hx, htokens, List.append_assoc]
                · intro t ht
                  rw [hindex]
                  rcases List.mem_append.mp ht with ht | ht
                  · rw [(mem_single ht).2]
                    exact Nat.le_add_right _ _
                  · exact hearlier t ht

/-- Every token is that of one turn. -/
theorem lex_token {sql : Text} {t : Token} (h : t ∈ lex sql) :
    ∃ pre c ds x n, sql = pre ++ c :: ds ∧ lexeme (c :: ds) = (x, n) ∧
      t ∈ tokensFrom pre.length [⟨x, n, (c :: ds).take n⟩] := by
  obtain ⟨-, hlt, hend⟩ := mem_lexFrom (i := 0) h
  rw [Nat.zero_add] at hend
  obtain ⟨pre, c, ds, x, n, earlier, hsql, hx, hle, hin, htokens, hearlier⟩ := lexFrom_at 0 hend
  simp only [Nat.zero_add] at htokens hearlier
  change t ∈ lexFrom 0 sql at h
  rw [htokens] at h
  refine ⟨pre, c, ds, x, n, hsql, hx, ?_⟩
  rcases List.mem_append.mp h with h | h
  · have hstop := hearlier t h
    omega
  rcases List.mem_append.mp h with h | h
  · exact h
  · have hstart := (mem_lexFrom h).1
    omega

/-! The whole input -/

theorem texts_piecesFrom {fuel : Nat} {cs : Text} (h : cs.length ≤ fuel) :
    (piecesFrom fuel cs).flatMap Piece.text = cs := by
  induction fuel generalizing cs with
  | zero =>
      obtain rfl := List.length_eq_zero_iff.mp (Nat.le_zero.mp h)
      rfl
  | succ fuel ih =>
      cases cs with
      | nil => rfl
      | cons c cs =>
          have hpos := lexeme_pos c cs
          have hdrop : ((c :: cs).drop (lexeme (c :: cs)).2).length ≤ fuel := by
            rw [List.length_drop]
            omega
          rw [piecesFrom, List.flatMap_cons, ih hdrop, List.take_append_drop]

theorem tokensFrom_apart (i : Nat) (ps : List Piece) :
    (tokensFrom i ps).Pairwise fun t u => t.stop ≤ u.start := by
  induction ps generalizing i with
  | nil => exact .nil
  | cons p ps ih =>
      rw [tokensFrom_cons, List.pairwise_append]
      refine ⟨?_, ih _, fun t ht u hu => ?_⟩
      · rcases single_token (i := i) (n := p.width) (x := p.lexeme) (s := p.text) with
          ⟨t, ht⟩ | ⟨hnone, -⟩
        · rw [ht]
          exact List.pairwise_singleton _ t
        · rw [hnone]
          exact .nil
      · rw [(mem_single ht).2]
        exact tokensFrom_start _ ps u hu

theorem skipped_outside {sql : Text} {i : Nat} (hi : i < sql.length)
    (hout : ∀ t ∈ lex sql, ¬ (t.start ≤ i ∧ i < t.stop)) : Skipped sql i := by
  obtain ⟨before, c, ds, x, n, earlier, hsql, hx, hle, hlt, htokens, hearlier⟩ := lexFrom_at 0 hi
  simp only [Nat.zero_add] at htokens hearlier
  change lex sql = _ at htokens
  cases x with
  | blank =>
      obtain ⟨hspace, rfl⟩ := lexeme_blank hx
      obtain rfl : before.length = i := by omega
      exact .blank c (by rw [hsql, List.getElem?_append_right (Nat.le_refl _), Nat.sub_self]; rfl) hspace
  | comment =>
      obtain ⟨hwidth, hcomment⟩ := comment_piece hx
      have htake : ((c :: ds).take n).length = n := List.length_take_of_le hwidth
      refine .comment before _ _ ?_ hcomment hle (by rwa [htake]) fun t ht => ?_
      · rw [List.take_append_drop, hsql]
      · rw [htokens] at ht
        rw [htake]
        rcases List.mem_append.mp ht with ht | ht
        · exact .inl (hearlier t ht)
        · exact .inr (mem_lexFrom ht).1
  | token k =>
      rcases single_token (i := before.length) (n := n) (x := .token k) (s := (c :: ds).take n) with
        ⟨t, ht⟩ | ⟨-, hnone | hnone⟩
      · obtain ⟨hstart, hstop⟩ := mem_single (ht ▸ List.mem_singleton_self t)
        have hmem : t ∈ lex sql := by
          rw [htokens, ht]
          simp
        exact absurd ⟨hstart.trans_le hle, hlt.trans_eq hstop.symm⟩ (hout t hmem)
      · cases hnone
      · cases hnone

theorem shape (sql : Text) : Shape sql where
  ends fuel h := piecesFrom_fuel _ _ sql h (Nat.le_refl _)
  moves := piecesFrom_width _ sql
  covers := texts_piecesFrom (Nat.le_refl _)
  nonempty t ht := by
    obtain ⟨-, hlt, hend⟩ := mem_lexFrom (i := 0) ht
    exact ⟨hlt, by rwa [Nat.zero_add] at hend⟩
  apart := tokensFrom_apart 0 _
  outside _ := skipped_outside

theorem single_spelled {i n : Nat} {x : Lexeme} {s : Text} {t : Token} (h : t ∈ tokensFrom i [⟨x, n, s⟩]) :
    x = .token t.kind ∧ t.value = if t.kind = .word then toUpperCase s else s := by
  cases x with
  | blank => cases h
  | comment => cases h
  | token k =>
      cases k <;>
        · obtain rfl := List.mem_singleton.mp h
          exact ⟨rfl, rfl⟩

end Corebase.LexShape
