import Corebase.LexAgreement

namespace Corebase.LexSteps

open JsText SqlLex GuardClasses

/-- Another text after the same characters, in which a construct that ends within them is not
told from the one before: nothing at all, or one that begins with the same character. -/
def Follows (w w' : Text) : Prop := w' = [] ∨ w'.head? = w.head? ∧ w.head?.all (!isTagChar ·) = true

theorem takeWhile_stable {p : Char → Bool} {cs w w' : Text} (hw : w' = [] ∨ w'.head? = w.head?)
    (h : ((cs ++ w).takeWhile p).length ≤ cs.length) : (cs ++ w').takeWhile p = (cs ++ w).takeWhile p := by
  induction cs with
  | nil =>
      have hnil : w.takeWhile p = [] := List.length_eq_zero_iff.mp (Nat.le_zero.mp h)
      rw [List.nil_append, List.nil_append, hnil]
      rcases hw with rfl | hw
      · rfl
      · cases w' with
        | nil => rfl
        | cons c w' =>
            obtain ⟨ds, rfl⟩ := cons_of_head hw.symm
            by_cases hp : p c = true
            · rw [List.takeWhile_cons_of_pos hp] at hnil
              cases hnil
            · rw [List.takeWhile_cons_of_neg hp]
  | cons c cs ih =>
      by_cases hp : p c = true
      · rw [List.cons_append, List.takeWhile_cons_of_pos hp, List.length_cons, List.length_cons] at h
        rw [List.cons_append, List.cons_append, List.takeWhile_cons_of_pos hp, List.takeWhile_cons_of_pos hp,
          ih (by omega)]
      · rw [List.cons_append, List.cons_append, List.takeWhile_cons_of_neg hp, List.takeWhile_cons_of_neg hp]

theorem blockComment_other {depth : Nat} {c : Char} {cs : Text} (ho : c = '/' → cs.head? ≠ some '*')
    (hc : c = '*' → cs.head? ≠ some '/') : blockComment depth (c :: cs) = 1 + blockComment depth cs := by
  rw [blockComment]
  · rintro ds rfl rfl
    exact ho rfl rfl
  · rintro ds rfl rfl
    exact hc rfl rfl

theorem head_append {cs w w' : Text} (hw : w' = [] ∨ w'.head? = w.head?) {c : Char}
    (h : (cs ++ w).head? ≠ some c) : (cs ++ w').head? ≠ some c := by
  cases cs with
  | nil =>
      rcases hw with rfl | hw
      · simp
      · rwa [List.nil_append, hw]
  | cons d cs => exact h

theorem blockComment_stable {depth : Nat} {cs w w' : Text} (hw : w' = [] ∨ w'.head? = w.head?)
    (h : blockComment depth (cs ++ w) ≤ cs.length) :
    blockComment depth (cs ++ w') = blockComment depth (cs ++ w) := by
  generalize hv : cs ++ w = v at h ⊢
  fun_induction blockComment depth v generalizing cs with
  | case1 depth v ih =>
      rcases cs with _ | ⟨c, _ | ⟨d, cs⟩⟩
      · simp at h
      · simp only [List.length_cons, List.length_nil] at h
        omega
      · simp only [List.cons_append, List.cons.injEq] at hv
        obtain ⟨rfl, rfl, hv⟩ := hv
        simp only [List.length_cons] at h
        rw [List.cons_append, List.cons_append, blockComment, ih hv (by omega)]
  | case2 depth v hd =>
      rcases cs with _ | ⟨c, _ | ⟨d, cs⟩⟩
      · simp at h
      · simp at h
      · simp only [List.cons_append, List.cons.injEq] at hv
        obtain ⟨rfl, rfl, hv⟩ := hv
        rw [List.cons_append, List.cons_append, blockComment, if_pos hd]
  | case3 depth v hd ih =>
      rcases cs with _ | ⟨c, _ | ⟨d, cs⟩⟩
      · simp at h
      · simp only [List.length_cons, List.length_nil] at h
        omega
      · simp only [List.cons_append, List.cons.injEq] at hv
        obtain ⟨rfl, rfl, hv⟩ := hv
        simp only [List.length_cons] at h
        rw [List.cons_append, List.cons_append, blockComment, if_neg hd, ih hv (by omega)]
  | case4 depth c v ho hc ih =>
      cases cs with
      | nil =>
          simp only [List.length_nil] at h
          omega
      | cons d cs =>
          simp only [List.cons_append, List.cons.injEq] at hv
          obtain ⟨rfl, hv⟩ := hv
          rw [List.length_cons] at h
          have hhead : ∀ e : Char, v.head? ≠ some e → (cs ++ w').head? ≠ some e :=
            fun e he => head_append hw (hv ▸ he)
          rw [List.cons_append, blockComment_other, ih hv (by omega)]
          · rintro rfl
            apply hhead
            intro hd
            obtain ⟨ds, rfl⟩ := cons_of_head hd
            exact ho ds rfl rfl
          · rintro rfl
            apply hhead
            intro hd
            obtain ⟨ds, rfl⟩ := cons_of_head hd
            exact hc ds rfl rfl
  | case5 depth =>
      obtain ⟨rfl, rfl⟩ := List.append_eq_nil_iff.mp hv
      rcases hw with rfl | hw
      · rfl
      · rw [List.head?_eq_none_iff.mp hw]
        rfl

/-- A comment that ends after some characters takes them all when they stand alone. -/
theorem blockComment_cut {depth : Nat} {cs w : Text} (h : cs.length < blockComment depth (cs ++ w)) :
    blockComment depth cs = cs.length := by
  fun_induction blockComment depth cs with
  | case1 depth cs ih =>
      simp only [List.cons_append, blockComment, List.length_cons] at h ⊢
      rw [ih (by omega)]
      omega
  | case2 depth cs hd =>
      simp only [List.cons_append, blockComment, hd, if_true, List.length_cons] at h ⊢
      omega
  | case3 depth cs hd ih =>
      simp only [List.cons_append, blockComment, hd, if_false, List.length_cons] at h ⊢
      rw [ih (by omega)]
      omega
  | case4 depth c cs ho hc ih =>
      cases cs with
      | nil => simp [blockComment]
      | cons d cs =>
          rw [List.cons_append, blockComment_other] at h
          · rw [ih (by simp only [List.length_cons] at h ⊢; omega), Nat.add_comm]
            rfl
          · rintro rfl he
            obtain rfl : d = '*' := Option.some.inj he
            exact ho cs rfl rfl
          · rintro rfl he
            obtain rfl : d = '/' := Option.some.inj he
            exact hc cs rfl rfl
  | case5 depth => rfl

theorem escapeBody_stable {cs w w' : Text} (hw : w' = [] ∨ w'.head? = w.head?)
    (h : escapeBody (cs ++ w) ≤ cs.length) : escapeBody (cs ++ w') = escapeBody (cs ++ w) := by
  generalize hv : cs ++ w = v at h ⊢
  fun_induction escapeBody v generalizing cs with
  | case1 =>
      obtain ⟨rfl, rfl⟩ := List.append_eq_nil_iff.mp hv
      rcases hw with rfl | hw
      · rfl
      · rw [List.head?_eq_none_iff.mp hw]
        rfl
  | case2 =>
      have hl := congrArg List.length hv
      simp only [List.length_append, List.length_cons, List.length_nil] at hl
      omega
  | case3 c v ih =>
      rcases cs with _ | ⟨d, _ | ⟨e, cs⟩⟩
      · simp only [List.length_nil] at h
        omega
      · simp only [List.length_cons, List.length_nil] at h
        omega
      · simp only [List.cons_append, List.cons.injEq] at hv
        obtain ⟨rfl, rfl, hv⟩ := hv
        simp only [List.length_cons] at h
        rw [List.cons_append, List.cons_append, escapeBody, ih hv (by omega)]
  | case4 v ih =>
      rcases cs with _ | ⟨d, _ | ⟨e, cs⟩⟩
      · simp only [List.length_nil] at h
        omega
      · simp only [List.length_cons, List.length_nil] at h
        omega
      · simp only [List.cons_append, List.cons.injEq] at hv
        obtain ⟨rfl, rfl, hv⟩ := hv
        simp only [List.length_cons] at h
        rw [List.cons_append, List.cons_append, escapeBody, ih hv (by omega)]
  | case5 v hq =>
      cases cs with
      | nil => cases h
      | cons d cs =>
          simp only [List.cons_append, List.cons.injEq] at hv
          obtain ⟨rfl, hv⟩ := hv
          refine escapeBody_quote (head_append hw ?_)
          rw [hv]
          intro hd
          obtain ⟨ds, rfl⟩ := cons_of_head hd
          exact hq ds rfl
  | case6 c v h1 h2 h3 h4 ih =>
      cases cs with
      | nil =>
          simp only [List.length_nil] at h
          omega
      | cons d cs =>
          simp only [List.cons_append, List.cons.injEq] at hv
          obtain ⟨rfl, hv⟩ := hv
          rw [List.length_cons] at h
          have hb : d ≠ '\\' := by
            rintro rfl
            cases v with
            | nil => exact h1 rfl rfl
            | cons e v => exact h2 e v rfl rfl
          rw [List.cons_append, escapeBody_other hb h4, ih hv (by omega)]

theorem quotedBody_quote {quote : Char} {cs : Text} (h : cs.head? ≠ some quote) :
    quotedBody quote (quote :: cs) = 1 := by
  cases cs with
  | nil => rfl
  | cons d cs =>
      rw [quotedBody, if_pos rfl, if_neg fun hd => h (congrArg some hd)]

theorem quotedBody_other {quote c : Char} {cs : Text} (h : c ≠ quote) :
    quotedBody quote (c :: cs) = 1 + quotedBody quote cs := by
  cases cs with
  | nil => rfl
  | cons d cs => rw [quotedBody, if_neg h]

theorem quotedBody_stable {quote : Char} {cs w w' : Text} (hw : w' = [] ∨ w'.head? = w.head?)
    (h : quotedBody quote (cs ++ w) ≤ cs.length) :
    quotedBody quote (cs ++ w') = quotedBody quote (cs ++ w) := by
  induction hn : cs.length using Nat.strong_induction_on generalizing cs with
  | _ n ih =>
      rcases cs with _ | ⟨c, cs⟩
      · cases w with
        | nil => rw [show w' = [] by simpa using hw]
        | cons d w =>
            by_cases hd : d = quote
            · by_cases he : w.head? = some quote
              · obtain ⟨ds, rfl⟩ := cons_of_head he
                simp [hd, quotedBody] at h
              · rw [List.nil_append, hd, quotedBody_quote he] at h
                cases h
            · rw [List.nil_append, quotedBody_other hd, List.length_nil] at h
              omega
      · by_cases hc : c = quote
        · subst hc
          by_cases he : (cs ++ w).head? = some c
          · cases cs with
            | nil =>
                obtain ⟨ds, rfl⟩ := cons_of_head he
                simp only [List.cons_append, List.nil_append, quotedBody, if_true, List.length_cons,
                  List.length_nil] at h
                omega
            | cons d cs =>
                obtain rfl : d = c := Option.some.inj he
                simp only [List.cons_append, quotedBody, if_true, List.length_cons] at h hn ⊢
                rw [ih cs.length (by omega) (by omega) rfl]
          · rw [List.cons_append, List.cons_append, quotedBody_quote he, quotedBody_quote (head_append hw he)]
        · rw [List.cons_append, quotedBody_other hc, List.length_cons] at h
          rw [List.cons_append, List.cons_append, quotedBody_other hc, quotedBody_other hc,
            ih cs.length (by rw [← hn, List.length_cons]; omega) (by omega) rfl]

theorem indexOf_stable {pat cs w : Text} {i : Nat} (w' : Text) (h : indexOf pat (cs ++ w) = some i)
    (hi : i + pat.length ≤ cs.length) : indexOf pat (cs ++ w') = some i := by
  induction cs generalizing i with
  | nil =>
      obtain rfl : pat = [] := List.length_eq_zero_iff.mp (by simp only [List.length_nil] at hi; omega)
      obtain rfl : i = 0 := by simp only [List.length_nil] at hi; omega
      cases w' with
      | nil => rfl
      | cons c w' => rfl
  | cons c cs ih =>
      rw [List.cons_append, indexOf] at h ⊢
      split at h
      next hp =>
        obtain rfl := Option.some.inj h
        rw [List.isPrefixOf_iff_prefix] at hp
        have hcs : pat <+: c :: cs := List.prefix_of_prefix_length_le hp (List.prefix_append _ _) (by omega)
        exact if_pos (List.isPrefixOf_iff_prefix.mpr (hcs.trans (List.prefix_append (c :: cs) w')))
      next hp =>
        obtain ⟨j, hj, rfl⟩ := Option.map_eq_some_iff.mp h
        rw [List.length_cons] at hi
        have hcs : ¬ pat <+: c :: (cs ++ w') := by
          intro hpre
          apply hp
          have hle : pat.length ≤ (c :: cs).length := by rw [List.length_cons]; omega
          have hcs : pat <+: c :: cs := List.prefix_of_prefix_length_le hpre (List.prefix_append (c :: cs) w') hle
          exact List.isPrefixOf_iff_prefix.mpr (hcs.trans (List.prefix_append (c :: cs) w))
        rw [if_neg fun hb => hcs (List.isPrefixOf_iff_prefix.mp hb), ih hj (by omega)]
        rfl

theorem dollarTag_stable {cs w w' : Text} (hw : Follows w w')
    (h : ∀ delim, dollarTag isTagStart isTagChar ('$' :: (cs ++ w)) = some delim → delim.length ≤ cs.length + 1) :
    dollarTag isTagStart isTagChar ('$' :: (cs ++ w')) = dollarTag isTagStart isTagChar ('$' :: (cs ++ w)) := by
  ext delim
  rw [dollarTag_iff (by decide), dollarTag_iff (by decide)]
  constructor
  · rintro ⟨tag, rest, heq, hall, hstart, rfl⟩
    rcases List.append_eq_append_iff.mp heq with ⟨tag', rfl, htag⟩ | ⟨rest', rfl, hrest⟩
    · rcases hw with rfl | ⟨hhead, hnot⟩
      · simp at htag
      · cases tag' with
        | nil =>
            obtain rfl : w' = '$' :: rest := htag
            obtain ⟨ds, rfl⟩ := cons_of_head hhead.symm
            exact ⟨cs ++ [], ds, by simp, hall, hstart, rfl⟩
        | cons c tag' =>
            subst htag
            rw [← hhead] at hnot
            have hc : isTagChar c = false := by simpa using hnot
            rw [hall c (by simp)] at hc
            cases hc
    · cases rest' with
      | nil =>
          rcases hw with rfl | ⟨hhead, hnot⟩
          · cases hrest
          · obtain rfl : w' = '$' :: rest := hrest.symm
            obtain ⟨ds, rfl⟩ := cons_of_head hhead.symm
            exact ⟨tag, ds, by simp, hall, hstart, rfl⟩
      | cons c rest' =>
          obtain ⟨rfl, rfl⟩ := List.cons.inj hrest
          exact ⟨tag, rest' ++ w, by simp, hall, hstart, rfl⟩
  · rintro ⟨tag, rest, heq, hall, hstart, rfl⟩
    have hlen := h ('$' :: tag ++ ['$']) ((dollarTag_iff (by decide) _ _).mpr ⟨tag, rest, heq, hall, hstart, rfl⟩)
    simp only [List.length_append, List.length_cons, List.length_nil] at hlen
    rcases List.append_eq_append_iff.mp heq with ⟨tag', rfl, htag⟩ | ⟨rest', rfl, hrest⟩
    · simp only [List.length_append] at hlen
      omega
    · cases rest' with
      | nil =>
          simp only [List.length_append, List.length_nil] at hlen
          omega
      | cons c rest' =>
          obtain ⟨rfl, rfl⟩ := List.cons.inj hrest
          exact ⟨tag, rest' ++ w', by simp, hall, hstart, rfl⟩

theorem dollarBody_stable {delim cs w w' : Text} (hw : w' = [] ∨ w'.head? = w.head?) (hd : 0 < delim.length)
    (h : dollarBody delim (cs ++ w) ≤ cs.length) : dollarBody delim (cs ++ w') = dollarBody delim (cs ++ w) := by
  unfold dollarBody at h ⊢
  cases hi : indexOf delim ((cs ++ w).drop delim.length) with
  | some i =>
      simp only [hi] at h
      rw [List.drop_append_of_le_length (by omega)] at hi ⊢
      rw [indexOf_stable w' hi (by rw [List.length_drop]; omega)]
  | none =>
      simp only [hi, List.length_append] at h
      obtain rfl : w = [] := List.length_eq_zero_iff.mp (by omega)
      have hw' : w' = [] := by simpa using hw
      rw [hw', hi]

theorem delim_le_body (delim cs : Text) (h : delim.length ≤ cs.length) : delim.length ≤ dollarBody delim cs := by
  unfold dollarBody
  split
  · omega
  · exact h

theorem dollarTag_le {p q : Char → Bool} {cs delim : Text} (h : dollarTag p q cs = some delim) :
    delim.length ≤ cs.length := by
  unfold dollarTag at h
  split at h
  next cs =>
    simp only [Option.ite_none_right_eq_some, Option.some.injEq] at h
    obtain ⟨⟨hd, -⟩, rfl⟩ := h
    obtain ⟨ds, hds⟩ := cons_of_head hd
    have hlen := congrArg List.length (List.takeWhile_append_dropWhile (p := q) (l := cs))
    rw [hds] at hlen
    simp only [List.length_append, List.length_cons, List.length_nil] at hlen ⊢
    omega
  · cases h

/-- A turn of the loop that stays within some characters is the same before other text. -/
theorem lexeme_stable {cs w : Text} (w' : Text) {x : Lexeme} {n : Nat} (hcs : cs ≠ []) (hw : Follows w w')
    (h : lexeme (cs ++ w) = (x, n)) (hn : n ≤ cs.length) : lexeme (cs ++ w') = (x, n) := by
  have hw' : w' = [] ∨ w'.head? = w.head? := hw.imp id And.left
  obtain ⟨c, cs, rfl⟩ := List.exists_cons_of_ne_nil hcs
  have hhead : ∀ d, (cs ++ w).head? = some d → 2 ≤ n → (cs ++ w').head? = some d := by
    intro d hd h2
    cases cs with
    | nil => simp only [List.length_cons, List.length_nil] at hn; omega
    | cons e cs => exact hd
  rw [List.length_cons] at hn
  simp only [List.cons_append, lexeme] at h ⊢
  by_cases hs : isSpace c = true
  · rwa [if_pos hs] at h ⊢
  rw [if_neg hs] at h ⊢
  have hback : ∀ d, (cs ++ w').head? = some d → (cs ++ w).head? = some d := by
    intro d hd
    by_contra hne
    exact head_append hw' hne hd
  by_cases h1 : c = '-' ∧ (cs ++ w).head? = some '-'
  · rw [if_pos h1] at h
    obtain ⟨rfl, rfl⟩ := Prod.mk.inj h
    have h2 : 2 ≤ lineComment (c :: (cs ++ w)) := by
      obtain ⟨rfl, hd⟩ := h1
      obtain ⟨ds, hds⟩ := cons_of_head hd
      simp [lineComment, hds]
    rw [if_pos ⟨h1.1, hhead _ h1.2 h2⟩]
    have ht : (c :: cs ++ w').takeWhile (· ≠ '\n') = (c :: cs ++ w).takeWhile (· ≠ '\n') := takeWhile_stable hw' hn
    rw [List.cons_append, List.cons_append] at ht
    rw [lineComment, lineComment, ht]
  rw [if_neg h1] at h
  rw [if_neg fun hc => h1 ⟨hc.1, hback _ hc.2⟩]
  by_cases h1 : c = '/' ∧ (cs ++ w).head? = some '*'
  · rw [if_pos h1] at h
    obtain ⟨rfl, rfl⟩ := Prod.mk.inj h
    have h2 : 2 ≤ blockComment 0 (c :: (cs ++ w)) := by
      obtain ⟨rfl, hd⟩ := h1
      obtain ⟨ds, hds⟩ := cons_of_head hd
      simp [blockComment, hds]
    rw [if_pos ⟨h1.1, hhead _ h1.2 h2⟩]
    have ht : blockComment 0 (c :: cs ++ w') = blockComment 0 (c :: cs ++ w) := blockComment_stable hw' hn
    rw [List.cons_append, List.cons_append] at ht
    rw [ht]
  rw [if_neg h1] at h
  rw [if_neg fun hc => h1 ⟨hc.1, hback _ hc.2⟩]
  by_cases hdollar : c = '$'
  · subst hdollar
    have htag := @dollarTag_stable cs w w' hw
    cases hd : dollarTag isTagStart isTagChar ('$' :: (cs ++ w)) with
    | some delim =>
        simp only [hd] at h
        obtain ⟨rfl, rfl⟩ := Prod.mk.inj h
        have hle := delim_le_body delim ('$' :: (cs ++ w)) (dollarTag_le hd)
        rw [htag fun d hd' => (by rw [hd] at hd'; cases hd'; omega), hd]
        have ht : dollarBody delim ('$' :: cs ++ w') = dollarBody delim ('$' :: cs ++ w) :=
          dollarBody_stable hw' (dollarTag_pos hd) hn
        rw [List.cons_append, List.cons_append] at ht
        simp only [ht]
    | none =>
        have hword : isWordStart '$' = false := by decide
        rw [htag fun d hd' => (by rw [hd] at hd'; cases hd'), hd]
        simpa [hd, isDigit, hword] using h
  rw [dollarTag_none _ hdollar] at h ⊢
  simp only at h ⊢
  by_cases h1 : (c = 'E' ∨ c = 'e') ∧ (cs ++ w).head? = some '\x27'
  · rw [if_pos h1] at h
    obtain ⟨rfl, rfl⟩ := Prod.mk.inj h
    have ht := hhead _ h1.2 (by omega)
    rw [if_pos ⟨h1.1, ht⟩]
    cases cs with
    | nil => simp only [List.length_nil] at hn; omega
    | cons d cs =>
        rw [List.cons_append, List.tail_cons, List.length_cons] at hn
        rw [List.cons_append, List.cons_append, List.tail_cons, List.tail_cons,
          escapeBody_stable hw' (by omega)]
  rw [if_neg h1] at h
  rw [if_neg fun hc => h1 ⟨hc.1, hback _ hc.2⟩]
  by_cases h1 : c = '\x27'
  · rw [if_pos h1] at h ⊢
    obtain ⟨rfl, rfl⟩ := Prod.mk.inj h
    rw [quotedBody_stable hw' (by omega)]
  rw [if_neg h1] at h ⊢
  by_cases h1 : c = '"'
  · rw [if_pos h1] at h ⊢
    obtain ⟨rfl, rfl⟩ := Prod.mk.inj h
    rw [quotedBody_stable hw' (by omega)]
  rw [if_neg h1] at h ⊢
  by_cases h1 : isDigit c = true
  · rw [if_pos h1] at h ⊢
    obtain ⟨rfl, rfl⟩ := Prod.mk.inj h
    rw [takeWhile_stable hw' (by omega)]
  rw [if_neg h1] at h ⊢
  by_cases h1 : isWordStart c = true
  · rw [if_pos h1] at h ⊢
    obtain ⟨rfl, rfl⟩ := Prod.mk.inj h
    have ht : (c :: cs ++ w').takeWhile isWordChar = (c :: cs ++ w).takeWhile isWordChar := takeWhile_stable hw' hn
    rw [List.cons_append, List.cons_append] at ht
    rw [ht]
  rwa [if_neg h1] at h ⊢

theorem takeWhile_cut {p : Char → Bool} {cs w : Text} (h : cs.length < ((cs ++ w).takeWhile p).length) :
    cs.takeWhile p = cs := by
  induction cs with
  | nil => rfl
  | cons c cs ih =>
      by_cases hp : p c = true
      · rw [List.cons_append, List.takeWhile_cons_of_pos hp, List.length_cons, List.length_cons] at h
        rw [List.takeWhile_cons_of_pos hp, ih (by omega)]
      · rw [List.cons_append, List.takeWhile_cons_of_neg hp] at h
        simp at h

theorem lexeme_comment {c : Char} {cs : Text} {n : Nat} (h : lexeme (c :: cs) = (.comment, n)) :
    c = '-' ∧ cs.head? = some '-' ∧ n = lineComment (c :: cs) ∨
      c = '/' ∧ cs.head? = some '*' ∧ n = blockComment 0 (c :: cs) := by
  simp only [lexeme] at h
  split at h
  · cases h
  split at h
  next h1 =>
    cases h
    exact .inl ⟨h1.1, h1.2, rfl⟩
  split at h
  next h1 =>
    cases h
    exact .inr ⟨h1.1, h1.2, rfl⟩
  split at h
  · cases h
  split at h
  · cases h
  split at h
  · cases h
  split at h
  · cases h
  split at h
  · cases h
  split at h <;> cases h

/-- A comment that does not end within some characters is all of them when they stand alone. -/
theorem lexeme_cut {c : Char} {cs w : Text} {n : Nat}
    (hw : w.head? ≠ some '-' ∧ w.head? ≠ some '*')
    (h : lexeme (c :: cs ++ w) = (.comment, n)) (hn : (c :: cs).length < n) :
    lexeme (c :: cs) = (.comment, (c :: cs).length) := by
  rw [List.cons_append] at h
  have hhead : ∀ d, w.head? ≠ some d → (cs ++ w).head? = some d → cs.head? = some d := by
    intro d hd
    cases cs with
    | nil => exact fun h => absurd h hd
    | cons e cs => exact id
  rcases lexeme_comment h with ⟨rfl, hd, rfl⟩ | ⟨rfl, hd, rfl⟩
  · have hs : isSpace '-' = false := by decide
    have hall : ('-' :: cs).takeWhile (· ≠ '\n') = '-' :: cs := takeWhile_cut hn
    rw [lexeme, if_neg (by rw [hs]; decide), if_pos ⟨rfl, hhead _ hw.1 hd⟩, lineComment, hall]
  · have hs : isSpace '/' = false := by decide
    have hall : blockComment 0 ('/' :: cs) = ('/' :: cs).length := blockComment_cut hn
    rw [lexeme, if_neg (by rw [hs]; decide), if_neg (fun h => absurd h.1 (by decide)),
      if_pos ⟨rfl, hhead _ hw.2 hd⟩, hall]

/-- The tokens of a text that begins at an index. -/
def lexFrom (i : Nat) (cs : Text) : List Token := tokensFrom i (pieces cs)

theorem tokensFrom_cons (i : Nat) (p : Piece) (ps : List Piece) :
    tokensFrom i (p :: ps) = tokensFrom i [p] ++ tokensFrom (i + p.width) ps := by
  obtain ⟨x, n, s⟩ := p
  cases x with
  | blank => rfl
  | comment => rfl
  | token k => cases k <;> rfl

theorem lexFrom_cons {c : Char} {cs : Text} {x : Lexeme} {n : Nat} (i : Nat) (h : lexeme (c :: cs) = (x, n)) :
    lexFrom i (c :: cs) = tokensFrom i [⟨x, n, (c :: cs).take n⟩] ++ lexFrom (i + n) ((c :: cs).drop n) := by
  rw [lexFrom, pieces_cons, tokensFrom_cons, h]
  rfl

theorem mem_single {i n : Nat} {x : Lexeme} {s : Text} {t : Token} (h : t ∈ tokensFrom i [⟨x, n, s⟩]) :
    t.start = i ∧ t.stop = i + n := by
  cases x with
  | blank => cases h
  | comment => cases h
  | token k =>
      cases k <;>
        · obtain rfl := List.mem_singleton.mp h
          exact ⟨rfl, rfl⟩

theorem single_token {i n : Nat} {x : Lexeme} {s : Text} : (∃ t, tokensFrom i [⟨x, n, s⟩] = [t]) ∨
    tokensFrom i [⟨x, n, s⟩] = [] ∧ (x = .blank ∨ x = .comment) := by
  cases x with
  | blank => exact .inr ⟨rfl, .inl rfl⟩
  | comment => exact .inr ⟨rfl, .inr rfl⟩
  | token k => cases k <;> exact .inl ⟨_, rfl⟩

theorem lexeme_blank {c : Char} {cs : Text} {n : Nat} (h : lexeme (c :: cs) = (.blank, n)) :
    isSpace c = true ∧ n = 1 := by
  simp only [lexeme] at h
  split at h
  next hspace =>
    cases h
    exact ⟨hspace, rfl⟩
  split at h
  · cases h
  split at h
  · cases h
  split at h
  · cases h
  split at h
  · cases h
  split at h
  · cases h
  split at h
  · cases h
  split at h
  · cases h
  split at h <;> cases h

/-- A token begins in the text and ends after it begins. -/
theorem mem_lexFrom {i : Nat} {cs : Text} {t : Token} (h : t ∈ lexFrom i cs) :
    i ≤ t.start ∧ t.start < t.stop ∧ t.start < i + cs.length := by
  induction hn : cs.length using Nat.strong_induction_on generalizing i cs with
  | _ n ih =>
      cases cs with
      | nil => cases h
      | cons c cs =>
          cases hx : lexeme (c :: cs) with
          | mk x m =>
              have hpos := lexeme_pos c cs
              rw [hx] at hpos
              rw [lexFrom_cons i hx] at h
              rw [List.length_cons] at hn
              rcases List.mem_append.mp h with h | h
              · obtain ⟨hstart, hstop⟩ := mem_single h
                omega
              · have hlen : ((c :: cs).drop m).length = n - m := by
                  rw [List.length_drop, List.length_cons, hn]
                have hlt : n - m < n := by omega
                obtain ⟨h1, h2, h3⟩ := ih (n - m) hlt h hlen
                omega

/-- Tokens that end within some characters are those of the characters alone. -/
theorem lexFrom_cut {v w : Text} {i : Nat} {ts rest : List Token} (hw : w.head? ≠ some '-' ∧ w.head? ≠ some '*')
    (h : lexFrom i (v ++ w) = ts ++ rest)
    (hts : ∀ t ∈ ts, min t.stop (i + (v ++ w).length) ≤ i + v.length)
    (hrest : ∀ t ∈ rest, i + v.length ≤ t.start) : lexFrom i v = ts := by
  induction hn : v.length using Nat.strong_induction_on generalizing i v ts with
  | _ n ih =>
      have hout : ∀ t ∈ ts, ¬ i + v.length ≤ t.start := by
        intro t ht hstart
        have hmem := mem_lexFrom (h ▸ List.mem_append_left rest ht)
        have hle := hts t ht
        omega
      cases v with
      | nil =>
          cases ts with
          | nil => rfl
          | cons t ts => exact absurd (mem_lexFrom (h ▸ List.mem_append_left rest List.mem_cons_self)).1 (hout t (by simp))
      | cons c cs =>
          cases hx : lexeme (c :: (cs ++ w)) with
          | mk x m =>
              have hpos := lexeme_pos c (cs ++ w)
              rw [hx] at hpos
              rw [List.cons_append, lexFrom_cons i hx] at h
              obtain ⟨ts', rfl, htail⟩ : ∃ ts', ts = tokensFrom i [⟨x, m, (c :: (cs ++ w)).take m⟩] ++ ts' ∧
                  lexFrom (i + m) ((c :: (cs ++ w)).drop m) = ts' ++ rest := by
                rcases List.append_eq_append_iff.mp h with ⟨ts', hts', htail⟩ | ⟨us, hus, hrest'⟩
                · exact ⟨ts', hts', htail⟩
                · cases us with
                  | nil => exact ⟨[], by simpa using hus.symm, by simpa using hrest'.symm⟩
                  | cons u us =>
                      have hu := (mem_single (hus ▸ List.mem_append_right ts List.mem_cons_self)).1
                      have hlow := hrest u (hrest' ▸ List.mem_cons_self)
                      rw [hu, List.length_cons] at hlow
                      omega
              by_cases hm : m ≤ (c :: cs).length
              · have hst : lexeme (c :: cs) = (x, m) := by
                  have ht := lexeme_stable [] (List.cons_ne_nil c cs) (.inl rfl) hx hm
                  rwa [List.append_nil] at ht
                rw [← List.cons_append, List.take_append_of_le_length hm] at hts ⊢
                rw [← List.cons_append, List.drop_append_of_le_length hm] at htail
                have hlen : ((c :: cs).drop m).length = n - m := by rw [List.length_drop, hn]
                have hsum : i + m + ((c :: cs).drop m).length = i + (c :: cs).length := by omega
                rw [lexFrom_cons i hst, ih (n - m) (by omega) htail ?_ ?_ hlen]
                · intro t ht
                  have hle := hts t (List.mem_append_right _ ht)
                  rw [List.length_append] at hle ⊢
                  omega
                · intro t ht
                  rw [hsum]
                  exact hrest t ht
              · have hnil : ts' = [] := by
                  cases ts' with
                  | nil => rfl
                  | cons t ts' =>
                      have hmem := mem_lexFrom (htail ▸ List.mem_append_left rest List.mem_cons_self)
                      exact absurd (by omega) (hout t (by simp))
                subst hnil
                rcases single_token (i := i) (n := m) (x := x) (s := (c :: (cs ++ w)).take m) with
                  ⟨t, ht⟩ | ⟨ht, rfl | rfl⟩
                · have hstop := (mem_single (ht ▸ List.mem_singleton_self t)).2
                  have hle := hts t (by simp [ht])
                  rw [List.length_append] at hle
                  obtain rfl : w = [] := List.length_eq_zero_iff.mp (by omega)
                  have hend : rest = [] := by
                    cases rest with
                    | nil => rfl
                    | cons u rest =>
                        have hu := mem_lexFrom (htail ▸ List.mem_append_right [] List.mem_cons_self)
                        simp only [List.append_nil, List.length_drop] at hu
                        omega
                  rw [List.append_nil] at hx htail
                  rw [lexFrom_cons i hx, htail]
                  simp [hend]
                · obtain ⟨-, hone⟩ := lexeme_blank hx
                  rw [List.length_cons] at hm
                  omega
                · rw [lexFrom_cons i (lexeme_cut hw hx (by omega)), ht, List.drop_length]
                  rfl

/-- The place where a token begins is one where a turn of the loop begins. -/
theorem lexFrom_suffix {i : Nat} {cs : Text} {us ts : List Token} {t : Token}
    (h : lexFrom i cs = us ++ t :: ts) : ∃ k, t.start = i + k ∧ lexFrom (i + k) (cs.drop k) = t :: ts := by
  induction hn : cs.length using Nat.strong_induction_on generalizing i cs us with
  | _ n ih =>
      cases cs with
      | nil => simp [lexFrom, pieces, piecesFrom, tokensFrom] at h
      | cons c cs =>
          cases hx : lexeme (c :: cs) with
          | mk x m =>
              have hpos := lexeme_pos c cs
              rw [hx] at hpos
              rw [List.length_cons] at hn
              have hlen : ((c :: cs).drop m).length = n - m := by rw [List.length_drop, List.length_cons, hn]
              have hcons := lexFrom_cons i hx
              rw [h] at hcons
              have hnext : ∀ us', lexFrom (i + m) ((c :: cs).drop m) = us' ++ t :: ts →
                  ∃ k, t.start = i + k ∧ lexFrom (i + k) ((c :: cs).drop k) = t :: ts := by
                intro us' hus
                obtain ⟨k, hk, hlex⟩ := ih (n - m) (by omega) hus hlen
                exact ⟨m + k, by omega, by rw [← hlex, List.drop_drop, Nat.add_assoc]⟩
              rcases single_token (i := i) (n := m) (x := x) (s := (c :: cs).take m) with ⟨u, hu⟩ | ⟨hu, -⟩
              · rw [hu] at hcons
                cases us with
                | nil =>
                    obtain ⟨rfl, rfl⟩ := List.cons.inj hcons
                    exact ⟨0, (mem_single (hu ▸ List.mem_singleton_self t)).1, h⟩
                | cons u' us => exact hnext us (List.cons.inj hcons).2.symm
              · rw [hu] at hcons
                exact hnext us hcons.symm

/-- The same token further on in a script. -/
def shift (k : Nat) (t : Token) : Token := { t with start := t.start + k, stop := t.stop + k }

theorem tokensFrom_shift (k i : Nat) (ps : List Piece) : tokensFrom (i + k) ps = (tokensFrom i ps).map (shift k) := by
  fun_induction tokensFrom i ps with
  | case1 => rfl
  | case2 i n s ps ih => simp only [tokensFrom, List.map_cons, shift, Nat.add_right_comm _ k n, ih]
  | case3 i k' n s ps hk ih =>
      rw [tokensFrom, Nat.add_right_comm, ih, List.map_cons, shift]
      exact hk
  | case4 i x n s ps hw hk ih =>
      rw [tokensFrom, Nat.add_right_comm, ih]
      · exact hw
      · exact hk

theorem lexFrom_shift (k : Nat) (cs : Text) : lexFrom k cs = (lex cs).map (shift k) := by
  have h := tokensFrom_shift k 0 (pieces cs)
  rwa [Nat.zero_add] at h

end Corebase.LexSteps
