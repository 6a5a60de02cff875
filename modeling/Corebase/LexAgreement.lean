import Corebase.GuardTokens

namespace Corebase.LexAgreement

open JsText SqlLex ServerScan GuardClasses GuardTokens

/-- The guard inside an identifier of the server, still in the run of a number token
(run) or about to start a token: nothing when it reads a character of the identifier
as something else, otherwise whether it leaves the identifier inside a number run. -/
def stray (run : Bool) : Text → Text → Option Bool
  | [], _ => some run
  | c :: cs, after =>
      if run ∧ isNumberChar c then stray true cs after
      else if isSpace c then none
      else if c = '$' then
        if (dollarTag SqlLex.isTagStart isTagChar (c :: (cs ++ after))).isSome then none
        else stray false cs after
      else if (c = 'E' ∨ c = 'e') ∧ cs = [] ∧ after.head? = some '\x27' then none
      else if isDigit c then stray true cs after
      else some false

/-- Does the guard read the token as the server does? If so, whether it is in the run
of a number token after it. -/
def follows (run : Bool) (k : Kind) (text after : Text) : Option Bool :=
  match k with
  | .lineComment => if after.head? = some '\r' then none else some false
  | .dollar delim => if delim.any isHigh then none else some false
  | .continued => none
  | .word => stray run text after
  | .number suffix => some (!suffix)
  | .param => some true
  | .dots => some run
  | _ => some false

def inStepFrom : Nat → Cont → Bool → Text → Bool
  | 0, _, _, _ => true
  | fuel + 1, cont, run, cs =>
      match scan cont cs with
      | none => true
      | some (k, n) =>
          match follows run k (cs.take n) (cs.drop n) with
          | none => false
          | some run' => inStepFrom fuel (cont.after k) run' (cs.drop n)

/-- No token of the server's scan is one that the guard reads otherwise. -/
def inStep (sql : Text) : Bool := inStepFrom sql.length .off false sql

/-- Where stray accepts an identifier of the server, the guard reads all of it as code. -/
theorem guard_stray (run run' : Bool) (w after : Text) (hw : ∀ c ∈ w, isWordChar c = true)
    (hafter : ∀ c, after.head? = some c → isWordChar c = false) (h : stray run w after = some run') :
    guardFrom run (w ++ after) = paint .code w ++ guardFrom run' after := by
  induction w generalizing run with
  | nil =>
      obtain rfl : run = run' := Option.some.inj h
      rfl
  | cons c w ih =>
      have hws : ∀ d ∈ w, isWordChar d = true := fun d hd => hw d (by simp [hd])
      have hc := hw c (by simp)
      rw [stray] at h
      split at h
      next hrun =>
        obtain ⟨rfl, hn⟩ := hrun
        rw [List.cons_append, guardFrom_run _ hn, ih true hws h]
        rfl
      next hrun =>
        have hfresh : guardFrom run (c :: (w ++ after)) = guardClasses (c :: (w ++ after)) := by
          cases run with
          | false => rfl
          | true => exact guardFrom_fresh _ _ (by simpa using hrun)
        split at h
        · cases h
        next hs =>
        split at h
        next hd =>
          subst hd
          split at h
          · cases h
          next ht =>
            rw [List.cons_append, hfresh, guard_dollarSign _ (by simpa using ht)]
            exact congrArg (List.cons _) (ih false hws h)
        next hd =>
        split at h
        · cases h
        next he =>
        split at h
        next hn =>
          rw [List.cons_append, hfresh, guard_digit _ hn, ih true hws h]
          rfl
        next hn =>
          obtain rfl : false = run' := Option.some.inj h
          have hstart := wordStart_of_char hc hd (by simpa using hn)
          have hq : c = 'E' ∨ c = 'e' → (w ++ after).head? ≠ some '\x27' := by
            intro hE hq
            cases w with
            | nil => exact he ⟨hE, rfl, hq⟩
            | cons d w =>
                obtain rfl : d = '\x27' := Option.some.inj hq
                exact absurd (hws '\x27' (by simp)) (by decide)
          have htake := takeWhile_stop hws hafter
          rw [List.cons_append, hfresh, guard_word hstart (by simpa using hs) hq, htake.1, htake.2]
          rfl

/-- Where stray refuses, some character of the identifier is not code for the guard. -/
theorem guard_astray (run : Bool) (w after : Text) (hw : ∀ c ∈ w, isWordChar c = true)
    (h : stray run w after = none) (tail : List ServerScan.Class) :
    ¬ paint .code w ++ tail <+: guardFrom run (w ++ after) := by
  induction w generalizing run with
  | nil => cases h
  | cons c w ih =>
      have hws : ∀ d ∈ w, isWordChar d = true := fun d hd => hw d (by simp [hd])
      rw [stray] at h
      split at h
      next hrun =>
        obtain ⟨rfl, hn⟩ := hrun
        rw [List.cons_append, guardFrom_run _ hn]
        exact fun hp => ih true hws h (List.cons_prefix_cons.mp hp).2
      next hrun =>
        have hfresh : guardFrom run (c :: (w ++ after)) = guardClasses (c :: (w ++ after)) := by
          cases run with
          | false => rfl
          | true => exact guardFrom_fresh _ _ (by simpa using hrun)
        rw [List.cons_append, hfresh]
        split at h
        next hs =>
          rw [guard_blank _ hs]
          exact fun hp => by cases (List.cons_prefix_cons.mp hp).1
        split at h
        next hd =>
          subst hd
          split at h
          next ht =>
            obtain ⟨delim, ht⟩ := Option.isSome_iff_exists.mp ht
            rw [guard_dollar ht]
            exact not_prefix_of_paint (dollarBody_pos _ (dollarTag_pos ht) (by simp)) (by simp)
          next ht =>
            rw [guard_dollarSign _ (by simpa using ht)]
            exact fun hp => ih false hws h (List.cons_prefix_cons.mp hp).2
        split at h
        next he =>
          obtain ⟨hE, rfl, hq⟩ := he
          obtain ⟨d, ds, rfl⟩ := List.exists_cons_of_ne_nil (l := after) (by rintro rfl; cases hq)
          obtain rfl : d = '\x27' := Option.some.inj hq
          rw [List.nil_append, guard_escape _ hE]
          exact not_prefix_of_paint (by omega) (by simp)
        split at h
        next hn =>
          rw [guard_digit _ hn]
          exact fun hp => ih true hws h (List.cons_prefix_cons.mp hp).2
        · cases h

/-- What each kind of token of the server says of the input it is read from. -/
def Reads (cs : Text) (n : Nat) : Kind → Prop
  | .blank | .newline => ∃ c ds, cs = c :: ds ∧ isBlank c = true ∧ n = 1
  | .lineComment => ∃ ds, cs = '-' :: '-' :: ds ∧ n = 2 + (ds.takeWhile (!isNewline ·)).length
  | .blockComment => ∃ ds, cs = '/' :: '*' :: ds ∧ n = 2 + commentRest 1 ds
  | .dollar delim => ∃ ds, cs = '$' :: ds ∧
      dollarTag ServerScan.isTagStart isTagCont cs = some delim ∧ n = dollarBody delim cs
  | .param => ∃ d ds, cs = '$' :: d :: ds ∧ isDigit d = true ∧
      dollarTag ServerScan.isTagStart isTagCont cs = none ∧ n = 2 + (ds.takeWhile isDigit).length
  | .escape => ∃ e ds, cs = e :: '\x27' :: ds ∧ (e = 'E' ∨ e = 'e') ∧ n = 2 + escapeRest ds
  | .continued => ∃ ds, cs = '\x27' :: ds ∧ n = 1 + escapeRest ds
  | .plain => ∃ ds, cs = '\x27' :: ds ∧ n = 1 + quotedBody '\x27' ds
  | .ident => ∃ ds, cs = '"' :: ds ∧ n = 1 + quotedBody '"' ds
  | .number suffix => ∃ c ds, cs = c :: ds ∧ (isDigit c = true ∨ c = '.' ∧ ds.head?.any isDigit = true) ∧
      number cs = some (.number suffix, n)
  | .dots => (∃ ds, cs = '.' :: ds ∧ n = 1) ∨ ∃ ds, cs = '.' :: '.' :: ds ∧ n = 2
  | .word => ∃ c ds, cs = c :: ds ∧ isIdentStart c = true ∧ n = 1 + (ds.takeWhile isIdentCont).length
  | .other => ∃ c ds, cs = c :: ds ∧ n = 1 ∧ isBlank c = false ∧ (c = '-' → ds.head? ≠ some '-') ∧
      (c = '/' → ds.head? ≠ some '*') ∧ dollarTag ServerScan.isTagStart isTagCont cs = none ∧
      c ≠ '\x27' ∧ c ≠ '"' ∧ c ≠ '.' ∧ isDigit c = false ∧ isIdentStart c = false

theorem isIdentCont_of_start {c : Char} (h : isIdentStart c = true) : isIdentCont c = true :=
  isWordChar_of_start h

theorem isBlank_of_newline {c : Char} (h : isNewline c = true) : isBlank c = true := by
  simp only [isNewline, Bool.or_eq_true, decide_eq_true_eq] at h
  rcases h with rfl | rfl <;> decide

theorem scan_reads {cont : Cont} {cs : Text} {k : Kind} {n : Nat} (h : scan cont cs = some (k, n)) :
    Reads cs n k := by
  cases cs with
  | nil => cases h
  | cons c cs =>
      rw [scan] at h
      by_cases hn : isNewline c = true
      · rw [if_pos hn] at h
        cases h
        exact ⟨c, cs, rfl, isBlank_of_newline hn, rfl⟩
      rw [if_neg hn] at h
      by_cases hb : isBlank c = true
      · rw [if_pos hb] at h
        cases h
        exact ⟨c, cs, rfl, hb, rfl⟩
      rw [if_neg hb] at h
      by_cases hd : c = '-' ∧ cs.head? = some '-'
      · rw [if_pos hd] at h
        cases h
        obtain ⟨rfl, hd⟩ := hd
        obtain ⟨ds, rfl⟩ := cons_of_head hd
        refine ⟨ds, rfl, ?_⟩
        rw [List.takeWhile_cons_of_pos (by decide), List.takeWhile_cons_of_pos (by decide)]
        simp only [List.length_cons]
        omega
      rw [if_neg hd] at h
      by_cases hc : c = '/' ∧ cs.head? = some '*'
      · rw [if_pos hc] at h
        cases h
        obtain ⟨rfl, hc⟩ := hc
        obtain ⟨ds, rfl⟩ := cons_of_head hc
        exact ⟨ds, rfl, rfl⟩
      rw [if_neg hc] at h
      cases ht : dollarTag ServerScan.isTagStart isTagCont (c :: cs) with
      | some delim =>
          rw [ht] at h
          cases h
          have hdollar : c = '$' := by
            by_contra hne
            rw [dollarTag_none cs hne] at ht
            cases ht
          subst hdollar
          exact ⟨cs, rfl, ht, rfl⟩
      | none =>
          rw [ht] at h
          dsimp only at h
          by_cases hp : c = '$' ∧ cs.head?.any isDigit = true
          · rw [if_pos hp] at h
            obtain ⟨rfl, hp⟩ := hp
            split at h
            · cases h
              cases cs with
              | nil => cases hp
              | cons d ds =>
                  have hp : isDigit d = true := hp
                  refine ⟨d, ds, rfl, hp, ht, ?_⟩
                  rw [List.takeWhile_cons_of_pos hp, List.length_cons]
                  omega
            · cases h
          rw [if_neg hp] at h
          by_cases he : (c = 'E' ∨ c = 'e') ∧ cs.head? = some '\x27'
          · rw [if_pos he] at h
            cases h
            obtain ⟨he, hq⟩ := he
            obtain ⟨ds, rfl⟩ := cons_of_head hq
            exact ⟨c, ds, rfl, he, rfl⟩
          rw [if_neg he] at h
          by_cases hq : c = '\x27'
          · rw [if_pos hq] at h
            subst hq
            split at h
            · cases h; exact ⟨cs, rfl, rfl⟩
            · cases h; exact ⟨cs, rfl, rfl⟩
          rw [if_neg hq] at h
          by_cases hi : c = '"'
          · rw [if_pos hi] at h
            cases h
            subst hi
            exact ⟨cs, rfl, rfl⟩
          rw [if_neg hi] at h
          by_cases hnum : isDigit c = true ∨ c = '.' ∧ cs.head?.any isDigit = true
          · rw [if_pos hnum] at h
            obtain ⟨suffix, rfl, -⟩ := guard_number h
            exact ⟨c, cs, rfl, hnum, h⟩
          rw [if_neg hnum] at h
          by_cases hdot : c = '.'
          · rw [if_pos hdot] at h
            subst hdot
            split at h
            next hs =>
              cases h
              obtain ⟨ds, rfl⟩ := cons_of_head hs
              exact .inr ⟨ds, rfl, rfl⟩
            · cases h; exact .inl ⟨cs, rfl, rfl⟩
          rw [if_neg hdot] at h
          by_cases hw : isIdentStart c = true
          · rw [if_pos hw] at h
            cases h
            refine ⟨c, cs, rfl, hw, ?_⟩
            rw [List.takeWhile_cons_of_pos (isIdentCont_of_start hw), List.length_cons, Nat.add_comm]
          rw [if_neg hw] at h
          cases h
          have hnd : isDigit c = false := by simpa using fun hd => hnum (.inl hd)
          exact ⟨c, cs, rfl, rfl, by simpa using hb, fun h1 h2 => hd ⟨h1, h2⟩, fun h1 h2 => hc ⟨h1, h2⟩, ht,
            hq, hi, hdot, hnd, by simpa using hw⟩

theorem isNumberChar_false {c : Char} (hd : isDigit c = false) (hdot : c ≠ '.') (hu : c ≠ '_') :
    isNumberChar c = false := by
  simp [isNumberChar, hd, hdot, hu]

theorem isDigit_of_blank {c : Char} (h : isBlank c = true) : isDigit c = false := by
  have hb := isBlank_toNat h
  rw [Bool.eq_false_iff, ne_eq, isDigit_iff]
  omega

theorem isSpace_of_blank {c : Char} (h : isBlank c = true) : isSpace c = true := by
  simp only [isBlank, decide_eq_true_eq, List.mem_cons, List.not_mem_nil, or_false] at h
  rcases h with rfl | rfl | rfl | rfl | rfl | rfl <;> decide

theorem guardFrom_blank {c : Char} (run : Bool) (cs : Text) (h : isBlank c = true) :
    guardFrom run (c :: cs) = .blank :: guardFrom false cs := by
  have hn : isNumberChar c = false := by
    refine isNumberChar_false (isDigit_of_blank h) ?_ ?_
    all_goals rintro rfl; revert h; decide
  rw [guardFrom_fresh run cs hn, guard_blank cs (isSpace_of_blank h)]
  rfl

/-- Up to a carriage return the two ends of a line comment are the same. -/
theorem lineComment_newline (cs : Text) (h : (cs.dropWhile (!isNewline ·)).head? ≠ some '\r') :
    cs.takeWhile (· ≠ '\n') = cs.takeWhile (!isNewline ·) ∧
      cs.dropWhile (· ≠ '\n') = cs.dropWhile (!isNewline ·) := by
  induction cs with
  | nil => exact ⟨rfl, rfl⟩
  | cons c cs ih =>
      by_cases hn : c = '\n'
      · subst hn
        exact ⟨rfl, rfl⟩
      · have hr : c ≠ '\r' := by
          rintro rfl
          exact h rfl
        have hc : isNewline c = false := by simp [isNewline, hn, hr]
        rw [List.dropWhile_cons_of_pos (by simp [hc])] at h
        have ih := ih h
        simp only [List.takeWhile_cons, List.dropWhile_cons, ne_eq, hn, not_false_eq_true, decide_true, hc,
          Bool.not_false, if_true] at ih ⊢
        exact ⟨by rw [ih.1], ih.2⟩

theorem lineComment_return (cs : Text) (h : (cs.dropWhile (!isNewline ·)).head? = some '\r') :
    ∃ ds, cs.takeWhile (· ≠ '\n') = cs.takeWhile (!isNewline ·) ++ '\r' :: ds := by
  induction cs with
  | nil => cases h
  | cons c cs ih =>
      by_cases hc : isNewline c = true
      · rw [List.dropWhile_cons_of_neg (by simp [hc])] at h
        obtain rfl : c = '\r' := Option.some.inj h
        exact ⟨cs.takeWhile (· ≠ '\n'), rfl⟩
      · rw [List.dropWhile_cons_of_pos (by simpa using hc)] at h
        obtain ⟨ds, ih⟩ := ih h
        have hn : c ≠ '\n' := by
          rintro rfl
          exact hc rfl
        refine ⟨ds, ?_⟩
        rw [List.takeWhile_cons_of_pos (by simpa using hn), List.takeWhile_cons_of_pos (by simpa using hc), ih]
        rfl

/-- A final backslash aside, both sides end an escape string at one place. -/
theorem escapeBody_eq (cs : Text) : escapeBody cs = escapeRest cs ∨
    cs.length ≤ escapeBody cs ∧ cs.length ≤ escapeRest cs := by
  fun_induction escapeBody cs with
  | case1 => exact .inl rfl
  | case2 => exact .inr ⟨by simp, by simp [escapeRest]⟩
  | case3 c cs ih =>
      simp only [escapeRest, List.length_cons]
      omega
  | case4 cs ih =>
      simp only [escapeRest, List.length_cons]
      omega
  | case5 cs h =>
      left
      rw [escapeRest]
      exact fun ds hd => h ds hd
  | case6 c cs h1 h2 h3 h4 ih =>
      rw [escapeRest, List.length_cons]
      · omega
      · exact h2
      · exact h3
      · exact h4

theorem guardFrom_dot (run : Bool) (cs : Text) :
    guardFrom run ('.' :: cs) = .code :: guardFrom run cs := by
  cases run with
  | true => exact guardFrom_run cs (by decide)
  | false =>
      exact guard_punct (c := '.') cs (by decide) (by simp) (by simp) (dollarTag_none _ (by decide))
        (by decide) (by decide) (by decide) (by decide)

theorem guardFrom_number {c : Char} {cs : Text} (run : Bool)
    (h : isDigit c = true ∨ c = '.' ∧ cs.head?.any isDigit = true) :
    guardFrom run (c :: cs) = guardFrom true (c :: cs) := by
  rcases h with h | ⟨rfl, h⟩
  · rw [guardFrom_digit run cs h, guardFrom_digit true cs h]
  · cases cs with
    | nil => cases h
    | cons d ds =>
        rw [guardFrom_dot, guardFrom_dot, guardFrom_digit run ds h, guardFrom_digit true ds h]

theorem word_chars {c : Char} {ds : Text} (hc : isIdentStart c = true) :
    ∀ d ∈ c :: ds.takeWhile isIdentCont, isWordChar d = true := by
  intro d hd
  rcases List.mem_cons.mp hd with rfl | hd
  · exact isIdentCont_of_start hc
  · exact List.mem_takeWhile_imp hd

theorem guard_dollarTag_none {cs : Text}
    (h : dollarTag ServerScan.isTagStart isTagCont ('$' :: cs) = none) :
    dollarTag SqlLex.isTagStart isTagChar ('$' :: cs) = none := by
  rw [Option.eq_none_iff_forall_ne_some] at h ⊢
  exact fun delim hd => h delim ((guard_dollarTag cs delim).mp hd).1

/-- The class the guard gives to a token of the server that it follows. -/
theorem guard_follows {cs : Text} {k : Kind} {n : Nat} {run run' : Bool} (h : Reads cs n k)
    (hf : follows run k (cs.take n) (cs.drop n) = some run') :
    guardFrom run cs = paint k.class (cs.take n) ++ guardFrom run' (cs.drop n) := by
  cases k with
  | blank =>
      obtain ⟨c, ds, rfl, hb, rfl⟩ := h
      cases hf
      exact guardFrom_blank run ds hb
  | newline =>
      obtain ⟨c, ds, rfl, hb, rfl⟩ := h
      cases hf
      exact guardFrom_blank run ds hb
  | lineComment =>
      obtain ⟨ds, rfl, rfl⟩ := h
      simp only [Nat.add_comm 2, List.take_succ_cons, List.drop_succ_cons, take_takeWhile, drop_takeWhile,
        follows] at hf ⊢
      split at hf
      · cases hf
      next hr =>
        cases hf
        obtain ⟨htake, hdrop⟩ := lineComment_newline ds hr
        rw [guardFrom_fresh _ _ (by decide), guard_lineComment, htake, hdrop]
        rfl
  | blockComment =>
      obtain ⟨ds, rfl, rfl⟩ := h
      cases hf
      rw [guardFrom_fresh _ _ (by decide), guard_blockComment]
      rfl
  | dollar delim =>
      obtain ⟨ds, rfl, ht, rfl⟩ := h
      simp only [follows] at hf
      split at hf
      · cases hf
      next hlow =>
        cases hf
        have ht := (guard_dollarTag ds delim).mpr ⟨ht, by simpa using hlow⟩
        rw [guardFrom_fresh _ _ (by decide), guard_dollar ht]
        rfl
  | param =>
      obtain ⟨d, ds, rfl, hd, ht, rfl⟩ := h
      cases hf
      rw [guardFrom_fresh _ _ (by decide), guard_dollarSign _ (guard_dollarTag_none ht), guard_digit _ hd,
        Nat.add_comm, List.take_succ_cons, List.take_succ_cons, List.drop_succ_cons, List.drop_succ_cons,
        take_takeWhile, drop_takeWhile]
      conv => lhs; rw [← List.takeWhile_append_dropWhile (p := isDigit) (l := ds)]
      rw [guardFrom_append]
      · rfl
      · intro c hc
        have hc := List.mem_takeWhile_imp hc
        simp [isNumberChar, hc]
  | escape =>
      obtain ⟨e, ds, rfl, he, rfl⟩ := h
      cases hf
      have hn : isNumberChar e = false := by rcases he with rfl | rfl <;> decide
      rw [guardFrom_fresh _ _ hn, guard_escape ds he]
      simp only [Nat.add_comm 2, List.take_succ_cons, List.drop_succ_cons]
      rcases escapeBody_eq ds with hb | ⟨hb, hr⟩
      · rw [hb]
        rfl
      · rw [List.take_of_length_le hb, List.take_of_length_le hr, List.drop_of_length_le hb,
          List.drop_of_length_le hr]
        rfl
  | continued => cases hf
  | plain =>
      obtain ⟨ds, rfl, rfl⟩ := h
      cases hf
      rw [guardFrom_fresh _ _ (by decide), guard_plain]
      rfl
  | ident =>
      obtain ⟨ds, rfl, rfl⟩ := h
      cases hf
      rw [guardFrom_fresh _ _ (by decide), guard_ident]
      rfl
  | number suffix =>
      obtain ⟨c, ds, rfl, hc, hn⟩ := h
      cases hf
      obtain ⟨suffix', hk, hg⟩ := guard_number hn
      cases hk
      rw [guardFrom_number run hc, hg]
      rfl
  | dots =>
      cases hf
      rcases h with ⟨ds, rfl, rfl⟩ | ⟨ds, rfl, rfl⟩
      · exact guardFrom_dot run ds
      · rw [guardFrom_dot, guardFrom_dot]
        rfl
  | word =>
      obtain ⟨c, ds, rfl, hc, rfl⟩ := h
      simp only [Nat.add_comm 1, List.take_succ_cons, List.drop_succ_cons, take_takeWhile, drop_takeWhile,
        follows] at hf ⊢
      conv => lhs; rw [← List.takeWhile_append_dropWhile (p := isIdentCont) (l := ds), ← List.cons_append]
      exact guard_stray run run' _ _ (word_chars hc) (fun _ hd => head_dropWhile hd) hf
  | other =>
      obtain ⟨c, ds, rfl, rfl, hb, hd, hcom, ht, hq, hi, hdot, hn, hw⟩ := h
      cases hf
      have hu : c ≠ '_' := by
        rintro rfl
        exact absurd hw (by decide)
      have hs : isSpace c = false := by
        rw [Bool.eq_false_iff]
        intro hs
        rcases isSpace_cases hs with h | h
        · simp [hb] at h
        · simp [isIdentStart, h] at hw
      have ht : dollarTag SqlLex.isTagStart isTagChar (c :: ds) = none := by
        by_cases hd : c = '$'
        · subst hd
          exact guard_dollarTag_none ht
        · exact dollarTag_none ds hd
      rw [guardFrom_fresh _ _ (isNumberChar_false hn hdot hu), guard_punct ds hs hd hcom ht hq hi hn hw]
      rfl

theorem classesFrom_return (fuel : Nat) (cont : Cont) {cs : Text} (h : cs.head? = some '\r')
    (hfuel : cs.length ≤ fuel) : ∃ tail, classesFrom fuel cont cs = .blank :: tail := by
  obtain ⟨ds, rfl⟩ := cons_of_head h
  cases fuel with
  | zero => cases hfuel
  | succ fuel =>
      rw [classesFrom, scan, if_pos (by decide)]
      exact ⟨_, rfl⟩

/-- Where follows refuses a token, the guard does not read on as the server does. -/
theorem guard_refuses {cs : Text} {k : Kind} {n fuel : Nat} {run : Bool} (cont : Cont) (h : Reads cs n k)
    (hf : follows run k (cs.take n) (cs.drop n) = none) (hfuel : (cs.drop n).length ≤ fuel) :
    ¬ paint k.class (cs.take n) ++ classesFrom fuel cont (cs.drop n) <+: guardFrom run cs := by
  cases k with
  | lineComment =>
      obtain ⟨ds, rfl, rfl⟩ := h
      simp only [Nat.add_comm 2, List.take_succ_cons, List.drop_succ_cons, take_takeWhile, drop_takeWhile,
        follows] at hf hfuel ⊢
      split at hf
      next hr =>
        obtain ⟨tail, ht⟩ := classesFrom_return fuel cont hr hfuel
        obtain ⟨more, hc⟩ := lineComment_return ds hr
        rw [guardFrom_fresh _ _ (by decide), guard_lineComment, hc, ht]
        intro hp
        rw [← List.cons_append, ← List.cons_append, paint_append, List.append_assoc] at hp
        cases (List.cons_prefix_cons.mp ((List.prefix_append_right_inj _).mp hp)).1
      · cases hf
  | dollar delim =>
      obtain ⟨ds, rfl, ht, rfl⟩ := h
      simp only [follows] at hf
      split at hf
      next hhigh =>
        have hnone : dollarTag SqlLex.isTagStart isTagChar ('$' :: ds) = none := by
          rw [Option.eq_none_iff_forall_ne_some]
          intro delim' hd
          obtain ⟨hd, hlow⟩ := (guard_dollarTag ds delim').mp hd
          rw [ht] at hd
          cases hd
          rw [hhigh] at hlow
          cases hlow
        obtain ⟨m, hm⟩ := Nat.exists_eq_succ_of_ne_zero
          (Nat.pos_iff_ne_zero.mp (dollarBody_pos ('$' :: ds) (dollarTag_pos ht) (by simp)))
        rw [guardFrom_fresh _ _ (by decide), guard_dollarSign _ hnone, hm, List.take_succ_cons]
        intro hp
        cases (List.cons_prefix_cons.mp hp).1
      · cases hf
  | continued =>
      obtain ⟨ds, rfl, rfl⟩ := h
      rw [guardFrom_fresh _ _ (by decide), guard_plain, Nat.add_comm, List.take_succ_cons]
      exact not_prefix_of_paint (by omega) (by decide)
  | word =>
      obtain ⟨c, ds, rfl, hc, rfl⟩ := h
      simp only [Nat.add_comm 1, List.take_succ_cons, List.drop_succ_cons, take_takeWhile, drop_takeWhile,
        follows] at hf ⊢
      intro hp
      refine guard_astray run _ _ (word_chars hc) hf (classesFrom fuel cont (ds.dropWhile isIdentCont)) ?_
      rwa [List.cons_append, List.takeWhile_append_dropWhile]
  | _ => cases hf

theorem mantissa_pos {c : Char} (cs : Text) (h : isDigit c = true) : 0 < mantissa (c :: cs) := by
  have hd : 0 < decinteger (c :: cs) := by
    rw [decinteger, if_pos h]
    omega
  simp only [mantissa]
  split
  · exact hd
  · omega
  · exact hd

theorem number_pos {c : Char} {cs : Text} {k : Kind} {n : Nat} (h : number (c :: cs) = some (k, n))
    (hc : isDigit c = true ∨ c = '.') : 0 < n := by
  simp only [number] at h
  generalize hm : (if (c :: cs).head? = some '.' then 1 + decinteger (c :: cs).tail else mantissa (c :: cs)) = m
    at h
  have hpos : 0 < m := by
    rw [← hm]
    split
    · omega
    next hdot =>
      rcases hc with hc | rfl
      · exact mantissa_pos cs hc
      · exact absurd rfl hdot
  split at h
  · cases h
    exact hpos
  split at h
  · cases h
    omega
  split at h
  · split at h
    · cases h
      omega
    · cases h
  · cases h

theorem reads_pos {cs : Text} {k : Kind} {n : Nat} (h : Reads cs n k) : 0 < n ∧ cs ≠ [] := by
  cases k with
  | dollar delim =>
      obtain ⟨ds, rfl, ht, rfl⟩ := h
      exact ⟨dollarBody_pos _ (dollarTag_pos ht) (by simp), by simp⟩
  | number suffix =>
      obtain ⟨c, ds, rfl, hc, hn⟩ := h
      exact ⟨number_pos hn (hc.imp id And.left), by simp⟩
  | dots => rcases h with ⟨ds, rfl, rfl⟩ | ⟨ds, rfl, rfl⟩ <;> simp
  | blank | newline | other => obtain ⟨c, ds, rfl, h⟩ := h; simp [h]
  | lineComment | blockComment | continued | plain | ident =>
      obtain ⟨ds, rfl, rfl⟩ := h
      exact ⟨by omega, by simp⟩
  | param | escape | word =>
      obtain ⟨c, ds, rfl, -, h⟩ := h
      exact ⟨by omega, by simp⟩

theorem inStepFrom_iff (fuel : Nat) (cont : Cont) (run : Bool) (cs : Text) (h : cs.length ≤ fuel) :
    inStepFrom fuel cont run cs = true ↔ classesFrom fuel cont cs <+: guardFrom run cs := by
  induction fuel generalizing cont run cs with
  | zero => simp [inStepFrom, classesFrom]
  | succ fuel ih =>
      rw [inStepFrom, classesFrom]
      cases hs : scan cont cs with
      | none => simp
      | some kn =>
          obtain ⟨k, n⟩ := kn
          have hr := scan_reads hs
          obtain ⟨hn, hcs⟩ := reads_pos hr
          have hlen : (cs.drop n).length ≤ fuel := by
            rw [List.length_drop]
            omega
          cases hf : follows run k (cs.take n) (cs.drop n) with
          | none =>
              simp only [hf, Bool.false_eq_true, false_iff]
              exact guard_refuses _ hr hf hlen
          | some run' =>
              simp only [hf]
              rw [guard_follows hr hf, ih _ _ _ hlen]
              exact (List.prefix_append_right_inj _).symm

/-- The guard reads the script as the server does, up to the server's first lexical error. -/
structure Agreement (sql : Text) : Prop where
  classes : serverClasses sql <+: guardClasses sql
  nothing_hidden : ∀ i, (serverClasses sql)[i]? = some .code →
    ∃ t ∈ lex sql, t.start ≤ i ∧ i < t.stop ∧ isPlain t = true
  splits : ∀ i ∈ semicolons sql (serverClasses sql), ∀ s ∈ split sql, i < s.start ∨ s.stop ≤ i

theorem inStep_iff (sql : Text) : inStep sql = true ↔ serverClasses sql <+: guardClasses sql :=
  inStepFrom_iff sql.length .off false sql (Nat.le_refl _)

/-- The guard agrees with the server on exactly the scripts in which it reads each token
of the server's scan as the server does. -/
theorem agreement_iff_inStep (sql : Text) : Agreement sql ↔ inStep sql = true := by
  constructor
  · intro h
    exact (inStep_iff sql).mpr h.classes
  · intro h
    have hclasses := (inStep_iff sql).mp h
    refine ⟨hclasses, ?_, ?_⟩
    · intro i hi
      have hguard : (guardClasses sql)[i]? = some .code := by
        obtain ⟨rest, hrest⟩ := hclasses
        rw [← hrest, List.getElem?_append_left (List.getElem?_eq_some_iff.mp hi).1, hi]
      obtain ⟨t, ht, hstart, hstop, hplain⟩ := code_token _ 0 i sql (Nat.le_refl _) hguard
      exact ⟨t, ht, by omega, by omega, hplain⟩
    · intro i hi s hs
      exact split_semicolons (semicolonsFrom_mono hclasses 0 0 sql hi) hs

/-- A line comment that ends in a carriage return hides a DROP TABLE from the guard. -/
theorem not_agreement_return : ¬ Agreement "-- \rDROP TABLE t".toList ∧ lex "-- \rDROP TABLE t".toList = [] := by
  have hlex : lex "-- \rDROP TABLE t".toList = [] := by decide
  refine ⟨fun h => ?_, hlex⟩
  obtain ⟨t, ht, -⟩ := h.nothing_hidden 4 (by decide)
  rw [hlex] at ht
  cases ht

end Corebase.LexAgreement
