import Corebase.Console
import Corebase.Splitting
import Corebase.SqlBrackets
import Corebase.Verdicts

namespace Corebase.SqlPrinting

open JsText SqlLex SqlGuard GuardClasses LexSteps Splitting SqlBrackets

/-! What the lexer makes of a piece of text, wherever it stands -/

abbrev Shape := TokenKind × Text

def shape (t : Token) : Shape := (t.kind, t.value)

/-- In front of a text that begins with a character of the set, or of none, the piece is read as these tokens. -/
def Reads (P : Char → Bool) (s : Text) (ts : List Shape) : Prop :=
  ∀ i rest, (∀ c, rest.head? = some c → P c = true) →
    ∃ us, lexFrom i (s ++ rest) = us ++ lexFrom (i + s.length) rest ∧ us.map shape = ts

def anyChar (_ : Char) : Bool := true

/-- What ends a word, a quoted identifier or a number. -/
def isBreak (c : Char) : Bool := c ∈ [' ', '\n', ',', ';', '(', ')']

variable {P Q : Char → Bool} {s s' : Text} {ts ts' : List Shape} {c d : Char}

theorem Reads.mono (h : Reads P s ts) (hQ : ∀ c, Q c = true → P c = true) : Reads Q s ts :=
  fun i rest hrest => h i rest fun c hc => hQ c (hrest c hc)

theorem Reads.append (h : Reads P s ts) (h' : Reads Q s' ts') (hc : s'.head? = some c) (hP : P c = true) :
    Reads Q (s ++ s') (ts ++ ts') := by
  intro i rest hrest
  have hhead : ∀ d, (s' ++ rest).head? = some d → P d = true := by
    intro d hd
    cases s' with
    | nil => cases hc
    | cons e s' =>
        obtain rfl : e = c := Option.some.inj hc
        obtain rfl : e = d := Option.some.inj hd
        exact hP
  obtain ⟨us, hus, hshape⟩ := h i (s' ++ rest) hhead
  obtain ⟨us', hus', hshape'⟩ := h' (i + s.length) rest hrest
  refine ⟨us ++ us', ?_, by rw [List.map_append, hshape, hshape']⟩
  rw [List.append_assoc, hus, hus', List.length_append, List.append_assoc, Nat.add_assoc]

/-- After a piece that any text may follow. -/
theorem Reads.then (h : Reads anyChar s ts) (h' : Reads Q s' ts') : Reads Q (s ++ s') (ts ++ ts') := by
  cases s' with
  | nil =>
      intro i rest hrest
      obtain ⟨us, hus, hshape⟩ := h i rest fun _ _ => rfl
      obtain ⟨us', hus', hshape'⟩ := h' (i + s.length) rest hrest
      rw [List.nil_append, List.length_nil, Nat.add_zero] at hus'
      refine ⟨us ++ us', ?_, by rw [List.map_append, hshape, hshape']⟩
      rw [List.append_nil, hus, List.append_assoc, ← hus']
  | cons c cs => exact h.append h' rfl rfl

/-- A piece that is one turn of the lexer. -/
theorem reads_turn {x : Lexeme} (hne : s ≠ [])
    (h : ∀ rest, (∀ c, rest.head? = some c → P c = true) → lexeme (s ++ rest) = (x, s.length))
    (hx : (tokensFrom 0 [⟨x, s.length, s⟩]).map shape = ts) : Reads P s ts := by
  intro i rest hrest
  obtain ⟨c, cs, rfl⟩ := List.exists_cons_of_ne_nil hne
  refine ⟨tokensFrom i [⟨x, (c :: cs).length, c :: cs⟩], ?_, ?_⟩
  · have hstep := lexFrom_cons i (h rest hrest)
    have htake : (c :: cs.append rest).take (c :: cs).length = c :: cs := List.take_left
    have hdrop : (c :: cs.append rest).drop (c :: cs).length = rest := List.drop_left
    rwa [htake, hdrop] at hstep
  · rw [← hx]
    cases x with
    | blank => rfl
    | comment => rfl
    | token k => cases k <;> rfl

theorem reads_blank (h : isSpace c = true) : Reads anyChar [c] [] :=
  reads_turn (x := .blank) (List.cons_ne_nil c []) (fun rest _ => by simp [lexeme, h]) rfl

theorem isBreak_ends {c : Char} (h : isBreak c = true) : isWordChar c = false ∧ isNumberChar c = false ∧ c ≠ '\x27' := by
  simp only [isBreak, List.mem_cons, List.not_mem_nil, or_false, decide_eq_true_eq] at h
  rcases h with rfl | rfl | rfl | rfl | rfl | rfl <;> decide

theorem takeWhile_ends {p : Char → Bool} {w rest : Text} (hw : ∀ d ∈ w, p d = true)
    (hrest : ∀ d, rest.head? = some d → p d = false) : (w ++ rest).takeWhile p = w :=
  (takeWhile_stop hw hrest).1

theorem reads_word {w W : Text} (hc : isWordStart c = true) (hs : isSpace c = false)
    (hw : ∀ d ∈ w, isWordChar d = true) (hW : toUpperCase (c :: w) = W) : Reads isBreak (c :: w) [(.word, W)] := by
  refine reads_turn (x := .token .word) (List.cons_ne_nil c w) (fun rest hrest => ?_) (by rw [← hW]; rfl)
  have hend := fun d hd => isBreak_ends (hrest d hd)
  obtain ⟨h1, h2, h3, h4, h5, h6⟩ := wordStart_ne hc
  have he : (w ++ rest).head? ≠ some '\x27' := by
    cases w with
    | nil => exact fun h => (hend _ h).2.2 rfl
    | cons d w =>
        intro h
        have hd := hw d List.mem_cons_self
        rw [Option.some.inj h] at hd
        exact absurd hd (by decide)
  have hall : ∀ d ∈ c :: w, isWordChar d = true := by
    intro d hd
    rcases List.mem_cons.mp hd with rfl | hd
    · exact isWordChar_of_start hc
    · exact hw d hd
  have htake := takeWhile_ends hall fun d hd => (hend d hd).1
  rw [List.cons_append] at htake ⊢
  generalize w ++ rest = tail at he htake ⊢
  simp [lexeme, hs, dollarTag_none, hc, h1, h2, h3, h4, h5, h6, he, htake]

theorem digit_ne {c : Char} (h : isDigit c = true) : isSpace c = false ∧ c ≠ '-' ∧ c ≠ '/' ∧ c ≠ '$' ∧
    c ≠ 'E' ∧ c ≠ 'e' ∧ c ≠ '\x27' ∧ c ≠ '"' := by
  refine ⟨?_, ?_, ?_, ?_, ?_, ?_, ?_, ?_⟩
  · have hn := (isDigit_iff c).mp h
    exact isSpace_false (by omega) (by omega)
  all_goals
    rintro rfl
    revert h
    decide

theorem reads_digits (n : Nat) : Reads isBreak (Nat.toDigits 10 n) [(.number, Nat.toDigits 10 n)] := by
  have hdigits : ∀ d ∈ Nat.toDigits 10 n, isDigit d = true := fun d hd => digit_plain hd
  obtain ⟨c, cs, hcs⟩ := List.exists_cons_of_ne_nil (Nat.toDigits_ne_nil (n := n) (b := 10))
  rw [hcs] at hdigits ⊢
  refine reads_turn (x := .token .number) (List.cons_ne_nil c cs) (fun rest hrest => ?_) rfl
  have hc := hdigits c List.mem_cons_self
  have hne := digit_ne hc
  have hall : ∀ d ∈ cs, isNumberChar d = true := by
    intro d hd
    rw [isNumberChar, hdigits d (List.mem_cons_of_mem c hd)]
    rfl
  have htake := takeWhile_ends hall fun d hd => (isBreak_ends (hrest d hd)).2.1
  rw [List.cons_append]
  simp [lexeme, dollarTag_none, hne, hc, htake]
  omega

theorem reads_punct (hc : c ∈ ['.', ',', ';', '(', ')', '=', '*']) : Reads anyChar [c] [(.punct, [c])] := by
  refine reads_turn (x := .token .punct) (List.cons_ne_nil c []) (fun rest _ => ?_) rfl
  simp only [List.mem_cons, List.not_mem_nil, or_false] at hc
  rcases hc with rfl | rfl | rfl | rfl | rfl | rfl | rfl <;>
    simp [lexeme, dollarTag_none, isSpace, isDigit, isWordStart, isLetter, isHigh]

/-- A dollar sign in front of a digit opens no body. -/
theorem reads_dollar : Reads isDigit ['$'] [(.punct, ['$'])] := by
  refine reads_turn (x := .token .punct) (List.cons_ne_nil '$' []) (fun rest hrest => ?_) rfl
  have htag : dollarTag isTagStart isTagChar ('$' :: rest) = none := by
    cases rest with
    | nil => rfl
    | cons c cs =>
        have hc : isDigit c = true := hrest c rfl
        have hn := (isDigit_iff c).mp hc
        have hchar : isTagChar c = true := by simp [isTagChar, hc]
        have hstart : isTagStart c = false := by
          rw [Bool.eq_false_iff]
          simp only [isTagStart, ne_eq, Bool.or_eq_true, isLetter_iff, decide_eq_true_eq]
          rintro (h | rfl)
          · omega
          · revert hc
            decide
        rw [dollarTag, List.takeWhile_cons_of_pos hchar]
        simp [hstart]
  simp [lexeme, htag, isSpace, isDigit, isWordStart, isLetter, isHigh]

/-- A placeholder. -/
def hole (n : Nat) : Text := '$' :: Nat.toDigits 10 n

theorem reads_hole (n : Nat) : Reads isBreak (hole n) [(.punct, ['$']), (.number, Nat.toDigits 10 n)] := by
  obtain ⟨c, cs, hcs⟩ := List.exists_cons_of_ne_nil (Nat.toDigits_ne_nil (n := n) (b := 10))
  have hc : isDigit c = true := digit_plain (n := n) (hcs ▸ List.mem_cons_self)
  exact reads_dollar.append (reads_digits n) (congrArg List.head? hcs) hc

/-! Quoted identifiers -/

def quote (identifier : Text) : Text :=
  '"' :: (identifier.flatMap (fun c => if c = '"' then ['"', '"'] else [c]) ++ ['"'])

def notQuote (c : Char) : Bool := c ≠ '"'

theorem quotedBody_quoted (name : Text) {rest : Text} (h : rest.head? ≠ some '"') :
    quotedBody '"' (name.flatMap (fun c => if c = '"' then ['"', '"'] else [c]) ++ '"' :: rest) =
      (name.flatMap fun c => if c = '"' then ['"', '"'] else [c]).length + 1 := by
  induction name with
  | nil => exact quotedBody_quote h
  | cons c name ih =>
      by_cases hc : c = '"'
      · subst c
        rw [List.flatMap_cons, if_pos rfl, List.append_assoc, List.cons_append, List.singleton_append, quotedBody,
          if_pos rfl, if_pos rfl, ih, List.length_append]
        simp only [List.length_cons, List.length_nil]
        omega
      · rw [List.flatMap_cons, if_neg hc, List.append_assoc, List.singleton_append, quotedBody_other hc, ih,
          List.length_append, List.length_singleton]
        omega

theorem reads_quote (name : Text) : Reads notQuote (quote name) [(.ident, quote name)] := by
  refine reads_turn (x := .token .ident) (List.cons_ne_nil _ _) (fun rest hrest => ?_) rfl
  have hhead : rest.head? ≠ some '"' := fun h => absurd (hrest _ h) (by decide)
  have hbody := quotedBody_quoted name hhead
  rw [quote, List.cons_append, List.append_assoc, List.singleton_append, List.length_cons, List.length_append,
    List.length_singleton, ← hbody]
  simp [lexeme, dollarTag_none, isSpace, Nat.add_comm 1]

/-! Statements -/

/-- A token of the shape that stands nowhere. -/
def canon (x : Shape) : Token := ⟨x.1, x.2, 0, 0⟩

theorem isPunct_shape {t u : Token} (h : shape t = shape u) (c : Char) : t.isPunct c = u.isPunct c := by
  obtain ⟨hk, hv⟩ := Prod.mk.inj h
  rw [Token.isPunct, Token.isPunct, hk, hv]

theorem depthAfter_shape {t u : Token} (h : shape t = shape u) (depth : Nat) : depthAfter depth t = depthAfter depth u := by
  rw [depthAfter, depthAfter, isPunct_shape h, isPunct_shape h]

theorem foldl_shape {us vs : List Token} (h : us.map shape = vs.map shape) (depth : Nat) :
    us.foldl depthAfter depth = vs.foldl depthAfter depth := by
  induction us generalizing vs depth with
  | nil =>
      obtain rfl := List.map_eq_nil_iff.mp h.symm
      rfl
  | cons u us ih =>
      cases vs with
      | nil => cases h
      | cons v vs =>
          obtain ⟨hu, hus⟩ := List.cons.inj h
          rw [List.foldl_cons, List.foldl_cons, depthAfter_shape hu, ih hus]

theorem topLevel_shape {p : Token → Bool} (hp : ∀ t u, shape t = shape u → p t = p u) {us vs : List Token}
    (h : us.map shape = vs.map shape) (depth : Nat) : topLevel p depth us = topLevel p depth vs := by
  induction us generalizing vs depth with
  | nil =>
      obtain rfl := List.map_eq_nil_iff.mp h.symm
      rfl
  | cons u us ih =>
      cases vs with
      | nil => cases h
      | cons v vs =>
          obtain ⟨hu, hus⟩ := List.cons.inj h
          rw [topLevel, topLevel, depthAfter_shape hu, ih hus, hp u v hu]

theorem shape_canon (ts : List Shape) : (ts.map canon).map shape = ts := by
  rw [List.map_map]
  exact List.map_id ts

/-- A statement: something to run, no semicolon and nothing open. -/
structure Sentence (s : Text) (ts : List Shape) : Prop where
  reads : Reads isBreak s ts
  nonempty : ts ≠ []
  whole : topLevel (·.isPunct ';') 0 (ts.map canon) = false
  balanced : (ts.map canon).foldl depthAfter 0 = 0

theorem topLevel_none {p : Token → Bool} {ts : List Token} (h : ∀ t ∈ ts, p t = false) (depth : Nat) :
    topLevel p depth ts = false := by
  induction ts generalizing depth with
  | nil => rfl
  | cons t ts ih => simp [topLevel, h t List.mem_cons_self, ih fun u hu => h u (List.mem_cons_of_mem t hu)]

/-- A piece of one statement: its parentheses match and no semicolon is in it. -/
structure Phrase (P : Char → Bool) (s : Text) (ts : List Shape) : Prop where
  reads : Reads P s ts
  balanced : Balanced (ts.map canon)
  whole : ∀ t ∈ ts, t ≠ (.punct, [';'])

theorem Phrase.append (h : Phrase P s ts) (h' : Phrase Q s' ts') (hc : s'.head? = some c) (hP : P c = true) :
    Phrase Q (s ++ s') (ts ++ ts') where
  reads := h.reads.append h'.reads hc hP
  balanced := by
    rw [List.map_append]
    exact h.balanced.append h'.balanced
  whole t ht := (List.mem_append.mp ht).elim (h.whole t) (h'.whole t)

theorem Phrase.then (h : Phrase anyChar s ts) (h' : Phrase Q s' ts') : Phrase Q (s ++ s') (ts ++ ts') where
  reads := h.reads.then h'.reads
  balanced := by
    rw [List.map_append]
    exact h.balanced.append h'.balanced
  whole t ht := (List.mem_append.mp ht).elim (h.whole t) (h'.whole t)

theorem Phrase.mono (h : Phrase P s ts) (hQ : ∀ c, Q c = true → P c = true) : Phrase Q s ts :=
  ⟨h.reads.mono hQ, h.balanced, h.whole⟩

theorem phrase_nil : Phrase anyChar [] [] :=
  ⟨fun _ _ _ => ⟨[], rfl, rfl⟩, .nil, fun _ h => absurd h List.not_mem_nil⟩

theorem phrase_token {x : Shape} (h : Reads P s [x]) (hp : isParen (canon x) = false) (hs : x ≠ (.punct, [';'])) :
    Phrase P s [x] where
  reads := h
  balanced := .token hp .nil
  whole t ht := by
    obtain rfl := List.mem_singleton.mp ht
    exact hs

theorem phrase_blank (h : s.all isSpace = true) : Phrase anyChar s [] := by
  induction s with
  | nil => exact phrase_nil
  | cons c s ih =>
      rw [List.all_cons, Bool.and_eq_true] at h
      have hc : Phrase anyChar [c] [] := ⟨reads_blank h.1, .nil, fun _ h => absurd h List.not_mem_nil⟩
      exact hc.then (ih h.2)

def isKeyword (w : Text) : Bool := w ≠ [] && w.all isLower

theorem isLower_word {c : Char} (h : isLower c = true) : isWordStart c = true ∧ isSpace c = false := by
  simp only [isLower, Bool.and_eq_true, decide_eq_true_eq, Char.le_def, UInt32.le_iff_toNat_le] at h
  have hn : 97 ≤ c.toNat ∧ c.toNat ≤ 122 := h
  refine ⟨?_, isSpace_false (by omega) (by omega)⟩
  rw [isWordStart, (isLetter_iff c).mpr (by omega)]
  rfl

theorem phrase_keyword {w : Text} (h : isKeyword w = true) : Phrase isBreak w [(.word, toUpperCase w)] := by
  rw [isKeyword, Bool.and_eq_true] at h
  cases w with
  | nil => simp at h
  | cons c w =>
      have hall := List.all_eq_true.mp h.2
      have hc := isLower_word (hall c List.mem_cons_self)
      refine phrase_token (reads_word hc.1 hc.2 (fun d hd => ?_) rfl) rfl (by simp)
      exact isWordChar_of_start (isLower_word (hall d (List.mem_cons_of_mem c hd))).1

/-- Keywords, a blank after each. -/
theorem phrase_words (ws : List Text) (h : ws.all isKeyword = true) :
    Phrase anyChar (ws.flatMap (· ++ [' '])) (ws.map fun w => (.word, toUpperCase w)) := by
  induction ws with
  | nil => exact phrase_nil
  | cons w ws ih =>
      rw [List.all_cons, Bool.and_eq_true] at h
      exact ((phrase_keyword h.1).append (phrase_blank (s := [' ']) rfl) rfl rfl).then (ih h.2)

theorem phrase_mark (hc : c ∈ ['.', ',', '=', '*']) : Phrase anyChar [c] [(.punct, [c])] := by
  refine phrase_token (reads_punct ?_) ?_ ?_ <;>
  · simp only [List.mem_cons, List.not_mem_nil, or_false] at hc
    rcases hc with rfl | rfl | rfl | rfl <;> simp [isParen, Token.isPunct, canon]

theorem phrase_quote (name : Text) : Phrase notQuote (quote name) [(.ident, quote name)] :=
  phrase_token (reads_quote name) rfl (by simp)

theorem phrase_hole (n : Nat) : Phrase isBreak (hole n) [(.punct, ['$']), (.number, Nat.toDigits 10 n)] where
  reads := reads_hole n
  balanced := .token rfl (.token rfl .nil)
  whole := by simp

theorem Phrase.group (h : Phrase P s ts) (hP : P ')' = true) :
    Phrase anyChar ('(' :: (s ++ [')'])) ((.punct, ['(']) :: (ts ++ [(.punct, [')'])])) where
  reads := (reads_punct (c := '(') (by simp)).then (h.reads.append (reads_punct (c := ')') (by simp)) rfl hP)
  balanced := by
    rw [List.map_cons, List.map_append]
    exact .group rfl h.balanced rfl .nil
  whole t ht := by
    simp only [List.mem_cons, List.mem_append, List.not_mem_nil, or_false] at ht
    rcases ht with rfl | ht | rfl
    · simp
    · exact h.whole t ht
    · simp

theorem phrase_join {α : Type} {sep : Text} {seps : List Shape} (text : α → Text) (tokens : α → List Shape)
    (hsep : Phrase anyChar sep seps) (hc : sep.head? = some c) (hP : P c = true) {xs : List α} (hne : xs ≠ [])
    (h : ∀ x ∈ xs, Phrase P (text x) (tokens x)) :
    Phrase P (join sep (xs.map text)) (seps.intercalate (xs.map tokens)) := by
  induction xs with
  | nil => exact absurd rfl hne
  | cons x xs ih =>
      cases xs with
      | nil => simpa [join] using h x List.mem_cons_self
      | cons y ys =>
          have hrest := ih (List.cons_ne_nil y ys) fun z hz => h z (List.mem_cons_of_mem x hz)
          rw [List.map_cons, List.map_cons, join, List.map_cons, List.map_cons, List.intercalate_cons_cons,
            List.append_assoc, List.append_assoc]
          have hhead : (sep ++ join sep (text y :: ys.map text)).head? = some c := by
            rw [List.head?_append, hc, Option.some_or]
          exact (h x List.mem_cons_self).append (hsep.then hrest) hhead hP

theorem Phrase.sentence (h : Phrase isBreak s ts) (hne : ts ≠ []) : Sentence s ts where
  reads := h.reads
  nonempty := hne
  whole := by
    refine topLevel_none (fun t ht => ?_) 0
    obtain ⟨x, hx, rfl⟩ := List.mem_map.mp ht
    rw [Bool.eq_false_iff]
    intro hsemi
    rw [Token.isPunct, Bool.and_eq_true, decide_eq_true_eq, decide_eq_true_eq] at hsemi
    exact h.whole x hx (Prod.ext hsemi.1 hsemi.2)
  balanced := foldl_balanced h.balanced 0

theorem splitFrom_semi {sql : Text} {us ts : List Token} {semi : Token} (hsemi : semi.isPunct ';' = true) {depth : Nat}
    {current : List Token} (hwhole : topLevel (·.isPunct ';') depth us = false)
    (hbalanced : us.foldl depthAfter depth = 0) :
    splitFrom sql depth current (us ++ semi :: ts) = push sql (current ++ us) semi.start ++ splitFrom sql 0 [] ts := by
  induction us generalizing depth current with
  | nil =>
      obtain rfl : depth = 0 := hbalanced
      rw [List.nil_append, splitFrom, if_pos ⟨hsemi, rfl⟩, List.append_nil]
  | cons u us ih =>
      simp only [topLevel, Bool.or_eq_false_iff, Bool.and_eq_false_iff, decide_eq_false_iff_not] at hwhole
      rw [List.foldl_cons] at hbalanced
      rw [List.cons_append, splitFrom, if_neg ?_, ih hwhole.2 hbalanced, List.append_assoc]
      · rfl
      · rintro ⟨hp, rfl⟩
        rcases hwhole.1 with h | h
        · exact h rfl
        · rw [h] at hp
          cases hp

theorem push_token {sql : Text} {pre rest : List Token} (us : List Token) {t : Token} {stop : Nat} (h : lex sql = pre ++ t :: rest)
    (hstop : t.start < stop) : ∃ st, push sql (t :: us) stop = [st] ∧ st.tokens = t :: us := by
  obtain ⟨k, hk, hlex⟩ := lexFrom_suffix (i := 0) (h : lexFrom 0 sql = pre ++ t :: rest)
  rw [Nat.zero_add] at hk hlex
  obtain ⟨c, ds, hdrop, hspace, -⟩ := lexFrom_head hlex hk
  obtain ⟨m, rfl⟩ := Nat.exists_eq_add_of_lt hstop
  have hslice : slice sql t.start (t.start + m + 1) = c :: ds.take m := by
    rw [slice, List.drop_take, hk, hdrop, show k + m + 1 - k = m + 1 by omega, List.take_succ_cons]
  obtain ⟨blanks, hblanks, hspaces, -⟩ := trim_split (x := ds.take m) hspace
  have hne : trim (c :: ds.take m) ≠ [] := by
    intro htrim
    rw [htrim, List.nil_append] at hblanks
    have hc := hspaces c (hblanks ▸ List.mem_cons_self)
    rw [hspace] at hc
    cases hc
  refine ⟨⟨trim (c :: ds.take m), t :: us, t.start, t.start + m + 1⟩, ?_, rfl⟩
  rw [push, hslice]
  exact if_neg hne

/-- The text of a script, a semicolon after each statement. -/
def script (ss : List (Text × List Shape)) : Text := ss.flatMap fun x => x.1 ++ [';']

theorem split_script (ss : List (Text × List Shape)) (h : ∀ x ∈ ss, Sentence x.1 x.2) :
    (split (script ss)).map (fun st => st.tokens.map shape) = ss.map Prod.snd := by
  have hall : ∀ sql pre i, lex sql = pre ++ lexFrom i (script ss) →
      (splitFrom sql 0 [] (lexFrom i (script ss))).map (fun st => st.tokens.map shape) = ss.map Prod.snd := by
    induction ss with
    | nil =>
        intro sql pre i _
        rfl
    | cons x ss ih =>
        intro sql pre i hsql
        have hx := h x List.mem_cons_self
        have hstop : Reads anyChar [';'] [(.punct, [';'])] := reads_punct (by simp)
        obtain ⟨us, hus, hshape⟩ := hx.reads i (';' :: script ss) fun c hc => by
          obtain rfl : ';' = c := Option.some.inj hc
          rfl
        obtain ⟨vs, hvs, hvshape⟩ := hstop (i + x.1.length) (script ss) fun _ _ => rfl
        obtain ⟨semi, rfl, hsemi⟩ := List.map_eq_singleton_iff.mp hvshape
        have hscript : script (x :: ss) = x.1 ++ ';' :: script ss := by simp [script]
        have htokens : lexFrom i (script (x :: ss)) =
            us ++ semi :: lexFrom (i + x.1.length + 1) (script ss) := by
          rw [hscript, hus]
          exact congrArg _ hvs
        have hcanon : us.map shape = (x.2.map canon).map shape := hshape.trans (shape_canon x.2).symm
        have hwhole : topLevel (·.isPunct ';') 0 us = false :=
          (topLevel_shape (fun _ _ h => isPunct_shape h ';') hcanon 0).trans hx.whole
        have hbalanced := (foldl_shape hcanon 0).trans hx.balanced
        have hpunct : semi.isPunct ';' = true :=
          (isPunct_shape (u := canon (.punct, [';'])) hsemi ';').trans rfl
        obtain ⟨t, ts, rfl⟩ := List.exists_cons_of_ne_nil (l := us) (by
          rintro rfl
          exact hx.nonempty hshape.symm)
        rw [htokens] at hsql ⊢
        have hstart : t.start < semi.start := by
          have hsorted := GuardTokens.lex_sorted sql
          rw [hsql] at hsorted
          have hlater := (List.pairwise_cons.mp (List.pairwise_append.mp hsorted).2.1).1
          exact hlater semi (by simp)
        obtain ⟨st, hst, hst'⟩ := push_token ts hsql hstart
        rw [splitFrom_semi hpunct hwhole hbalanced, List.nil_append, hst, List.map_append, List.map_singleton, hst',
          hshape, ih (fun y hy => h y (List.mem_cons_of_mem x hy)) sql (pre ++ (t :: ts) ++ [semi]) _ (by simpa using hsql)]
        rfl
  exact hall (script ss) [] 0 rfl

/-! What the guard finds in a statement of known tokens -/

theorem lead_shape {st : Statement} {w : Text} (h : st.tokens.map shape = (.word, w) :: ts) : lead st = w := by
  obtain ⟨t, us, htokens, ht, -⟩ := List.map_eq_cons_iff.mp h
  obtain ⟨hk, hv⟩ := Prod.mk.inj ht
  rw [lead, htokens]
  exact (if_pos hk).trans hv

theorem where_shape {st : Statement} (h : st.tokens.map shape = ts) :
    hasTopLevelWhere st = topLevel (·.isWord "WHERE") 0 (ts.map canon) := by
  refine topLevel_shape (fun t u htu => ?_) (h.trans (shape_canon ts).symm) 0
  obtain ⟨hk, hv⟩ := Prod.mk.inj htu
  rw [Token.isWord, Token.isWord, hk, hv]

/-- A script of one statement. -/
theorem split_single (h : Sentence s ts) : ∃ st, split (s ++ [';']) = [st] ∧ st.tokens.map shape = ts := by
  have hsplit := split_script [(s, ts)] (by simpa using h)
  have hscript : script [(s, ts)] = s ++ [';'] := by simp [script]
  rw [hscript] at hsplit
  obtain ⟨st, hst, htokens⟩ := List.map_eq_singleton_iff.mp hsplit
  exact ⟨st, hst, htokens⟩

/-- A single statement that is safe passes the guard with any parameters. -/
theorem checkRequest_single {Param Claims : Type} {sql : Text} {st : Statement} (h : split sql = [st])
    (hsafe : (danger st).danger = .safe) (req : Console.RunRequest Param Claims) :
    Console.checkRequest (classify sql) req = .ok () := by
  have hstatements : (classify sql).statements = [classifyOne st] := by
    rw [classify, h]
    rfl
  have hdanger : (classify sql).danger = .safe := by
    by_contra hne
    obtain ⟨u, hu, hd⟩ := (Verdicts.classify_danger sql).mp hne
    rw [h] at hu
    obtain rfl := List.mem_singleton.mp hu
    exact hd hsafe
  rw [Console.checkRequest, hstatements, hdanger]
  simp

end Corebase.SqlPrinting
