import Corebase.ServerScan

namespace Corebase.GuardClasses

open JsText SqlLex ServerScan

def stringQuote (text : Text) : Quote :=
  if text.head? = some '$' then .dollar
  else if text.head? = some '\x27' then .plain
  else .escape

def lexemeClass (x : Lexeme) (text : Text) : ServerScan.Class :=
  match x with
  | .blank => .blank
  | .comment => .comment
  | .token .string => .quoted (stringQuote text)
  | .token .ident => .quoted .ident
  | .token _ => .code

def paint (k : ServerScan.Class) (text : Text) : List ServerScan.Class := text.map fun _ => k

def pieceClasses (p : Piece) : List ServerScan.Class := paint (lexemeClass p.lexeme p.text) p.text

/-- The guard's reading of each character of the script. -/
def guardClasses (sql : Text) : List ServerScan.Class := (pieces sql).flatMap pieceClasses

theorem dollarTag_pos {p q : Char → Bool} {cs delim : Text} (h : dollarTag p q cs = some delim) :
    0 < delim.length := by
  unfold dollarTag at h
  split at h
  · simp only [Option.ite_none_right_eq_some, Option.some.injEq] at h
    simp [← h.2]
  · cases h

theorem dollarBody_pos {delim : Text} (cs : Text) (h : 0 < delim.length) (hcs : cs ≠ []) :
    0 < dollarBody delim cs := by
  unfold dollarBody
  split
  · omega
  · exact List.length_pos_iff.mpr hcs

theorem isWordChar_of_start {c : Char} (h : isWordStart c = true) : isWordChar c = true := by
  simp only [isWordStart, isWordChar, Bool.or_eq_true, decide_eq_true_eq] at h ⊢
  rcases h with (h | h) | h <;> simp [h]

theorem lexeme_pos (c : Char) (cs : Text) : 0 < (lexeme (c :: cs)).2 := by
  simp only [lexeme]
  split
  · simp
  split
  next h => simp [lineComment, h.1]
  split
  next h =>
    obtain ⟨rfl, h⟩ := h
    cases cs with
    | nil => simp at h
    | cons d ds =>
        obtain rfl : d = '*' := by simpa using h
        simp only [blockComment]
        omega
  split
  next delim h => exact dollarBody_pos _ (dollarTag_pos h) (by simp)
  split
  · simp only; omega
  split
  · simp only; omega
  split
  · simp only; omega
  split
  · simp only; omega
  split
  next h => simp [isWordChar_of_start h]
  · simp

theorem piecesFrom_fuel (fuel fuel' : Nat) (cs : Text) (h : cs.length ≤ fuel) (h' : cs.length ≤ fuel') :
    piecesFrom fuel cs = piecesFrom fuel' cs := by
  induction fuel generalizing fuel' cs with
  | zero =>
      have hcs : cs = [] := List.length_eq_zero_iff.mp (by omega)
      subst hcs
      cases fuel' <;> rfl
  | succ fuel ih =>
      cases cs with
      | nil => cases fuel' <;> rfl
      | cons c cs =>
          cases fuel' with
          | zero => simp at h'
          | succ fuel' =>
              have hp := lexeme_pos c cs
              simp only [piecesFrom]
              congr 1
              apply ih <;> simp only [List.length_drop, List.length_cons] at * <;> omega

theorem pieces_cons (c : Char) (cs : Text) :
    pieces (c :: cs) = ⟨(lexeme (c :: cs)).1, (lexeme (c :: cs)).2, (c :: cs).take (lexeme (c :: cs)).2⟩ ::
      pieces ((c :: cs).drop (lexeme (c :: cs)).2) := by
  have hp := lexeme_pos c cs
  simp only [pieces, List.length_cons, piecesFrom]
  congr 1
  apply piecesFrom_fuel
  · simp only [List.length_drop, List.length_cons]; omega
  · exact Nat.le_refl _

theorem guard_step (c : Char) (cs : Text) {x : Lexeme} {n : Nat} (h : lexeme (c :: cs) = (x, n)) :
    guardClasses (c :: cs) = paint (lexemeClass x ((c :: cs).take n)) ((c :: cs).take n) ++
      guardClasses ((c :: cs).drop n) := by
  simp only [guardClasses, pieces_cons, h, pieceClasses, List.flatMap_cons]

theorem guard_piece (pre rest : Text) (x : Lexeme) (hpre : pre ≠ [])
    (h : lexeme (pre ++ rest) = (x, pre.length)) :
    guardClasses (pre ++ rest) = paint (lexemeClass x pre) pre ++ guardClasses rest := by
  cases pre with
  | nil => exact absurd rfl hpre
  | cons c cs =>
      have hs := guard_step c (cs ++ rest) h
      rwa [← List.cons_append, List.take_left, List.drop_left] at hs

theorem isDigit_iff (c : Char) : isDigit c = true ↔ 48 ≤ c.toNat ∧ c.toNat ≤ 57 := by
  simp only [isDigit, Bool.and_eq_true, decide_eq_true_eq, Char.le_def, UInt32.le_iff_toNat_le]
  rfl

theorem isLetter_iff (c : Char) : isLetter c = true ↔
    65 ≤ c.toNat ∧ c.toNat ≤ 90 ∨ 97 ≤ c.toNat ∧ c.toNat ≤ 122 := by
  simp only [isLetter, Bool.or_eq_true, Bool.and_eq_true, decide_eq_true_eq, Char.le_def,
    UInt32.le_iff_toNat_le]
  rfl

theorem isHigh_iff (c : Char) : isHigh c = true ↔ 128 ≤ c.toNat := by
  simp only [isHigh, decide_eq_true_eq]
  omega

/-- A space of the guard is one of the server or lies beyond ASCII. -/
theorem isSpace_cases {c : Char} (h : isSpace c = true) : isBlank c = true ∨ isHigh c = true := by
  simp only [isSpace, Bool.or_eq_true, decide_eq_true_eq, List.mem_cons, List.not_mem_nil, or_false,
    Bool.and_eq_true, Char.le_def, UInt32.le_iff_toNat_le] at h
  rcases h with h | ⟨h, -⟩
  · rcases h with rfl | rfl | rfl | rfl | rfl | rfl | rfl | rfl | rfl | rfl | rfl | rfl | rfl | rfl <;> decide
  · right
    rw [isHigh_iff]
    change 8192 ≤ c.toNat at h
    omega

theorem isBlank_toNat {c : Char} (h : isBlank c = true) : c.toNat ≤ 32 := by
  simp only [isBlank, decide_eq_true_eq, List.mem_cons, List.not_mem_nil, or_false] at h
  rcases h with rfl | rfl | rfl | rfl | rfl | rfl <;> decide

theorem isSpace_toNat {c : Char} (h : isSpace c = true) : c.toNat ≤ 32 ∨ 128 ≤ c.toNat := by
  rcases isSpace_cases h with h | h
  · exact .inl (isBlank_toNat h)
  · exact .inr ((isHigh_iff c).mp h)

theorem isSpace_false {c : Char} (h : 32 < c.toNat) (h' : c.toNat < 128) : isSpace c = false := by
  rw [Bool.eq_false_iff]
  intro hs
  rcases isSpace_toNat hs with h | h <;> omega

theorem wordStart_ne {c : Char} (h : isWordStart c = true) :
    c ≠ '-' ∧ c ≠ '/' ∧ c ≠ '$' ∧ c ≠ '\x27' ∧ c ≠ '"' ∧ isDigit c = false := by
  refine ⟨?_, ?_, ?_, ?_, ?_, ?_⟩
  iterate 5
    rintro rfl
    revert h
    decide
  rw [Bool.eq_false_iff, ne_eq, isDigit_iff]
  simp only [isWordStart, Bool.or_eq_true, isLetter_iff, isHigh_iff, decide_eq_true_eq] at h
  rcases h with (h | rfl) | h
  · omega
  · decide
  · omega

theorem dollarTag_none {p q : Char → Bool} {c : Char} (cs : Text) (h : c ≠ '$') :
    dollarTag p q (c :: cs) = none := by
  unfold dollarTag
  split
  next heq => exact absurd (List.cons.inj heq).1 h
  · rfl

theorem guard_blank {c : Char} (cs : Text) (h : isSpace c = true) :
    guardClasses (c :: cs) = .blank :: guardClasses cs :=
  guard_piece [c] cs .blank (by simp) (by simp [lexeme, h])

theorem guard_lineComment (cs : Text) :
    guardClasses ('-' :: '-' :: cs) = paint .comment ('-' :: '-' :: cs.takeWhile (· ≠ '\n')) ++
      guardClasses (cs.dropWhile (· ≠ '\n')) := by
  have hs : '-' :: '-' :: cs = '-' :: '-' :: cs.takeWhile (· ≠ '\n') ++ cs.dropWhile (· ≠ '\n') := by
    simp
  conv => lhs; rw [hs]
  exact guard_piece _ _ .comment (by simp) (by simp [lexeme, isSpace, lineComment])

theorem blockComment_eq (depth : Nat) (cs : Text) (h : depth ≠ 0) :
    blockComment depth cs = commentRest depth cs := by
  fun_induction blockComment depth cs with
  | case1 depth cs ih =>
      obtain ⟨n, rfl⟩ := Nat.exists_eq_succ_of_ne_zero h
      simp only [commentRest, ih (by omega)]
  | case2 depth cs hd =>
      obtain rfl : depth = 1 := by omega
      simp [commentRest]
  | case3 depth cs hd ih =>
      obtain ⟨n, rfl⟩ := Nat.exists_eq_succ_of_ne_zero h
      simp only [commentRest, Nat.succ_sub_one] at ih ⊢
      rw [ih (by omega)]
  | case4 depth c cs hopen hclose ih =>
      obtain ⟨n, rfl⟩ := Nat.exists_eq_succ_of_ne_zero h
      rw [ih (by omega), commentRest]
      · exact fun ds hd => hopen ds hd
      · exact fun ds hd => hclose ds hd
  | case5 depth => cases depth <;> rfl

theorem guard_blockComment (cs : Text) :
    guardClasses ('/' :: '*' :: cs) = paint .comment (('/' :: '*' :: cs).take (2 + commentRest 1 cs)) ++
      guardClasses (('/' :: '*' :: cs).drop (2 + commentRest 1 cs)) := by
  refine guard_step '/' ('*' :: cs) (x := .comment) ?_
  simp [lexeme, isSpace, blockComment, blockComment_eq]

theorem guard_dollar {cs delim : Text} (h : dollarTag SqlLex.isTagStart isTagChar ('$' :: cs) = some delim) :
    guardClasses ('$' :: cs) = paint (.quoted .dollar) (('$' :: cs).take (dollarBody delim ('$' :: cs))) ++
      guardClasses (('$' :: cs).drop (dollarBody delim ('$' :: cs))) := by
  have hpos := dollarBody_pos ('$' :: cs) (dollarTag_pos h) (by simp)
  have hs := guard_step '$' cs (x := .token .string) (by simp [lexeme, isSpace, h]; rfl)
  rw [hs, lexemeClass, stringQuote, if_pos]
  rw [List.head?_take, if_neg (by omega)]
  rfl

/-- A character that begins no other token. -/
theorem guard_punct {c : Char} (cs : Text) (hs : isSpace c = false)
    (hd : c = '-' → cs.head? ≠ some '-') (hc : c = '/' → cs.head? ≠ some '*')
    (ht : dollarTag SqlLex.isTagStart isTagChar (c :: cs) = none) (hq : c ≠ '\x27') (hi : c ≠ '"')
    (hn : isDigit c = false) (hw : isWordStart c = false) :
    guardClasses (c :: cs) = .code :: guardClasses cs := by
  refine guard_piece [c] cs (.token .punct) (by simp) ?_
  have he : c ≠ 'E' ∧ c ≠ 'e' := by
    constructor
    all_goals rintro rfl; revert hw; decide
  simp only [List.singleton_append, List.length_singleton, lexeme, hs, ht, hq, hi, hn, hw, he,
    Bool.false_eq_true, if_false, false_or, false_and]
  rw [if_neg fun h => hd h.1 h.2, if_neg fun h => hc h.1 h.2]

theorem guard_word {c : Char} {cs : Text} (hw : isWordStart c = true) (hs : isSpace c = false)
    (he : c = 'E' ∨ c = 'e' → cs.head? ≠ some '\x27') :
    guardClasses (c :: cs) = paint .code (c :: cs.takeWhile isWordChar) ++
      guardClasses (cs.dropWhile isWordChar) := by
  obtain ⟨h1, h2, h3, h4, h5, h6⟩ := wordStart_ne hw
  have hc : c :: cs = c :: cs.takeWhile isWordChar ++ cs.dropWhile isWordChar := by simp
  conv => lhs; rw [hc]
  refine guard_piece _ _ (.token .word) (by simp) ?_
  have he' : ¬ ((c = 'E' ∨ c = 'e') ∧ cs.head? = some '\x27') := fun h => he h.1 h.2
  simp [lexeme, hs, dollarTag_none, isWordChar_of_start hw, hw, h1, h2, h3, h4, h5, h6, he']

theorem guard_escape {c : Char} (cs : Text) (h : c = 'E' ∨ c = 'e') :
    guardClasses (c :: '\x27' :: cs) =
      paint (.quoted .escape) ((c :: '\x27' :: cs).take (2 + escapeBody cs)) ++
        guardClasses ((c :: '\x27' :: cs).drop (2 + escapeBody cs)) := by
  have hd : c ≠ '$' := by rcases h with rfl | rfl <;> decide
  have hs := guard_step c ('\x27' :: cs) (x := .token .string) (n := 2 + escapeBody cs)
    (by rcases h with rfl | rfl <;> simp [lexeme, isSpace, dollarTag_none])
  rw [hs, lexemeClass, stringQuote, Nat.add_comm 2]
  rcases h with rfl | rfl <;> rfl

theorem guard_plain (cs : Text) :
    guardClasses ('\x27' :: cs) = paint (.quoted .plain) (('\x27' :: cs).take (1 + quotedBody '\x27' cs)) ++
      guardClasses (('\x27' :: cs).drop (1 + quotedBody '\x27' cs)) := by
  have hs := guard_step '\x27' cs (x := .token .string) (n := 1 + quotedBody '\x27' cs)
    (by simp [lexeme, isSpace, dollarTag_none])
  rw [hs, lexemeClass, stringQuote, Nat.add_comm 1]
  rfl

theorem guard_ident (cs : Text) :
    guardClasses ('"' :: cs) = paint (.quoted .ident) (('"' :: cs).take (1 + quotedBody '"' cs)) ++
      guardClasses (('"' :: cs).drop (1 + quotedBody '"' cs)) :=
  guard_step '"' cs (x := .token .ident) (by simp [lexeme, isSpace, dollarTag_none])

/-- The guard's reading inside the run of a number token (run) or at the start of a token. -/
def guardFrom (run : Bool) (cs : Text) : List ServerScan.Class :=
  if run then paint .code (cs.takeWhile isNumberChar) ++ guardClasses (cs.dropWhile isNumberChar)
  else guardClasses cs

theorem guardFrom_run {c : Char} (cs : Text) (h : isNumberChar c = true) :
    guardFrom true (c :: cs) = .code :: guardFrom true cs := by
  simp [guardFrom, h, paint]

theorem guardFrom_fresh {c : Char} (run : Bool) (cs : Text) (h : isNumberChar c = false) :
    guardFrom run (c :: cs) = guardClasses (c :: cs) := by
  cases run <;> simp [guardFrom, h, paint]

theorem guard_digit {c : Char} (cs : Text) (h : isDigit c = true) :
    guardClasses (c :: cs) = .code :: guardFrom true cs := by
  have hc : c :: cs = c :: cs.takeWhile isNumberChar ++ cs.dropWhile isNumberChar := by simp
  conv => lhs; rw [hc]
  have hs : isSpace c = false := by
    have hn := (isDigit_iff c).mp h
    exact isSpace_false (by omega) (by omega)
  have hne : c ≠ '-' ∧ c ≠ '/' ∧ c ≠ '$' ∧ c ≠ 'E' ∧ c ≠ 'e' ∧ c ≠ '\x27' ∧ c ≠ '"' := by
    refine ⟨?_, ?_, ?_, ?_, ?_, ?_, ?_⟩
    all_goals rintro rfl; revert h; decide
  refine (guard_piece _ _ (.token .number) (by simp) ?_).trans (by simp [guardFrom, paint, lexemeClass])
  simp [lexeme, dollarTag_none, hs, hne, h]
  omega

theorem guardFrom_digit {c : Char} (run : Bool) (cs : Text) (h : isDigit c = true) :
    guardFrom run (c :: cs) = .code :: guardFrom true cs := by
  cases run with
  | false => exact guard_digit cs h
  | true => exact guardFrom_run cs (by simp [isNumberChar, h])

theorem guardFrom_append (pre rest : Text) (h : ∀ c ∈ pre, isNumberChar c = true) :
    guardFrom true (pre ++ rest) = paint .code pre ++ guardFrom true rest := by
  induction pre with
  | nil => rfl
  | cons c pre ih =>
      rw [List.cons_append, guardFrom_run _ (h c (by simp)), ih fun d hd => h d (by simp [hd])]
      rfl

theorem digitsRest_chars (cs : Text) : ∀ c ∈ cs.take (digitsRest isDigit cs), isNumberChar c = true := by
  fun_induction digitsRest isDigit cs with
  | case1 c cs h ih =>
      intro d hd
      rw [Nat.add_comm, List.take_succ_cons, List.mem_cons] at hd
      rcases hd with rfl | hd
      · simp [isNumberChar, h]
      · exact ih d hd
  | case2 d ds hd _ ih =>
      intro e he
      rw [Nat.add_comm, List.take_succ_cons, List.take_succ_cons, List.mem_cons, List.mem_cons] at he
      rcases he with rfl | rfl | he
      · decide
      · simp [isNumberChar, hd]
      · exact ih e he
  | case3 => simp
  | case4 => simp
  | case5 => simp

theorem decinteger_chars (cs : Text) : ∀ c ∈ cs.take (decinteger cs), isNumberChar c = true := by
  cases cs with
  | nil => simp
  | cons c cs =>
      intro d hd
      simp only [decinteger] at hd
      split at hd
      next h =>
        rw [Nat.add_comm, List.take_succ_cons, List.mem_cons] at hd
        rcases hd with rfl | hd
        · simp [isNumberChar, h]
        · exact digitsRest_chars cs d hd
      · simp at hd

theorem mantissa_chars (cs : Text) : ∀ c ∈ cs.take (mantissa cs), isNumberChar c = true := by
  intro c hc
  simp only [mantissa] at hc
  split at hc
  · exact decinteger_chars cs c hc
  next ds _ h =>
    rw [Nat.add_assoc, List.take_add, h, List.mem_append, Nat.add_comm, List.take_succ_cons,
      List.mem_cons] at hc
    rcases hc with hc | rfl | hc
    · exact decinteger_chars cs c hc
    · decide
    · exact decinteger_chars ds c hc
  · exact decinteger_chars cs c hc

theorem identifier_eq {cs : Text} (h : identifier cs ≠ []) : ∃ c ds, cs = c :: ds ∧
    isWordStart c = true ∧ identifier cs = c :: ds.takeWhile isWordChar := by
  cases cs with
  | nil => simp [identifier] at h
  | cons c ds =>
      by_cases hc : isIdentStart c = true
      · exact ⟨c, ds, rfl, hc, by simp only [identifier, hc, if_true]; rfl⟩
      · simp [identifier, hc] at h

theorem paint_append (k : ServerScan.Class) (a b : Text) : paint k (a ++ b) = paint k a ++ paint k b :=
  List.map_append

theorem isSuffix_head {number w : Text} {c : Char} (h : isSuffix number (c :: w) = true) :
    w ≠ [] ∧ c ∈ ['e', 'E', 'x', 'X', 'o', 'O', 'b', 'B'] := by
  unfold isSuffix at h
  split at h
  next heq => cases heq; simp_all
  next heq => cases heq; simp_all
  next heq =>
    cases heq
    simp only [Bool.and_eq_true, decide_eq_true_eq, Option.any_eq_true] at h
    obtain ⟨⟨-, hw⟩, d, hd, -⟩ := h
    refine ⟨hw, ?_⟩
    unfold radixDigits at hd
    split at hd <;> simp_all
  next heq => cases heq

/-- The letters after a number are read as one word. -/
theorem guard_suffix {number cs : Text} (h : isSuffix number (identifier cs) = true) :
    guardFrom true cs = paint .code (cs.take (identifier cs).length) ++
      guardFrom false (cs.drop (identifier cs).length) := by
  have hne : identifier cs ≠ [] := by intro he; simp [he, isSuffix] at h
  obtain ⟨c, ds, rfl, hw, hi⟩ := identifier_eq hne
  rw [hi] at h ⊢
  obtain ⟨hd, hc⟩ := isSuffix_head h
  have hn : isNumberChar c = false ∧ isSpace c = false := by
    simp only [List.mem_cons, List.not_mem_nil, or_false] at hc
    rcases hc with rfl | rfl | rfl | rfl | rfl | rfl | rfl | rfl <;> decide
  have he : ds.head? ≠ some '\x27' := by
    intro he
    cases ds with
    | nil => cases he
    | cons d ds =>
        obtain rfl : d = '\x27' := Option.some.inj he
        exact hd rfl
  rw [guardFrom_fresh _ _ hn.1, guard_word hw hn.2 fun _ => he, List.length_cons, List.take_succ_cons,
    List.drop_succ_cons, take_takeWhile, drop_takeWhile]
  rfl

theorem paint_take_add (k : ServerScan.Class) (cs : Text) (m n : Nat) :
    paint k (cs.take (m + n)) = paint k (cs.take m) ++ paint k ((cs.drop m).take n) := by
  rw [← paint_append, List.take_add]

theorem guard_signed {cs : Text} {n : Nat} (h : signedExponent cs = some n) :
    guardFrom true cs = paint .code (cs.take n) ++ guardFrom true (cs.drop n) := by
  unfold signedExponent at h
  split at h
  next e s ds =>
    simp only [Option.ite_none_right_eq_some, Option.some.injEq] at h
    obtain ⟨⟨he, hs, hn⟩, rfl⟩ := h
    have hd : ds.head? ≠ some '-' := by
      intro hd
      cases ds with
      | nil => cases hd
      | cons d ds =>
          obtain rfl : d = '-' := Option.some.inj hd
          simp [decinteger, isDigit] at hn
    have hword : guardFrom true (e :: s :: ds) = .code :: guardClasses (s :: ds) := by
      rcases he with rfl | rfl <;> rcases hs with rfl | rfl
      all_goals
        rw [guardFrom_fresh _ _ (by decide), guard_word (by decide) (by decide) (by simp)]
        rfl
    have hsign : guardClasses (s :: ds) = .code :: guardFrom true ds := by
      have hp : guardClasses (s :: ds) = .code :: guardClasses ds := by
        rcases hs with rfl | rfl
        · exact guard_punct ds (by decide) (by simp) (by simp) (dollarTag_none _ (by decide))
            (by decide) (by decide) (by decide) (by decide)
        · exact guard_punct ds (by decide) (fun _ => hd) (by simp) (dollarTag_none _ (by decide))
            (by decide) (by decide) (by decide) (by decide)
      cases ds with
      | nil => exact absurd hn (by simp [decinteger])
      | cons d ds =>
          have hdig : isDigit d = true := by
            by_contra hdig
            simp [decinteger, hdig] at hn
          rw [hp, guard_digit ds hdig, guardFrom_digit true ds hdig]
    rw [hword, hsign, Nat.add_comm, List.take_succ_cons, List.take_succ_cons, List.drop_succ_cons,
      List.drop_succ_cons]
    conv => lhs; rw [← List.take_append_drop (decinteger ds) ds]
    rw [guardFrom_append _ _ (decinteger_chars ds)]
    rfl
  · cases h

theorem guard_number {cs : Text} {k : Kind} {n : Nat} (h : number cs = some (k, n)) :
    ∃ suffix, k = .number suffix ∧
      guardFrom true cs = paint .code (cs.take n) ++ guardFrom (!suffix) (cs.drop n) := by
  simp only [number] at h
  generalize hm : (if cs.head? = some '.' then 1 + decinteger cs.tail else mantissa cs) = m at h
  have hrun : guardFrom true cs = paint .code (cs.take m) ++ guardFrom true (cs.drop m) := by
    conv => lhs; rw [← List.take_append_drop m cs]
    apply guardFrom_append
    intro c hc
    split at hm
    next hdot =>
      cases cs with
      | nil => cases hdot
      | cons d ds =>
          obtain rfl : d = '.' := Option.some.inj hdot
          subst hm
          rw [Nat.add_comm, List.take_succ_cons, List.mem_cons] at hc
          rcases hc with rfl | hc
          · decide
          · exact decinteger_chars ds c hc
    · subst hm
      exact mantissa_chars cs c hc
  split at h
  · cases h
    exact ⟨false, rfl, hrun⟩
  split at h
  next hsuf =>
    cases h
    refine ⟨true, rfl, ?_⟩
    rw [hrun, guard_suffix hsuf, paint_take_add, List.append_assoc, List.drop_drop]
    rfl
  split at h
  next e he =>
    split at h
    · cases h
      refine ⟨false, rfl, ?_⟩
      rw [hrun, guard_signed he, paint_take_add, List.append_assoc, List.drop_drop]
      rfl
    · cases h
  · cases h

theorem guard_dollarSign (cs : Text)
    (h : dollarTag SqlLex.isTagStart isTagChar ('$' :: cs) = none) :
    guardClasses ('$' :: cs) = .code :: guardClasses cs :=
  guard_punct cs (by decide) (by simp) (by simp) h (by decide) (by decide) (by decide) (by decide)

theorem wordStart_of_char {c : Char} (h : isWordChar c = true) (hd : c ≠ '$') (hn : isDigit c = false) :
    isWordStart c = true := by
  simp only [isWordChar, isWordStart, Bool.or_eq_true, decide_eq_true_eq, hn, Bool.false_eq_true,
    or_false] at h ⊢
  rcases h with ((h | h) | h) | h
  · exact .inl (.inl h)
  · exact .inl (.inr h)
  · exact absurd h hd
  · exact .inr h

theorem not_prefix_of_paint {j k : ServerScan.Class} {c : Char} {cs : Text} {n : Nat} {tail rest : List ServerScan.Class}
    (hn : 0 < n) (hk : j ≠ k) : ¬ j :: tail <+: paint k ((c :: cs).take n) ++ rest := by
  obtain ⟨m, rfl⟩ := Nat.exists_eq_succ_of_ne_zero (Nat.pos_iff_ne_zero.mp hn)
  rw [List.take_succ_cons]
  exact fun hp => hk (List.cons_prefix_cons.mp hp).1

theorem dollarTag_iff {p q : Char → Bool} (hq : q '$' = false) (cs delim : Text) :
    dollarTag p q ('$' :: cs) = some delim ↔ ∃ tag rest, cs = tag ++ '$' :: rest ∧
      (∀ c ∈ tag, q c = true) ∧ tag.head?.all p = true ∧ delim = '$' :: tag ++ ['$'] := by
  simp only [dollarTag, Option.ite_none_right_eq_some, Option.some.injEq]
  constructor
  · rintro ⟨⟨hd, hp⟩, rfl⟩
    obtain ⟨c, rest, hr⟩ := List.exists_cons_of_ne_nil (l := cs.dropWhile q)
      (by intro h; simp [h] at hd)
    obtain rfl : c = '$' := by simpa [hr] using hd
    refine ⟨cs.takeWhile q, rest, ?_, fun c hc => List.mem_takeWhile_imp hc, hp, rfl⟩
    rw [← hr, List.takeWhile_append_dropWhile]
  · rintro ⟨tag, rest, rfl, hall, hp, rfl⟩
    have hstop := takeWhile_stop (w := tag) (b := '$' :: rest) hall (by simpa using hq)
    simp only [hstop.1, hstop.2, hp, List.head?_cons, and_self]

theorem isTagCont_low {c : Char} (h : isTagCont c = true) (hc : isHigh c = false) : isTagChar c = true := by
  simpa [isTagCont, isTagChar, hc] using h

theorem isTagCont_of_char {c : Char} (h : isTagChar c = true) : isTagCont c = true := by
  simp only [isTagChar, isTagCont, Bool.or_eq_true] at h ⊢
  exact .inl h

theorem isTagChar_low {c : Char} (h : isTagChar c = true) : isHigh c = false := by
  rw [Bool.eq_false_iff, ne_eq, isHigh_iff]
  simp only [isTagChar, Bool.or_eq_true, decide_eq_true_eq, isLetter_iff, isDigit_iff] at h
  rcases h with (h | h) | rfl
  · omega
  · omega
  · decide

/-- The guard knows the tags of the server that are spelt in ASCII, and no others. -/
theorem guard_dollarTag (cs delim : Text) :
    dollarTag SqlLex.isTagStart isTagChar ('$' :: cs) = some delim ↔
      dollarTag ServerScan.isTagStart isTagCont ('$' :: cs) = some delim ∧ delim.any isHigh = false := by
  rw [dollarTag_iff (by decide), dollarTag_iff (by decide)]
  constructor
  · rintro ⟨tag, rest, rfl, hall, hp, rfl⟩
    refine ⟨⟨tag, rest, rfl, fun c hc => isTagCont_of_char (hall c hc), ?_, rfl⟩, ?_⟩
    · cases tag with
      | nil => rfl
      | cons c tag => simpa [ServerScan.isTagStart, SqlLex.isTagStart, or_assoc] using Or.inl hp
    · have hlow : ∀ c ∈ tag, isHigh c = false := fun c hc => isTagChar_low (hall c hc)
      simpa [isHigh] using fun c hc => by simpa [isHigh] using hlow c hc
  · rintro ⟨⟨tag, rest, rfl, hall, hp, rfl⟩, hlow⟩
    have hlow' : ∀ c ∈ tag, isHigh c = false := by
      intro c hc
      by_contra h
      rw [List.any_eq_false] at hlow
      exact hlow c (by simp [hc]) (by simpa using h)
    refine ⟨tag, rest, rfl, fun c hc => isTagCont_low (hall c hc) (hlow' c hc), ?_, rfl⟩
    cases tag with
    | nil => rfl
    | cons c tag =>
        have hc := hlow' c (by simp)
        simpa [ServerScan.isTagStart, SqlLex.isTagStart, hc] using hp

theorem escapeBody_quote {cs : Text} (h : cs.head? ≠ some '\x27') : escapeBody ('\x27' :: cs) = 1 := by
  rw [escapeBody]
  rintro ds rfl
  exact h rfl

theorem escapeBody_other {c : Char} {cs : Text} (hb : c ≠ '\\') (hq : c ≠ '\x27') :
    escapeBody (c :: cs) = 1 + escapeBody cs := by
  rw [escapeBody]
  · exact fun h _ => hb h
  · exact fun _ _ h _ => hb h
  · exact fun _ h _ => hq h
  · exact hq

end Corebase.GuardClasses
