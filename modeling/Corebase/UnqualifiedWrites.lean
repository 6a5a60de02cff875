import Corebase.SqlBrackets
import Corebase.Verdicts
import Mathlib.Data.List.Forall2

namespace Corebase.UnqualifiedWrites

open JsText SqlLex SqlGuard TokenTests SqlBrackets Verdicts

/-- A write that a statement executes; for DELETE and UPDATE, whether it has a WHERE clause. -/
inductive Write
  | truncate
  | rows (qualified : Bool)
deriving DecidableEq

def Write.unqualified : Write → Bool
  | .truncate => true
  | .rows qualified => !qualified

def isWhere (t : Token) : Bool := t.isWord "WHERE"

def isWrite (t : Token) : Bool := t.isWord "DELETE" || t.isWord "UPDATE"

/-- The tokens after which any word is a name: a qualified name or an output label. -/
def introducesLabel (t : Token) : Bool := t.isPunct '.' || t.isWord "AS"

/-- A part of a DELETE or UPDATE in which no WHERE clause begins. -/
inductive Stretch : List Token → Prop
  | nil : Stretch []
  | token {t : Token} {ts : List Token} : isParen t = false → isWhere t = false → Stretch ts →
      Stretch (t :: ts)
  | label {t w : Token} {ts : List Token} : introducesLabel t = true → isWhere w = true → Stretch ts →
      Stretch (t :: w :: ts)
  | group {l r : Token} {inner ts : List Token} : l.isPunct '(' = true → Balanced inner →
      r.isPunct ')' = true → Stretch ts → Stretch (l :: (inner ++ r :: ts))

/-- A where outside all parentheses that is a name. -/
def NamesWhere (ts : List Token) : Prop :=
  ∃ pre t w post, ts = pre ++ t :: w :: post ∧ Balanced pre ∧ introducesLabel t = true ∧ isWhere w = true

inductive Columns : List Token → Prop
  | one {t : Token} : isName t = true → Columns [t]
  | more {t c : Token} {ts : List Token} : isName t = true → c.isPunct ',' = true → Columns ts →
      Columns (t :: c :: ts)

/-- The SEARCH and CYCLE clauses after a common table expression. -/
inductive Tail : List Token → Prop
  | nil : Tail []
  | search {s d f b e n : Token} {columns rest : List Token} : s.isWord "SEARCH" = true →
      isOneOf ["DEPTH", "BREADTH"] d = true → f.isWord "FIRST" = true → b.isWord "BY" = true →
      Columns columns → e.isWord "SET" = true → isName n = true → Tail rest →
      Tail (s :: d :: f :: b :: (columns ++ e :: n :: rest))
  | cycle {c e n u path : Token} {columns marks : List Token} : c.isWord "CYCLE" = true →
      Columns columns → e.isWord "SET" = true → isName n = true →
      (∀ t ∈ marks, t.isWord "USING" = false) → u.isWord "USING" = true → isName path = true →
      Tail (c :: (columns ++ e :: n :: (marks ++ [u, path])))

/-- The column names that may follow the name of a common table expression. -/
inductive ColumnList : List Token → Prop
  | nil : ColumnList []
  | parens {l r : Token} {columns : List Token} : l.isPunct '(' = true → Columns columns →
      r.isPunct ')' = true → ColumnList (l :: (columns ++ [r]))

/-- From the name of a common table expression to the word before its statement. -/
inductive CteHead : List Token → Prop
  | named {n a : Token} {columns hint : List Token} : isName n = true → ColumnList columns →
      a.isWord "AS" = true → hint.all (isOneOf ["NOT", "MATERIALIZED"]) = true →
      CteHead (n :: (columns ++ a :: hint))

def optionList : List Token → List (List Token)
  | [] => []
  | t :: ts =>
      if t.isPunct ',' then [] :: optionList ts
      else match optionList ts with
        | o :: os => (t :: o) :: os
        | [] => [[t]]

def isOn : List Token → Bool
  | [] => true
  | v :: _ => v.isWord "TRUE" || v.isWord "ON" || (v.kind = .number && v.value = lit "1")
      || (v.kind = .string && (toUpperCase v.value = lit "'TRUE'" || toUpperCase v.value = lit "'ON'"))

def analyzeOption : List Token → Option Bool
  | [] => none
  | t :: value =>
      if isOneOf ["ANALYZE", "ANALYSE"] t || (t.kind = .ident && t.value = lit "\"analyze\"") then
        some (isOn value)
      else none

/-- Does the option list of an EXPLAIN ask for execution? A later option overrides an earlier one. -/
def analyzes (options : List Token) : Bool :=
  (((optionList options).filterMap analyzeOption).getLast?).getD false

/-- What stands between EXPLAIN and its statement, and whether the statement is executed. -/
inductive ExplainOptions : List Token → Bool → Prop
  | none : ExplainOptions [] false
  | verbose {v : Token} : v.isWord "VERBOSE" = true → ExplainOptions [v] false
  | analyze {a : Token} : isOneOf ["ANALYZE", "ANALYSE"] a = true → ExplainOptions [a] true
  | both {a v : Token} : isOneOf ["ANALYZE", "ANALYSE"] a = true → v.isWord "VERBOSE" = true →
      ExplainOptions [a, v] true
  | list {l r : Token} {options : List Token} : l.isPunct '(' = true → Balanced options →
      r.isPunct ')' = true → ExplainOptions (l :: (options ++ [r])) (analyzes options)

def endsNoData (ts : List Token) : Bool :=
  match ts.reverse with
  | d :: n :: w :: _ => d.isWord "DATA" && n.isWord "NO" && w.isWord "WITH"
  | _ => false

def tableModifiers : List String := ["GLOBAL", "LOCAL", "TEMP", "TEMPORARY", "UNLOGGED"]

def isCreateTableAs (ts : List Token) : Bool :=
  match ts.dropWhile (isOneOf tableModifiers) with
  | t :: rest => t.isWord "TABLE" && topLevel (·.isWord "AS") 0 rest
  | [] => false

/-- May the statement execute another one that it contains, or a write of its own? -/
def isCarrier : List Token → Bool
  | [] => false
  | t :: ts => isOneOf ["TRUNCATE", "DELETE", "UPDATE", "WITH", "EXPLAIN"] t || t.isPunct '('
      || (t.isWord "COPY" && ts.head?.any (·.isPunct '(')) || (t.isWord "CREATE" && isCreateTableAs ts)

mutual

/-- The writes that the server executes when it runs a statement with these tokens. -/
inductive Executes : List Token → List Write → Prop
  | truncate {t : Token} {ts : List Token} : t.isWord "TRUNCATE" = true → Executes (t :: ts) [.truncate]
  | whole {t : Token} {ts : List Token} : isWrite t = true → Stretch ts → Executes (t :: ts) [.rows false]
  | qualified {t w : Token} {ts rest : List Token} : isWrite t = true → Stretch ts →
      ts.getLast?.any introducesLabel = false → isWhere w = true →
      Executes (t :: (ts ++ w :: rest)) [.rows true]
  | with {w : Token} {recursive ctes main : List Token} {ws ws' : List Write} : w.isWord "WITH" = true →
      recursive = [] ∨ (∃ r, recursive = [r] ∧ r.isWord "RECURSIVE" = true) →
      Ctes ctes ws → Executes main ws' → Executes (w :: (recursive ++ (ctes ++ main))) (ws ++ ws')
  | explain {e : Token} {options ts : List Token} {analyze : Bool} {ws : List Write} :
      e.isWord "EXPLAIN" = true → ExplainOptions options analyze →
      ts.head?.any (isOneOf ["ANALYZE", "ANALYSE", "VERBOSE"]) = false → Executes ts ws →
      Executes (e :: (options ++ ts)) (if analyze then ws else [])
  | parens {l r : Token} {ts rest : List Token} {ws : List Write} : l.isPunct '(' = true → Executes ts ws →
      r.isPunct ')' = true → Executes (l :: (ts ++ r :: rest)) ws
  | copy {c l r : Token} {ts rest : List Token} {ws : List Write} : c.isWord "COPY" = true →
      l.isPunct '(' = true → Executes ts ws → r.isPunct ')' = true → Executes (c :: l :: (ts ++ r :: rest)) ws
  | createTableAs {c t a : Token} {modifiers header ts : List Token} {ws : List Write} :
      c.isWord "CREATE" = true → modifiers.all (isOneOf tableModifiers) = true → t.isWord "TABLE" = true →
      Balanced header → topLevel (·.isWord "AS") 0 header = false → a.isWord "AS" = true → Executes ts ws →
      Executes (c :: (modifiers ++ t :: (header ++ a :: ts))) (if endsNoData ts then [] else ws)
  | other {t : Token} {ts : List Token} : isCarrier (t :: ts) = false → Executes (t :: ts) []

/-- The writes in the common table expressions of a WITH. -/
inductive Ctes : List Token → List Write → Prop
  | last {l r : Token} {head ts tail : List Token} {ws : List Write} : CteHead head → l.isPunct '(' = true →
      Executes ts ws → r.isPunct ')' = true → Tail tail → Ctes (head ++ l :: (ts ++ r :: tail)) ws
  | more {l r c : Token} {head ts tail rest : List Token} {ws ws' : List Write} : CteHead head →
      l.isPunct '(' = true → Executes ts ws → r.isPunct ')' = true → Tail tail → c.isPunct ',' = true →
      Ctes rest ws' → Ctes (head ++ l :: (ts ++ r :: (tail ++ c :: rest))) (ws ++ ws')

end

theorem isParen_label {t : Token} (h : introducesLabel t = true) : isParen t = false := by
  simp only [introducesLabel, Bool.or_eq_true] at h
  rcases h with h | h
  · exact isParen_punct h (by decide) (by decide)
  · exact isParen_isWord h

theorem topLevel_token {p : Token → Bool} {t : Token} (ts : List Token) (h : isParen t = false) :
    topLevel p 0 (t :: ts) = (p t || topLevel p 0 ts) := by
  simp [topLevel, depthAfter_token 0 h]

theorem topLevel_of_names {ts : List Token} (h : NamesWhere ts) : topLevel isWhere 0 ts = true := by
  obtain ⟨pre, t, w, post, rfl, hpre, ht, hw⟩ := h
  rw [topLevel_append hpre, topLevel_token _ (isParen_label ht), topLevel_token _ (isParen_isWord hw), hw]
  simp

/-- Where no WHERE clause begins, a where outside the parentheses is a name. -/
theorem stretch_where {ts : List Token} (h : Stretch ts) :
    topLevel isWhere 0 ts = true ↔ NamesWhere ts := by
  refine ⟨fun hw => ?_, topLevel_of_names⟩
  induction h with
  | nil => cases hw
  | @token t ts hp hn _ ih =>
      rw [topLevel_token _ hp, hn, Bool.false_or] at hw
      obtain ⟨pre, u, w, post, rfl, hpre, hu, hw⟩ := ih hw
      exact ⟨t :: pre, u, w, post, rfl, .token hp hpre, hu, hw⟩
  | @label t w ts ht hww _ _ => exact ⟨[], t, w, ts, rfl, .nil, ht, hww⟩
  | @group l r inner ts hl hi hr _ ih =>
      rw [topLevel_skip _ hl hi hr (isPunct_isWord hl)] at hw
      obtain ⟨pre, u, w, post, rfl, hpre, hu, hw⟩ := ih hw
      exact ⟨l :: (inner ++ r :: pre), u, w, post, by simp, .group hl hi hr hpre, hu, hw⟩

theorem Stretch.balanced {ts : List Token} (h : Stretch ts) : Balanced ts := by
  induction h with
  | nil => exact .nil
  | token ht _ _ ih => exact .token ht ih
  | label ht hw _ ih => exact .token (isParen_label ht) (.token (isParen_isWord hw) ih)
  | group hl hi hr _ ih => exact .group hl hi hr ih

/-- What makes the guard call a statement dangerous. A DELETE or UPDATE without a WHERE
clause does, unless it uses where as a name. -/
def Alarming (s : Statement) (ws : List Write) : Prop :=
  lead s = lit "DROP" ∨ lead s = lit "TRUNCATE" ∨
    ((lead s = lit "DELETE" ∨ lead s = lit "UPDATE") ∧ ws = [.rows false] ∧ ¬ NamesWhere (s.tokens.drop 1)) ∨
    (lead s = lit "ALTER" ∧ ∃ ts ∈ alterActions s, actionDrop s ts ≠ .other) ∨
    (lead s = lit "GRANT" ∧ grantee s ≠ none)

theorem isWrite_cases {t : Token} (h : isWrite t = true) :
    t.isWord "DELETE" = true ∨ t.isWord "UPDATE" = true := by
  simpa [isWrite] using h

theorem isWrite_word {t : Token} {w : String} (h : isWrite t = true) (hw : t.isWord w = true) :
    w = "DELETE" ∨ w = "UPDATE" :=
  (isWrite_cases h).imp (isWord_inj hw) (isWord_inj hw)

theorem not_write_word {t : Token} {w : String} (h : isWrite t = true) (hw : t.isWord w = true)
    (hne : w ≠ "DELETE" ∧ w ≠ "UPDATE") : False :=
  (isWrite_word h hw).elim hne.1 hne.2

theorem isWrite_punct {t : Token} {c : Char} (h : isWrite t = true) : t.isPunct c = false :=
  (isWrite_cases h).elim isWord_isPunct isWord_isPunct

/-- What a statement that begins with DELETE or UPDATE executes. -/
theorem executes_write {t : Token} {ts : List Token} {ws : List Write} (ht : isWrite t = true)
    (h : Executes (t :: ts) ws) :
    ws = [.rows false] ∧ Stretch ts ∨ ws = [.rows true] ∧ topLevel isWhere 0 ts = true := by
  cases h with
  | truncate hw => exact (not_write_word ht hw (by decide)).elim
  | whole _ hs => exact .inl ⟨rfl, hs⟩
  | @qualified _ w ts rest _ hs _ hw =>
      refine .inr ⟨rfl, ?_⟩
      rw [topLevel_append hs.balanced, topLevel_token _ (isParen_isWord hw), hw]
      simp
  | «with» hw => exact (not_write_word ht hw (by decide)).elim
  | explain hw => exact (not_write_word ht hw (by decide)).elim
  | parens hl => rw [isWrite_punct ht] at hl; cases hl
  | copy hw => exact (not_write_word ht hw (by decide)).elim
  | createTableAs hw => exact (not_write_word ht hw (by decide)).elim
  | other hc =>
      simp only [isCarrier, Bool.or_eq_false_iff] at hc
      rcases isWrite_cases ht with hw | hw <;> simp [isOneOf, hw] at hc <;> simp_all [Token.isWord]

theorem alarming_iff {s : Statement} {ws : List Write} (h : Executes s.tokens ws) :
    (SqlGuard.danger s).danger ≠ .safe ↔ Alarming s ws := by
  rw [danger_iff, Alarming]
  have hwrite : lead s = lit "DELETE" ∨ lead s = lit "UPDATE" →
      (hasTopLevelWhere s = false ↔ ws = [.rows false] ∧ ¬ NamesWhere (s.tokens.drop 1)) := by
    intro hl
    cases hs : s.tokens with
    | nil => simp [lead, hs, lit] at hl
    | cons t ts =>
        rw [hs] at h
        have ht : isWrite t = true := by
          rw [isWrite, Bool.or_eq_true]
          exact hl.imp (isWord_of_lead hs (by decide)) (isWord_of_lead hs (by decide))
        have htop : hasTopLevelWhere s = topLevel isWhere 0 ts := by
          have hn : isWhere t = false := by
            rw [Bool.eq_false_iff]
            exact fun hw => not_write_word ht hw (by decide)
          change topLevel isWhere 0 s.tokens = _
          rw [hs, topLevel_token _ ?_, hn, Bool.false_or]
          exact (isWrite_cases ht).elim isParen_isWord isParen_isWord
        rw [htop, List.drop_one, List.tail_cons]
        rcases executes_write ht h with ⟨rfl, hstretch⟩ | ⟨rfl, hw⟩
        · rw [← Bool.not_eq_true, stretch_where hstretch]
          simp
        · simp [hw]
  by_cases hl : lead s = lit "DELETE" ∨ lead s = lit "UPDATE"
  · simp only [hl, true_and, hwrite hl]
  · simp only [hl, false_and]

/-- Some statement of the script executes a TRUNCATE, or a DELETE or UPDATE with no WHERE. -/
def writesUnqualified (writes : List (List Write)) : Bool := writes.any (·.any Write.unqualified)

/-- The guard's promise about a script whose statements execute these writes. -/
def Guarded (sql : Text) (writes : List (List Write)) : Prop :=
  writesUnqualified writes = true → (classify sql).danger ≠ .safe

theorem exists_zip {α β : Type} {r : α → β → Prop} {as : List α} {bs : List β} {p : α → Prop} {q : α → β → Prop}
    (h : List.Forall₂ r as bs) (hpq : ∀ a b, r a b → (p a ↔ q a b)) :
    (∃ a ∈ as, p a) ↔ ∃ ab ∈ as.zip bs, q ab.1 ab.2 := by
  induction h with
  | nil => simp
  | cons hr _ ih => simp [hpq _ _ hr, ih]

theorem split_delete : split "DELETE FROM t".toList = [⟨"DELETE FROM t".toList,
    [⟨.word, "DELETE".toList, 0, 6⟩, ⟨.word, "FROM".toList, 7, 11⟩, ⟨.word, "T".toList, 12, 13⟩], 0, 13⟩] := by
  decide

end Corebase.UnqualifiedWrites
