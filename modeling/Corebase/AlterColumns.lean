import Corebase.SqlBrackets
import Corebase.DropNames
import Corebase.Verdicts
import Mathlib.Tactic.Tauto

namespace Corebase.AlterColumns

open JsText SqlLex SqlGuard TokenTests SqlBrackets Verdicts DropNames

/-- Brackets of both kinds are closed again, and every comma stands inside some. -/
def enclosed : Nat → List Token → Bool
  | _, [] => true
  | depth, t :: ts =>
      if t.isPunct '(' || t.isPunct '[' then enclosed (depth + 1) ts
      else if t.isPunct ')' || t.isPunct ']' then enclosed (depth - 1) ts
      else (depth ≠ 0 || !t.isPunct ',') && enclosed depth ts

/-- One action of an ALTER TABLE. -/
inductive Action
  /-- DROP, perhaps COLUMN, perhaps IF EXISTS, the column, perhaps CASCADE or RESTRICT. -/
  | column (drop : Token) (keyword ifExists : List Token) (name : Token) (behavior : List Token)
  | constraint (drop keyword : Token) (rest : List Token)
  | other (head : Token) (rest : List Token)

def Action.tokens : Action → List Token
  | .column drop keyword ifExists name behavior => drop :: (keyword ++ (ifExists ++ name :: behavior))
  | .constraint drop keyword rest => drop :: keyword :: rest
  | .other head rest => head :: rest

def isIfExists (ts : List Token) : Prop :=
  ts = [] ∨ ∃ i e, ts = [i, e] ∧ i.isWord "IF" = true ∧ e.isWord "EXISTS" = true

def isBehavior (ts : List Token) : Prop := ts = [] ∨ ∃ b, ts = [b] ∧ isOneOf ["CASCADE", "RESTRICT"] b = true

/-- The action is one that the server accepts; COLUMN and CONSTRAINT are reserved, so no
column has them for an unquoted name. -/
def Action.WellFormed : Action → Prop
  | .column drop keyword ifExists name behavior => drop.isWord "DROP" = true ∧
      (keyword = [] ∨ ∃ k, keyword = [k] ∧ k.isWord "COLUMN" = true) ∧ isIfExists ifExists ∧
      isName name = true ∧ isOneOf ["COLUMN", "CONSTRAINT"] name = false ∧ isBehavior behavior
  | .constraint drop keyword rest => drop.isWord "DROP" = true ∧ keyword.isWord "CONSTRAINT" = true ∧
      ∃ ifExists name behavior, rest = ifExists ++ name :: behavior ∧ isIfExists ifExists ∧ isName name = true ∧
        isBehavior behavior
  | .other head rest => isName head = true ∧ head.isWord "DROP" = false ∧ Balanced (head :: rest) ∧
      enclosed 0 (head :: rest) = true

/-- The table of an ALTER TABLE. -/
inductive Relation
  | plain (only name : List Token)
  /-- With the marker for descendant tables after the name. -/
  | starred (name : List Token) (star : Token)
  | parens (only left : Token) (name : List Token) (right : Token)

def Relation.tokens : Relation → List Token
  | .plain only name => only ++ name
  | .starred name star => name ++ [star]
  | .parens only left name right => only :: left :: (name ++ [right])

def Relation.WellFormed : Relation → Prop
  | .plain only name => (only = [] ∨ ∃ o, only = [o] ∧ o.isWord "ONLY" = true) ∧ ∃ parts, DottedName name parts
  | .starred name star => (∃ parts, DottedName name parts) ∧ star.isPunct '*' = true
  | .parens only left name right => only.isWord "ONLY" = true ∧ left.isPunct '(' = true ∧
      (∃ parts, DottedName name parts) ∧ right.isPunct ')' = true

structure AlterTable where
  alter : Token
  table : Token
  ifExists : List Token
  relation : Relation
  first : Action
  /-- The further actions, each with the comma before it. -/
  more : List (Token × Action)

def moreTokens (more : List (Token × Action)) : List Token := more.flatMap fun ca => ca.1 :: ca.2.tokens

def AlterTable.tokens (a : AlterTable) : List Token :=
  a.alter :: a.table :: (a.ifExists ++ (a.relation.tokens ++ (a.first.tokens ++ moreTokens a.more)))

structure AlterTable.WellFormed (a : AlterTable) : Prop where
  alter : a.alter.isWord "ALTER" = true
  table : a.table.isWord "TABLE" = true
  ifExists : isIfExists a.ifExists
  relation : a.relation.WellFormed
  first : a.first.WellFormed
  more : ∀ ca ∈ a.more, ca.1.isPunct ',' = true ∧ ca.2.WellFormed

def Action.dropped (s : Statement) : Action → List Text
  | .column _ _ _ name _ => [text s name]
  | _ => []

/-- The columns that the statement drops. -/
def AlterTable.dropped (s : Statement) (a : AlterTable) : List Text :=
  a.first.dropped s ++ a.more.flatMap fun ca => ca.2.dropped s

/-- The names that the guard reads after a DROP at the head of the tokens and after each
comma of theirs that stands in no parentheses. -/
def guardNames (s : Statement) (ts : List Token) : List Text :=
  (ts :: afterCommas 0 ts).filterMap fun ts => (actionDrop s ts).columnName

/-- An unquoted column name that the guard takes for a part of the DROP action's syntax. -/
def hidesIf (ifExists : List Token) (name : Token) : Bool := ifExists = [] && isOneOf ["IF", "EXISTS"] name

def hidesWord (keyword ifExists : List Token) (name : Token) : Bool :=
  keyword = [] && ifExists = [] && isOneOf DROP_NOT_COLUMN name

/-- The dropped column that the guard finds in an action that it reads from its start. -/
def Action.kept (s : Statement) : Action → List Text
  | .column _ keyword ifExists name _ =>
      if hidesIf ifExists name || hidesWord keyword ifExists name then [] else [text s name]
  | _ => []

/-- The one that it misses there. -/
def Action.lost (s : Statement) : Action → List Text
  | .column _ keyword ifExists name _ =>
      if hidesIf ifExists name || hidesWord keyword ifExists name then [text s name] else []
  | _ => []

/-- The names after the commas of an action, which stand in square brackets. -/
def Action.bracketed (s : Statement) : Action → List Text
  | .other head rest => (afterCommas 0 (head :: rest)).filterMap fun ts => (actionDrop s ts).columnName
  | _ => []

/-- The names that the guard finds in an action without the action dropping them: the word
after a column name that it took for syntax, or one after a comma in square brackets. -/
def Action.invented (s : Statement) : Action → List Text
  | .column _ _ ifExists name behavior => if hidesIf ifExists name then behavior.map (text s) else []
  | a => a.bracketed s

/-- Where the guard believes the action list to begin. -/
inductive Reading
  | all
  /-- At the marker for descendant tables. -/
  | star
  /-- After the first name of the first action, taken for the table's. -/
  | shifted
  | nothing
deriving DecidableEq

def skipped (name : List Token) : Bool := name.head?.any (isOneOf SKIP)

def Relation.reading : Relation → Reading
  | .plain _ name => if skipped name then if name.length = 1 then .shifted else .nothing else .all
  | .starred name _ => if skipped name then .nothing else .star
  | .parens _ _ _ _ => .nothing

/-- The names in the first action from the end of its first name on, if it has one. -/
def shiftedNames (s : Statement) (first : Action) : Option (List Text) :=
  (dottedName s (first.tokens.dropWhile (isOneOf SKIP))).map fun got => guardNames s got.2

def moreOf (f : Action → List Text) (more : List (Token × Action)) : List Text := more.flatMap fun ca => f ca.2

def AlterTable.kept (s : Statement) (a : AlterTable) : List Text :=
  match a.relation.reading with
  | .all => a.first.kept s ++ moreOf (·.kept s) a.more
  | .star => moreOf (·.kept s) a.more
  | .shifted => if (shiftedNames s a.first).isSome then moreOf (·.kept s) a.more else []
  | .nothing => []

/-- The columns that the statement drops and the guard does not find there. -/
def AlterTable.lost (s : Statement) (a : AlterTable) : List Text :=
  match a.relation.reading with
  | .all => a.first.lost s ++ moreOf (·.lost s) a.more
  | .star => a.first.dropped s ++ moreOf (·.lost s) a.more
  | .shifted => if (shiftedNames s a.first).isSome then a.first.dropped s ++ moreOf (·.lost s) a.more else a.dropped s
  | .nothing => a.dropped s

/-- The names that the guard finds where the statement drops no column. -/
def AlterTable.invented (s : Statement) (a : AlterTable) : List Text :=
  match a.relation.reading with
  | .all => a.first.invented s ++ moreOf (·.invented s) a.more
  | .star => a.first.bracketed s ++ moreOf (·.invented s) a.more
  | .shifted =>
      match shiftedNames s a.first with
      | some names => names ++ moreOf (·.invented s) a.more
      | none => []
  | .nothing => []

theorem Action.mem_dropped (s : Statement) (a : Action) (c : Text) :
    c ∈ a.dropped s ↔ c ∈ a.kept s ∨ c ∈ a.lost s := by
  cases a with
  | column d k e n b =>
      simp only [Action.dropped, Action.kept, Action.lost]
      split <;> simp
  | constraint d k rest => simp [Action.dropped, Action.kept, Action.lost]
  | other head rest => simp [Action.dropped, Action.kept, Action.lost]

theorem mem_moreOf {f : Action → List Text} {more : List (Token × Action)} {c : Text} :
    c ∈ moreOf f more ↔ ∃ ca ∈ more, c ∈ f ca.2 := by
  simp [moreOf]

theorem mem_dropped_more (s : Statement) (more : List (Token × Action)) (c : Text) :
    c ∈ moreOf (·.dropped s) more ↔ c ∈ moreOf (·.kept s) more ∨ c ∈ moreOf (·.lost s) more := by
  simp only [mem_moreOf, Action.mem_dropped, ← exists_or, and_or_left]

theorem AlterTable.mem_dropped (s : Statement) (a : AlterTable) (c : Text) :
    c ∈ a.dropped s ↔ c ∈ a.kept s ∨ c ∈ a.lost s := by
  have hmore := mem_dropped_more s a.more c
  have hfirst := a.first.mem_dropped s c
  have hd : a.dropped s = a.first.dropped s ++ moreOf (·.dropped s) a.more := rfl
  unfold AlterTable.kept AlterTable.lost
  rw [hd]
  cases a.relation.reading with
  | all => simp only [List.mem_append, hmore, hfirst]; tauto
  | star => simp only [List.mem_append, hmore, hfirst]; tauto
  | shifted =>
      by_cases hs : (shiftedNames s a.first).isSome = true
      · simp only [hs, if_true, List.mem_append, hmore, hfirst]; tauto
      · simp [hs]
  | nothing => simp

/-- The tokens end, or go on with the comma before the next action. -/
def Stops (ts : List Token) : Prop := ∀ t, ts.head? = some t → t.isPunct ',' = true

theorem dottedParts_append (s : Statement) (ts : List Token) {rest : List Token} (h : Stops rest) :
    dottedParts s (ts ++ rest) = ((dottedParts s ts).1, (dottedParts s ts).2 ++ rest) := by
  have hnil : dottedParts s rest = ([], rest) := by
    apply dottedParts_end
    cases hr : rest.head? with
    | none => rfl
    | some t => exact isPunct_ne (h t hr) (by decide)
  fun_induction dottedParts s ts with
  | case1 d t ts hdt parts rest' heq ih =>
      simp only [List.cons_append, dottedParts, hdt, if_true, ih, heq]
  | case2 d t ts hdt =>
      simp [dottedParts, hdt]
  | case3 ts hts =>
      cases ts with
      | nil => simp [hnil]
      | cons d ts =>
          cases ts with
          | cons t ts => exact absurd rfl (hts d t ts)
          | nil =>
              cases rest with
              | nil => simp [dottedParts]
              | cons t rest => simp [dottedParts, isPunct_isName (h t rfl)]

theorem dottedName_append (s : Statement) (ts : List Token) {rest : List Token} (h : Stops rest) :
    dottedName s (ts ++ rest) = (dottedName s ts).map fun got => (got.1, got.2 ++ rest) := by
  cases ts with
  | nil =>
      cases rest with
      | nil => rfl
      | cons t rest => simp [dottedName, isPunct_isName (h t rfl)]
  | cons t ts =>
      simp only [List.cons_append, dottedName]
      split
      · simp [dottedParts_append s ts h]
      · rfl

theorem skipWord_append (w : String) (ts : List Token) {rest : List Token} (h : Stops rest) :
    skipWord w (ts ++ rest) = skipWord w ts ++ rest := by
  cases ts with
  | nil =>
      cases rest with
      | nil => rfl
      | cons t rest => simp [skipWord, isPunct_isWord (h t rfl)]
  | cons t ts =>
      simp only [List.cons_append, skipWord]
      split <;> rfl

theorem dropTarget_append (s : Statement) (ts : List Token) {rest : List Token} (h : Stops rest) :
    dropTarget s (ts ++ rest) = dropTarget s ts := by
  rw [dropTarget, skipWord_append _ _ h, skipWord_append _ _ h, dottedName_append s _ h, dropTarget, Option.map_map]
  rfl

/-- What the guard reads at the head of an action does not go past its end. -/
theorem actionDrop_append (s : Statement) (ts : List Token) {rest : List Token} (h : Stops rest) :
    (actionDrop s (ts ++ rest)).columnName = (actionDrop s ts).columnName := by
  cases ts with
  | nil =>
      cases rest with
      | nil => rfl
      | cons t rest => simp [actionDrop, isPunct_isWord (h t rfl), AlterDrop.columnName]
  | cons t ts =>
      simp only [List.cons_append, actionDrop]
      split
      · cases ts with
        | nil =>
            cases rest with
            | nil => rfl
            | cons u rest =>
                have hu := h u rfl
                have htarget := dropTarget_append s [] h
                rw [List.nil_append] at htarget
                simp only [List.nil_append, alterDrop, isPunct_isWord hu, isPunct_oneOf hu, Bool.false_eq_true, if_false,
                  htarget]
                rfl
        | cons u ts =>
            simp only [List.cons_append, alterDrop, dropTarget_append s ts h]
            rw [← List.cons_append, dropTarget_append s (u :: ts) h]
      · rfl

theorem guardNames_append (s : Statement) {ts rest : List Token} (hb : Balanced ts) (h : Stops rest) :
    guardNames s (ts ++ rest) = guardNames s ts ++
      (afterCommas 0 rest).filterMap fun ts => (actionDrop s ts).columnName := by
  unfold guardNames
  rw [afterCommas_append hb, List.filterMap_cons, List.filterMap_cons, actionDrop_append s ts h,
    List.filterMap_append, List.filterMap_map]
  have hmap : (afterCommas 0 ts).filterMap ((fun ts => (actionDrop s ts).columnName) ∘ (· ++ rest)) =
      (afterCommas 0 ts).filterMap fun ts => (actionDrop s ts).columnName :=
    List.filterMap_congr fun x _ => actionDrop_append s x h
  rw [hmap]
  split <;> rfl

theorem isIfExists_names {ts : List Token} (h : isIfExists ts) : ∀ t ∈ ts, isName t = true := by
  rcases h with rfl | ⟨i, e, rfl, hi, he⟩
  · simp
  · simp [isWord_isName hi, isWord_isName he]

theorem isBehavior_names {ts : List Token} (h : isBehavior ts) : ∀ t ∈ ts, isName t = true := by
  rcases h with rfl | ⟨b, rfl, hb⟩
  · simp
  · simp [isOneOf_isName hb]

/-- A DROP action of either kind is made of names and words alone. -/
theorem Action.plain {a : Action} (h : a.WellFormed) (ha : ∀ head rest, a ≠ .other head rest) :
    ∀ t ∈ a.tokens, isName t = true := by
  intro t ht
  cases a with
  | column drop keyword ifExists name behavior =>
      obtain ⟨hd, hk, hi, hn, -, hb⟩ := h
      simp only [Action.tokens, List.mem_cons, List.mem_append] at ht
      rcases ht with rfl | ht | ht | rfl | ht
      · exact isWord_isName hd
      · rcases hk with rfl | ⟨k, rfl, hk⟩
        · cases ht
        · rw [List.mem_singleton.mp ht]
          exact isWord_isName hk
      · exact isIfExists_names hi t ht
      · exact hn
      · exact isBehavior_names hb t ht
  | constraint drop keyword rest =>
      obtain ⟨hd, hk, i, n, b, rfl, hi, hn, hb⟩ := h
      simp only [Action.tokens, List.mem_cons, List.mem_append] at ht
      rcases ht with rfl | rfl | ht | rfl | ht
      · exact isWord_isName hd
      · exact isWord_isName hk
      · exact isIfExists_names hi t ht
      · exact hn
      · exact isBehavior_names hb t ht
  | other head rest => exact absurd rfl (ha head rest)

theorem Action.balanced {a : Action} (h : a.WellFormed) : Balanced a.tokens := by
  cases a with
  | column drop keyword ifExists name behavior =>
      exact .of_plain fun t ht => isParen_name (Action.plain h (by nofun) t ht)
  | constraint drop keyword rest =>
      exact .of_plain fun t ht => isParen_name (Action.plain h (by nofun) t ht)
  | other head rest => exact h.2.2.1

theorem Action.head_name {a : Action} (h : a.WellFormed) :
    ∃ t ts, a.tokens = t :: ts ∧ isName t = true := by
  cases a with
  | column drop keyword ifExists name behavior => exact ⟨drop, _, rfl, isWord_isName h.1⟩
  | constraint drop keyword rest => exact ⟨drop, _, rfl, isWord_isName h.1⟩
  | other head rest => exact ⟨head, rest, rfl, h.1⟩

/-- The names that the guard reads after the commas of an action. -/
theorem Action.bracketed_eq (s : Statement) {a : Action} (h : a.WellFormed) :
    (afterCommas 0 a.tokens).filterMap (fun ts => (actionDrop s ts).columnName) = a.bracketed s := by
  cases a with
  | column drop keyword ifExists name behavior =>
      rw [afterCommas_none fun t ht => isName_isPunct (Action.plain h (by nofun) t ht)]
      rfl
  | constraint drop keyword rest =>
      rw [afterCommas_none fun t ht => isName_isPunct (Action.plain h (by nofun) t ht)]
      rfl
  | other head rest => rfl

theorem dottedName_single (s : Statement) {name : Token} {rest : List Token} (h : isName name = true)
    (hrest : rest.head?.any (·.isPunct '.') = false) : dottedName s (name :: rest) = some (text s name, rest) := by
  have := dottedName_spelled s (.one h) hrest
  simpa [spelled, join] using this

theorem behavior_dot {ts : List Token} (h : isBehavior ts) : ts.head?.any (·.isPunct '.') = false := by
  rcases h with rfl | ⟨b, rfl, hb⟩
  · rfl
  · exact isOneOf_isPunct hb

/-- The name that the guard reads after DROP, DROP COLUMN or DROP CONSTRAINT. -/
theorem dropTarget_name (s : Statement) {ifExists behavior : List Token} {name : Token} (hi : isIfExists ifExists)
    (hn : isName name = true) (hb : isBehavior behavior) :
    dropTarget s (ifExists ++ name :: behavior) =
      if hidesIf ifExists name then (behavior.map (text s)).head? else some (text s name) := by
  rcases hi with rfl | ⟨i, e, rfl, hi, he⟩
  · by_cases hh : isOneOf ["IF", "EXISTS"] name = true
    · have hskip : skipWord "EXISTS" (skipWord "IF" (name :: behavior)) = behavior := by
        have hw : name.isWord "IF" = true ∨ name.isWord "EXISTS" = true := by
          simpa [isOneOf_iff] using hh
        rcases hw with hw | hw
        · rw [skipWord, if_pos hw]
          rcases hb with rfl | ⟨b, rfl, hb⟩
          · rfl
          · have hbe : b.isWord "EXISTS" = false := by
              exact isOneOf_word (isOneOf_disjoint hb (by decide)) (List.mem_singleton_self _)
            rw [skipWord, hbe]
            rfl
        · rw [skipWord, isWord_unique hw (by decide), if_neg (by decide), skipWord, if_pos hw]
      rw [List.nil_append, dropTarget, hskip, hidesIf, hh, if_pos (by simp)]
      rcases hb with rfl | ⟨b, rfl, hb⟩
      · rfl
      · rw [dottedName_single s (isOneOf_isName hb) rfl]
        rfl
    · have hh : isOneOf ["IF", "EXISTS"] name = false := by simpa using hh
      rw [List.nil_append, dropTarget, skipWord, isOneOf_word hh (by simp), if_neg (by decide), skipWord,
        isOneOf_word hh (by simp), if_neg (by decide), dottedName_single s hn (behavior_dot hb), hidesIf, hh]
      rfl
  · rw [dropTarget, List.cons_append, List.cons_append, List.nil_append, skipWord, if_pos hi, skipWord, if_pos he,
      dottedName_single s hn (behavior_dot hb), hidesIf, if_neg (by simp)]
    rfl

/-- The column that the guard reads in an action that drops one. -/
theorem actionDrop_column (s : Statement) {drop name : Token} {keyword ifExists behavior : List Token}
    (h : (Action.column drop keyword ifExists name behavior).WellFormed) :
    (actionDrop s (drop :: (keyword ++ (ifExists ++ name :: behavior)))).columnName =
      if hidesIf ifExists name then (behavior.map (text s)).head?
      else if hidesWord keyword ifExists name then none else some (text s name) := by
  obtain ⟨hd, hk, hi, hn, hreserved, hb⟩ := h
  have htarget := dropTarget_name s hi hn hb
  rw [actionDrop, if_pos hd]
  rcases hk with rfl | ⟨k, rfl, hk⟩
  · rcases hi with rfl | ⟨i, e, rfl, hi, he⟩
    · rw [List.nil_append] at htarget
      rw [List.nil_append, List.nil_append, alterDrop, isOneOf_word hreserved (by simp), if_neg (by decide),
        isOneOf_word hreserved (by simp), if_neg (by decide), htarget]
      by_cases hw : isOneOf DROP_NOT_COLUMN name = true
      · have hif : isOneOf ["IF", "EXISTS"] name = false := isOneOf_disjoint hw (by decide)
        simp [hw, hidesIf, hidesWord, hif, AlterDrop.columnName]
      · rw [if_neg hw]
        simp [hw, hidesWord, AlterDrop.columnName]
    · rw [List.cons_append, List.cons_append, List.nil_append] at htarget
      rw [List.nil_append, List.cons_append, List.cons_append, List.nil_append, alterDrop,
        isWord_unique hi (by decide), if_neg (by decide), isWord_unique hi (by decide), if_neg (by decide),
        isWord_notOneOf hi (by decide), if_neg (by decide), htarget]
      simp [hidesIf, hidesWord, AlterDrop.columnName]
  · rw [List.cons_append, List.nil_append, alterDrop, if_pos hk, htarget]
    simp [hidesWord, AlterDrop.columnName]

/-- What the guard reads of an action that it meets at its start. -/
theorem Action.guardNames_eq (s : Statement) {a : Action} (h : a.WellFormed) :
    guardNames s a.tokens = a.kept s ++ a.invented s := by
  have hbracketed := a.bracketed_eq s h
  rw [guardNames, List.filterMap_cons, hbracketed]
  cases a with
  | column drop keyword ifExists name behavior =>
      have hnone : Action.bracketed s (.column drop keyword ifExists name behavior) = [] := rfl
      rw [Action.tokens, actionDrop_column s h, Action.kept, Action.invented, hnone]
      by_cases hif : hidesIf ifExists name = true
      · rcases h.2.2.2.2.2 with rfl | ⟨b, rfl, -⟩ <;> simp [hif]
      · by_cases hw : hidesWord keyword ifExists name = true <;> simp [hif, hw]
  | constraint drop keyword rest =>
      obtain ⟨hd, hk, -⟩ := h
      simp [Action.tokens, actionDrop, alterDrop, hd, hk, isWord_unique hk (w := "COLUMN") (by decide),
        AlterDrop.columnName, Action.kept, Action.invented]
  | other head rest =>
      simp [Action.tokens, actionDrop, h.2.1, AlterDrop.columnName, Action.kept, Action.invented]

theorem stops_more {more : List (Token × Action)} (h : ∀ ca ∈ more, ca.1.isPunct ',' = true ∧ ca.2.WellFormed) :
    Stops (moreTokens more) := by
  intro t ht
  cases more with
  | nil => cases ht
  | cons ca more =>
      cases ht
      exact (h ca (by simp)).1

/-- After each comma between the actions the guard reads the next action. -/
theorem afterCommas_more (s : Statement) {more : List (Token × Action)}
    (h : ∀ ca ∈ more, ca.1.isPunct ',' = true ∧ ca.2.WellFormed) :
    (afterCommas 0 (moreTokens more)).filterMap (fun ts => (actionDrop s ts).columnName) =
      more.flatMap fun ca => ca.2.kept s ++ ca.2.invented s := by
  induction more with
  | nil => rfl
  | cons ca more ih =>
      have hrest : ∀ ca ∈ more, ca.1.isPunct ',' = true ∧ ca.2.WellFormed := fun x hx => h x (by simp [hx])
      obtain ⟨hc, ha⟩ := h ca (by simp)
      have hparen : isParen ca.1 = false := isParen_punct hc (by decide) (by decide)
      have hnames := guardNames_append s (Action.balanced ha) (stops_more hrest)
      rw [ih hrest, Action.guardNames_eq s ha, guardNames, List.filterMap_cons] at hnames
      rw [List.flatMap_cons, ← hnames]
      simp only [moreTokens, List.flatMap_cons, List.cons_append, afterCommas, hc, and_self, if_true,
        depthAfter_token _ hparen, List.nil_append, List.filterMap_cons]

theorem mem_more (s : Statement) (more : List (Token × Action)) (c : Text) :
    (c ∈ more.flatMap fun ca => ca.2.kept s ++ ca.2.invented s) ↔
      c ∈ moreOf (·.kept s) more ∨ c ∈ moreOf (·.invented s) more := by
  simp only [moreOf, List.mem_flatMap, List.mem_append, ← exists_or, and_or_left]

theorem moreTokens_dot {a : AlterTable} (h : a.WellFormed) :
    (a.first.tokens ++ moreTokens a.more).head?.any (·.isPunct '.') = false := by
  obtain ⟨t, ts, heq, ht⟩ := Action.head_name h.first
  rw [heq]
  exact isName_isPunct ht

theorem nameListStart_table {s : Statement} {a : AlterTable} (hs : s.tokens = a.tokens) (h : a.WellFormed) :
    nameListStart s =
      (a.relation.tokens ++ (a.first.tokens ++ moreTokens a.more)).dropWhile (isOneOf SKIP) := by
  rw [nameListStart, hs, AlterTable.tokens, List.drop_one, List.tail_cons,
    List.dropWhile_cons_of_pos (isWord_oneOf h.table (by decide))]
  rcases h.ifExists with hi | ⟨i, e, heq, hi, he⟩
  · rw [hi, List.nil_append]
  · rw [heq, List.cons_append, List.cons_append, List.nil_append,
      List.dropWhile_cons_of_pos (isWord_oneOf hi (by decide)),
      List.dropWhile_cons_of_pos (isWord_oneOf he (by decide))]

/-- The names that the guard reads when it begins at the first action. -/
theorem guardNames_actions (s : Statement) {a : AlterTable} (h : a.WellFormed) :
    guardNames s (a.first.tokens ++ moreTokens a.more) =
      (a.first.kept s ++ a.first.invented s) ++ a.more.flatMap fun ca => ca.2.kept s ++ ca.2.invented s := by
  rw [guardNames_append s (Action.balanced h.first) (stops_more h.more), Action.guardNames_eq s h.first,
    afterCommas_more s h.more]

theorem guardNames_star (s : Statement) {a : AlterTable} {star : Token} (hstar : star.isPunct '*' = true)
    (h : a.WellFormed) :
    guardNames s (star :: (a.first.tokens ++ moreTokens a.more)) =
      a.first.bracketed s ++ a.more.flatMap fun ca => ca.2.kept s ++ ca.2.invented s := by
  have hparen : isParen star = false := isParen_punct hstar (by decide) (by decide)
  have hb : Balanced (star :: a.first.tokens) := .token hparen (Action.balanced h.first)
  have hnone : (actionDrop s (star :: a.first.tokens)).columnName = none := by
    simp [actionDrop, isPunct_isWord hstar, AlterDrop.columnName]
  rw [← List.cons_append, guardNames_append s hb (stops_more h.more), afterCommas_more s h.more, guardNames,
    List.filterMap_cons, hnone, afterCommas, isPunct_ne hstar (by decide), depthAfter_token _ hparen]
  simp [Action.bracketed_eq s h.first]

/-- The names that the guard reads when it takes the first name of the first action for the
table's. -/
theorem guardNames_shifted (s : Statement) {a : AlterTable} (h : a.WellFormed) :
    (dottedName s ((a.first.tokens ++ moreTokens a.more).dropWhile (isOneOf SKIP))).map (guardNames s ·.2) =
      (shiftedNames s a.first).map (· ++ a.more.flatMap fun ca => ca.2.kept s ++ ca.2.invented s) := by
  have hstops := stops_more h.more
  have hdrop : (a.first.tokens ++ moreTokens a.more).dropWhile (isOneOf SKIP) =
      a.first.tokens.dropWhile (isOneOf SKIP) ++ moreTokens a.more := by
    rw [List.dropWhile_append]
    split
    next hnil =>
      rw [List.isEmpty_iff] at hnil
      rw [hnil, List.nil_append]
      cases hm : moreTokens a.more with
      | nil => rfl
      | cons c ts =>
          rw [hm] at hstops
          exact List.dropWhile_cons_of_neg (by simp [isPunct_oneOf (hstops c rfl)])
    · rfl
  rw [hdrop, dottedName_append s _ hstops, shiftedNames]
  cases hd : dottedName s (a.first.tokens.dropWhile (isOneOf SKIP)) with
  | none => rfl
  | some got =>
      have hb := (Action.balanced h.first).dropWhile.dottedName s hd
      simp only [Option.map_some, guardNames_append s hb hstops, afterCommas_more s h.more]

theorem columns_eq (s : Statement) :
    ((alterActions s).map (actionDrop s)).filterMap AlterDrop.columnName =
      ((dottedName s (nameListStart s)).map (guardNames s ·.2)).getD [] := by
  rw [alterActions]
  cases dottedName s (nameListStart s) with
  | none => rfl
  | some got => simp only [List.filterMap_map, guardNames, Option.map_some, Option.getD_some]; rfl

/-- A name that the guard steps over hides the table from it. -/
theorem dottedName_skipped (s : Statement) {name parts rest : List Token} (h : DottedName name parts)
    (hs : skipped name = true) (hlen : name.length ≠ 1) :
    dottedName s ((name ++ rest).dropWhile (isOneOf SKIP)) = none := by
  cases h with
  | one ht => exact absurd rfl hlen
  | @more t d ts parts ht hd hn =>
      have ht : isOneOf SKIP t = true := hs
      rw [List.cons_append, List.cons_append, List.dropWhile_cons_of_pos ht,
        List.dropWhile_cons_of_neg (by simp [isPunct_oneOf hd])]
      simp [dottedName, isPunct_isName hd]

theorem dottedName_plain (s : Statement) {name parts rest : List Token} (h : DottedName name parts)
    (hs : skipped name = false) (hrest : rest.head?.any (·.isPunct '.') = false) :
    dottedName s ((name ++ rest).dropWhile (isOneOf SKIP)) = some (spelled s parts, rest) := by
  obtain ⟨t, ts, more, rfl, rfl, ht⟩ := h.head
  have hskip : ¬ isOneOf SKIP t = true := by
    have : isOneOf SKIP t = false := hs
    simp [this]
  rw [List.cons_append, List.dropWhile_cons_of_neg hskip, ← List.cons_append, dottedName_spelled s h hrest]

/-- The columns that the guard reports, where it begins to read the actions. -/
theorem mem_columns {s : Statement} {a : AlterTable} (hs : s.tokens = a.tokens) (h : a.WellFormed) (c : Text) :
    c ∈ ((alterActions s).map (actionDrop s)).filterMap AlterDrop.columnName ↔
      c ∈ a.kept s ∨ c ∈ a.invented s := by
  rw [columns_eq, nameListStart_table hs h]
  have hmore := mem_more s a.more c
  have hdot := moreTokens_dot h
  have hrel := h.relation
  cases hr : a.relation with
  | plain only name =>
      rw [hr] at hrel
      obtain ⟨honly, parts, hname⟩ := hrel
      have hdrop : (only ++ name ++ (a.first.tokens ++ moreTokens a.more)).dropWhile (isOneOf SKIP) =
          (name ++ (a.first.tokens ++ moreTokens a.more)).dropWhile (isOneOf SKIP) := by
        rcases honly with rfl | ⟨o, rfl, ho⟩
        · rfl
        · exact List.dropWhile_cons_of_pos (isWord_oneOf ho (by decide))
      rw [Relation.tokens, hdrop]
      cases hskip : skipped name with
      | false =>
          rw [dottedName_plain s hname hskip hdot, Option.map_some, Option.getD_some, guardNames_actions s h]
          simp only [AlterTable.kept, AlterTable.invented, hr, Relation.reading, hskip, Bool.false_eq_true, if_false,
            List.mem_append, hmore]
          tauto
      | true =>
          by_cases hlen : name.length = 1
          · obtain ⟨t, rfl⟩ := List.length_eq_one_iff.mp hlen
            have ht : isOneOf SKIP t = true := hskip
            rw [List.cons_append, List.nil_append, List.dropWhile_cons_of_pos ht, guardNames_shifted s h]
            simp only [AlterTable.kept, AlterTable.invented, hr, Relation.reading, hskip, List.length_singleton, if_true]
            cases shiftedNames s a.first with
            | none => simp
            | some names =>
                simp only [Option.map_some, Option.getD_some, Option.isSome_some, if_true, List.mem_append, hmore]
                tauto
          · rw [dottedName_skipped s hname hskip hlen]
            simp [AlterTable.kept, AlterTable.invented, hr, Relation.reading, hskip, hlen]
  | starred name star =>
      rw [hr] at hrel
      obtain ⟨⟨parts, hname⟩, hstar⟩ := hrel
      rw [Relation.tokens, List.append_assoc, List.cons_append, List.nil_append]
      cases hskip : skipped name with
      | false =>
          have hstop : star.isPunct '.' = false := isPunct_ne hstar (by decide)
          rw [dottedName_plain s hname hskip (by exact hstop), Option.map_some, Option.getD_some,
            guardNames_star s hstar h]
          simp only [AlterTable.kept, AlterTable.invented, hr, Relation.reading, hskip, Bool.false_eq_true, if_false,
            List.mem_append, hmore]
          tauto
      | true =>
          have hnone : dottedName s
              ((name ++ star :: (a.first.tokens ++ moreTokens a.more)).dropWhile (isOneOf SKIP)) = none := by
            by_cases hlen : name.length = 1
            · obtain ⟨t, rfl⟩ := List.length_eq_one_iff.mp hlen
              have ht : isOneOf SKIP t = true := hskip
              rw [List.cons_append, List.nil_append, List.dropWhile_cons_of_pos ht,
                List.dropWhile_cons_of_neg (by simp [isPunct_oneOf hstar])]
              simp [dottedName, isPunct_isName hstar]
            · exact dottedName_skipped s hname hskip hlen
          rw [hnone]
          simp [AlterTable.kept, AlterTable.invented, hr, Relation.reading, hskip]
  | parens only left name right =>
      rw [hr] at hrel
      obtain ⟨honly, hleft, -, -⟩ := hrel
      rw [Relation.tokens, List.cons_append, List.cons_append,
        List.dropWhile_cons_of_pos (isWord_oneOf honly (by decide)),
        List.dropWhile_cons_of_neg (by simp [isPunct_oneOf hleft])]
      simp [dottedName, isPunct_isName hleft, AlterTable.kept, AlterTable.invented, hr, Relation.reading]

/-- The verdict on an ALTER TABLE: the name to type exactly if it drops a column, and its
columns as the names. -/
def Exact (s : Statement) (a : AlterTable) : Prop :=
  ((danger s).danger = .typeName ↔ a.dropped s ≠ []) ∧ ∀ c, c ∈ (danger s).names ↔ c ∈ a.dropped s

/-- The guard is exact on an ALTER TABLE when every column that it misses is found elsewhere
in the statement and every other name that it finds is that of a dropped column. -/
theorem exact_iff {s : Statement} {a : AlterTable} (hs : s.tokens = a.tokens) (h : a.WellFormed) :
    Exact s a ↔ (∀ c ∈ a.lost s, c ∈ a.kept s ∨ c ∈ a.invented s) ∧ ∀ c ∈ a.invented s, c ∈ a.dropped s := by
  obtain ⟨hdanger, hnames⟩ := alterVerdict_columns s
  rw [Exact, danger_alter (lead_of_isWord hs h.alter), hdanger, hnames]
  have hmem := mem_columns hs h
  have hdropped := a.mem_dropped s
  constructor
  · rintro ⟨-, hexact⟩
    constructor
    · intro c hc
      rw [← hmem, hexact, hdropped]
      exact .inr hc
    · intro c hc
      rw [← hexact, hmem]
      exact .inr hc
  · rintro ⟨hlost, hinvented⟩
    have hexact : ∀ c, c ∈ ((alterActions s).map (actionDrop s)).filterMap AlterDrop.columnName ↔ c ∈ a.dropped s := by
      intro c
      rw [hmem]
      constructor
      · rintro (hc | hc)
        · exact (hdropped c).mpr (.inl hc)
        · exact hinvented c hc
      · intro hc
        exact ((hdropped c).mp hc).elim .inl (hlost c)
    refine ⟨?_, hexact⟩
    simp only [ne_eq, List.eq_nil_iff_forall_not_mem, hexact]

/-- The statement ALTER TABLE t DROP COLUMN a. -/
def dropA : AlterTable where
  alter := ⟨.word, lit "ALTER", 0, 5⟩
  table := ⟨.word, lit "TABLE", 6, 11⟩
  ifExists := []
  relation := .plain [] [⟨.word, lit "T", 12, 13⟩]
  first := .column ⟨.word, lit "DROP", 14, 18⟩ [⟨.word, lit "COLUMN", 19, 25⟩] [] ⟨.word, lit "A", 26, 27⟩ []
  more := []

theorem dropA_wellFormed : dropA.WellFormed where
  alter := by decide
  table := by decide
  ifExists := .inl rfl
  relation := ⟨.inl rfl, _, .one (by decide)⟩
  first := ⟨by decide, .inr ⟨_, rfl, by decide⟩, .inl rfl, by decide, by decide, .inl rfl⟩
  more := nofun

theorem exact_dropA : Exact ⟨lit "ALTER TABLE t DROP COLUMN a", dropA.tokens, 0, 27⟩ dropA :=
  (exact_iff rfl dropA_wellFormed).mpr ⟨by decide, by decide⟩

/-- The statement ALTER TABLE t * DROP COLUMN a. -/
def dropDescendants : AlterTable where
  alter := ⟨.word, lit "ALTER", 0, 5⟩
  table := ⟨.word, lit "TABLE", 6, 11⟩
  ifExists := []
  relation := .starred [⟨.word, lit "T", 12, 13⟩] ⟨.punct, lit "*", 14, 15⟩
  first := .column ⟨.word, lit "DROP", 16, 20⟩ [⟨.word, lit "COLUMN", 21, 27⟩] [] ⟨.word, lit "A", 28, 29⟩ []
  more := []

/-- The marker for descendant tables hides the first action. -/
theorem not_exact_star : ∃ s a, split (lit "ALTER TABLE t * DROP COLUMN a") = [s] ∧ s.tokens = AlterTable.tokens a ∧
    a.WellFormed ∧ ¬ Exact s a := by
  refine ⟨⟨lit "ALTER TABLE t * DROP COLUMN a", dropDescendants.tokens, 0, 29⟩, dropDescendants, by decide, rfl, ?_, ?_⟩
  · exact {
      alter := by decide
      table := by decide
      ifExists := .inl rfl
      relation := ⟨⟨_, .one (by decide)⟩, by decide⟩
      first := ⟨by decide, .inr ⟨_, rfl, by decide⟩, .inl rfl, by decide, by decide, .inl rfl⟩
      more := nofun }
  · rintro ⟨hdanger, -⟩
    exact absurd hdanger (by decide)

end Corebase.AlterColumns
