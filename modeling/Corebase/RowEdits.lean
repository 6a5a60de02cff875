import Corebase.Confirm
import Corebase.SqlPrinting
import Mathlib.Data.List.Pairwise

namespace Corebase.RowEdits

open JsText SqlLex SqlGuard SqlBrackets SqlPrinting Console

inductive CellValue
  | value (text : Text)
  | null
  | default
deriving DecidableEq

inductive BoundValue
  | value (text : Text)
  | null
deriving DecidableEq

/-- A cell that will be bound: all but those left to the column's default. -/
def CellValue.bound : CellValue → Option BoundValue
  | .value text => some (.value text)
  | .null => some .null
  | .default => none

/-- What is sent for a placeholder: a text that was typed, or a value of the row as it was read. -/
inductive Param (V : Type)
  | null
  | text (text : Text)
  | cell (value : V)
deriving DecidableEq

variable {V : Type}

/-- The cells that are not left to their defaults. -/
def given (cells : List (Text × CellValue)) : List (Text × BoundValue) :=
  cells.filterMap fun c => c.2.bound.map fun v => (c.1, v)

def bind : BoundValue → Param V
  | .null => .null
  | .value text => .text text

/-- How a bound value reads in the preview. -/
def shown : BoundValue → Text
  | .null => lit "null"
  | .value text => if text = [] then lit "(empty string)" else text

structure Notice where
  kind : String
  text : Text
deriving DecidableEq

structure Binding where
  placeholder : Text
  column : Text
  value : Text
deriving DecidableEq

structure RowPlan (V : Type) where
  sql : Text
  params : List (Param V)
  done : Text
  notices : List Notice
  bindings : List Binding

structure Target where
  schema : Text
  table : Text

def qualified (schema table : Text) : Text := quote schema ++ '.' :: quote table

/-- A row as it was read; a column may be null or missing. -/
abbrev Row (V : Type) := Text → Option V

/-- Placeholders for as many values, numbered on from the first. -/
def holes (first count : Nat) : List Text := (List.range' first count).map hole

structure Where (V : Type) where
  sql : Text
  params : List (Param V)

def pkWhere (primaryKey : List Text) (row : Row V) (first : Nat) : Except Text (Where V) :=
  if primaryKey = [] then
    .error (lit "This table has no primary key, so there is no way to name one row. "
      ++ lit "Editing rows needs one — the grid says so above.")
  else
    match primaryKey.mapM row with
    | none => .error (lit "This row has no key value, so it cannot be targeted.")
    | some values =>
        let cols := primaryKey.map quote
        let holes := holes first primaryKey.length
        .ok
          { sql := if primaryKey.length = 1 then cols.headD [] ++ lit " = " ++ holes.headD []
              else lit "(" ++ join (lit ", ") cols ++ lit ") = (" ++ join (lit ", ") holes ++ lit ")"
            params := values.map .cell }

def number (n : Nat) : Text := Nat.toDigits 10 n

section Plans

variable (string : Option V → Text) (target : Target)

def updateRow (row : Row V) (primaryKey : List Text) (changes : List (Text × CellValue)) : Except Text (RowPlan V) :=
  let changes := given changes
  if changes = [] then .error (lit "Nothing has changed in this row.")
  else do
    let sets := (changes.zip (holes 1 changes.length)).map fun c => quote c.1.1 ++ lit " = " ++ c.2
    let found ← pkWhere primaryKey row (changes.length + 1)
    return {
      sql := lit "update " ++ qualified target.schema target.table ++ lit "\n   set "
        ++ join (lit ",\n       ") sets ++ lit "\n where " ++ found.sql ++ lit ";"
      params := changes.map (fun c => bind c.2) ++ found.params
      done := if changes.length = 1 then (changes.map Prod.fst).headD [] ++ lit " updated"
        else number changes.length ++ lit " columns updated"
      notices := [⟨"data", lit "This targets one row by its primary key, so it cannot touch another "
        ++ lit "one. There is no undo — the previous values are not kept anywhere."⟩]
      bindings := (changes.zip (holes 1 changes.length)).map (fun c => ⟨c.2, c.1.1, shown c.1.2⟩)
        ++ (primaryKey.zip (holes (changes.length + 1) primaryKey.length)).map fun c => ⟨c.2, c.1, string (row c.1)⟩ }

def insertRow (values : List (Text × CellValue)) : Except Text (RowPlan V) :=
  let given := given values
  if given = [] then .error (lit "Fill in at least one column.")
  else
    .ok {
      sql := lit "insert into " ++ qualified target.schema target.table ++ lit "\n       ("
        ++ join (lit ", ") (given.map fun v => quote v.1) ++ lit ")\nvalues ("
        ++ join (lit ", ") (holes 1 given.length) ++ lit ")\nreturning *;"
      params := given.map fun v => bind v.2
      done := lit "Row inserted"
      notices :=
        [⟨"data", if values.length > given.length then
            number (values.length - given.length) ++ lit " column(s) are left out of the "
              ++ lit "statement, so their defaults apply. That is different from setting them to null."
          else lit "Every column is given a value."⟩,
        ⟨"rls", lit "You are inserting as the table’s owner, so its policies do not "
          ++ lit "apply to this statement. A client using your API is checked against "
          ++ lit "the INSERT policies instead."⟩]
      bindings := (given.zip (holes 1 given.length)).map fun v => ⟨v.2, v.1.1, shown v.1.2⟩ }

def param (value : Option V) : Param V :=
  match value with
  | none => .null
  | some v => .cell v

/-- The key of the row at an index, as placeholders. -/
def tuple (primaryKey : List Text) (r : Nat) : Text :=
  let holes := holes (r * primaryKey.length + 1) primaryKey.length
  if primaryKey.length = 1 then holes.headD [] else lit "(" ++ join (lit ", ") holes ++ lit ")"

def deleteRows (rows : List (Row V)) (primaryKey : List Text) : Except Text (RowPlan V) :=
  if rows = [] then .error (lit "Select at least one row.")
  else if primaryKey = [] then
    .error (lit "This table has no primary key, so there is no way to name the rows to "
      ++ lit "delete without risking others.")
  else
    let cols := primaryKey.map quote
    let lhs := if primaryKey.length = 1 then cols.headD [] else lit "(" ++ join (lit ", ") cols ++ lit ")"
    let noun := if rows.length = 1 then lit "the row" else number rows.length ++ lit " rows"
    .ok {
      sql := lit "delete from " ++ qualified target.schema target.table ++ lit "\n where " ++ lhs ++ lit " in ("
        ++ join (lit ", ") ((List.range rows.length).map (tuple primaryKey)) ++ lit ");"
      params := rows.flatMap fun row => primaryKey.map fun c => param (row c)
      done := if rows.length = 1 then lit "Row deleted" else number rows.length ++ lit " rows deleted"
      notices := [⟨"data", lit "This deletes " ++ noun ++ lit " you selected and no others — each one is named by its "
        ++ lit "primary key. There is no undo, and a backup restore is the only way back."⟩]
      bindings := (rows.zip (List.range rows.length)).flatMap fun row =>
        (primaryKey.zip (holes (row.2 * primaryKey.length + 1) primaryKey.length)).map fun c =>
          ⟨c.2, c.1, string (row.1 c.1)⟩ }

end Plans

/-! What the database reads in a plan -/

inductive Command (V : Type)
  | update (target : Target) (changes key : List (Text × Param V))
  | insert (target : Target) (cells : List (Text × Param V))
  | delete (target : Target) (key : List Text) (rows : List (List (Param V)))

def comma : Shape := (.punct, [','])

def expect (x : Shape) : List Shape → Option (List Shape)
  | t :: ts => if t = x then some ts else none
  | [] => none

def undouble : Text → Text
  | '"' :: '"' :: cs => '"' :: undouble cs
  | c :: cs => c :: undouble cs
  | [] => []

def unquote (value : Text) : Text := undouble (value.drop 1).dropLast

def readName : List Shape → Option (Text × List Shape)
  | (k, v) :: ts => if k = .ident then some (unquote v, ts) else none
  | [] => none

def readTarget (ts : List Shape) : Option (Target × List Shape) := do
  let (schema, ts) ← readName ts
  let ts ← expect (.punct, ['.']) ts
  let (table, ts) ← readName ts
  return (⟨schema, table⟩, ts)

/-- A placeholder stands for the parameter of its number, from one on. -/
def readHole (params : List (Param V)) : List Shape → Option (Param V × List Shape)
  | t :: (k, ds) :: ts =>
      if t = (.punct, ['$']) ∧ k = .number then
        match Nat.ofDigitChars 10 ds 0 with
        | 0 => none
        | n + 1 => params[n]?.map fun p => (p, ts)
      else none
  | _ => none

def readSet (params : List (Param V)) (ts : List Shape) : Option ((Text × Param V) × List Shape) := do
  let (column, ts) ← readName ts
  let ts ← expect (.punct, ['=']) ts
  let (p, ts) ← readHole params ts
  return ((column, p), ts)

section Lists

variable {α β : Type}

def readFuel (item : List Shape → Option (α × List Shape)) : Nat → List Shape → Option (List α × List Shape)
  | 0, _ => none
  | fuel + 1, ts => do
      let (x, ts) ← item ts
      match expect comma ts with
      | none => return ([x], ts)
      | some ts =>
          let (xs, ts) ← readFuel item fuel ts
          return (x :: xs, ts)

def readList (item : List Shape → Option (α × List Shape)) (ts : List Shape) : Option (List α × List Shape) :=
  readFuel item ts.length ts

def readInside (item : List Shape → Option (α × List Shape)) (ts : List Shape) : Option (List α × List Shape) := do
  let ts ← expect (.punct, ['(']) ts
  let (xs, ts) ← readList item ts
  let ts ← expect (.punct, [')']) ts
  return (xs, ts)

/-- A list in parentheses, or one member without. -/
def readGroup (item : List Shape → Option (α × List Shape)) (ts : List Shape) : Option (List α × List Shape) :=
  match readInside item ts with
  | some got => some got
  | none => (item ts).map fun got => ([got.1], got.2)

end Lists

def readUpdate (params : List (Param V)) (ts : List Shape) : Option (Command V × List Shape) := do
  let ts ← expect (.word, lit "UPDATE") ts
  let (target, ts) ← readTarget ts
  let ts ← expect (.word, lit "SET") ts
  let (changes, ts) ← readList (readSet params) ts
  let ts ← expect (.word, lit "WHERE") ts
  let (columns, ts) ← readGroup readName ts
  let ts ← expect (.punct, ['=']) ts
  let (key, ts) ← readGroup (readHole params) ts
  return (.update target changes (columns.zip key), ts)

def readInsert (params : List (Param V)) (ts : List Shape) : Option (Command V × List Shape) := do
  let ts ← expect (.word, lit "INSERT") ts
  let ts ← expect (.word, lit "INTO") ts
  let (target, ts) ← readTarget ts
  let (columns, ts) ← readInside readName ts
  let ts ← expect (.word, lit "VALUES") ts
  let (cells, ts) ← readInside (readHole params) ts
  let ts ← expect (.word, lit "RETURNING") ts
  let ts ← expect (.punct, ['*']) ts
  return (.insert target (columns.zip cells), ts)

def readDelete (params : List (Param V)) (ts : List Shape) : Option (Command V × List Shape) := do
  let ts ← expect (.word, lit "DELETE") ts
  let ts ← expect (.word, lit "FROM") ts
  let (target, ts) ← readTarget ts
  let ts ← expect (.word, lit "WHERE") ts
  let (key, ts) ← readGroup readName ts
  let ts ← expect (.word, lit "IN") ts
  let (rows, ts) ← readInside (readGroup (readHole params)) ts
  return (.delete target key rows, ts)

/-- A whole statement. -/
def readCommand (params : List (Param V)) (ts : List Shape) : Option (Command V) :=
  match (readUpdate params ts).orElse fun _ => (readInsert params ts).orElse fun _ => readDelete params ts with
  | some (command, []) => some command
  | _ => none

section Reading

variable {α β : Type} {ts rest : List Shape}

theorem expect_cons (x : Shape) (ts : List Shape) : expect x (x :: ts) = some ts := if_pos rfl

theorem undouble_quoted (name : Text) :
    undouble (name.flatMap fun c => if c = '"' then ['"', '"'] else [c]) = name := by
  induction name with
  | nil => rfl
  | cons c name ih =>
      by_cases hc : c = '"'
      · subst c
        rw [List.flatMap_cons, if_pos rfl, List.cons_append, List.singleton_append, undouble, ih]
      · rw [List.flatMap_cons, if_neg hc, List.singleton_append, undouble, ih]
        rintro cs rfl
        exact absurd rfl hc

theorem unquote_quote (name : Text) : unquote (quote name) = name := by
  rw [unquote, quote, List.drop_one, List.tail_cons, List.dropLast_concat, undouble_quoted]

def nameTokens (name : Text) : List Shape := [(.ident, quote name)]

def holeTokens (n : Nat) : List Shape := [(.punct, ['$']), (.number, Nat.toDigits 10 n)]

theorem readName_quote (name : Text) (rest : List Shape) : readName (nameTokens name ++ rest) = some (name, rest) := by
  rw [nameTokens, List.singleton_append, readName, if_pos rfl, unquote_quote]

theorem readHole_hole {params : List (Param V)} {n : Nat} {p : Param V} (h : params[n]? = some p) (rest : List Shape) :
    readHole params (holeTokens (n + 1) ++ rest) = some (p, rest) := by
  rw [holeTokens, List.cons_append, List.singleton_append, readHole, if_pos ⟨rfl, rfl⟩, Nat.ofDigitChars_ten_toDigits]
  simp [h]

theorem expect_ne {x t : Shape} (h : t ≠ x) (ts : List Shape) : expect x (t :: ts) = none := if_neg h

section Items

variable {item : List Shape → Option (β × List Shape)} {tokens : α → List Shape} {value : α → β} {xs : List α}

theorem readFuel_join (hne : xs ≠ []) (h : ∀ x ∈ xs, ∀ rest, item (tokens x ++ rest) = some (value x, rest))
    (hrest : expect comma rest = none) {fuel : Nat} (hfuel : xs.length ≤ fuel) :
    readFuel item fuel ([comma].intercalate (xs.map tokens) ++ rest) = some (xs.map value, rest) := by
  induction xs generalizing fuel with
  | nil => exact absurd rfl hne
  | cons x xs ih =>
      obtain ⟨fuel, rfl⟩ := Nat.exists_eq_succ_of_ne_zero (by
        rintro rfl
        exact absurd hfuel (by simp) : fuel ≠ 0)
      have hx := h x List.mem_cons_self
      cases xs with
      | nil => simp [readFuel, hx, hrest]
      | cons y ys =>
          have hrec := ih (List.cons_ne_nil y ys) (fun z hz => h z (List.mem_cons_of_mem x hz))
            (Nat.le_of_succ_le_succ hfuel)
          have htokens : [comma].intercalate ((x :: y :: ys).map tokens) ++ rest =
              tokens x ++ comma :: ([comma].intercalate ((y :: ys).map tokens) ++ rest) := by
            simp [List.intercalate_cons_cons]
          rw [htokens, readFuel, hx]
          simp only [Option.bind_eq_bind, Option.bind_some, expect_cons, hrec]
          rfl

theorem length_intercalate (xs : List (List Shape)) : xs.length ≤ ([comma].intercalate xs).length + 1 := by
  induction xs with
  | nil => simp
  | cons x xs ih =>
      cases xs with
      | nil => simp
      | cons y ys =>
          rw [List.intercalate_cons_cons, List.length_append, List.length_append, List.length_singleton]
          simp only [List.length_cons] at ih ⊢
          omega

theorem readList_join (item : List Shape → Option (β × List Shape)) (tokens : α → List Shape)
    (value : α → β) (hne : xs ≠ []) (h : ∀ x ∈ xs, ∀ rest, item (tokens x ++ rest) = some (value x, rest))
    {t : Shape} (ht : t ≠ comma) (rest : List Shape) :
    readList item ([comma].intercalate (xs.map tokens) ++ t :: rest) = some (xs.map value, t :: rest) := by
  refine readFuel_join hne h (expect_ne ht rest) ?_
  have hlength := length_intercalate (xs.map tokens)
  rw [List.length_map] at hlength
  rw [List.length_append, List.length_cons]
  omega

def insideTokens (xs : List (List Shape)) : List Shape := (.punct, ['(']) :: ([comma].intercalate xs ++ [(.punct, [')'])])

theorem readInside_join (item : List Shape → Option (β × List Shape)) (tokens : α → List Shape)
    (value : α → β) (hne : xs ≠ []) (h : ∀ x ∈ xs, ∀ rest, item (tokens x ++ rest) = some (value x, rest))
    (rest : List Shape) :
    readInside item (insideTokens (xs.map tokens) ++ rest) = some (xs.map value, rest) := by
  have hlist := readList_join item tokens value hne h (t := (.punct, [')'])) (by decide) rest
  rw [insideTokens, List.cons_append, List.append_assoc, List.singleton_append, readInside, expect_cons]
  simp only [Option.bind_eq_bind, Option.bind_some, hlist, expect_cons]
  rfl

def groupTokens (xs : List (List Shape)) : List Shape := if xs.length = 1 then xs.headD [] else insideTokens xs

theorem readGroup_join (item : List Shape → Option (β × List Shape)) (tokens : α → List Shape)
    (value : α → β) (hne : xs ≠ []) (h : ∀ x ∈ xs, ∀ rest, item (tokens x ++ rest) = some (value x, rest))
    (hopen : ∀ x ∈ xs, ∀ rest, expect (.punct, ['(']) (tokens x ++ rest) = none) (rest : List Shape) :
    readGroup item (groupTokens (xs.map tokens) ++ rest) = some (xs.map value, rest) := by
  by_cases hone : xs.length = 1
  · obtain ⟨x, rfl⟩ := List.length_eq_one_iff.mp hone
    have hx := List.mem_singleton.mpr (rfl : x = x)
    have hinside : readInside item (tokens x ++ rest) = none := by
      rw [readInside, hopen x hx]
      rfl
    simp [readGroup, groupTokens, hinside, h x hx]
  · rw [groupTokens, if_neg (by rwa [List.length_map]), readGroup, readInside_join item tokens value hne h]

end Items

end Reading

/-! The text of a plan -/

section Texts

variable {α : Type} {P : Char → Bool} {text : α → Text} {tokens : α → List Shape} {xs : List α}

theorem phrase_comma : Phrase anyChar (lit ", ") [comma] :=
  (phrase_mark (c := ',') (by simp)).then (phrase_blank (s := [' ']) rfl)

theorem phrase_equals : Phrase anyChar (lit " = ") [(.punct, ['='])] :=
  (phrase_blank (s := [' ']) rfl).then ((phrase_mark (c := '=') (by simp)).then (phrase_blank (s := [' ']) rfl))

theorem phrase_inside (text : α → Text) (tokens : α → List Shape) (hc : P ',' = true) (hP : P ')' = true) (hne : xs ≠ [])
    (h : ∀ x ∈ xs, Phrase P (text x) (tokens x)) :
    Phrase anyChar (lit "(" ++ join (lit ", ") (xs.map text) ++ lit ")") (insideTokens (xs.map tokens)) := by
  have hlist := phrase_join text tokens phrase_comma (c := ',') rfl hc hne h
  exact hlist.group hP

/-- The parts in parentheses, or the one part without. -/
def group (parts : List Text) : Text :=
  if parts.length = 1 then parts.headD [] else lit "(" ++ join (lit ", ") parts ++ lit ")"

theorem phrase_group (text : α → Text) (tokens : α → List Shape) (hc : P ',' = true) (hP : P ')' = true) (hne : xs ≠ [])
    (h : ∀ x ∈ xs, Phrase P (text x) (tokens x)) :
    Phrase P (group (xs.map text)) (groupTokens (xs.map tokens)) := by
  rw [group, groupTokens, List.length_map, List.length_map]
  split
  · rename_i hone
    obtain ⟨x, rfl⟩ := List.length_eq_one_iff.mp hone
    exact h x (List.mem_singleton.mpr rfl)
  · exact (phrase_inside text tokens hc hP hne h).mono fun _ _ => rfl

def targetTokens (target : Target) : List Shape :=
  nameTokens target.schema ++ (.punct, ['.']) :: nameTokens target.table

theorem phrase_target (target : Target) :
    Phrase notQuote (qualified target.schema target.table) (targetTokens target) :=
  (phrase_quote target.schema).append ((phrase_mark (c := '.') (by simp)).then (phrase_quote target.table)) rfl rfl

theorem readTarget_tokens (target : Target) (rest : List Shape) :
    readTarget (targetTokens target ++ rest) = some (target, rest) := by
  rw [targetTokens, List.append_assoc, readTarget, readName_quote]
  simp only [Option.bind_eq_bind, Option.bind_some, List.cons_append, expect_cons, readName_quote]
  rfl

end Texts

section Placeholders

variable (params : List (Param V))

/-- The parameter of a placeholder's number. -/
def holeValue (n : Nat) : Param V := (params[n - 1]?).getD .null

def setText (x : (Text × BoundValue) × Nat) : Text := quote x.1.1 ++ lit " = " ++ hole x.2

def setTokens (x : (Text × BoundValue) × Nat) : List Shape := nameTokens x.1.1 ++ (.punct, ['=']) :: holeTokens x.2

theorem phrase_set (x : (Text × BoundValue) × Nat) : Phrase isBreak (setText x) (setTokens x) :=
  ((phrase_quote x.1.1).append phrase_equals rfl rfl).then (phrase_hole x.2)

variable {params}

theorem readHole_tokens {n : Nat} (hpos : 1 ≤ n) (hn : n ≤ params.length) (rest : List Shape) :
    readHole params (holeTokens n ++ rest) = some (holeValue params n, rest) := by
  obtain ⟨n, rfl⟩ := Nat.exists_eq_add_of_le' hpos
  have hget : params[n]? = some (params.get ⟨n, hn⟩) := List.getElem?_eq_getElem hn
  rw [readHole_hole hget, holeValue, Nat.add_sub_cancel, hget]
  rfl

theorem readSet_tokens {x : (Text × BoundValue) × Nat} (hpos : 1 ≤ x.2) (hn : x.2 ≤ params.length) (rest : List Shape) :
    readSet params (setTokens x ++ rest) = some ((x.1.1, holeValue params x.2), rest) := by
  rw [setTokens, List.append_assoc, readSet, readName_quote]
  simp only [Option.bind_eq_bind, Option.bind_some, List.cons_append, expect_cons, readHole_tokens hpos hn]
  rfl

/-- The placeholders of a block of the parameters stand for that block. -/
theorem holeValue_block (a b c : List (Param V)) :
    (List.range' (a.length + 1) b.length).map (holeValue (a ++ b ++ c)) = b := by
  refine List.ext_getElem (by simp) fun i h h' => ?_
  have hget : (a ++ b ++ c)[a.length + 1 + i - 1]? = some b[i] := by
    rw [List.append_assoc, List.getElem?_append_right (by omega), List.getElem?_append_left (by omega),
      show a.length + 1 + i - 1 - a.length = i by omega, List.getElem?_eq_getElem h']
  simp only [List.getElem_map, List.getElem_range', Nat.one_mul, holeValue, hget]
  rfl

theorem mem_range'_one {first count n : Nat} (h : n ∈ List.range' first count) : first ≤ n ∧ n < first + count := by
  simpa using List.mem_range'_1.mp h

end Placeholders

/-! Each plan is read as the edit it was made for -/

/-- A row edit as it is asked for. -/
inductive Edit (V : Type)
  | update (row : Row V) (primaryKey : List Text) (changes : List (Text × CellValue))
  | insert (values : List (Text × CellValue))
  | delete (rows : List (Row V)) (primaryKey : List Text)

def compile (string : Option V → Text) (target : Target) : Edit V → Except Text (RowPlan V)
  | .update row primaryKey changes => updateRow string target row primaryKey changes
  | .insert values => insertRow target values
  | .delete rows primaryKey => deleteRows string target rows primaryKey

def sent (cells : List (Text × CellValue)) : List (Text × Param V) := (given cells).map fun c => (c.1, bind c.2)

def keyOf (primaryKey : List Text) (row : Row V) : List (Param V) := primaryKey.map fun c => param (row c)

/-- What an edit asks of the database. -/
def Edit.command (target : Target) : Edit V → Command V
  | .update row primaryKey changes => .update target (sent changes) (primaryKey.zip (keyOf primaryKey row))
  | .insert values => .insert target (sent values)
  | .delete rows primaryKey => .delete target primaryKey (rows.map (keyOf primaryKey))

/-- The column that each parameter is set, stored or compared in. -/
def Command.columns : Command V → List Text
  | .update _ changes key => changes.map Prod.fst ++ key.map Prod.fst
  | .insert _ cells => cells.map Prod.fst
  | .delete _ key rows => rows.flatMap fun _ => key

/-- The plan is one statement, passed by the guard as it is, that says this; its preview names what is bound. -/
structure Says (plan : RowPlan V) (command : Command V) : Prop where
  single : ∃ st, split plan.sql = [st] ∧ readCommand plan.params (st.tokens.map shape) = some command
  passes : ∀ {Claims : Type} (req : RunRequest (Param V) Claims), checkRequest (classify plan.sql) req = .ok ()
  bindings : plan.bindings.map (fun b => (b.placeholder, b.column)) = (holes 1 plan.params.length).zip command.columns
  bound : command.columns.length = plan.params.length

section Says

variable {string : Option V → Text} {target : Target} {plan : RowPlan V}

theorem says_sentence {command : Command V} {body : Text} {ts : List Shape} (h : Phrase isBreak body ts) (hne : ts ≠ [])
    (hsql : plan.sql = body ++ [';']) (hread : readCommand plan.params ts = some command)
    (hsafe : ∀ st : Statement, st.tokens.map shape = ts → (danger st).danger = .safe) :
    (∃ st, split plan.sql = [st] ∧ readCommand plan.params (st.tokens.map shape) = some command) ∧
      ∀ {Claims : Type} (req : RunRequest (Param V) Claims), checkRequest (classify plan.sql) req = .ok () := by
  obtain ⟨st, hst, htokens⟩ := split_single (h.sentence hne)
  rw [← hsql] at hst
  refine ⟨⟨st, hst, by rw [htokens, hread]⟩, fun req => checkRequest_single hst (hsafe st htokens) req⟩

theorem danger_where {st : Statement} {w : Text} {ts ts' : List Shape} (hw : w = lit "UPDATE" ∨ w = lit "DELETE")
    (h : st.tokens.map shape = (.word, w) :: ts ++ (.word, lit "WHERE") :: ts') (hb : Balanced (ts.map canon)) :
    (danger st).danger = .safe := by
  have hlead := lead_shape (h.trans (List.cons_append ..))
  have hwhere : hasTopLevelWhere st = true := by
    have hbalanced : Balanced (((TokenKind.word, w) :: ts).map canon) := .token rfl hb
    rw [where_shape h, List.map_append, topLevel_append hbalanced]
    simp [topLevel, canon, Token.isWord, lit]
  by_contra hne
  rw [← ne_eq, Verdicts.danger_iff, hlead, hwhere] at hne
  rcases hw with rfl | rfl <;> simp [lit] at hne

def insertTokens (target : Target) (columns holes : List (List Shape)) : List Shape :=
  (.word, lit "INSERT") :: (.word, lit "INTO") :: (targetTokens target ++ (insideTokens columns ++
    (.word, lit "VALUES") :: (insideTokens holes ++ [(.word, lit "RETURNING"), (.punct, ['*'])])))

theorem readCommand_insert (target : Target) {params values : List (Param V)} {columns : List Text} {numbers : List Nat}
    (hcolumns : columns ≠ []) (hnumbers : numbers ≠ []) (hbound : ∀ n ∈ numbers, 1 ≤ n ∧ n ≤ params.length)
    (hvalues : numbers.map (holeValue params) = values) :
    readCommand params (insertTokens target (columns.map nameTokens) (numbers.map holeTokens)) =
      some (.insert target (columns.zip values)) := by
  have hnames := readInside_join readName nameTokens id hcolumns
    fun name _ => readName_quote name
  have hholes := readInside_join (readHole params) holeTokens (holeValue params) hnumbers
    fun n hn => readHole_tokens (hbound n hn).1 (hbound n hn).2
  rw [List.map_id] at hnames
  rw [hvalues] at hholes
  have hupdate : readUpdate params (insertTokens target (columns.map nameTokens) (numbers.map holeTokens)) = none := rfl
  have hinsert : readInsert params (insertTokens target (columns.map nameTokens) (numbers.map holeTokens)) =
      some (.insert target (columns.zip values), []) := by
    rw [readInsert, insertTokens]
    simp only [Option.bind_eq_bind, Option.bind_some, expect_cons, readTarget_tokens, hnames, hholes]
    rfl
  rw [readCommand, hupdate, hinsert]
  rfl

def insertText (target : Target) (columns : List Text) (numbers : List Nat) : Text :=
  lit "insert into " ++ qualified target.schema target.table ++ lit "\n       (" ++ join (lit ", ") (columns.map quote)
    ++ lit ")\nvalues (" ++ join (lit ", ") (numbers.map hole) ++ lit ")\nreturning *"

theorem phrase_insert {columns : List Text} {numbers : List Nat} (hcolumns : columns ≠ []) (hnumbers : numbers ≠ []) :
    Phrase isBreak (insertText target columns numbers)
      (insertTokens target (columns.map nameTokens) (numbers.map holeTokens)) := by
  have hinto : Phrase anyChar (lit "insert into ") [(.word, lit "INSERT"), (.word, lit "INTO")] :=
    phrase_words [lit "insert", lit "into"] (by decide)
  have hbreak : Phrase anyChar (lit "\n       ") [] := phrase_blank (by decide)
  have hnames := phrase_inside quote nameTokens (P := notQuote) rfl rfl hcolumns fun name _ => phrase_quote name
  have hvalues : Phrase anyChar (lit "\nvalues ") [(.word, lit "VALUES")] :=
    (phrase_blank (s := ['\n']) rfl).then (phrase_words [lit "values"] (by decide))
  have hholes := phrase_inside hole holeTokens (P := isBreak) rfl rfl hnumbers fun n _ => phrase_hole n
  have hend : Phrase anyChar (lit "\nreturning *") [(.word, lit "RETURNING"), (.punct, ['*'])] :=
    (phrase_blank (s := ['\n']) rfl).then ((phrase_words [lit "returning"] (by decide)).then
      (phrase_mark (c := '*') (by simp)))
  have hhead := (hinto.then (phrase_target target)).append hbreak rfl rfl
  have hall := ((((hhead.then hnames).then hvalues).then hholes).then hend).mono (Q := isBreak) fun _ _ => rfl
  have hopen : lit "\n       (" = lit "\n       " ++ lit "(" := rfl
  have hclose : lit ")\nvalues (" = lit ")" ++ lit "\nvalues " ++ lit "(" := rfl
  have hlast : lit ")\nreturning *" = lit ")" ++ lit "\nreturning *" := rfl
  rw [insertText, insertTokens, hopen, hclose, hlast]
  simpa only [List.append_assoc, List.cons_append, List.nil_append] using hall

theorem holes_append (first m n : Nat) : holes first (m + n) = holes first m ++ holes (first + m) n := by
  rw [holes, ← List.range'_append_1, List.map_append]
  rfl

theorem zip_swapped {α β γ : Type} (f : α → γ) (xs : List α) (ys : List β) :
    (xs.zip ys).map (fun x => (x.2, f x.1)) = ys.zip (xs.map f) := by
  induction xs generalizing ys with
  | nil => simp
  | cons x xs ih =>
      cases ys with
      | nil => rfl
      | cons y ys => simp [ih]

theorem danger_insert {st : Statement} {ts : List Shape} (h : st.tokens.map shape = (.word, lit "INSERT") :: ts) :
    (danger st).danger = .safe := by
  by_contra hne
  rw [← ne_eq, Verdicts.danger_iff, lead_shape h] at hne
  simp [lit] at hne

theorem insertRow_command {values : List (Text × CellValue)} (h : insertRow (V := V) target values = .ok plan) :
    Says plan (.insert target (sent values)) := by
  rw [insertRow] at h
  split at h
  · cases h
  rename_i hne
  have hplan := Except.ok.inj h
  have hcolumns : (given values).map Prod.fst ≠ [] := by simpa using hne
  have hnumbers : List.range' 1 (given values).length ≠ [] := by simpa using hne
  have hparams := holeValue_block [] ((given values).map fun v => (bind v.2 : Param V)) []
  rw [List.length_nil, Nat.zero_add, List.length_map, List.nil_append, List.append_nil] at hparams
  have hread := readCommand_insert target hcolumns hnumbers (fun n hn => by
    have := mem_range'_one hn
    rw [List.length_map]
    omega) hparams
  have hcells : ((given values).map Prod.fst).zip ((given values).map fun v => (bind v.2 : Param V)) = sent values :=
    List.zip_map' ..
  rw [hcells] at hread
  have hsql : plan.sql = insertText target ((given values).map Prod.fst) (List.range' 1 (given values).length) ++ [';'] := by
    have hend : lit ")\nreturning *;" = lit ")\nreturning *" ++ [';'] := rfl
    rw [← hplan, hend, ← List.append_assoc, insertText, List.map_map]
    rfl
  have hsent : plan.params = (given values).map fun v => bind v.2 := by rw [← hplan]
  rw [← hsent] at hread
  obtain ⟨hsingle, hpasses⟩ := says_sentence (phrase_insert hcolumns hnumbers) (List.cons_ne_nil _ _) hsql hread
    fun st hst => danger_insert hst
  refine ⟨hsingle, hpasses, ?_, ?_⟩
  · simp [← hplan, Command.columns, sent, zip_swapped, Function.comp_def]
  · simp [hsent, Command.columns, sent]

theorem readGroup_names {columns : List Text} (hne : columns ≠ []) (rest : List Shape) :
    readGroup readName (groupTokens (columns.map nameTokens) ++ rest) = some (columns, rest) := by
  have h := readGroup_join readName nameTokens id hne
    (fun name _ => readName_quote name) (fun _ _ _ => rfl) rest
  rwa [List.map_id] at h

theorem readGroup_holes {params : List (Param V)} {numbers : List Nat} (hne : numbers ≠ [])
    (hbound : ∀ n ∈ numbers, 1 ≤ n ∧ n ≤ params.length) (rest : List Shape) :
    readGroup (readHole params) (groupTokens (numbers.map holeTokens) ++ rest) =
      some (numbers.map (holeValue params), rest) :=
  readGroup_join _ _ _ hne (fun n hn => readHole_tokens (hbound n hn).1 (hbound n hn).2) (fun _ _ _ => rfl) rest

/-! Updates -/

def setsText (target : Target) (sets : List ((Text × BoundValue) × Nat)) : Text :=
  lit "update " ++ qualified target.schema target.table ++ lit "\n   set " ++ join (lit ",\n       ") (sets.map setText)

def setsTokens (target : Target) (sets : List ((Text × BoundValue) × Nat)) : List Shape :=
  targetTokens target ++ (.word, lit "SET") :: [comma].intercalate (sets.map setTokens)

theorem phrase_sets (target : Target) {sets : List ((Text × BoundValue) × Nat)} (hne : sets ≠ []) :
    Phrase isBreak (setsText target sets) ((.word, lit "UPDATE") :: setsTokens target sets) := by
  have hupdate : Phrase anyChar (lit "update ") [(.word, lit "UPDATE")] := phrase_words [lit "update"] (by decide)
  have hset : Phrase anyChar (lit "\n   set ") [(.word, lit "SET")] :=
    (phrase_blank (s := lit "\n   ") (by decide)).then (phrase_words [lit "set"] (by decide))
  have hcomma : Phrase anyChar (lit ",\n       ") [comma] :=
    (phrase_mark (c := ',') (by simp)).then (phrase_blank (s := lit "\n       ") (by decide))
  have hsets := phrase_join setText setTokens hcomma (c := ',') rfl rfl hne fun x _ => phrase_set x
  have hall := ((hupdate.then (phrase_target target)).append hset rfl rfl).then hsets
  rw [setsText, setsTokens]
  simpa only [List.append_assoc, List.cons_append, List.nil_append] using hall

def updateText (target : Target) (sets : List ((Text × BoundValue) × Nat)) (key : List Text) (numbers : List Nat) : Text :=
  setsText target sets ++ lit "\n where " ++ (group (key.map quote) ++ lit " = " ++ group (numbers.map hole))

def keyTokens (key : List Text) (numbers : List Nat) : List Shape :=
  groupTokens (key.map nameTokens) ++ (.punct, ['=']) :: groupTokens (numbers.map holeTokens)

def updateTokens (target : Target) (sets : List ((Text × BoundValue) × Nat)) (key : List Text) (numbers : List Nat) :
    List Shape :=
  (.word, lit "UPDATE") :: setsTokens target sets ++ (.word, lit "WHERE") :: keyTokens key numbers

theorem phrase_update {sets : List ((Text × BoundValue) × Nat)} {key : List Text} {numbers : List Nat} (hsets : sets ≠ [])
    (hkey : key ≠ []) (hnumbers : numbers ≠ []) :
    Phrase isBreak (updateText target sets key numbers) (updateTokens target sets key numbers) := by
  have hwhere : Phrase anyChar (lit "\n where ") [(.word, lit "WHERE")] :=
    (phrase_blank (s := lit "\n ") (by decide)).then (phrase_words [lit "where"] (by decide))
  have hnames := phrase_group quote nameTokens (P := notQuote) rfl rfl hkey fun name _ => phrase_quote name
  have hholes := phrase_group hole holeTokens (P := isBreak) rfl rfl hnumbers fun n _ => phrase_hole n
  have hequal := (hnames.append phrase_equals rfl rfl).then hholes
  have hall := ((phrase_sets target hsets).append hwhere rfl rfl).then hequal
  rw [updateText, updateTokens, keyTokens]
  simpa only [List.append_assoc, List.cons_append, List.nil_append] using hall

theorem readCommand_update (target : Target) (params : List (Param V)) {sets : List ((Text × BoundValue) × Nat)} {key : List Text}
    {numbers : List Nat} (hsets : sets ≠ []) (hkey : key ≠ []) (hnumbers : numbers ≠ [])
    (hbound : ∀ x ∈ sets, 1 ≤ x.2 ∧ x.2 ≤ params.length) (hbound' : ∀ n ∈ numbers, 1 ≤ n ∧ n ≤ params.length) :
    readCommand params (updateTokens target sets key numbers) = some (.update target
      (sets.map fun x => (x.1.1, holeValue params x.2)) (key.zip (numbers.map (holeValue params)))) := by
  have hassign := readList_join (readSet params) setTokens (fun x => (x.1.1, holeValue params x.2)) hsets
    (fun x hx => readSet_tokens (hbound x hx).1 (hbound x hx).2) (t := (.word, lit "WHERE")) (by decide)
  have hholes := readGroup_holes hnumbers hbound' []
  rw [List.append_nil] at hholes
  have hupdate : readUpdate params (updateTokens target sets key numbers) = some (.update target
      (sets.map fun x => (x.1.1, holeValue params x.2)) (key.zip (numbers.map (holeValue params))), []) := by
    rw [readUpdate, updateTokens, setsTokens, keyTokens]
    simp only [Option.bind_eq_bind, Option.bind_some, List.cons_append, List.append_assoc, expect_cons, readTarget_tokens,
      hassign, readGroup_names hkey, hholes]
    rfl
  rw [readCommand, hupdate]
  rfl

theorem mapM_row {row : Row V} {columns : List Text} {values : List V} (h : columns.mapM row = some values) :
    values.map .cell = keyOf columns row := by
  induction columns generalizing values with
  | nil =>
      obtain rfl : [] = values := Option.some.inj h
      rfl
  | cons c cs ih =>
      rw [List.mapM_cons] at h
      obtain ⟨v, hv, h⟩ := Option.bind_eq_some_iff.mp h
      obtain ⟨vs, hvs, h⟩ := Option.bind_eq_some_iff.mp h
      obtain rfl : v :: vs = values := Option.some.inj h
      rw [List.map_cons, ih hvs, keyOf, keyOf, List.map_cons, hv]
      rfl

theorem pkWhere_ok {primaryKey : List Text} {row : Row V} {first : Nat} {found : Where V}
    (h : pkWhere primaryKey row first = .ok found) :
    primaryKey ≠ [] ∧ found.params = keyOf primaryKey row ∧
      found.sql = group (primaryKey.map quote) ++ lit " = " ++ group (holes first primaryKey.length) := by
  rw [pkWhere] at h
  split at h
  · cases h
  rename_i hne
  split at h
  · cases h
  rename_i values hvalues
  obtain rfl := Except.ok.inj h
  refine ⟨hne, ?_, ?_⟩
  · exact mapM_row hvalues
  · have hclose : lit ") = (" = lit ")" ++ lit " = " ++ lit "(" := rfl
    simp only [group, holes, List.length_map, List.length_range', hclose]
    split
    · rfl
    · simp only [List.append_assoc]

theorem zip_values {cells : List (Text × BoundValue)} {numbers : List Nat} {f : Nat → Param V}
    (h : numbers.map f = cells.map fun c => bind c.2) :
    (cells.zip numbers).map (fun x => (x.1.1, f x.2)) = cells.map fun c => (c.1, bind c.2) := by
  have hzip : (cells.zip numbers).map (fun x => (x.1.1, f x.2)) = (cells.map Prod.fst).zip (numbers.map f) :=
    List.zip_map.symm
  rw [hzip, h, List.zip_map']

theorem updateRow_command {row : Row V} {primaryKey : List Text} {changes : List (Text × CellValue)}
    (h : updateRow string target row primaryKey changes = .ok plan) :
    Says plan (.update target (sent changes) (primaryKey.zip (keyOf primaryKey row))) := by
  rw [updateRow] at h
  split at h
  · cases h
  rename_i hne
  cases hfound : pkWhere primaryKey row ((given changes).length + 1) with
  | error e =>
      rw [hfound] at h
      cases h
  | ok found =>
      rw [hfound] at h
      have hplan := Except.ok.inj h
      obtain ⟨hkey, hparams, hwhere⟩ := pkWhere_ok hfound
      let n := (given changes).length
      have hlength : (keyOf primaryKey row).length = primaryKey.length := List.length_map ..
      have hsent : plan.params = ((given changes).map fun c => bind c.2) ++ keyOf primaryKey row := by
        rw [← hplan, hparams]
      have hcount : plan.params.length = n + primaryKey.length := by
        rw [hsent, List.length_append, List.length_map, hlength]
      have hnumbers : List.range' (n + 1) primaryKey.length ≠ [] := by simpa using hkey
      have hsets : (given changes).zip (List.range' 1 n) ≠ [] := by
        rw [ne_eq, List.zip_eq_nil_iff, not_or]
        exact ⟨hne, by simpa [n] using hne⟩
      have hread := readCommand_update target plan.params hsets hkey hnumbers
        (fun x hx => by
          have := mem_range'_one (List.of_mem_zip hx).2
          omega)
        (fun k hk => by
          have := mem_range'_one hk
          omega)
      have hsql : plan.sql = updateText target ((given changes).zip (List.range' 1 n)) primaryKey
          (List.range' (n + 1) primaryKey.length) ++ [';'] := by
        have hset : ((given changes).zip (holes 1 n)).map (fun c => quote c.1.1 ++ lit " = " ++ c.2) =
            ((given changes).zip (List.range' 1 n)).map setText := by
          rw [holes, List.zip_map_right, List.map_map]
          rfl
        rw [← hplan, hwhere, hset]
        rfl
      have hset := holeValue_block [] ((given changes).map fun c => bind c.2) (keyOf primaryKey row)
      rw [List.nil_append, List.length_nil, Nat.zero_add, List.length_map, ← hsent] at hset
      have hvalues := holeValue_block ((given changes).map fun c => bind c.2) (keyOf primaryKey row) []
      rw [List.append_nil, List.length_map, hlength, ← hsent] at hvalues
      rw [zip_values hset, hvalues] at hread
      obtain ⟨hsingle, hpasses⟩ := says_sentence (phrase_update hsets hkey hnumbers) (List.cons_ne_nil _ _) hsql hread
        fun st hst => danger_where (.inl rfl) hst ((phrase_sets target hsets).balanced.tail rfl)
      have hcolumns : (Command.update target (sent changes) (primaryKey.zip (keyOf primaryKey row))).columns =
          (given changes).map Prod.fst ++ primaryKey := by
        rw [Command.columns, sent, List.map_map, List.map_fst_zip hlength.ge]
        rfl
      refine ⟨hsingle, hpasses, ?_, by rw [hcolumns, hcount, List.length_append, List.length_map]⟩
      have hholes : holes 1 (n + primaryKey.length) = holes 1 n ++ holes (n + 1) primaryKey.length := by
        rw [holes_append, Nat.add_comm 1 n]
      have hpair := zip_swapped id primaryKey (holes (n + 1) primaryKey.length)
      rw [List.map_id] at hpair
      rw [hcount, hcolumns, hholes, List.zip_append (by simp [holes, n]), ← zip_swapped, ← hpair, ← hplan,
        List.map_append, List.map_map, List.map_map]
      rfl

/-! Deletes -/

def deleteText (target : Target) (key : List Text) (tuples : List (List Nat)) : Text :=
  lit "delete from " ++ qualified target.schema target.table ++ lit "\n where " ++ group (key.map quote) ++ lit " in ("
    ++ join (lit ", ") (tuples.map fun ns => group (ns.map hole)) ++ lit ")"

def deleteTokens (target : Target) (key : List Text) (tuples : List (List Nat)) : List Shape :=
  (.word, lit "DELETE") :: (.word, lit "FROM") :: targetTokens target ++ (.word, lit "WHERE") ::
    (groupTokens (key.map nameTokens) ++ (.word, lit "IN") ::
      insideTokens (tuples.map fun ns => groupTokens (ns.map holeTokens)))

theorem phrase_delete {key : List Text} {tuples : List (List Nat)} (hkey : key ≠ []) (htuples : tuples ≠ [])
    (h : ∀ ns ∈ tuples, ns ≠ []) :
    Phrase isBreak (deleteText target key tuples) (deleteTokens target key tuples) := by
  have hfrom : Phrase anyChar (lit "delete from ") [(.word, lit "DELETE"), (.word, lit "FROM")] :=
    phrase_words [lit "delete", lit "from"] (by decide)
  have hwhere : Phrase anyChar (lit "\n where ") [(.word, lit "WHERE")] :=
    (phrase_blank (s := lit "\n ") (by decide)).then (phrase_words [lit "where"] (by decide))
  have hnames := phrase_group quote nameTokens (P := notQuote) rfl rfl hkey fun name _ => phrase_quote name
  have hin : Phrase anyChar (lit " in ") [(.word, lit "IN")] :=
    (phrase_blank (s := [' ']) rfl).then (phrase_words [lit "in"] (by decide))
  have hrows := phrase_inside (fun ns => group (ns.map hole)) (fun ns => groupTokens (ns.map holeTokens))
    (P := isBreak) rfl rfl htuples fun ns hns => phrase_group hole holeTokens rfl rfl (h ns hns) fun n _ => phrase_hole n
  have hhead := (((hfrom.then (phrase_target target)).append hwhere rfl rfl).then hnames).append hin rfl rfl
  have hall := (hhead.then hrows).mono (Q := isBreak) fun _ _ => rfl
  have hopen : lit " in (" = lit " in " ++ lit "(" := rfl
  rw [deleteText, deleteTokens, hopen]
  simpa only [List.append_assoc, List.cons_append, List.nil_append] using hall

theorem readCommand_delete (target : Target) (params : List (Param V)) {key : List Text} {tuples : List (List Nat)} (hkey : key ≠ [])
    (htuples : tuples ≠ []) (h : ∀ ns ∈ tuples, ns ≠ []) (hbound : ∀ ns ∈ tuples, ∀ n ∈ ns, 1 ≤ n ∧ n ≤ params.length) :
    readCommand params (deleteTokens target key tuples) =
      some (.delete target key (tuples.map fun ns => ns.map (holeValue params))) := by
  have hrows := readInside_join (readGroup (readHole params)) (fun ns => groupTokens (ns.map holeTokens))
    (fun ns => ns.map (holeValue params)) htuples
    (fun ns hns => readGroup_holes (h ns hns) (hbound ns hns)) []
  rw [List.append_nil] at hrows
  have hdelete : readDelete params (deleteTokens target key tuples) =
      some (.delete target key (tuples.map fun ns => ns.map (holeValue params)), []) := by
    rw [readDelete, deleteTokens]
    simp only [Option.bind_eq_bind, Option.bind_some, List.cons_append, expect_cons, readTarget_tokens,
      readGroup_names hkey, hrows]
    rfl
  have hupdate : readUpdate params (deleteTokens target key tuples) = none := rfl
  have hinsert : readInsert params (deleteTokens target key tuples) = none := rfl
  rw [readCommand, hupdate, hinsert, hdelete]
  rfl

/-- The numbers of the placeholders of each row's key. -/
def tuples (width count : Nat) : List (List Nat) := (List.range count).map fun r => List.range' (r * width + 1) width

theorem tuple_group (primaryKey : List Text) (r : Nat) :
    tuple primaryKey r = group ((List.range' (r * primaryKey.length + 1) primaryKey.length).map hole) := by
  rw [tuple, group, List.length_map, List.length_range']
  rfl

theorem length_blocks {α β : Type} {f : α → List β} {k : Nat} (h : ∀ x, (f x).length = k) (xs : List α) :
    (xs.flatMap f).length = xs.length * k := by
  induction xs with
  | nil => exact (Nat.zero_mul k).symm
  | cons x xs ih => rw [List.flatMap_cons, List.length_append, h, ih, List.length_cons, Nat.succ_mul, Nat.add_comm]

theorem length_keys (primaryKey : List Text) (rows : List (Row V)) :
    (rows.flatMap (keyOf primaryKey)).length = rows.length * primaryKey.length :=
  length_blocks (fun _ => List.length_map ..) rows

theorem tuples_values (primaryKey : List Text) (rows : List (Row V)) :
    (tuples primaryKey.length rows.length).map (fun ns => ns.map (holeValue (rows.flatMap (keyOf primaryKey)))) =
      rows.map (keyOf primaryKey) := by
  refine List.ext_getElem (by simp [tuples]) fun i h _ => ?_
  have hi : i < rows.length := by simpa [tuples] using h
  have hsplit : rows.flatMap (keyOf primaryKey) = (rows.take i).flatMap (keyOf primaryKey)
      ++ keyOf primaryKey rows[i] ++ (rows.drop (i + 1)).flatMap (keyOf primaryKey) := by
    have hrows := List.take_append_drop i rows
    rw [List.drop_eq_getElem_cons hi] at hrows
    rw [List.append_assoc, ← List.flatMap_cons, ← List.flatMap_append, hrows]
  have hblock := holeValue_block ((rows.take i).flatMap (keyOf primaryKey)) (keyOf primaryKey rows[i])
    ((rows.drop (i + 1)).flatMap (keyOf primaryKey))
  rw [← hsplit, length_keys, List.length_take, min_eq_left hi.le, keyOf, List.length_map] at hblock
  simpa [tuples, keyOf] using hblock

theorem tuples_bindings (primaryKey : List Text) (rows : List (Row V)) (first : Nat) :
    (rows.zip (List.range' first rows.length)).flatMap (fun row =>
        (primaryKey.zip (holes (row.2 * primaryKey.length + 1) primaryKey.length)).map fun c => (c.2, c.1)) =
      (holes (first * primaryKey.length + 1) (rows.length * primaryKey.length)).zip (rows.flatMap fun _ => primaryKey) := by
  induction rows generalizing first with
  | nil => simp [holes]
  | cons row rows ih =>
      have hpair := zip_swapped id primaryKey (holes (first * primaryKey.length + 1) primaryKey.length)
      rw [List.map_id] at hpair
      have hcount : (rows.length + 1) * primaryKey.length = primaryKey.length + rows.length * primaryKey.length := by
        rw [Nat.succ_mul, Nat.add_comm]
      have hnext : first * primaryKey.length + 1 + primaryKey.length = (first + 1) * primaryKey.length + 1 := by
        rw [Nat.succ_mul]
        omega
      rw [List.length_cons, List.range'_succ, List.zip_cons_cons, List.flatMap_cons, ih, List.flatMap_cons, hcount,
        holes_append, hnext, List.zip_append (by simp [holes]), ← hpair]
      rfl

theorem deleteRows_command {rows : List (Row V)} {primaryKey : List Text}
    (h : deleteRows string target rows primaryKey = .ok plan) :
    Says plan (.delete target primaryKey (rows.map (keyOf primaryKey))) := by
  rw [deleteRows] at h
  split at h
  · cases h
  rename_i hrows
  split at h
  · cases h
  rename_i hkey
  have hplan := Except.ok.inj h
  have hsql : plan.sql = deleteText target primaryKey (tuples primaryKey.length rows.length) ++ [';'] := by
    have hend : lit ");" = lit ")" ++ [';'] := rfl
    have hgroup : tuple primaryKey = (fun ns => group (ns.map hole)) ∘
        fun r => List.range' (r * primaryKey.length + 1) primaryKey.length := funext fun r => tuple_group primaryKey r
    rw [← hplan, hend, ← List.append_assoc, deleteText, tuples, List.map_map, ← hgroup, group, List.length_map]
  have hparams : plan.params = rows.flatMap (keyOf primaryKey) := by
    rw [← hplan]
    rfl
  have hcount : plan.params.length = rows.length * primaryKey.length := by rw [hparams, length_keys]
  have htuples : tuples primaryKey.length rows.length ≠ [] := by simpa [tuples] using hrows
  have hwidth : ∀ ns ∈ tuples primaryKey.length rows.length, ns ≠ [] ∧ ∀ n ∈ ns, 1 ≤ n ∧ n ≤ plan.params.length := by
    intro ns hns
    obtain ⟨r, hr, rfl⟩ := List.mem_map.mp hns
    refine ⟨by simpa using hkey, fun n hn => ?_⟩
    have hn := mem_range'_one hn
    have hr : (r + 1) * primaryKey.length ≤ rows.length * primaryKey.length :=
      Nat.mul_le_mul_right _ (List.mem_range.mp hr)
    rw [Nat.succ_mul] at hr
    omega
  have hread := readCommand_delete target plan.params hkey htuples (fun ns hns => (hwidth ns hns).1)
    fun ns hns => (hwidth ns hns).2
  rw [hparams, tuples_values, ← hparams] at hread
  obtain ⟨hsingle, hpasses⟩ := says_sentence (phrase_delete hkey htuples fun ns hns => (hwidth ns hns).1)
    (List.cons_ne_nil _ _) hsql hread fun st hst => danger_where (.inr rfl) hst (.token rfl (phrase_target target).balanced)
  refine ⟨hsingle, hpasses, ?_, ?_⟩
  · have hbindings := tuples_bindings primaryKey rows 0
    rw [Nat.zero_mul, Nat.zero_add, ← hcount, ← List.range_eq_range'] at hbindings
    rw [Command.columns, List.flatMap_map, ← hbindings, ← hplan, List.map_flatMap]
    simp only [List.map_map]
    rfl
  · rw [hcount, Command.columns, List.flatMap_map]
    exact length_blocks (fun _ => rfl) rows

/-- Whatever is edited, the plan asks for that and no more, and the guard has nothing to confirm. -/
theorem compile_says (string : Option V → Text) (target : Target) (edit : Edit V) (h : compile string target edit = .ok plan) : Says plan (edit.command target) := by
  cases edit with
  | update row primaryKey changes => exact updateRow_command h
  | insert values => exact insertRow_command h
  | delete rows primaryKey => exact deleteRows_command h

theorem compile_says_composite : ∃ plan : RowPlan Nat,
    compile (fun _ => []) ⟨lit "public", lit "a\"; drop table b"⟩
      (.update (fun _ => some 7) [lit "tenant", lit "id"] [(lit "at", .default), (lit "note", .null)]) = .ok plan ∧
    Says plan (.update ⟨lit "public", lit "a\"; drop table b"⟩ [(lit "note", .null)]
      [(lit "tenant", .cell 7), (lit "id", .cell 7)]) :=
  ⟨_, rfl, compile_says (fun _ => []) _
    (.update (fun _ => some 7) [lit "tenant", lit "id"] [(lit "at", .default), (lit "note", .null)]) rfl⟩

end Says

/-! What an edit does to a table -/

section Effects

/-- No two rows of the table have one key, and no key is null. -/
structure Keyed (primaryKey : List Text) (table : List (Row V)) : Prop where
  present : ∀ row ∈ table, ∀ c ∈ primaryKey, row c ≠ none
  unique : table.Pairwise fun r s => ∃ c ∈ primaryKey, r c ≠ s c

variable {primaryKey : List Text} {table : List (Row V)}

theorem mapM_present {row : Row V} {columns : List Text} (h : ∀ c ∈ columns, row c ≠ none) :
    ∃ values, columns.mapM row = some values := by
  induction columns with
  | nil => exact ⟨[], rfl⟩
  | cons c cs ih =>
      obtain ⟨v, hv⟩ := Option.ne_none_iff_exists'.mp (h c List.mem_cons_self)
      obtain ⟨vs, hvs⟩ := ih fun d hd => h d (List.mem_cons_of_mem c hd)
      exact ⟨v :: vs, by rw [List.mapM_cons, hv, hvs]; rfl⟩

theorem updateRow_ok (string : Option V → Text) (target : Target) {row : Row V} {changes : List (Text × CellValue)}
    (hkey : primaryKey ≠ []) (hrow : ∀ c ∈ primaryKey, row c ≠ none) (hchanges : given changes ≠ []) :
    ∃ plan, updateRow string target row primaryKey changes = .ok plan := by
  obtain ⟨values, hvalues⟩ := mapM_present hrow
  rw [updateRow, if_neg hchanges, pkWhere, if_neg hkey, hvalues]
  exact ⟨_, rfl⟩

/-- Other rows of the table have other keys. -/
theorem Keyed.others {before after : List (Row V)} {row : Row V} (h : Keyed primaryKey (before ++ row :: after)) {r : Row V}
    (hr : r ∈ before ∨ r ∈ after) : ¬ ∀ c ∈ primaryKey, r c = row c := by
  obtain ⟨-, hafter, hbefore⟩ := List.pairwise_append.mp h.unique
  intro hsame
  rcases hr with hr | hr
  · obtain ⟨c, hc, hne⟩ := hbefore r hr row List.mem_cons_self
    exact hne (hsame c hc)
  · obtain ⟨c, hc, hne⟩ := (List.pairwise_cons.mp hafter).1 r hr
    exact hne (hsame c hc).symm

theorem Keyed.same (h : Keyed primaryKey table) {r s : Row V} (hr : r ∈ table) (hs : s ∈ table)
    (hsame : ∀ c ∈ primaryKey, r c = s c) : r = s := by
  by_contra hne
  have hsymm : Std.Symm fun r s : Row V => ∃ c ∈ primaryKey, r c ≠ s c := ⟨fun _ _ ⟨c, hc, hne⟩ => ⟨c, hc, hne.symm⟩⟩
  obtain ⟨c, hc, hdiffer⟩ := h.unique.forall hr hs hne
  exact hdiffer (hsame c hc)

variable (value : Text → Param V → Option V)

/-- What is stored in a column; none is null. -/
def written (cells : List (Text × Param V)) (row : Row V) : Row V := fun column =>
  match cells.find? fun cell => cell.1 = column with
  | some cell => value column cell.2
  | none => row column

variable [DecidableEq V]

/-- Row-wise equality of a key; null equals nothing. -/
def agrees (key : List (Text × Param V)) (row : Row V) : Bool :=
  key.all fun k => row k.1 ≠ none && row k.1 = value k.1 k.2

/-- A statement as the database runs it, on the rows of its table; the other columns of a new row are defaults. -/
def Command.run (defaults : Row V) : Command V → List (Row V) → List (Row V)
  | .update _ changes key, table => table.map fun row => if agrees value key row then written value changes row else row
  | .insert _ cells, table => table ++ [written value cells defaults]
  | .delete _ key rows, table => table.filter fun row => !rows.any fun ps => agrees value (key.zip ps) row

variable {value}

theorem agrees_key (hvalue : ∀ c ∈ primaryKey, ∀ v, value c (.cell v) = some v) {row other : Row V}
    (hrow : ∀ c ∈ primaryKey, row c ≠ none) :
    agrees value (primaryKey.zip (keyOf primaryKey row)) other = true ↔ ∀ c ∈ primaryKey, other c = row c := by
  rw [agrees, keyOf, ← List.map_id primaryKey, List.map_map, List.zip_map']
  simp only [List.all_map, List.all_eq_true, List.map_id]
  refine forall₂_congr fun c hc => ?_
  obtain ⟨v, hv⟩ := Option.ne_none_iff_exists'.mp (hrow c hc)
  have hparam : value c (param (row c)) = some v := by rw [hv, param, hvalue c hc v]
  rw [Function.comp_apply, Function.comp_apply, Bool.and_eq_true, decide_eq_true_eq, decide_eq_true_eq]
  change other c ≠ none ∧ other c = value c (param (row c)) ↔ other c = row c
  rw [hparam, hv]
  exact ⟨And.right, fun h => ⟨h ▸ Option.some_ne_none v, h⟩⟩

/-- The plan of an edit, run on a table. -/
def Runs (plan : RowPlan V) (value : Text → Param V → Option V) (defaults : Row V) (table after : List (Row V)) : Prop :=
  ∃ st command, split plan.sql = [st] ∧ readCommand plan.params (st.tokens.map shape) = some command ∧
    command.run value defaults table = after

theorem Says.runs {command : Command V} {plan : RowPlan V} (h : Says plan command) (value : Text → Param V → Option V)
    (defaults : Row V) (table : List (Row V)) : Runs plan value defaults table (command.run value defaults table) := by
  obtain ⟨st, hst, hread⟩ := h.single
  exact ⟨st, command, hst, hread, rfl⟩

theorem update_runs (hvalue : ∀ c ∈ primaryKey, ∀ v, value c (.cell v) = some v) {before after : List (Row V)} {row : Row V}
    (hkeyed : Keyed primaryKey (before ++ row :: after)) (target : Target) (changes : List (Text × Param V))
    (defaults : Row V) :
    (Command.update target changes (primaryKey.zip (keyOf primaryKey row))).run value defaults (before ++ row :: after) =
      before ++ written value changes row :: after := by
  have hrow := hkeyed.present row (by simp)
  have hkept : ∀ r, (r ∈ before ∨ r ∈ after) →
      (if agrees value (primaryKey.zip (keyOf primaryKey row)) r then written value changes r else r) = r := by
    intro r hr
    rw [if_neg fun h => hkeyed.others hr ((agrees_key hvalue hrow).mp h)]
  rw [Command.run, List.map_append, List.map_cons, if_pos ((agrees_key hvalue hrow).mpr fun _ _ => rfl),
    List.map_congr_left fun r hr => hkept r (.inl hr), List.map_congr_left fun r hr => hkept r (.inr hr)]
  simp

theorem mem_delete (hvalue : ∀ c ∈ primaryKey, ∀ v, value c (.cell v) = some v) (hkeyed : Keyed primaryKey table)
    (target : Target) {rows : List (Row V)} (hrows : rows ⊆ table) (defaults row : Row V) :
    row ∈ (Command.delete target primaryKey (rows.map (keyOf primaryKey))).run value defaults table ↔
      row ∈ table ∧ row ∉ rows := by
  simp only [Command.run, List.mem_filter, List.any_map, Bool.not_eq_true', List.any_eq_false, Function.comp_apply]
  refine and_congr_right fun hrow => ?_
  constructor
  · intro h hmem
    exact h row hmem ((agrees_key hvalue (hkeyed.present row hrow)).mpr fun _ _ => rfl)
  · intro hmem r hr hagrees
    have hsame := (agrees_key hvalue (hkeyed.present r (hrows hr))).mp hagrees
    rw [hkeyed.same hrow (hrows hr) hsame] at hmem
    exact hmem hr

/-- In a table with a key, an edit has a plan, and the plan touches the rows that were picked and no others. -/
theorem edits_exact (string : Option V → Text) (target : Target) (defaults : Row V) (hkey : primaryKey ≠ [])
    (hvalue : ∀ c ∈ primaryKey, ∀ v, value c (.cell v) = some v) (hkeyed : Keyed primaryKey table) :
    (∀ before row after changes, table = before ++ row :: after → given changes ≠ [] →
      ∃ plan, updateRow string target row primaryKey changes = .ok plan ∧
        Runs plan value defaults table (before ++ written value (sent changes) row :: after)) ∧
    (∀ values, given values ≠ [] → ∃ plan, insertRow target values = .ok plan ∧
      Runs plan value defaults table (table ++ [written value (sent values) defaults])) ∧
    (∀ rows, rows ≠ [] → rows ⊆ table → ∃ plan left, deleteRows string target rows primaryKey = .ok plan ∧
      Runs plan value defaults table left ∧ left.Sublist table ∧ ∀ row, row ∈ left ↔ row ∈ table ∧ row ∉ rows) := by
  refine ⟨?_, ?_, ?_⟩
  · rintro before row after changes rfl hchanges
    obtain ⟨plan, hplan⟩ := updateRow_ok string target hkey (hkeyed.present row (by simp)) hchanges
    have hruns := (updateRow_command hplan).runs value defaults (before ++ row :: after)
    rw [update_runs hvalue hkeyed] at hruns
    exact ⟨plan, hplan, hruns⟩
  · intro values hvalues
    have hplan : ∃ plan, insertRow (V := V) target values = .ok plan := by
      rw [insertRow, if_neg hvalues]
      exact ⟨_, rfl⟩
    obtain ⟨plan, hplan⟩ := hplan
    exact ⟨plan, hplan, (insertRow_command hplan).runs value defaults table⟩
  · intro rows hrows hsub
    have hplan : ∃ plan, deleteRows string target rows primaryKey = .ok plan := by
      rw [deleteRows, if_neg hrows, if_neg hkey]
      exact ⟨_, rfl⟩
    obtain ⟨plan, hplan⟩ := hplan
    exact ⟨plan, _, hplan, (deleteRows_command hplan).runs value defaults table, List.filter_sublist,
      fun row => mem_delete hvalue hkeyed target hsub defaults row⟩

theorem edits_exact_first : ∃ plan : RowPlan Nat,
    updateRow (fun _ => []) ⟨lit "public", lit "t"⟩ (fun _ => some 1) [lit "id"] [(lit "note", .null)] = .ok plan ∧
      Runs plan (fun _ p => match p with | .cell v => some v | _ => none) (fun _ => none)
        [fun _ => some 1, fun _ => some 2]
        [written (fun _ p => match p with | .cell v => some v | _ => none) [(lit "note", .null)] fun _ => some 1,
          fun _ => some 2] :=
  have hkeyed : Keyed (V := Nat) [lit "id"] [fun _ => some 1, fun _ => some 2] := ⟨by simp, by simp⟩
  (edits_exact (fun _ => []) _ (fun _ => none) (List.cons_ne_nil _ _) (fun _ _ _ => rfl) hkeyed).1 [] (fun _ => some 1) [fun _ => some 2] [(lit "note", .null)] rfl (List.cons_ne_nil _ _)

end Effects

end Corebase.RowEdits
