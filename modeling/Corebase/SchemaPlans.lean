import Corebase.DropNames
import Corebase.RowEdits

namespace Corebase.SchemaPlans

open JsText SqlLex SqlGuard SqlBrackets SqlPrinting Verdicts DropNames RowEdits

structure TableFacts where
  schema : Text
  table : Text
  /-- Below zero for a table that was never analysed. -/
  rowsEstimate : Int

structure Plan where
  sql : Text
  done : Text
  notices : List Notice
  filename : Text

/-- Beyond ASCII only the letters whose lower case has ASCII in it. -/
def lowerCase (c : Char) : Text := if c = '\u212a' then ['k'] else if c = '\u0130' then ['i', '\u0307'] else [c.toLower]

/-- One underscore for each run of other characters. -/
def underscored (keep : Char → Bool) : Text → Text
  | [] => []
  | c :: cs =>
      if keep c then c :: underscored keep cs
      else if cs.head?.any fun d => !keep d then underscored keep cs else '_' :: underscored keep cs

def isSlug (c : Char) : Bool := isLower c || isDigit c

def trimUnderscore (s : Text) : Text :=
  let front := if s.head? = some '_' then s.drop 1 else s
  if front.getLast? = some '_' then front.dropLast else front

/-- The stamp is the local time in digits. -/
def migrationName (stamp slug : Text) : Text :=
  let safe := trimUnderscore (underscored isSlug (slug.flatMap lowerCase))
  stamp ++ lit "_" ++ (if safe = [] then lit "change" else safe) ++ lit ".sql"

variable (locale : Int → Text) (stamp : Text)

def rowsPhrase (rowsEstimate : Int) : Text :=
  if rowsEstimate < 0 then lit "an unknown number of rows — this table has never been analysed"
  else if rowsEstimate = 0 then lit "no rows, as far as the planner knows"
  else lit "about " ++ locale rowsEstimate ++ lit " rows"

def scan (what : String) (rows : Int) : Notice :=
  ⟨"scan", lit what ++ lit " checks every existing row before it is accepted, which reads " ++ rowsPhrase locale rows
    ++ lit ". If any row fails, nothing is applied and Postgres names the first row that failed."⟩

def apiBreakTable (source target : Text) : Notice :=
  ⟨"api", lit "Your REST endpoint /rest/v1/" ++ source ++ lit " becomes /rest/v1/" ++ target
    ++ lit ". Clients still asking for the old path get a 404 — nothing redirects."⟩

def apiBreakColumn (source target : Text) : Notice :=
  ⟨"api", lit "The field named \"" ++ source ++ lit "\" in every API response and filter becomes \"" ++ target
    ++ lit "\". Clients reading the old name get nothing back for it."⟩

def alter (f : TableFacts) : Text := lit "alter table " ++ qualified f.schema f.table

def named (f : TableFacts) : Text := f.schema ++ lit "." ++ f.table

def renameTable (f : TableFacts) (target : Text) : Except Text Plan :=
  if trim target = [] then .error (lit "Type the new name.")
  else if target = f.table then .error (lit "Type a different name.")
  else .ok {
    sql := alter f ++ lit " rename to " ++ quote target ++ lit ";"
    done := lit "Table renamed to " ++ target
    notices := [apiBreakTable f.table target]
    filename := migrationName stamp (lit "rename_" ++ f.table ++ lit "_to_" ++ target) }

def dropTable (f : TableFacts) (cascade : Bool) : Plan where
  sql := lit "drop table " ++ qualified f.schema f.table ++ (if cascade then lit " cascade" else lit " restrict") ++ lit ";"
  done := lit "Table " ++ f.table ++ lit " dropped"
  notices := [⟨"data", if cascade then
      lit "CASCADE also drops everything that depends on this table — views built on it, foreign keys pointing at it, "
        ++ lit "and the policies and triggers attached to those. Postgres lists what it dropped afterwards, which is the "
        ++ lit "only record you will get."
    else
      lit "RESTRICT means Postgres refuses if anything depends on this table, and names what does. That refusal is the "
        ++ lit "useful outcome — it is how you find out what would have broken."⟩]
  filename := migrationName stamp (lit "drop_" ++ f.table)

def renameColumn (f : TableFacts) (column target : Text) : Except Text Plan :=
  if trim target = [] then .error (lit "Type the new name.")
  else if target = column then .error (lit "Type a different name.")
  else .ok {
    sql := alter f ++ lit " rename column " ++ quote column ++ lit " to " ++ quote target ++ lit ";"
    done := lit "Column renamed to " ++ target
    notices := [apiBreakColumn column target]
    filename := migrationName stamp (lit "rename_" ++ column ++ lit "_to_" ++ target) }

def dropColumn (f : TableFacts) (column : Text) : Plan where
  sql := alter f ++ lit " drop column " ++ quote column ++ lit ";"
  done := lit "Column " ++ column ++ lit " dropped"
  notices := [⟨"data", lit "The values in this column are deleted. Postgres does not reclaim the space immediately, but the "
    ++ lit "data is not readable afterwards and only a backup restore brings it back."⟩]
  filename := migrationName stamp (lit "drop_" ++ column ++ lit "_from_" ++ f.table)

def setNotNull (f : TableFacts) (column : Text) : Plan where
  sql := alter f ++ lit " alter column " ++ quote column ++ lit " set not null;"
  done := lit "Column " ++ column ++ lit " is now NOT NULL"
  notices := [scan locale "Adding NOT NULL" f.rowsEstimate]
  filename := migrationName stamp (f.table ++ lit "_" ++ column ++ lit "_not_null")

def dropNotNull (f : TableFacts) (column : Text) : Plan where
  sql := alter f ++ lit " alter column " ++ quote column ++ lit " drop not null;"
  done := lit "Column " ++ column ++ lit " now allows null"
  notices := [⟨"api", lit "Clients that assume this field is always present can now receive null in it, including anything "
    ++ lit "generated from your schema types."⟩]
  filename := migrationName stamp (f.table ++ lit "_" ++ column ++ lit "_nullable")

def dropDefault (f : TableFacts) (column : Text) : Plan where
  sql := alter f ++ lit " alter column " ++ quote column ++ lit " drop default;"
  done := lit "Default removed from " ++ column
  notices := []
  filename := migrationName stamp (f.table ++ lit "_" ++ column ++ lit "_drop_default")

def grantAnonRead (f : TableFacts) : Plan where
  sql := lit "grant select on " ++ qualified f.schema f.table ++ lit " to anon;"
  done := lit "Anonymous read enabled"
  notices := [⟨"rls", lit "Anyone holding your project’s anon key can now read this table — filtered by its policies, and by "
    ++ lit "nothing else. With RLS on and no policy for anon they still get nothing; with a permissive policy they get those "
    ++ lit "rows, publicly. This is the grant that makes a policy for anon take effect at all."⟩]
  filename := migrationName stamp (lit "grant_anon_read_on_" ++ f.table)

def revokeAnonAccess (f : TableFacts) : Plan where
  sql := lit "revoke all on " ++ qualified f.schema f.table ++ lit " from anon;"
  done := lit "Anonymous access removed"
  notices := [⟨"api", lit "Anonymous callers go back to being refused outright, whatever the policies say — a grant sits above "
    ++ lit "RLS, so removing it is the coarse switch. Signed-in callers are unaffected."⟩]
  filename := migrationName stamp (lit "revoke_anon_on_" ++ f.table)

def addPrimaryKey (f : TableFacts) (columns : List Text) : Except Text Plan :=
  if columns = [] then .error (lit "Choose at least one column.")
  else .ok {
    sql := alter f ++ lit " add primary key (" ++ join (lit ", ") (columns.map quote) ++ lit ");"
    done := lit "Primary key added on " ++ join (lit ", ") columns
    notices :=
      [⟨"data", lit "Postgres also makes " ++ (if columns.length > 1 then lit "these columns" else lit "this column")
        ++ lit " NOT NULL, which it does not say in the statement. Clients that send null here will start being rejected."⟩,
      scan locale "Building the key’s unique index" f.rowsEstimate,
      ⟨"lock", lit "If any two rows share a value this fails and names one of them, which is the useful outcome — it is how "
        ++ lit "you find the duplicates."⟩]
    filename := migrationName stamp (f.table ++ lit "_primary_key") }

/-- An empty name is none. -/
def nameOr (name : Option Text) (other : Text) : Text :=
  let given := trim (name.getD [])
  if given = [] then other else given

def isIdentifier (c : Char) : Bool := isSlug c || c = '_'

def indexName (table : Text) (columns : List Text) : Text :=
  (underscored isIdentifier ((lit "idx_" ++ table ++ lit "_" ++ join (lit "_") columns).flatMap lowerCase)).take 63

def createIndex (f : TableFacts) (columns : List Text) (unique : Bool) (name : Option Text) : Except Text Plan :=
  if columns = [] then .error (lit "Choose at least one column.")
  else
    let name := nameOr name (indexName f.table columns)
    .ok {
      sql := lit "create " ++ (if unique then lit "unique " else []) ++ lit "index " ++ quote name ++ lit "\n  on "
        ++ qualified f.schema f.table ++ lit " (" ++ join (lit ", ") (columns.map quote) ++ lit ");"
      done := lit "Index " ++ name ++ lit " created"
      notices :=
        [⟨"lock", lit "Building the index blocks writes to " ++ named f ++ lit " until it finishes — reads keep working. It "
          ++ lit "reads " ++ rowsPhrase locale f.rowsEstimate ++ lit ". Building it without the write lock needs CREATE INDEX "
          ++ lit "CONCURRENTLY, which cannot run inside a transaction and so cannot run from this console yet."⟩]
        ++ (if unique then [⟨"scan", lit "A unique index also fails if any two rows already share these values, and names one "
          ++ lit "of them — which is the useful outcome."⟩] else [])
        ++ [⟨"api", lit "Every index makes writes to this table a little slower and takes disk. Worth having for a column you "
          ++ lit "filter or join on; worth removing if you stop."⟩]
      filename := migrationName stamp (lit "create_" ++ name) }

def uniqueName (table : Text) (columns : List Text) : Text :=
  underscored isIdentifier ((table ++ lit "_" ++ join (lit "_") columns ++ lit "_key").flatMap lowerCase)

def addUnique (f : TableFacts) (columns : List Text) (name : Option Text) : Except Text Plan :=
  if columns = [] then .error (lit "Choose at least one column.")
  else
    let constraint := nameOr name (uniqueName f.table columns)
    .ok {
      sql := alter f ++ lit " add constraint " ++ quote constraint ++ lit "\n  unique ("
        ++ join (lit ", ") (columns.map quote) ++ lit ");"
      done := lit "Unique constraint " ++ constraint ++ lit " added"
      notices :=
        [⟨"lock", lit "This builds a unique index, which blocks writes to " ++ named f ++ lit " until it finishes and reads "
          ++ rowsPhrase locale f.rowsEstimate ++ lit "."⟩,
        ⟨"data", if columns.length > 1 then
            lit "Uniqueness is across the combination, not each column — two rows may share one value as long as the whole "
              ++ lit "set differs. If any two rows already match, the statement fails and names one of them."
          else lit "If any two rows already share a value the statement fails and names one of them, which is the useful "
            ++ lit "outcome."⟩]
      filename := migrationName stamp (lit "add_" ++ constraint) }

def dropIndex (schema name : Text) (invalid : Bool) : Plan where
  sql := lit "drop index " ++ qualified schema name ++ lit ";"
  done := lit "Index " ++ name ++ lit " dropped"
  notices := [if invalid then
      ⟨"data", lit "This index is invalid — Postgres will not use it for any query, and it still costs write time and disk on "
        ++ lit "every insert. Dropping it is the only way to be rid of it; rebuild it afterwards if you wanted it."⟩
    else
      ⟨"api", lit "Queries relying on this index fall back to whatever else is available, usually a sequential scan. Nothing "
        ++ lit "breaks and some things get slower — and rebuilding it later takes the write lock again."⟩]
  filename := migrationName stamp (lit "drop_" ++ name)

inductive ConstraintKind
  | primaryKey | unique | foreignKey | other
deriving DecidableEq

def dropConstraint (f : TableFacts) (name : Text) (kind : ConstraintKind) : Plan where
  sql := alter f ++ lit " drop constraint " ++ quote name ++ lit ";"
  done := lit "Constraint " ++ name ++ lit " dropped"
  notices := (match kind with
      | .primaryKey => [⟨"data", lit "This is the table’s primary key. Without one the grid becomes read-only — row editing "
          ++ lit "needs a key to target exactly one row — and paging stops being stable, so a row can appear twice or not at "
          ++ lit "all. The index behind it goes too."⟩]
      | .unique => [⟨"data", lit "The index behind this constraint is dropped with it, so queries that were using it get "
          ++ lit "slower as well."⟩]
      | _ => [])
    ++ [⟨"api", (if kind = .foreignKey then lit "Rows in " ++ named f ++ lit " may then point at rows that do not exist, and "
          ++ lit "nothing will stop new ones doing so. "
        else lit "Rows that would have been rejected can be written to " ++ named f ++ lit " from now on. ")
      ++ lit "What is already stored is not checked or changed."⟩]
  filename := migrationName stamp (lit "drop_" ++ name)

def enableRls (f : TableFacts) : Plan where
  sql := alter f ++ lit " enable row level security;"
  done := lit "Row Level Security enabled"
  notices := [⟨"rls", lit "With RLS on and no policies, signed-in callers get an empty list from your API — which is the safe "
    ++ lit "state, not a broken one. You keep seeing every row here and through your connection string, because you own the "
    ++ lit "table. A policy is what opens it up."⟩]
  filename := migrationName stamp (lit "enable_rls_on_" ++ f.table)

/-! The statements, piece by piece -/

inductive Operation
  | renameTable (target : Text)
  | dropTable (cascade : Bool)
  | renameColumn (column target : Text)
  | dropColumn (column : Text)
  | setNotNull (column : Text)
  | dropNotNull (column : Text)
  | dropDefault (column : Text)
  | grantAnonRead
  | revokeAnonAccess
  | addPrimaryKey (columns : List Text)
  | createIndex (columns : List Text) (unique : Bool) (name : Option Text)
  | addUnique (columns : List Text) (name : Option Text)
  | dropIndex (schema name : Text) (invalid : Bool)
  | dropConstraint (name : Text) (kind : ConstraintKind)
  | enableRls

def compile (f : TableFacts) : Operation → Except Text Plan
  | .renameTable target => renameTable stamp f target
  | .dropTable cascade => .ok (dropTable stamp f cascade)
  | .renameColumn column target => renameColumn stamp f column target
  | .dropColumn column => .ok (dropColumn stamp f column)
  | .setNotNull column => .ok (setNotNull locale stamp f column)
  | .dropNotNull column => .ok (dropNotNull stamp f column)
  | .dropDefault column => .ok (dropDefault stamp f column)
  | .grantAnonRead => .ok (grantAnonRead stamp f)
  | .revokeAnonAccess => .ok (revokeAnonAccess stamp f)
  | .addPrimaryKey columns => addPrimaryKey locale stamp f columns
  | .createIndex columns unique name => createIndex locale stamp f columns unique name
  | .addUnique columns name => addUnique locale stamp f columns name
  | .dropIndex schema name invalid => .ok (dropIndex stamp schema name invalid)
  | .dropConstraint name kind => .ok (dropConstraint stamp f name kind)
  | .enableRls => .ok (enableRls stamp f)

/-- A piece of a statement, with a blank in front of it. -/
inductive Piece
  | word (w : Text)
  /-- A word on the next line. -/
  | below (w : Text)
  | name (n : Text)
  | target (schema table : Text)
  | columns (names : List Text)

def Piece.print : Piece → Text
  | .word w => ' ' :: w
  | .below w => lit "\n  " ++ w
  | .name n => ' ' :: quote n
  | .target schema table => ' ' :: qualified schema table
  | .columns names => ' ' :: (lit "(" ++ join (lit ", ") (names.map quote) ++ lit ")")

def Piece.tokens : Piece → List Shape
  | .word w | .below w => [(.word, toUpperCase w)]
  | .name n => nameTokens n
  | .target schema table => targetTokens ⟨schema, table⟩
  | .columns names => insideTokens (names.map nameTokens)

def Piece.wellFormed : Piece → Bool
  | .word w | .below w => isKeyword w
  | .columns names => names ≠ []
  | _ => true

def printed (ps : List Piece) : Text := ps.flatMap Piece.print

def tokens (ps : List Piece) : List Shape := ps.flatMap Piece.tokens

theorem break_not_quote (c : Char) (h : isBreak c = true) : notQuote c = true := by
  rw [notQuote, decide_eq_true_eq]
  rintro rfl
  revert h
  decide

theorem phrase_piece {p : Piece} (h : p.wellFormed = true) : Phrase isBreak p.print p.tokens := by
  have hblank : Phrase anyChar [' '] [] := phrase_blank rfl
  cases p with
  | word w => exact hblank.then (phrase_keyword h)
  | below w => exact (phrase_blank (s := lit "\n  ") (by decide)).then (phrase_keyword h)
  | name n => exact hblank.then ((phrase_quote n).mono break_not_quote)
  | target schema table => exact hblank.then ((phrase_target ⟨schema, table⟩).mono break_not_quote)
  | columns names =>
      have hne : names ≠ [] := of_decide_eq_true h
      have hinside := phrase_inside quote nameTokens (P := notQuote) rfl rfl hne fun name _ => phrase_quote name
      exact hblank.then (hinside.mono fun _ _ => rfl)

theorem print_head (p : Piece) : ∃ c, p.print.head? = some c ∧ isBreak c = true := by
  cases p with
  | below w => exact ⟨'\n', rfl, rfl⟩
  | _ => exact ⟨' ', rfl, rfl⟩

theorem phrase_printed {s : Text} {ts : List Shape} (h : Phrase isBreak s ts) (ps : List Piece)
    (hps : ps.all Piece.wellFormed = true) : Phrase isBreak (s ++ printed ps) (ts ++ tokens ps) := by
  induction ps generalizing s ts with
  | nil => simpa [printed, tokens] using h
  | cons p ps ih =>
      rw [List.all_cons, Bool.and_eq_true] at hps
      obtain ⟨c, hc, hbreak⟩ := print_head p
      have hall := ih (h.append (phrase_piece hps.1) hc hbreak) hps.2
      rwa [List.append_assoc, List.append_assoc] at hall

/-- The first word of an operation's statement and the pieces after it. -/
def Operation.pieces (f : TableFacts) : Operation → Text × List Piece
  | .renameTable target => altered [.word (lit "rename"), .word (lit "to"), .name target]
  | .dropTable cascade => (lit "drop", [.word (lit "table"), .target f.schema f.table,
      .word (if cascade then lit "cascade" else lit "restrict")])
  | .renameColumn column target =>
      altered [.word (lit "rename"), .word (lit "column"), .name column, .word (lit "to"), .name target]
  | .dropColumn column => altered [.word (lit "drop"), .word (lit "column"), .name column]
  | .setNotNull column => altered [.word (lit "alter"), .word (lit "column"), .name column, .word (lit "set"),
      .word (lit "not"), .word (lit "null")]
  | .dropNotNull column => altered [.word (lit "alter"), .word (lit "column"), .name column, .word (lit "drop"),
      .word (lit "not"), .word (lit "null")]
  | .dropDefault column =>
      altered [.word (lit "alter"), .word (lit "column"), .name column, .word (lit "drop"), .word (lit "default")]
  | .grantAnonRead => (lit "grant", [.word (lit "select"), .word (lit "on"), .target f.schema f.table,
      .word (lit "to"), .word (lit "anon")])
  | .revokeAnonAccess => (lit "revoke", [.word (lit "all"), .word (lit "on"), .target f.schema f.table,
      .word (lit "from"), .word (lit "anon")])
  | .addPrimaryKey columns => altered [.word (lit "add"), .word (lit "primary"), .word (lit "key"), .columns columns]
  | .createIndex columns unique name => (lit "create",
      (if unique then [.word (lit "unique")] else []) ++ [.word (lit "index"),
        .name (nameOr name (indexName f.table columns)), .below (lit "on"), .target f.schema f.table, .columns columns])
  | .addUnique columns name => altered [.word (lit "add"), .word (lit "constraint"),
      .name (nameOr name (uniqueName f.table columns)), .below (lit "unique"), .columns columns]
  | .dropIndex schema name _ => (lit "drop", [.word (lit "index"), .target schema name])
  | .dropConstraint name _ => altered [.word (lit "drop"), .word (lit "constraint"), .name name]
  | .enableRls => altered [.word (lit "enable"), .word (lit "row"), .word (lit "level"), .word (lit "security")]
where
  altered (ps : List Piece) : Text × List Piece :=
    (lit "alter", .word (lit "table") :: .target f.schema f.table :: ps)

section Printing

variable {locale : Int → Text} {stamp : Text} {f : TableFacts} {op : Operation} {plan : Plan}

/-- A literal, without decoding it. -/
theorem lit_chars (cs : List Char) : lit (String.ofList cs) = cs := String.toList_ofList

theorem ok_of_guard {α : Type} {p : Prop} [Decidable p] {reason : Text} {a b : α}
    (h : (if p then .error reason else .ok a : Except Text α) = .ok b) : ¬p ∧ a = b := by
  split at h
  · cases h
  · exact ⟨‹_›, Except.ok.inj h⟩

theorem ok_of_guards {α : Type} {p q : Prop} [Decidable p] [Decidable q] {reason reason' : Text} {a b : α}
    (h : (if p then .error reason else if q then .error reason' else .ok a : Except Text α) = .ok b) : a = b := by
  split at h
  · cases h
  · exact (ok_of_guard h).2

theorem compile_printed (h : compile locale stamp f op = .ok plan) :
    plan.sql = (op.pieces f).1 ++ printed (op.pieces f).2 ++ [';'] := by
  have halter : lit "alter table " = lit "alter" ++ ' ' :: (lit "table" ++ [' ']) := by
    repeat rw [lit_chars]
    rfl
  have hend : lit ";" = [';'] := by
    repeat rw [lit_chars]
  have hclose : lit ");" = lit ")" ++ [';'] := by
    repeat rw [lit_chars]
    rfl
  cases op with
  | renameTable target =>
      obtain rfl := ok_of_guards h
      have hwords : lit " rename to " = ' ' :: (lit "rename" ++ ' ' :: (lit "to" ++ [' '])) := by
        repeat rw [lit_chars]
        rfl
      change alter f ++ lit " rename to " ++ quote target ++ lit ";" = _
      simp only [Operation.pieces, Operation.pieces.altered, alter, printed, List.flatMap_cons, List.flatMap_nil, Piece.print, halter, hwords, hend,
        List.append_assoc, List.cons_append, List.nil_append, List.append_nil]
  | renameColumn column target =>
      obtain rfl := ok_of_guards h
      have hwords₁ : lit " rename column " = ' ' :: (lit "rename" ++ ' ' :: (lit "column" ++ [' '])) := by
        repeat rw [lit_chars]
        rfl
      have hwords₂ : lit " to " = ' ' :: (lit "to" ++ [' ']) := by
        repeat rw [lit_chars]
        rfl
      change alter f ++ lit " rename column " ++ quote column ++ lit " to " ++ quote target ++ lit ";" = _
      simp only [Operation.pieces, Operation.pieces.altered, alter, printed, List.flatMap_cons, List.flatMap_nil, Piece.print, halter, hwords₁, hwords₂, hend,
        List.append_assoc, List.cons_append, List.nil_append, List.append_nil]
  | dropColumn column =>
      obtain rfl := Except.ok.inj h
      have hwords : lit " drop column " = ' ' :: (lit "drop" ++ ' ' :: (lit "column" ++ [' '])) := by
        repeat rw [lit_chars]
        rfl
      change alter f ++ lit " drop column " ++ quote column ++ lit ";" = _
      simp only [Operation.pieces, Operation.pieces.altered, alter, printed, List.flatMap_cons, List.flatMap_nil, Piece.print, halter, hwords, hend,
        List.append_assoc, List.cons_append, List.nil_append, List.append_nil]
  | setNotNull column =>
      obtain rfl := Except.ok.inj h
      have hwords₁ : lit " alter column " = ' ' :: (lit "alter" ++ ' ' :: (lit "column" ++ [' '])) := by
        repeat rw [lit_chars]
        rfl
      have hwords₂ : lit " set not null;" = ' ' :: (lit "set" ++ ' ' :: (lit "not" ++ ' ' :: (lit "null" ++ [';']))) := by
        repeat rw [lit_chars]
        rfl
      change alter f ++ lit " alter column " ++ quote column ++ lit " set not null;" = _
      simp only [Operation.pieces, Operation.pieces.altered, alter, printed, List.flatMap_cons, List.flatMap_nil, Piece.print, halter, hwords₁, hwords₂,
        List.append_assoc, List.cons_append, List.nil_append, List.append_nil]
  | dropNotNull column =>
      obtain rfl := Except.ok.inj h
      have hwords₁ : lit " alter column " = ' ' :: (lit "alter" ++ ' ' :: (lit "column" ++ [' '])) := by
        repeat rw [lit_chars]
        rfl
      have hwords₂ : lit " drop not null;" = ' ' :: (lit "drop" ++ ' ' :: (lit "not" ++ ' ' :: (lit "null" ++ [';']))) := by
        repeat rw [lit_chars]
        rfl
      change alter f ++ lit " alter column " ++ quote column ++ lit " drop not null;" = _
      simp only [Operation.pieces, Operation.pieces.altered, alter, printed, List.flatMap_cons, List.flatMap_nil, Piece.print, halter, hwords₁, hwords₂,
        List.append_assoc, List.cons_append, List.nil_append, List.append_nil]
  | dropDefault column =>
      obtain rfl := Except.ok.inj h
      have hwords₁ : lit " alter column " = ' ' :: (lit "alter" ++ ' ' :: (lit "column" ++ [' '])) := by
        repeat rw [lit_chars]
        rfl
      have hwords₂ : lit " drop default;" = ' ' :: (lit "drop" ++ ' ' :: (lit "default" ++ [';'])) := by
        repeat rw [lit_chars]
        rfl
      change alter f ++ lit " alter column " ++ quote column ++ lit " drop default;" = _
      simp only [Operation.pieces, Operation.pieces.altered, alter, printed, List.flatMap_cons, List.flatMap_nil, Piece.print, halter, hwords₁, hwords₂,
        List.append_assoc, List.cons_append, List.nil_append, List.append_nil]
  | dropConstraint name kind =>
      obtain rfl := Except.ok.inj h
      have hwords : lit " drop constraint " = ' ' :: (lit "drop" ++ ' ' :: (lit "constraint" ++ [' '])) := by
        repeat rw [lit_chars]
        rfl
      change alter f ++ lit " drop constraint " ++ quote name ++ lit ";" = _
      simp only [Operation.pieces, Operation.pieces.altered, alter, printed, List.flatMap_cons, List.flatMap_nil, Piece.print, halter, hwords, hend,
        List.append_assoc, List.cons_append, List.nil_append, List.append_nil]
  | enableRls =>
      obtain rfl := Except.ok.inj h
      have hwords : lit " enable row level security;" = ' ' :: (lit "enable" ++ ' ' :: (lit "row" ++ ' ' :: (lit "level" ++ ' ' :: (lit "security" ++ [';'])))) := by
        repeat rw [lit_chars]
        rfl
      change alter f ++ lit " enable row level security;" = _
      simp only [Operation.pieces, Operation.pieces.altered, alter, printed, List.flatMap_cons, List.flatMap_nil, Piece.print, halter, hwords,
        List.append_assoc, List.cons_append, List.nil_append, List.append_nil]
  | grantAnonRead =>
      obtain rfl := Except.ok.inj h
      have hwords₁ : lit "grant select on " = lit "grant" ++ ' ' :: (lit "select" ++ ' ' :: (lit "on" ++ [' '])) := by
        repeat rw [lit_chars]
        rfl
      have hwords₂ : lit " to anon;" = ' ' :: (lit "to" ++ ' ' :: (lit "anon" ++ [';'])) := by
        repeat rw [lit_chars]
        rfl
      change lit "grant select on " ++ qualified f.schema f.table ++ lit " to anon;" = _
      simp only [Operation.pieces, printed, List.flatMap_cons, List.flatMap_nil, Piece.print, hwords₁, hwords₂,
        List.append_assoc, List.cons_append, List.nil_append, List.append_nil]
  | revokeAnonAccess =>
      obtain rfl := Except.ok.inj h
      have hwords₁ : lit "revoke all on " = lit "revoke" ++ ' ' :: (lit "all" ++ ' ' :: (lit "on" ++ [' '])) := by
        repeat rw [lit_chars]
        rfl
      have hwords₂ : lit " from anon;" = ' ' :: (lit "from" ++ ' ' :: (lit "anon" ++ [';'])) := by
        repeat rw [lit_chars]
        rfl
      change lit "revoke all on " ++ qualified f.schema f.table ++ lit " from anon;" = _
      simp only [Operation.pieces, printed, List.flatMap_cons, List.flatMap_nil, Piece.print, hwords₁, hwords₂,
        List.append_assoc, List.cons_append, List.nil_append, List.append_nil]
  | dropIndex schema name invalid =>
      obtain rfl := Except.ok.inj h
      have hwords : lit "drop index " = lit "drop" ++ ' ' :: (lit "index" ++ [' ']) := by
        repeat rw [lit_chars]
        rfl
      change lit "drop index " ++ qualified schema name ++ lit ";" = _
      simp only [Operation.pieces, printed, List.flatMap_cons, List.flatMap_nil, Piece.print, hwords, hend,
        List.append_assoc, List.cons_append, List.nil_append, List.append_nil]
  | dropTable cascade =>
      obtain rfl := Except.ok.inj h
      have hwords : lit "drop table " = lit "drop" ++ ' ' :: (lit "table" ++ [' ']) := by
        repeat rw [lit_chars]
        rfl
      have hcascade : lit " cascade" = ' ' :: lit "cascade" := by
        repeat rw [lit_chars]
      have hrestrict : lit " restrict" = ' ' :: lit "restrict" := by
        repeat rw [lit_chars]
      change lit "drop table " ++ qualified f.schema f.table ++ (if cascade then lit " cascade" else lit " restrict")
        ++ lit ";" = _
      cases cascade
      all_goals
        simp only [Operation.pieces, printed, List.flatMap_cons, List.flatMap_nil, Piece.print, hwords, hcascade, hrestrict,
          hend, if_true, Bool.false_eq_true, if_false, List.append_assoc, List.cons_append, List.nil_append, List.append_nil]
  | addPrimaryKey columns =>
      obtain ⟨-, rfl⟩ := ok_of_guard h
      have hwords : lit " add primary key (" = ' ' :: (lit "add" ++ ' ' :: (lit "primary" ++ ' ' :: (lit "key" ++
        ' ' :: lit "("))) := by
        repeat rw [lit_chars]
        rfl
      change alter f ++ lit " add primary key (" ++ join (lit ", ") (columns.map quote) ++ lit ");" = _
      simp only [Operation.pieces, Operation.pieces.altered, alter, printed, List.flatMap_cons, List.flatMap_nil, Piece.print,
        halter, hwords, hclose, List.append_assoc, List.cons_append, List.nil_append, List.append_nil]
  | createIndex columns unique name =>
      obtain ⟨-, rfl⟩ := ok_of_guard h
      have hcreate : lit "create " = lit "create" ++ [' '] := by
        repeat rw [lit_chars]
        rfl
      have hunique : lit "unique " = lit "unique" ++ [' '] := by
        repeat rw [lit_chars]
        rfl
      have hindex : lit "index " = lit "index" ++ [' '] := by
        repeat rw [lit_chars]
        rfl
      have hwords : lit "\n  on " = lit "\n  " ++ (lit "on" ++ [' ']) := by
        repeat rw [lit_chars]
        rfl
      have hopen : lit " (" = ' ' :: lit "(" := by
        repeat rw [lit_chars]
      change lit "create " ++ (if unique then lit "unique " else []) ++ lit "index "
        ++ quote (nameOr name (indexName f.table columns)) ++ lit "\n  on " ++ qualified f.schema f.table ++ lit " ("
        ++ join (lit ", ") (columns.map quote) ++ lit ");" = _
      cases unique
      all_goals
        simp only [hcreate, hunique, hindex, hwords, hopen, hclose, Operation.pieces, printed, List.flatMap_cons,
          List.flatMap_nil, Piece.print, if_true, Bool.false_eq_true, if_false, List.append_assoc, List.cons_append,
          List.nil_append, List.append_nil]
  | addUnique columns name =>
      obtain ⟨-, rfl⟩ := ok_of_guard h
      have hwords : lit " add constraint " = ' ' :: (lit "add" ++ ' ' :: (lit "constraint" ++ [' '])) := by
        repeat rw [lit_chars]
        rfl
      have hopen : lit "\n  unique (" = lit "\n  " ++ (lit "unique" ++ ' ' :: lit "(") := by
        repeat rw [lit_chars]
        rfl
      change alter f ++ lit " add constraint " ++ quote (nameOr name (uniqueName f.table columns)) ++ lit "\n  unique ("
        ++ join (lit ", ") (columns.map quote) ++ lit ");" = _
      simp only [Operation.pieces, Operation.pieces.altered, alter, printed, List.flatMap_cons, List.flatMap_nil, Piece.print,
        halter, hwords, hopen, hclose, List.append_assoc, List.cons_append, List.nil_append, List.append_nil]

end Printing

/-! What the guard reads in them -/

def words (ts : List Shape) : List Text := ts.filterMap fun x => if x.1 = .word then some x.2 else none

def identifiers (ts : List Shape) : List Text := ts.filterMap fun x => if x.1 = .ident then some (unquote x.2) else none

def Piece.words : Piece → List Text
  | .word w | .below w => [toUpperCase w]
  | _ => []

def Piece.identifiers : Piece → List Text
  | .name n => [n]
  | .target schema table => [schema, table]
  | .columns names => names
  | _ => []

theorem filterMap_inside {β : Type} {g : Shape → Option β} (hg : ∀ v, g (.punct, v) = none) (names : List Text) :
    (insideTokens (names.map nameTokens)).filterMap g = names.filterMap fun n => g (.ident, quote n) := by
  have hlist : ([comma].intercalate (names.map nameTokens)).filterMap g = names.filterMap fun n => g (.ident, quote n) := by
    induction names with
    | nil => rfl
    | cons n names ih =>
        cases names with
        | nil => cases hn : g (.ident, quote n) <;> simp [nameTokens, hn]
        | cons m ms =>
            rw [List.map_cons, List.map_cons, List.intercalate_cons_cons, List.filterMap_append, List.filterMap_append]
            rw [List.map_cons] at ih
            rw [ih]
            cases hn : g (.ident, quote n) <;> simp [nameTokens, comma, hg, hn]
  simp [insideTokens, List.filterMap_append, hlist, hg]

theorem words_tokens (ps : List Piece) : words (tokens ps) = ps.flatMap Piece.words := by
  rw [words, tokens, List.filterMap_flatMap]
  congr 1
  funext p
  cases p with
  | columns names => exact (filterMap_inside (fun _ => rfl) names).trans (by simp [Piece.words])
  | _ => simp [Piece.tokens, Piece.words, nameTokens, targetTokens]

theorem identifiers_tokens (ps : List Piece) : identifiers (tokens ps) = ps.flatMap Piece.identifiers := by
  rw [identifiers, tokens, List.filterMap_flatMap]
  congr 1
  funext p
  cases p with
  | columns names => exact (filterMap_inside (fun _ => rfl) names).trans (by simp [Piece.identifiers, unquote_quote])
  | _ => simp [Piece.tokens, Piece.identifiers, nameTokens, targetTokens, unquote_quote]

/-- A name in front of the person who has to type it. -/
def spelledName (name : Text) : Text := if isBare name then name else quote name

theorem isBare_quote {name : Text} (h : '"' ∈ name) : isBare name = false := by
  cases name with
  | nil => cases h
  | cons c cs =>
      rw [isBare, Bool.and_eq_false_iff]
      rcases List.mem_cons.mp h with rfl | h
      · exact .inl (by decide)
      · right
        rw [Bool.eq_false_iff]
        intro hall
        exact absurd (List.all_eq_true.mp hall _ h) (by decide)

theorem text_quote (st : Statement) {t : Token} {name : Text} (h : shape t = (.ident, quote name)) :
    text st t = spelledName name := by
  obtain ⟨hk, hv⟩ := Prod.mk.inj h
  have hbody : ((quote name).drop 1).dropLast = name.flatMap fun c => if c = '"' then ['"', '"'] else [c] := by
    rw [quote, List.drop_one, List.tail_cons, List.dropLast_concat]
  rw [text, if_pos hk, hv, redundantlyQuoted, hbody, spelledName]
  by_cases hq : '"' ∈ name
  · have hdouble : '"' ∈ name.flatMap fun c => if c = '"' then ['"', '"'] else [c] :=
      List.mem_flatMap.mpr ⟨'"', hq, List.mem_cons_self⟩
    simp [isBare_quote hdouble, isBare_quote hq]
  · have hplain : (name.flatMap fun c => if c = '"' then ['"', '"'] else [c]) = name := by
      conv_rhs => rw [← List.flatMap_singleton' name]
      refine List.flatMap_congr fun c hc => if_neg ?_
      rintro rfl
      exact hq hc
    rw [hplain, quote, hplain]
    cases isBare name <;> simp

/-- A token list of known shapes, token by token. -/
theorem shape_cons {us : List Token} {k : TokenKind} {v : Text} {ts : List Shape} (h : us.map shape = (k, v) :: ts) :
    ∃ a b vs, us = ⟨k, v, a, b⟩ :: vs ∧ vs.map shape = ts := by
  obtain ⟨t, vs, rfl, ht, hvs⟩ := List.map_eq_cons_iff.mp h
  obtain ⟨rfl, rfl⟩ := Prod.mk.inj ht
  exact ⟨t.start, t.stop, vs, rfl, hvs⟩

theorem afterCommas_topLevel {ts : List Token} {depth : Nat} (h : topLevel (·.isPunct ',') depth ts = false) :
    afterCommas depth ts = [] := by
  induction ts generalizing depth with
  | nil => rfl
  | cons t ts ih =>
      rw [topLevel, Bool.or_eq_false_iff, Bool.and_eq_false_iff, decide_eq_false_iff_not] at h
      rw [afterCommas, ih h.2, if_neg (fun hc => h.1.elim (fun hd => hd hc.1) fun hp => by simp [hp] at hc)]
      rfl

/-- A comma only inside parentheses. -/
theorem comma_tokens (ps : List Piece) (hps : ps.all Piece.wellFormed = true) :
    topLevel (·.isPunct ',') 0 ((tokens ps).map canon) = false := by
  induction ps with
  | nil => rfl
  | cons p ps ih =>
      rw [List.all_cons, Bool.and_eq_true] at hps
      have hp := phrase_piece hps.1
      have hhead : topLevel (·.isPunct ',') 0 (p.tokens.map canon) = false := by
        cases p with
        | columns names =>
            have hlist := phrase_join quote nameTokens phrase_comma (P := notQuote) (c := ',') rfl rfl
              (of_decide_eq_true hps.1) fun name _ => phrase_quote name
            have hskip := topLevel_skip (p := (·.isPunct ',')) (l := canon (.punct, ['('])) (r := canon (.punct, [')']))
              [] rfl hlist.balanced rfl rfl
            rwa [Piece.tokens, insideTokens, List.map_cons, List.map_append]
        | _ => rfl
      rw [tokens, List.flatMap_cons, List.map_append, topLevel_append hp.balanced, hhead, Bool.false_or]
      exact ih hps.2

theorem dot_tokens (ps : List Piece) : ((tokens ps).map canon).head?.any (·.isPunct '.') = false := by
  cases ps with
  | nil => rfl
  | cons p ps => cases p <;> rfl

variable {st : Statement} {us : List Token}

/-- The statement has one action, which is all that follows the table. -/
theorem alter_actions {schema table : Text} {ps : List Piece} (hps : ps.all Piece.wellFormed = true)
    (h : st.tokens.map shape = (.word, lit "ALTER") :: tokens (.word (lit "table") :: .target schema table :: ps)) :
    ∃ us, us.map shape = tokens ps ∧ alterActions st = [us] := by
  replace h : st.tokens.map shape = (.word, lit "ALTER") :: (.word, lit "TABLE") :: (.ident, quote schema) ::
      (.punct, ['.']) :: (.ident, quote table) :: tokens ps := h
  obtain ⟨a₁, b₁, us₁, hst, h₁⟩ := shape_cons h
  obtain ⟨a₂, b₂, us₂, rfl, h₂⟩ := shape_cons h₁
  obtain ⟨a₃, b₃, us₃, rfl, h₃⟩ := shape_cons h₂
  obtain ⟨a₄, b₄, us₄, rfl, h₄⟩ := shape_cons h₃
  obtain ⟨a₅, b₅, us, rfl, h₅⟩ := shape_cons h₄
  refine ⟨us, h₅, ?_⟩
  have hcanon : us.map shape = ((tokens ps).map canon).map shape := h₅.trans (shape_canon _).symm
  have hcomma : afterCommas 0 us = [] := by
    refine afterCommas_topLevel (Eq.trans ?_ (comma_tokens ps hps))
    exact topLevel_shape (fun _ _ h => isPunct_shape h ',') hcanon 0
  have hdot : us.head?.any (·.isPunct '.') = false := by
    have hps := dot_tokens ps
    cases us with
    | nil => rfl
    | cons u us =>
        rw [← h₅, List.map_cons, List.map_cons] at hps
        exact (isPunct_shape (u := canon (shape u)) rfl '.').trans hps
  have hstart : nameListStart st =
      [⟨.ident, quote schema, a₃, b₃⟩, ⟨.punct, ['.'], a₄, b₄⟩, ⟨.ident, quote table, a₅, b₅⟩] ++ us := by
    rw [nameListStart, hst]
    rfl
  have hname : ∃ name, dottedName st (nameListStart st) = some (name, us) := by
    rw [hstart]
    exact ⟨_, dottedName_spelled st (.more rfl rfl (.one rfl)) hdot⟩
  obtain ⟨name, hname⟩ := hname
  rw [alterActions, hname]
  exact congrArg (us :: ·) hcomma

def dropRung : AlterDrop → Danger
  | .other => .safe
  | .column _ => .typeName
  | .constraint _ => .confirm

theorem alterVerdict_single {drop : AlterDrop} (h : alterActions st = [us]) (hdrop : actionDrop st us = drop)
    (hnamed : drop.unnamed = false) :
    (alterVerdict st).danger = dropRung drop ∧ (alterVerdict st).names = drop.columnName.toList := by
  have hdrops : (alterActions st).map (actionDrop st) = [drop] := by rw [h, List.map_singleton, hdrop]
  rw [alterVerdict, hdrops]
  cases drop with
  | column name =>
      cases name with
      | none => cases hnamed
      | some name => exact ⟨rfl, rfl⟩
  | constraint name =>
      cases name with
      | none => cases hnamed
      | some name => exact ⟨rfl, rfl⟩
  | other => exact ⟨rfl, rfl⟩

theorem actionDrop_other {w : Text} {ts : List Shape} (h : us.map shape = (.word, w) :: ts) (hw : w ≠ lit "DROP") :
    actionDrop st us = .other := by
  obtain ⟨a, b, vs, rfl, -⟩ := shape_cons h
  have hdrop : Token.isWord ⟨.word, w, a, b⟩ "DROP" = false := by
    rw [Token.isWord, Bool.and_eq_false_iff, decide_eq_false_iff_not, decide_eq_false_iff_not]
    exact .inr hw
  rw [actionDrop, if_neg (by simp [hdrop])]

theorem dropTarget_name {a b : Nat} (name : Text) :
    dropTarget st [⟨.ident, quote name, a, b⟩] = some (spelledName name) := by
  have htext : text st ⟨.ident, quote name, a, b⟩ = spelledName name := text_quote st rfl
  rw [← htext]
  rfl

/-- DROP COLUMN and DROP CONSTRAINT with the name after them. -/
theorem actionDrop_named {w name : Text} (h : us.map shape = tokens [.word (lit "drop"), .word w, .name name]) :
    (w = lit "column" → actionDrop st us = .column (some (spelledName name))) ∧
    (w = lit "constraint" → actionDrop st us = .constraint (some (spelledName name))) := by
  obtain ⟨a₁, b₁, us₁, rfl, h₁⟩ := shape_cons h
  obtain ⟨a₂, b₂, us₂, rfl, h₂⟩ := shape_cons h₁
  obtain ⟨a₃, b₃, us₃, rfl, h₃⟩ := shape_cons h₂
  obtain rfl := List.map_eq_nil_iff.mp h₃
  have htarget : dropTarget st [⟨.ident, quote name, a₃, b₃⟩] = some (spelledName name) := dropTarget_name name
  rw [← htarget]
  constructor
  · rintro rfl
    rfl
  · rintro rfl
    rfl

theorem classify_single {sql : Text} (h : split sql = [st]) : (classify sql).danger = (SqlGuard.danger st).danger ∧
    (classify sql).namesToType = distinct (SqlGuard.danger st).names ∧
    (classify sql).ownsTransaction = TX.any fun w => lead st = lit w := by
  rw [classify, h]
  refine ⟨?_, ?_, Bool.or_false _⟩
  · change worse .safe (SqlGuard.danger st).danger = _
    cases (SqlGuard.danger st).danger <;> rfl
  · exact congrArg distinct (List.append_nil _)

variable {f : TableFacts}

def Operation.rung : Operation → Danger
  | .dropTable _ | .dropColumn _ => .typeName
  | .dropIndex .. | .dropConstraint .. | .grantAnonRead => .confirm
  | _ => .safe

/-- What has to be typed before the operation runs. -/
def Operation.names (f : TableFacts) : Operation → List Text
  | .dropTable _ => [spelledName f.schema ++ lit "." ++ spelledName f.table]
  | .dropColumn column => [spelledName column]
  | _ => []

theorem altered_verdict {ps : List Piece} {drop : AlterDrop} (hps : ps.all Piece.wellFormed = true)
    (h : st.tokens.map shape = (.word, lit "ALTER") :: tokens (.word (lit "table") :: .target f.schema f.table :: ps))
    (hdrop : ∀ us : List Token, us.map shape = tokens ps → actionDrop st us = drop) (hnamed : drop.unnamed = false) :
    (SqlGuard.danger st).danger = dropRung drop ∧ (SqlGuard.danger st).names = drop.columnName.toList := by
  obtain ⟨us, hus, hactions⟩ := alter_actions hps h
  rw [danger_alter (lead_shape h)]
  exact alterVerdict_single hactions (hdrop us hus) hnamed

theorem other_verdict {w : Text} {ts : List Shape} (h : st.tokens.map shape = (.word, w) :: ts)
    (hw : w = lit "CREATE" ∨ w = lit "REVOKE") :
    (SqlGuard.danger st).danger = .safe ∧ (SqlGuard.danger st).names = [] := by
  have hlead := lead_shape h
  constructor
  · by_contra hne
    rw [← ne_eq, danger_iff, hlead] at hne
    rcases hw with rfl | rfl <;> revert hne <;> simp [lit]
  · rcases hw with rfl | rfl <;> exact names_other (by rw [hlead]; decide) (by rw [hlead]; decide)

theorem table_verdict {w : Text} (h : st.tokens.map shape =
      (.word, lit "DROP") :: tokens [.word (lit "table"), .target f.schema f.table, .word w])
    (hw : w = lit "cascade" ∨ w = lit "restrict") :
    (SqlGuard.danger st).danger = .typeName ∧
      (SqlGuard.danger st).names = [spelledName f.schema ++ lit "." ++ spelledName f.table] := by
  obtain ⟨a₁, b₁, us₁, hst, h₁⟩ := shape_cons h
  obtain ⟨a₂, b₂, us₂, rfl, h₂⟩ := shape_cons h₁
  obtain ⟨a₃, b₃, us₃, rfl, h₃⟩ := shape_cons h₂
  obtain ⟨a₄, b₄, us₄, rfl, h₄⟩ := shape_cons h₃
  obtain ⟨a₅, b₅, us₅, rfl, h₅⟩ := shape_cons h₄
  obtain ⟨a₆, b₆, us₆, rfl, h₆⟩ := shape_cons h₅
  obtain rfl := List.map_eq_nil_iff.mp h₆
  have hdrops : Drops st.tokens [[⟨.ident, quote f.schema, a₃, b₃⟩, ⟨.ident, quote f.table, a₅, b₅⟩]] := by
    rw [hst]
    change Drops (_ :: _ :: ([] ++ ([_, _, _] ++ [_]))) _
    refine .mk rfl rfl (.inl rfl) (.one (.more rfl rfl (.one rfl))) (.inr ⟨_, rfl, ?_⟩)
    rcases hw with rfl | rfl <;> rfl
  have hspelled : spelled st [⟨.ident, quote f.schema, a₃, b₃⟩, ⟨.ident, quote f.table, a₅, b₅⟩] =
      spelledName f.schema ++ lit "." ++ spelledName f.table := by
    have hschema : text st ⟨.ident, quote f.schema, a₃, b₃⟩ = spelledName f.schema := text_quote st rfl
    have htable : text st ⟨.ident, quote f.table, a₅, b₅⟩ = spelledName f.table := text_quote st rfl
    rw [spelled, List.map_cons, List.map_singleton, hschema, htable]
    rfl
  have hnames := names_drop hdrops rfl
  rw [List.map_singleton, hspelled] at hnames
  refine ⟨?_, hnames⟩
  have hlist := objectNames_drop hdrops rfl
  have hsecond : (st.tokens.drop 1).head?.any (isOneOf ["TABLE", "SCHEMA"]) = true := by
    rw [hst]
    rfl
  simp only [SqlGuard.danger, lead_shape h, if_true, dropVerdict, hsecond, hlist]
  rfl

theorem index_verdict {schema name : Text}
    (h : st.tokens.map shape = (.word, lit "DROP") :: tokens [.word (lit "index"), .target schema name]) :
    (SqlGuard.danger st).danger = .confirm ∧ (SqlGuard.danger st).names = [] := by
  obtain ⟨a₁, b₁, us₁, hst, h₁⟩ := shape_cons h
  obtain ⟨a₂, b₂, us₂, rfl, h₂⟩ := shape_cons h₁
  have hsecond : (st.tokens.drop 1).head?.any (isOneOf ["TABLE", "SCHEMA"]) = false := by
    rw [hst]
    rfl
  simp only [SqlGuard.danger, lead_shape h, if_true, dropVerdict, hsecond, Bool.false_eq_true, if_false, and_self]

theorem grant_verdict (h : st.tokens.map shape = (.word, lit "GRANT") :: tokens [.word (lit "select"), .word (lit "on"),
      .target f.schema f.table, .word (lit "to"), .word (lit "anon")]) :
    (SqlGuard.danger st).danger = .confirm ∧ (SqlGuard.danger st).names = [] := by
  have hlead := lead_shape h
  obtain ⟨a₁, b₁, us₁, hst, h₁⟩ := shape_cons h
  obtain ⟨a₂, b₂, us₂, rfl, h₂⟩ := shape_cons h₁
  obtain ⟨a₃, b₃, us₃, rfl, h₃⟩ := shape_cons h₂
  obtain ⟨a₄, b₄, us₄, rfl, h₄⟩ := shape_cons h₃
  obtain ⟨a₅, b₅, us₅, rfl, h₅⟩ := shape_cons h₄
  obtain ⟨a₆, b₆, us₆, rfl, h₆⟩ := shape_cons h₅
  obtain ⟨a₇, b₇, us₇, rfl, h₇⟩ := shape_cons h₆
  obtain ⟨a₈, b₈, us₈, rfl, h₈⟩ := shape_cons h₇
  obtain rfl := List.map_eq_nil_iff.mp h₈
  have hgrantee : grantee st = some .anon := by
    rw [grantee, hst]
    rfl
  have hne : lit "GRANT" ≠ lit "DROP" ∧ lit "GRANT" ≠ lit "ALTER" := by decide
  simp only [SqlGuard.danger, hlead, hne, if_false, if_true, grantVerdict, hgrantee, and_self]

theorem operation_verdict (op : Operation) (hps : (op.pieces f).2.all Piece.wellFormed = true)
    (h : st.tokens.map shape = (.word, toUpperCase (op.pieces f).1) :: tokens (op.pieces f).2) :
    (SqlGuard.danger st).danger = op.rung ∧ (SqlGuard.danger st).names = op.names f := by
  cases op with
  | dropTable cascade => exact table_verdict h (by cases cascade <;> simp)
  | dropIndex schema name invalid => exact index_verdict h
  | grantAnonRead => exact grant_verdict h
  | revokeAnonAccess => exact other_verdict h (.inr rfl)
  | createIndex columns unique name => exact other_verdict h (.inl rfl)
  | dropColumn column =>
      rw [Operation.pieces, Operation.pieces.altered, List.all_cons, List.all_cons, Bool.and_eq_true,
        Bool.and_eq_true] at hps
      exact altered_verdict hps.2.2 h (fun us hus => (actionDrop_named hus).1 rfl) rfl
  | dropConstraint name kind =>
      rw [Operation.pieces, Operation.pieces.altered, List.all_cons, List.all_cons, Bool.and_eq_true,
        Bool.and_eq_true] at hps
      exact altered_verdict hps.2.2 h (fun us hus => (actionDrop_named hus).2 rfl) rfl
  | _ =>
      rw [Operation.pieces, Operation.pieces.altered, List.all_cons, List.all_cons, Bool.and_eq_true,
        Bool.and_eq_true] at hps
      exact altered_verdict hps.2.2 h (fun us hus => actionDrop_other hus (by decide)) rfl

/-- The form has everything the statement needs. -/
def Operation.complete (f : TableFacts) : Operation → Bool
  | .renameTable target => trim target ≠ [] && target ≠ f.table
  | .renameColumn column target => trim target ≠ [] && target ≠ column
  | .addPrimaryKey columns | .createIndex columns .. | .addUnique columns _ => columns ≠ []
  | _ => true

theorem pieces_wellFormed {op : Operation} (h : op.complete f = true) :
    (op.pieces f).2.all Piece.wellFormed = true ∧ isKeyword (op.pieces f).1 = true := by
  refine ⟨?_, by cases op <;> rfl⟩
  cases op with
  | addPrimaryKey columns | addUnique columns name =>
      change (_ && (decide (columns ≠ []) && true)) = true
      rw [show decide (columns ≠ []) = true from h]
      rfl
  | createIndex columns unique name =>
      have hcolumns : decide (columns ≠ []) = true := h
      cases unique
      all_goals
        simp only [Operation.pieces, List.all_append, List.all_cons, List.all_nil, Piece.wellFormed, hcolumns]
        rfl
  | dropTable cascade => cases cascade <;> rfl
  | _ => rfl

theorem compile_complete (locale : Int → Text) (stamp : Text) (op : Operation) : if op.complete f = true
    then ∃ plan, compile locale stamp f op = .ok plan else ∃ reason, compile locale stamp f op = .error reason := by
  cases op with
  | renameTable target =>
      rw [compile, renameTable, Operation.complete]
      by_cases htrim : trim target = []
      · simp [htrim]
      · rw [if_neg htrim]
        by_cases hsame : target = f.table <;> simp [htrim, hsame]
  | renameColumn column target =>
      rw [compile, renameColumn, Operation.complete]
      by_cases htrim : trim target = []
      · simp [htrim]
      · rw [if_neg htrim]
        by_cases hsame : target = column <;> simp [htrim, hsame]
  | addPrimaryKey columns =>
      rw [compile, addPrimaryKey, Operation.complete]
      by_cases hne : columns = [] <;> simp [hne]
  | createIndex columns unique name =>
      rw [compile, createIndex, Operation.complete]
      by_cases hne : columns = [] <;> simp [hne]
  | addUnique columns name =>
      rw [compile, addUnique, Operation.complete]
      by_cases hne : columns = [] <;> simp [hne]
  | _ => exact ⟨_, rfl⟩

/-! What a plan runs -/

/-- The words of an operation's statement. -/
def Operation.words : Operation → List String
  | .renameTable _ => ["alter", "table", "rename", "to"]
  | .dropTable cascade => ["drop", "table", if cascade then "cascade" else "restrict"]
  | .renameColumn .. => ["alter", "table", "rename", "column", "to"]
  | .dropColumn _ => ["alter", "table", "drop", "column"]
  | .setNotNull _ => ["alter", "table", "alter", "column", "set", "not", "null"]
  | .dropNotNull _ => ["alter", "table", "alter", "column", "drop", "not", "null"]
  | .dropDefault _ => ["alter", "table", "alter", "column", "drop", "default"]
  | .grantAnonRead => ["grant", "select", "on", "to", "anon"]
  | .revokeAnonAccess => ["revoke", "all", "on", "from", "anon"]
  | .addPrimaryKey _ => ["alter", "table", "add", "primary", "key"]
  | .createIndex _ unique _ => if unique then ["create", "unique", "index", "on"] else ["create", "index", "on"]
  | .addUnique .. => ["alter", "table", "add", "constraint", "unique"]
  | .dropIndex .. => ["drop", "index"]
  | .dropConstraint .. => ["alter", "table", "drop", "constraint"]
  | .enableRls => ["alter", "table", "enable", "row", "level", "security"]

/-- The names of its form in the order of the statement. -/
def Operation.mentions (f : TableFacts) : Operation → List Text
  | .renameTable target => [f.schema, f.table, target]
  | .renameColumn column target => [f.schema, f.table, column, target]
  | .dropColumn column | .setNotNull column | .dropNotNull column | .dropDefault column => [f.schema, f.table, column]
  | .dropTable _ | .grantAnonRead | .revokeAnonAccess | .enableRls => [f.schema, f.table]
  | .addPrimaryKey columns => f.schema :: f.table :: columns
  | .createIndex columns _ name => nameOr name (indexName f.table columns) :: f.schema :: f.table :: columns
  | .addUnique columns name => f.schema :: f.table :: nameOr name (uniqueName f.table columns) :: columns
  | .dropIndex schema name _ => [schema, name]
  | .dropConstraint name _ => [f.schema, f.table, name]

theorem pieces_words (op : Operation) :
    toUpperCase (op.pieces f).1 :: (op.pieces f).2.flatMap Piece.words = op.words.map fun w => toUpperCase (lit w) := by
  cases op with
  | dropTable cascade => cases cascade <;> rfl
  | createIndex columns unique name => cases unique <;> rfl
  | _ => rfl

theorem pieces_mentions (op : Operation) : (op.pieces f).2.flatMap Piece.identifiers = op.mentions f := by
  cases op with
  | createIndex columns unique name =>
      cases unique <;> simp [Operation.pieces, Piece.identifiers, Operation.mentions]
  | _ => simp [Operation.pieces, Operation.pieces.altered, Piece.identifiers, Operation.mentions]

theorem pieces_lead (op : Operation) :
    (op.pieces f).1 ∈ [lit "alter", lit "drop", lit "grant", lit "revoke", lit "create"] := by
  cases op <;> simp [Operation.pieces, Operation.pieces.altered]

theorem lead_transaction : ∀ w ∈ [lit "alter", lit "drop", lit "grant", lit "revoke", lit "create"],
    (TX.any fun tx => toUpperCase w = lit tx) = false := by
  decide

/-- Whatever the names of a complete form are, the plan is one statement with the words of its operation and these names
as its identifiers, the guard puts it on the operation's rung and asks for exactly what it destroys. -/
theorem plan_exact (locale : Int → Text) (stamp : Text) (f : TableFacts) (op : Operation) : if op.complete f = true then
    ∃ plan st, compile locale stamp f op = .ok plan ∧ split plan.sql = [st] ∧
      words (st.tokens.map shape) = (op.words.map fun w => toUpperCase (lit w)) ∧
      identifiers (st.tokens.map shape) = op.mentions f ∧ (classify plan.sql).danger = op.rung ∧
      (classify plan.sql).namesToType = op.names f ∧ (classify plan.sql).ownsTransaction = false
    else ∃ reason, compile locale stamp f op = .error reason := by
  have hcompile := compile_complete locale stamp (f := f) op
  split_ifs at hcompile ⊢ with hcomplete
  · obtain ⟨plan, h⟩ := hcompile
    obtain ⟨hps, hkeyword⟩ := pieces_wellFormed hcomplete
    have hphrase := phrase_printed (phrase_keyword hkeyword) (op.pieces f).2 hps
    obtain ⟨st, hst, htokens⟩ := split_single (hphrase.sentence (by simp))
    rw [← compile_printed h] at hst
    rw [List.singleton_append] at htokens
    obtain ⟨hdanger, hnames⟩ := operation_verdict op hps htokens
    obtain ⟨hclass, htype, htransaction⟩ := classify_single hst
    refine ⟨plan, st, h, hst, ?_, ?_, hclass.trans hdanger, ?_, ?_⟩
    · rw [htokens, ← pieces_words, ← words_tokens]
      rfl
    · rw [htokens, ← pieces_mentions, ← identifiers_tokens]
      rfl
    · rw [htype, hnames]
      cases op <;> rfl
    · rw [htransaction, lead_shape htokens]
      exact lead_transaction _ (pieces_lead op)
  · exact hcompile

end Corebase.SchemaPlans
