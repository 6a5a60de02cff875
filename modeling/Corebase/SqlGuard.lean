import Corebase.SqlLex

namespace Corebase.SqlGuard

open JsText SqlLex

inductive Danger
  | safe | confirm | typeName
deriving DecidableEq

def Danger.rank : Danger → Nat
  | .safe => 0
  | .confirm => 1
  | .typeName => 2

structure Verdict where
  danger : Danger
  reason : Text
  object : Option Text
  names : List Text
deriving DecidableEq

structure Classified extends Verdict where
  sql : Text
  command : Text
  limitable : Bool
  transactionControl : Bool
deriving DecidableEq

def lit (s : String) : Text := s.toList

def isOneOf (words : List String) (t : Token) : Bool := t.kind = .word && words.any (t.isWord ·)

def lead (s : Statement) : Text :=
  match s.tokens with
  | t :: _ => if t.kind = .word then t.value else []
  | [] => []

/-- Does some token outside every parenthesis satisfy the test? -/
def topLevel (p : Token → Bool) : Nat → List Token → Bool
  | _, [] => false
  | depth, t :: ts => (depth = 0 && p t) || topLevel p (depthAfter depth t) ts

def hasTopLevelWhere (s : Statement) : Bool := topLevel (·.isWord "WHERE") 0 s.tokens

/-- Words that may sit between a command and its object name. -/
def SKIP : List String :=
  ["TABLE", "SCHEMA", "VIEW", "MATERIALIZED", "INDEX", "SEQUENCE", "FUNCTION",
    "PROCEDURE", "TRIGGER", "TYPE", "DOMAIN", "EXTENSION", "DATABASE", "ROLE",
    "USER", "POLICY", "PUBLICATION", "SUBSCRIPTION", "CONCURRENTLY",
    "IF", "EXISTS", "NOT", "ONLY", "FROM"]

def isLower (c : Char) : Bool := 'a' ≤ c && c ≤ 'z'

def isBare : Text → Bool
  | [] => false
  | c :: cs => (isLower c || c = '_') && cs.all fun d => isLower d || isDigit d || d = '_' || d = '$'

/-- The name in a quoted identifier whose quotes are doing no work. -/
def redundantlyQuoted (value : Text) : Option Text :=
  let name := (value.drop 1).dropLast
  if value = '"' :: (name ++ ['"']) ∧ isBare name then some name else none

def text (s : Statement) (t : Token) : Text :=
  if t.kind = .ident then (redundantlyQuoted t.value).getD t.value
  else slice s.sql (t.start - s.start) (t.stop - s.start)

def isName (t : Token) : Bool := t.kind = .word || t.kind = .ident

def dottedParts (s : Statement) : List Token → List Text × List Token
  | d :: t :: ts =>
      if d.isPunct '.' && isName t then
        let (parts, rest) := dottedParts s ts
        (text s t :: parts, rest)
      else ([], d :: t :: ts)
  | ts => ([], ts)

/-- The dotted name at the head of the tokens, with the tokens after it. -/
def dottedName (s : Statement) : List Token → Option (Text × List Token)
  | head :: ts =>
      if isName head then
        let (parts, rest) := dottedParts s ts
        some (join ['.'] (text s head :: parts), rest)
      else none
  | [] => none

/-- The tokens from the statement's own name list on. -/
def nameListStart (s : Statement) : List Token := (s.tokens.drop 1).dropWhile (isOneOf SKIP)

def namesFrom (s : Statement) : Nat → List Token → List Text
  | 0, _ => []
  | fuel + 1, ts =>
      match dottedName s ts with
      | none => []
      | some (name, []) => [name]
      | some (name, c :: rest) => name :: if c.isPunct ',' then namesFrom s fuel rest else []

def objectNames (s : Statement) : List Text :=
  namesFrom s (nameListStart s).length (nameListStart s)

def objectName (s : Statement) : Option Text := (objectNames s).head?

/-- The tokens after each comma outside every parenthesis. -/
def afterCommas : Nat → List Token → List (List Token)
  | _, [] => []
  | depth, t :: ts =>
      (if depth = 0 ∧ t.isPunct ',' then [ts] else []) ++ afterCommas (depthAfter depth t) ts

/-- The tokens from each action of an ALTER TABLE list on. -/
def alterActions (s : Statement) : List (List Token) :=
  match dottedName s (nameListStart s) with
  | none => []
  | some (_, rest) => rest :: afterCommas 0 rest

/-- Words that make a DROP action something other than a column drop. -/
def DROP_NOT_COLUMN : List String :=
  ["DEFAULT", "NOT", "IDENTITY", "EXPRESSION", "GENERATED", "CLUSTER", "OIDS", "STATISTICS"]

inductive AlterDrop
  | column (name : Option Text)
  | constraint (name : Option Text)
  | other
deriving DecidableEq

def skipWord (w : String) : List Token → List Token
  | t :: ts => if t.isWord w then ts else t :: ts
  | [] => []

def dropTarget (s : Statement) (ts : List Token) : Option Text :=
  (dottedName s (skipWord "EXISTS" (skipWord "IF" ts))).map Prod.fst

/-- One DROP action, from the token after its DROP on. -/
def alterDrop (s : Statement) : List Token → AlterDrop
  | t :: ts =>
      if t.isWord "COLUMN" then .column (dropTarget s ts)
      else if t.isWord "CONSTRAINT" then .constraint (dropTarget s ts)
      else if isOneOf DROP_NOT_COLUMN t then .other
      else .column (dropTarget s (t :: ts))
  | [] => .column none

/-- What an action of the list drops, if it begins with DROP. -/
def actionDrop (s : Statement) : List Token → AlterDrop
  | t :: ts => if t.isWord "DROP" then alterDrop s ts else .other
  | [] => .other

def AlterDrop.columnName : AlterDrop → Option Text
  | .column name => name
  | _ => none

def AlterDrop.constraintName : AlterDrop → Option Text
  | .constraint name => name
  | _ => none

def AlterDrop.unnamed : AlterDrop → Bool
  | .column none => true
  | .constraint none => true
  | _ => false

def limitBreakers : List String :=
  ["LIMIT", "FETCH", "OFFSET", "UNION", "INTERSECT", "EXCEPT", "INTO"]

def isLimitable (s : Statement) : Bool :=
  lead s = lit "SELECT" && !topLevel (isOneOf limitBreakers) 0 s.tokens

/-- Join names for a sentence: a, a and b, a, b and c. -/
def list (names : List Text) : Option Text :=
  let quoted := names.map fun n => '"' :: (n ++ ['"'])
  match quoted.getLast? with
  | none => none
  | some last =>
      if quoted.length = 1 then some last
      else some (join (lit ", ") quoted.dropLast ++ lit " and " ++ last)

def plural (names : List Text) (many one : String) : Text :=
  if names.length > 1 then lit many else lit one

def grantNoise : List String := ["ALL", "TABLES", "SEQUENCES", "FUNCTIONS", "ROUTINES", "IN"]

/-- What a GRANT acts on: the name after its ON. -/
def grantTargetFrom (s : Statement) : Nat → List Token → Option Text
  | _, [] => none
  | depth, t :: ts =>
      if depth = 0 ∧ t.isWord "ON" then
        let all := ts.head?.any (·.isWord "ALL")
        (dottedName s (ts.dropWhile (isOneOf (SKIP ++ grantNoise)))).map fun got =>
          if all then lit "everything in " ++ got.1 else got.1
      else grantTargetFrom s (depthAfter depth t) ts

def grantTarget (s : Statement) : Option Text := grantTargetFrom s 0 s.tokens

inductive Grantee
  | anon | everyone
deriving DecidableEq

def grantsSchema : List Token → Bool
  | a :: b :: ts => (a.isWord "ON" && b.isWord "SCHEMA") || grantsSchema (b :: ts)
  | _ => false

def granteeFrom : Nat → Bool → List Token → Option Grantee
  | _, _, [] => none
  | depth, afterTo, t :: ts =>
      if depth = 0 ∧ t.isWord "TO" then granteeFrom depth true ts
      else if depth = 0 ∧ afterTo ∧ t.isWord "PUBLIC" then some .everyone
      else if depth = 0 ∧ afterTo ∧ t.isWord "ANON" then some .anon
      else if depth = 0 ∧ afterTo ∧ t.kind = .ident ∧ t.value = lit "\"anon\"" then some .anon
      else granteeFrom (depthAfter depth t) afterTo ts

/-- Does this GRANT reach anon or PUBLIC? -/
def grantee (s : Statement) : Option Grantee :=
  if grantsSchema s.tokens then none else granteeFrom 0 false s.tokens

def harmless (object : Option Text) : Verdict := ⟨.safe, [], object, []⟩

def dropVerdict (s : Statement) : Verdict :=
  let obj := objectName s
  let named := obj.getD (lit "the object")
  if (s.tokens.drop 1).head?.any (isOneOf ["TABLE", "SCHEMA"]) then
    let all := objectNames s
    let it := plural all "them" "it"
    { danger := if all = [] then .confirm else .typeName
      reason := lit "Dropping " ++ (list all).getD named ++ lit " deletes " ++ it
        ++ lit " and everything in " ++ it ++ lit ". Only a backup restore brings " ++ it
        ++ lit " back."
      object := obj
      names := all }
  else
    ⟨.confirm, lit "Dropping " ++ named ++ lit " cannot be undone from here.", obj, []⟩

def alterVerdict (s : Statement) : Verdict :=
  let obj := objectName s
  let named := obj.getD (lit "the object")
  let drops := (alterActions s).map (actionDrop s)
  let columns := drops.filterMap AlterDrop.columnName
  let constraints := drops.filterMap AlterDrop.constraintName
  let consSentence := match list constraints with
    | none => []
    | some cons =>
        lit " Dropping " ++ plural constraints "the constraints" "the constraint" ++ lit " " ++ cons
          ++ lit " stops " ++ named ++ lit " enforcing " ++ plural constraints "them" "it"
          ++ lit ", so rows that would have been rejected can be written from now on."
  if columns ≠ [] then
    let it := plural columns "them" "it"
    { danger := .typeName
      reason := lit "Dropping " ++ plural columns "the columns" "the column" ++ lit " "
        ++ (list columns).getD [] ++ lit " from " ++ named ++ lit " deletes the data in " ++ it
        ++ lit ". Only a backup restore brings " ++ it ++ lit " back." ++ consSentence
      object := obj
      names := columns }
  else if constraints ≠ [] then ⟨.confirm, trim consSentence, obj, []⟩
  else if drops.any AlterDrop.unnamed then
    ⟨.confirm, lit "This statement drops part of " ++ named
      ++ lit ", and what it drops could not be read from the text. Check it before running it.",
      obj, []⟩
  else harmless obj

def grantVerdict (s : Statement) : Verdict :=
  match grantee s with
  | none => harmless (objectName s)
  | some role =>
      let who := if role = .everyone then lit "every role" else lit "anonymous callers"
      ⟨.confirm, lit "This grants " ++ who ++ lit " access to "
        ++ (grantTarget s).getD (lit "this object")
        ++ lit ". Anyone holding your project's anon key can then reach the rows your policies "
        ++ lit "allow — which is the point, and is worth being sure about.",
        grantTarget s, []⟩

def truncateVerdict (s : Statement) : Verdict :=
  ⟨.confirm, lit "Truncating " ++ (objectName s).getD (lit "the object")
    ++ lit " deletes every row. It is not logged row by row, so there is nothing to roll back to "
    ++ lit "afterwards.", objectName s, []⟩

/-- DELETE and UPDATE, with the verb of the warning. -/
def writeVerdict (command verb : String) (s : Statement) : Verdict :=
  if hasTopLevelWhere s then harmless (objectName s)
  else
    ⟨.confirm, lit "This " ++ lit command ++ lit " has no WHERE clause, so it " ++ lit verb
      ++ lit " every row in " ++ (objectName s).getD (lit "the object") ++ lit ".",
      objectName s, []⟩

def deleteVerdict (s : Statement) : Verdict := writeVerdict "DELETE" "removes" s

def updateVerdict (s : Statement) : Verdict := writeVerdict "UPDATE" "rewrites" s

def danger (s : Statement) : Verdict :=
  let cmd := lead s
  if cmd = lit "DROP" then dropVerdict s
  else if cmd = lit "ALTER" then alterVerdict s
  else if cmd = lit "GRANT" then grantVerdict s
  else if cmd = lit "TRUNCATE" then truncateVerdict s
  else if cmd = lit "DELETE" then deleteVerdict s
  else if cmd = lit "UPDATE" then updateVerdict s
  else harmless (objectName s)

def TX : List String := ["BEGIN", "COMMIT", "ROLLBACK", "START", "END", "SAVEPOINT"]

def classifyOne (s : Statement) : Classified :=
  { danger s with
    sql := s.sql
    command := lead s
    limitable := isLimitable s
    transactionControl := TX.any fun w => lead s = lit w }

structure Script where
  statements : List Classified
  danger : Danger
  dangerous : List Classified
  namesToType : List Text
  ownsTransaction : Bool
  limitable : Option Classified
deriving DecidableEq

def worse (a b : Danger) : Danger := if a.rank < b.rank then b else a

def classify (sql : Text) : Script :=
  let statements := (split sql).map classifyOne
  { statements
    danger := statements.foldl (fun acc s => worse acc s.danger) .safe
    dangerous := statements.filter fun s => s.danger ≠ .safe
    namesToType := distinct (statements.flatMap fun s => s.names)
    ownsTransaction := statements.any (·.transactionControl)
    limitable := match statements with
      | [s] => if s.limitable then some s else none
      | _ => none }

/-- Strip one trailing semicolon with the blanks after it. -/
def stripSemicolon (sql : Text) : Text :=
  match sql.reverse.dropWhile isSpace with
  | ';' :: cs => cs.reverse
  | _ => sql

def withLimit (sql : Text) (limit : Nat) : Text :=
  stripSemicolon sql ++ lit " LIMIT " ++ (toString limit).toList

end Corebase.SqlGuard
