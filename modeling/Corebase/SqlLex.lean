import Corebase.JsText

namespace Corebase.SqlLex

open JsText

inductive TokenKind
  | word | punct | string | ident | number
deriving DecidableEq

structure Token where
  kind : TokenKind
  /-- Upper-cased for a word, verbatim otherwise. -/
  value : Text
  start : Nat
  stop : Nat
deriving DecidableEq

def isWordStart (c : Char) : Bool := isLetter c || c = '_' || isHigh c

def isWordChar (c : Char) : Bool := isLetter c || isDigit c || c = '_' || c = '$' || isHigh c

def isNumberChar (c : Char) : Bool := isDigit c || c = '.' || c = '_'

def isTagStart (c : Char) : Bool := isLetter c || c = '_'

def isTagChar (c : Char) : Bool := isLetter c || isDigit c || c = '_'

/-- What one turn of the loop of lex does with the characters it moves over. -/
inductive Lexeme
  | blank
  | comment
  | token (kind : TokenKind)
deriving DecidableEq

def lineComment (cs : Text) : Nat := (cs.takeWhile (· ≠ '\n')).length

def blockComment : Nat → Text → Nat
  | depth, '/' :: '*' :: cs => 2 + blockComment (depth + 1) cs
  | depth, '*' :: '/' :: cs => if depth - 1 = 0 then 2 else 2 + blockComment (depth - 1) cs
  | depth, _ :: cs => 1 + blockComment depth cs
  | _, [] => 0

/-- The opening delimiter of a dollar-quoted body, bare or with a tag. -/
def dollarTag (tagStart tagChar : Char → Bool) : Text → Option Text
  | '$' :: cs =>
      let tag := cs.takeWhile tagChar
      if (cs.dropWhile tagChar).head? = some '$' ∧ tag.head?.all tagStart then
        some ('$' :: tag ++ ['$'])
      else none
  | _ => none

/-- From the opening delimiter to the end of the first closing one, or of the input. -/
def dollarBody (delim cs : Text) : Nat :=
  match indexOf delim (cs.drop delim.length) with
  | some i => delim.length + i + delim.length
  | none => cs.length

/-- The rest of an escape string after its opening quote. A final backslash moves
the index one past the end of the input. -/
def escapeBody : Text → Nat
  | [] => 0
  | ['\\'] => 2
  | '\\' :: _ :: cs => 2 + escapeBody cs
  | '\x27' :: '\x27' :: cs => 2 + escapeBody cs
  | '\x27' :: _ => 1
  | _ :: cs => 1 + escapeBody cs

/-- The rest of a string or a quoted identifier after its opening quote. -/
def quotedBody (quote : Char) : Text → Nat
  | [] => 0
  | [_] => 1
  | c :: d :: cs =>
      if c = quote then if d = quote then 2 + quotedBody quote cs else 1
      else 1 + quotedBody quote (d :: cs)

/-- The branch of the loop taken at the first character of the input, and how far
the index moves. -/
def lexeme : Text → Lexeme × Nat
  | [] => (.blank, 0)
  | c :: cs =>
      if isSpace c then (.blank, 1)
      else if c = '-' ∧ cs.head? = some '-' then (.comment, lineComment (c :: cs))
      else if c = '/' ∧ cs.head? = some '*' then (.comment, blockComment 0 (c :: cs))
      else if let some delim := dollarTag isTagStart isTagChar (c :: cs) then
        (.token .string, dollarBody delim (c :: cs))
      else if (c = 'E' ∨ c = 'e') ∧ cs.head? = some '\x27' then
        (.token .string, 2 + escapeBody cs.tail)
      else if c = '\x27' then (.token .string, 1 + quotedBody '\x27' cs)
      else if c = '"' then (.token .ident, 1 + quotedBody '"' cs)
      else if isDigit c then (.token .number, 1 + (cs.takeWhile isNumberChar).length)
      else if isWordStart c then (.token .word, ((c :: cs).takeWhile isWordChar).length)
      else (.token .punct, 1)

structure Piece where
  lexeme : Lexeme
  width : Nat
  text : Text
deriving DecidableEq

/-- The turns of the loop over the whole input; every turn moves the index. -/
def piecesFrom : Nat → Text → List Piece
  | 0, _ => []
  | _, [] => []
  | fuel + 1, c :: cs =>
      let (x, n) := lexeme (c :: cs)
      ⟨x, n, (c :: cs).take n⟩ :: piecesFrom fuel ((c :: cs).drop n)

def pieces (sql : Text) : List Piece := piecesFrom sql.length sql

def tokensFrom (i : Nat) : List Piece → List Token
  | [] => []
  | ⟨.token .word, n, s⟩ :: ps => ⟨.word, toUpperCase s, i, i + n⟩ :: tokensFrom (i + n) ps
  | ⟨.token k, n, s⟩ :: ps => ⟨k, s, i, i + n⟩ :: tokensFrom (i + n) ps
  | ⟨_, n, _⟩ :: ps => tokensFrom (i + n) ps

def lex (sql : Text) : List Token := tokensFrom 0 (pieces sql)

def Token.isPunct (t : Token) (c : Char) : Bool := t.kind = .punct && t.value = [c]

def Token.isWord (t : Token) (w : String) : Bool := t.kind = .word && t.value = w.toList

structure Statement where
  /-- Verbatim source, trimmed. -/
  sql : Text
  tokens : List Token
  start : Nat
  stop : Nat
deriving DecidableEq

/-- The statement made of the tokens, unless there are none or their text is blank. -/
def push (sql : Text) (tokens : List Token) (stop : Nat) : List Statement :=
  match tokens with
  | [] => []
  | t :: _ =>
      let text := trim (slice sql t.start stop)
      if text = [] then [] else [⟨text, tokens, t.start, stop⟩]

/-- The depth of open parentheses after a token, never below zero. -/
def depthAfter (depth : Nat) (t : Token) : Nat :=
  if t.isPunct '(' then depth + 1 else if t.isPunct ')' then depth - 1 else depth

def splitFrom (sql : Text) : Nat → List Token → List Token → List Statement
  | _, current, [] => push sql current sql.length
  | depth, current, t :: ts =>
      if t.isPunct ';' ∧ depth = 0 then push sql current t.start ++ splitFrom sql depth [] ts
      else splitFrom sql (depthAfter depth t) (current ++ [t]) ts

def split (sql : Text) : List Statement := splitFrom sql 0 [] (lex sql)

example : (split "SELECT '; DROP TABLE users; --'".toList).length = 1 := by decide

example : (lex "/* c */ SELECT 1 -- c".toList).map Token.value = ["SELECT".toList, "1".toList] := by
  decide

end Corebase.SqlLex
