import Corebase.SqlLex

namespace Corebase.ServerScan

open JsText SqlLex

inductive Quote
  | plain | escape | ident | dollar
deriving DecidableEq

/-- What a scanner takes a character of the script for. -/
inductive Class
  | blank
  | comment
  | code
  | quoted (quote : Quote)
deriving DecidableEq

def isBlank (c : Char) : Bool := c ∈ [' ', '\t', '\n', '\r', '\x0c', '\x0b']

def isNewline (c : Char) : Bool := c = '\n' || c = '\r'

def isIdentStart (c : Char) : Bool := isLetter c || c = '_' || isHigh c

def isIdentCont (c : Char) : Bool := isLetter c || isDigit c || c = '_' || c = '$' || isHigh c

def isTagStart (c : Char) : Bool := isLetter c || c = '_' || isHigh c

def isTagCont (c : Char) : Bool := isLetter c || isDigit c || c = '_' || isHigh c

/-- The rest of a block comment of which so many openings are still open. -/
def commentRest : Nat → Text → Nat
  | 0, _ => 0
  | depth + 1, '/' :: '*' :: cs => 2 + commentRest (depth + 2) cs
  | depth + 1, '*' :: '/' :: cs => 2 + commentRest depth cs
  | depth + 1, _ :: cs => 1 + commentRest (depth + 1) cs
  | _, [] => 0

def escapeRest : Text → Nat
  | '\\' :: _ :: cs => 2 + escapeRest cs
  | '\x27' :: '\x27' :: cs => 2 + escapeRest cs
  | '\x27' :: _ => 1
  | _ :: cs => 1 + escapeRest cs
  | [] => 0

/-- The digits of a number after the first, each with at most one underscore before it. -/
def digitsRest (isDigit : Char → Bool) : Text → Nat
  | c :: cs =>
      if isDigit c then 1 + digitsRest isDigit cs
      else match c, cs with
        | '_', d :: ds => if isDigit d then 2 + digitsRest isDigit ds else 0
        | _, _ => 0
  | [] => 0

def decinteger : Text → Nat
  | c :: cs => if isDigit c then 1 + digitsRest isDigit cs else 0
  | [] => 0

/-- The digits and the decimal point of a number; in 1..2 the dots are not its own. -/
def mantissa (cs : Text) : Nat :=
  let n := decinteger cs
  match cs.drop n with
  | '.' :: '.' :: _ => n
  | '.' :: ds => n + 1 + decinteger ds
  | _ => n

def identifier : Text → Text
  | c :: cs => if isIdentStart c then c :: cs.takeWhile isIdentCont else []
  | [] => []

def isHex (c : Char) : Bool := isDigit c || ('a' ≤ c && c ≤ 'f') || ('A' ≤ c && c ≤ 'F')

def isOct (c : Char) : Bool := '0' ≤ c && c ≤ '7'

def isBin (c : Char) : Bool := c = '0' || c = '1'

def radixDigits : Char → Option (Char → Bool)
  | 'x' | 'X' => some isHex
  | 'o' | 'O' => some isOct
  | 'b' | 'B' => some isBin
  | _ => none

/-- The letters that may follow a number at once: an unsigned exponent, or the radix
and the digits of an integer that begins with 0. -/
def isSuffix (number : Text) : Text → Bool
  | 'e' :: cs | 'E' :: cs => cs ≠ [] && decinteger cs = cs.length
  | c :: cs => number = ['0'] && cs ≠ [] &&
      (radixDigits c).any fun isDigit => digitsRest isDigit cs = cs.length
  | [] => false

/-- How far the exponent goes when it has a sign. -/
def signedExponent : Text → Option Nat
  | e :: s :: cs =>
      if (e = 'e' ∨ e = 'E') ∧ (s = '+' ∨ s = '-') ∧ 0 < decinteger cs then
        some (2 + decinteger cs)
      else none
  | _ => none

inductive Kind
  | blank | newline | lineComment | blockComment
  | dollar (delim : Text) | param
  | escape | continued | plain | ident
  /-- A number, with whether it ends in an unsigned exponent or radix digits. -/
  | number (suffix : Bool)
  | dots | word | other
deriving DecidableEq

def Kind.class : Kind → Class
  | .blank | .newline => .blank
  | .lineComment | .blockComment => .comment
  | .dollar _ => .quoted .dollar
  | .escape | .continued => .quoted .escape
  | .plain => .quoted .plain
  | .ident => .quoted .ident
  | .param | .number _ | .dots | .word | .other => .code

/-- A number at the head of the input; nothing when an identifier follows it at once,
which the server refuses as trailing junk. -/
def number (cs : Text) : Option (Kind × Nat) :=
  let m := if cs.head? = some '.' then 1 + decinteger cs.tail else mantissa cs
  let rest := cs.drop m
  let word := identifier rest
  if word = [] then some (.number false, m)
  else if isSuffix (cs.take m) word then some (.number true, m + word.length)
  else match signedExponent rest with
    | some n => if identifier (rest.drop n) = [] then some (.number false, m + n) else none
    | none => none

/-- Whether a quoted piece would go on with an escape string: none is open, one has
closed on this line, or one has closed on an earlier line. -/
inductive Cont
  | off | line | next
deriving DecidableEq

/-- The token at the head of the input, with its length. -/
def scan (cont : Cont) : Text → Option (Kind × Nat)
  | [] => none
  | c :: cs =>
      if isNewline c then some (.newline, 1)
      else if isBlank c then some (.blank, 1)
      else if c = '-' ∧ cs.head? = some '-' then
        some (.lineComment, ((c :: cs).takeWhile (!isNewline ·)).length)
      else if c = '/' ∧ cs.head? = some '*' then some (.blockComment, 2 + commentRest 1 cs.tail)
      else if let some delim := dollarTag isTagStart isTagCont (c :: cs) then
        some (.dollar delim, dollarBody delim (c :: cs))
      else if c = '$' ∧ cs.head?.any isDigit then
        let n := (cs.takeWhile isDigit).length
        if identifier (cs.drop n) = [] then some (.param, 1 + n) else none
      else if (c = 'E' ∨ c = 'e') ∧ cs.head? = some '\x27' then
        some (.escape, 2 + escapeRest cs.tail)
      else if c = '\x27' then
        if cont = .next then some (.continued, 1 + escapeRest cs)
        else some (.plain, 1 + quotedBody '\x27' cs)
      else if c = '"' then some (.ident, 1 + quotedBody '"' cs)
      else if isDigit c ∨ c = '.' ∧ cs.head?.any isDigit then number (c :: cs)
      else if c = '.' then some (.dots, if cs.head? = some '.' then 2 else 1)
      else if isIdentStart c then some (.word, ((c :: cs).takeWhile isIdentCont).length)
      else some (.other, 1)

def Cont.after (cont : Cont) : Kind → Cont
  | .blank | .lineComment => cont
  | .newline => if cont = .off then .off else .next
  | .escape | .continued => .line
  | _ => .off

def classesFrom : Nat → Cont → Text → List Class
  | 0, _, _ => []
  | fuel + 1, cont, cs =>
      match scan cont cs with
      | none => []
      | some (k, n) =>
          ((cs.take n).map fun _ => k.class) ++ classesFrom fuel (cont.after k) (cs.drop n)

/-- The server's reading of each character, as far as its first lexical error. -/
def serverClasses (sql : Text) : List Class := classesFrom sql.length .off sql

end Corebase.ServerScan
