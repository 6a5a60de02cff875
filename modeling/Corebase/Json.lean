import Corebase.JsNumber
import Mathlib.Data.List.Sort
import Mathlib.Order.Lex

namespace Corebase.Json

open JsNumber
open JsText (Text)

/-- A string, by its UTF-16 units. -/
abbrev Str := List Nat

/-- The units of a text of the Basic Multilingual Plane. -/
def str (text : Text) : Str := text.map Char.toNat

inductive Scalar (N : Type)
  | null
  | bool (value : Bool)
  | number (value : N)
  | string (value : Str)
deriving DecidableEq

inductive Value (N : Type)
  | scalar (value : Scalar N)
  | array (items : List (Value N))
  | object (members : List (Str × Value N))

/-- What a JSON text says: its numbers are exact, its objects have the members that are written. -/
abbrev Document := Value Rat

/-- A value of the language: its objects have each name once, in the order of creation. -/
abbrev JsValue := Value Number

/-! The tokens of a text -/

inductive Token
  | beginArray | endArray | beginObject | endObject | comma | colon
  | scalar (value : Scalar Rat)
deriving DecidableEq

structure Literal where
  negative : Bool := false
  mantissa : Nat := 0
  /-- How many digits of the mantissa stand after the point. -/
  scale : Nat := 0
  exponentNegative : Bool := false
  exponent : Nat := 0
deriving DecidableEq

namespace Literal

def power (l : Literal) : Int := if l.exponentNegative then -l.exponent else l.exponent

def value (l : Literal) : Rat := signed l.negative (shift 10 l.mantissa (l.power - l.scale))

def digit (l : Literal) (u : Nat) : Literal := { l with mantissa := 10 * l.mantissa + (u - 48) }

def fractionDigit (l : Literal) (u : Nat) : Literal := { l.digit u with scale := l.scale + 1 }

def exponentDigit (l : Literal) (u : Nat) : Literal := { l with exponent := 10 * l.exponent + (u - 48) }

end Literal

/-- How far a number literal has been read. -/
inductive Stage
  | sign | zero | whole | point | fraction | mark | markSign | exponent
deriving DecidableEq

def Stage.complete : Stage → Bool
  | .zero | .whole | .fraction | .exponent => true
  | .sign | .point | .mark | .markSign => false

def isDigit (u : Nat) : Bool := 48 ≤ u && u ≤ 57

/-- What may follow the whole part. -/
def afterWhole (l : Literal) (u : Nat) : Option (Literal × Stage) :=
  if u = '.'.toNat then some (l, .point)
  else if u = 'e'.toNat ∨ u = 'E'.toNat then some (l, .mark)
  else none

def numberStep (l : Literal) (stage : Stage) (u : Nat) : Option (Literal × Stage) :=
  match stage with
  | .sign => if isDigit u then some (l.digit u, if u = '0'.toNat then .zero else .whole) else none
  | .zero => afterWhole l u
  | .whole => if isDigit u then some (l.digit u, .whole) else afterWhole l u
  | .point => if isDigit u then some (l.fractionDigit u, .fraction) else none
  | .fraction =>
      if isDigit u then some (l.fractionDigit u, .fraction)
      else if u = 'e'.toNat ∨ u = 'E'.toNat then some (l, .mark)
      else none
  | .mark =>
      if isDigit u then some (l.exponentDigit u, .exponent)
      else if u = '+'.toNat then some (l, .markSign)
      else if u = '-'.toNat then some ({ l with exponentNegative := true }, .markSign)
      else none
  | .markSign | .exponent => if isDigit u then some (l.exponentDigit u, .exponent) else none

inductive Mode
  | between
  | word (value : Scalar Rat) (rest : Str)
  | string (done : Str)
  | escape (done : Str)
  | hex (done : Str) (count value : Nat)
  | number (literal : Literal) (stage : Stage)
deriving DecidableEq

def isWhite (u : Nat) : Bool := u = 32 || u = 9 || u = 10 || u = 13

def start (u : Nat) : Option (List Token × Mode) :=
  if isWhite u then some ([], .between)
  else if u = '"'.toNat then some ([], .string [])
  else if u = '-'.toNat then some ([], .number { negative := true } .sign)
  else if isDigit u then (numberStep {} .sign u).map fun (l, stage) => ([], .number l stage)
  else if u = 't'.toNat then some ([], .word (.bool true) (str "rue".toList))
  else if u = 'f'.toNat then some ([], .word (.bool false) (str "alse".toList))
  else if u = 'n'.toNat then some ([], .word .null (str "ull".toList))
  else if u = '['.toNat then some ([.beginArray], .between)
  else if u = ']'.toNat then some ([.endArray], .between)
  else if u = '\x7b'.toNat then some ([.beginObject], .between)
  else if u = '\x7d'.toNat then some ([.endObject], .between)
  else if u = ','.toNat then some ([.comma], .between)
  else if u = ':'.toNat then some ([.colon], .between)
  else none

/-- The escape sequences of one letter. -/
def simpleEscape (u : Nat) : Option Nat :=
  if u = '"'.toNat ∨ u = '\\'.toNat ∨ u = '/'.toNat then some u
  else if u = 'b'.toNat then some 8
  else if u = 'f'.toNat then some 12
  else if u = 'n'.toNat then some 10
  else if u = 'r'.toNat then some 13
  else if u = 't'.toNat then some 9
  else none

def hexDigit (u : Nat) : Option Nat :=
  if isDigit u then some (u - 48)
  else if 97 ≤ u ∧ u ≤ 102 then some (u - 87)
  else if 65 ≤ u ∧ u ≤ 70 then some (u - 55)
  else none

def step (mode : Mode) (u : Nat) : Option (List Token × Mode) :=
  match mode with
  | .between => start u
  | .word _ [] => none
  | .word value [c] => if u = c then some ([.scalar value], .between) else none
  | .word value (c :: rest) => if u = c then some ([], .word value rest) else none
  | .string done =>
      if u = '"'.toNat then some ([.scalar (.string done.reverse)], .between)
      else if u = '\\'.toNat then some ([], .escape done)
      else if u < 32 then none
      else some ([], .string (u :: done))
  | .escape done =>
      if u = 'u'.toNat then some ([], .hex done 0 0)
      else (simpleEscape u).map fun unit => ([], .string (unit :: done))
  | .hex done count value =>
      (hexDigit u).map fun d =>
        ([], if count = 3 then .string ((16 * value + d) :: done) else .hex done (count + 1) (16 * value + d))
  | .number literal stage =>
      match numberStep literal stage u with
      | some (literal, stage) => some ([], .number literal stage)
      | none =>
          if stage.complete then
            (start u).map fun (tokens, mode) => (.scalar (.number literal.value) :: tokens, mode)
          else none

def finish : Mode → Option (List Token)
  | .between => some []
  | .number literal stage => if stage.complete then some [.scalar (.number literal.value)] else none
  | _ => none

def lex (mode : Mode) : Str → Option (List Token)
  | [] => finish mode
  | u :: us => (step mode u).bind fun (tokens, mode) => (lex mode us).map (tokens ++ ·)

/-! The values of a list of tokens -/

/-- An array or an object that is being read, before one of its values. -/
inductive Frame
  | array (items : List Document)
  | object (members : List (Str × Document)) (name : Str)

/-- What comes next, and inside of what. -/
inductive Expect
  | value (stack : List Frame)
  | item (stack : List Frame)
  | member (stack : List Frame)
  | name (members : List (Str × Document)) (stack : List Frame)
  | colon (members : List (Str × Document)) (name : Str) (stack : List Frame)
  | after (document : Document) (stack : List Frame)

def readValue (stack : List Frame) : Token → Option Expect
  | .scalar value => some (.after (.scalar value) stack)
  | .beginArray => some (.item stack)
  | .beginObject => some (.member stack)
  | _ => none

def read : Expect → Token → Option Expect
  | .value stack, token => readValue stack token
  | .item stack, .endArray => some (.after (.array []) stack)
  | .item stack, token => readValue (.array [] :: stack) token
  | .member stack, .endObject => some (.after (.object []) stack)
  | .member stack, .scalar (.string name) => some (.colon [] name stack)
  | .name members stack, .scalar (.string name) => some (.colon members name stack)
  | .colon members name stack, .colon => some (.value (.object members name :: stack))
  | .after document (.array items :: stack), .comma => some (.value (.array (items ++ [document]) :: stack))
  | .after document (.array items :: stack), .endArray => some (.after (.array (items ++ [document])) stack)
  | .after document (.object members name :: stack), .comma => some (.name (members ++ [(name, document)]) stack)
  | .after document (.object members name :: stack), .endObject =>
      some (.after (.object (members ++ [(name, document)])) stack)
  | _, _ => none

def readAll (expect : Expect) : List Token → Option Document
  | [] =>
      match expect with
      | .after document [] => some document
      | _ => none
  | token :: tokens => (read expect token).bind fun expect => readAll expect tokens

/-- The document that a text is, if it is one. -/
def parseText (text : Str) : Option Document := (lex .between text).bind (readAll (.value []))

/-! The values of the language -/

def Scalar.evaluate : Scalar Rat → Scalar Number
  | .null => .null
  | .bool value => .bool value
  | .number value => .number (round value)
  | .string value => .string value

/-- A later member of the same name takes the place of the earlier one. -/
def define {α : Type} (members : List (Str × α)) (member : Str × α) : List (Str × α) :=
  if members.any fun m => m.1 = member.1 then members.map fun m => if m.1 = member.1 then member else m
  else members ++ [member]

mutual

def evaluate : Document → JsValue
  | .scalar value => .scalar value.evaluate
  | .array items => .array (evaluateItems items)
  | .object members => .object ((evaluateMembers members).foldl define [])

def evaluateItems : List Document → List JsValue
  | [] => []
  | item :: items => evaluate item :: evaluateItems items

def evaluateMembers : List (Str × Document) → List (Str × JsValue)
  | [] => []
  | (name, value) :: members => (name, evaluate value) :: evaluateMembers members

end

/-- JSON.parse -/
def parse (text : Str) : Option JsValue := (parseText text).map evaluate

/-- The number that a property name is the array index of. -/
def index (name : Str) : Option Nat :=
  let n := name.foldl (fun n u => 10 * n + (u - 48)) 0
  if name = str (Nat.toDigits 10 n) ∧ n < 4294967295 then some n else none

/-- The order in which properties are enumerated: the array indices by their number, then the others. -/
def enumerate {α : Type} (members : List (Str × α)) : List (Str × α) :=
  (members.filter fun m => (index m.1).isSome).insertionSort (fun a b => (index a.1).getD 0 ≤ (index b.1).getD 0) ++
    members.filter fun m => !(index m.1).isSome

def isLead (u : Nat) : Bool := 0xD800 ≤ u && u ≤ 0xDBFF

def isTrail (u : Nat) : Bool := 0xDC00 ≤ u && u ≤ 0xDFFF

def hexUnit (d : Nat) : Nat := if d < 10 then d + 48 else d + 87

def unicodeEscape (u : Nat) : Str :=
  ['\\'.toNat, 'u'.toNat, hexUnit (u / 4096 % 16), hexUnit (u / 256 % 16), hexUnit (u / 16 % 16), hexUnit (u % 16)]

def escapeUnit (u : Nat) : Str :=
  if u = '"'.toNat ∨ u = '\\'.toNat then ['\\'.toNat, u]
  else if u = 8 then ['\\'.toNat, 'b'.toNat]
  else if u = 12 then ['\\'.toNat, 'f'.toNat]
  else if u = 10 then ['\\'.toNat, 'n'.toNat]
  else if u = 13 then ['\\'.toNat, 'r'.toNat]
  else if u = 9 then ['\\'.toNat, 't'.toNat]
  else if u < 32 ∨ isLead u ∨ isTrail u then unicodeEscape u
  else [u]

/-- `paired` is set for the second surrogate of a pair. -/
def escapeUnits (paired : Bool) : Str → Str
  | [] => []
  | u :: us =>
      if paired then u :: escapeUnits false us
      else if isLead u && us.head?.any isTrail then u :: escapeUnits true us
      else escapeUnit u ++ escapeUnits false us

def quote (s : Str) : Str := '"'.toNat :: escapeUnits false s ++ ['"'.toNat]

def Scalar.print : Scalar Number → Str
  | .null => str "null".toList
  | .bool true => str "true".toList
  | .bool false => str "false".toList
  | .number (.finite value) => str (toText (.finite value))
  | .number (.infinite _) => str "null".toList
  | .string value => quote value

def memberText (member : Str × Str) : Str := ','.toNat :: quote member.1 ++ ':'.toNat :: member.2

mutual

/-- JSON.stringify; each item is printed with the comma before it, and the first comma is dropped. -/
def print : JsValue → Str
  | .scalar value => value.print
  | .array items => '['.toNat :: (printItems items).tail ++ [']'.toNat]
  | .object members =>
      '\x7b'.toNat :: ((enumerate (printMembers members)).flatMap memberText).tail ++ ['\x7d'.toNat]

def printItems : List JsValue → Str
  | [] => []
  | item :: items => ','.toNat :: print item ++ printItems items

def printMembers : List (Str × JsValue) → List (Str × Str)
  | [] => []
  | (name, value) :: members => (name, print value) :: printMembers members

end

end Corebase.Json
