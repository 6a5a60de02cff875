import Corebase.JsonMeaning

namespace Corebase.GatewayBodies

open Json

inductive Method
  | get | head | post | put | patch | delete | options
deriving DecidableEq

/-- The body of a request, by the parser of its content type. -/
inductive Body
  | absent
  | json (text : Str)
  | plain (text : Str)
deriving DecidableEq

/-- The units that trim removes. -/
def isSpace (u : Nat) : Bool :=
  u ∈ [9, 10, 11, 12, 13, 32, 0xA0, 0x1680, 0x2028, 0x2029, 0x202F, 0x205F, 0x3000, 0xFEFF] ||
    (0x2000 ≤ u && u ≤ 0x200A)

def isBlank (text : Str) : Bool := text.all isSpace

/-- The parser that the kernel registers for JSON. -/
def acceptEmptyJsonBody (text : Str) : Option JsValue :=
  if isBlank text then some (.object []) else parse text

/-- What becomes of a body that a parser is run on; a body that is refused is none. -/
def parseBody : Body → Option (Option JsValue)
  | .absent => some none
  | .json text => (acceptEmptyJsonBody text).map some
  | .plain text => some (some (.scalar (.string text)))

/-- No parser is run on the requests of these methods. -/
def bodiless (method : Method) : Bool := method = .get || method = .head

def received (method : Method) (body : Body) : Option (Option JsValue) :=
  if bodiless method then some none else parseBody body

/-- The body of the request that the proxy sends, if it has one. -/
def proxied (method : Method) (body : Option JsValue) : Option Str :=
  if method ≠ .get ∧ method ≠ .head then body.map print else none

def Accepted (method : Method) (body : Body) : Prop :=
  body = .absent ∨ bodiless method = false ∧ (parseBody body).isSome

/-- What is sent is what the client sent: the same document, the same text, or nothing. -/
def Faithful : Body → Option Str → Prop
  | .absent, sent => sent = none
  | .json text, sent =>
      if isBlank text then sent.all isBlank = true
      else ∃ document document', parseText text = some document ∧ sent.bind parseText = some document' ∧
        Same document document'
  | .plain text, sent => sent.getD [] = text

def Intact : Body → Prop
  | .absent => True
  | .json text => isBlank text = false ∧ ∀ document, parseText text = some document → Kept document
  | .plain _ => False

theorem length_escapeUnit (u : Nat) : 1 ≤ (escapeUnit u).length := by
  unfold escapeUnit
  split_ifs <;> simp [unicodeEscape]

theorem length_escapeUnits (paired : Bool) (us : Str) : us.length ≤ (escapeUnits paired us).length := by
  induction us generalizing paired with
  | nil => simp
  | cons u us ih =>
      have hunit := length_escapeUnit u
      have hpaired := ih true
      have hsingle := ih false
      rw [escapeUnits]
      split_ifs <;> simp only [List.length_cons, List.length_append] <;> omega

theorem quote_ne (s : Str) : quote s ≠ s := by
  intro heq
  have hlength := congrArg List.length heq
  have hle := length_escapeUnits false s
  simp only [quote, List.length_append, List.length_cons, List.length_nil] at hlength
  omega

theorem proxied_absent (method : Method) : proxied method none = none := by
  unfold proxied
  split <;> rfl

theorem proxied_some {method : Method} (h : bodiless method = false) (value : JsValue) :
    proxied method (some value) = some (print value) := by
  cases method with
  | get | head => exact absurd h (by decide)
  | post | put | patch | delete | options => rfl

theorem faithful_json {text : Str} {document : Document} (hblank : isBlank text = false)
    (hparse : parseText text = some document) :
    Faithful (.json text) (some (print (evaluate document))) ↔ Kept document := by
  simp only [Faithful, hblank, Bool.false_eq_true, if_false, Option.bind_some, parseText_print, hparse,
    Option.some.injEq]
  rw [← same_reprinted_iff]
  constructor
  · rintro ⟨_, _, rfl, rfl, hsame⟩
    exact hsame
  · exact fun hsame => ⟨_, _, rfl, rfl, hsame⟩

def sample : Str := str "[1.5]".toList

theorem accepted_sample : Accepted .post (.json sample) := by
  refine .inr ⟨rfl, ?_⟩
  decide

/-- The first integer that is not a number of the language -/
def large : Str := str "9007199254740993".toList

theorem parseText_large : parseText large = some (.scalar (.number 9007199254740993)) := by
  have hlex : lex .between large = some [.scalar (.number 9007199254740993)] := by decide
  rw [parseText, hlex]
  rfl

theorem not_kept_large : ¬ Kept (.scalar (.number 9007199254740993)) := by
  rw [Kept]
  decide +kernel

end Corebase.GatewayBodies
