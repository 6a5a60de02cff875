import Corebase.Html

namespace Corebase.EmailTemplates

open JsText

inductive TemplateName
  | confirmation | recovery | accountExistsNotice | emailChangeCurrent | emailChangeNew | passwordChangedNotice
deriving DecidableEq

/-- The own properties of the object, in the order of its keys; a value may be undefined. -/
abbrev TemplateVariables := List (Text × Option Text)

def own (vars : TemplateVariables) (name : Text) : Option (Option Text) := (vars.find? (·.1 = name)).map Prod.snd

/-- An assignment keeps the place of a key that is there. -/
def assign (vars : TemplateVariables) (name : Text) (value : Option Text) : TemplateVariables :=
  if (own vars name).isSome then vars.map fun v => if v.1 = name then (name, value) else v else vars ++ [(name, value)]

/-- The value of a property; some are functions of the object's prototype. -/
inductive Value
  | undefined
  | string (text : Text)
  | function (name : Text)
deriving DecidableEq

/-- The names of letters that every object inherits. -/
def inherited : List Text :=
  ["constructor", "hasOwnProperty", "isPrototypeOf", "propertyIsEnumerable", "toLocaleString", "toString", "valueOf"].map
    String.toList

/-- What the operator in finds, with its value. -/
def lookup (vars : TemplateVariables) (name : Text) : Option Value :=
  match own vars name with
  | some (some text) => some (.string text)
  | some none => some .undefined
  | none => if name ∈ inherited then some (.function name) else none

inductive RenderError
  | templateError (message : Text)
  | typeError (message : Text)
deriving DecidableEq

section Escapes

def replaceAll (c : Char) (replacement : String) (value : Text) : Text :=
  value.flatMap fun d => if d = c then replacement.toList else [d]

def escapeHtml (value : Text) : Text :=
  replaceAll '\'' "&#39;" <| replaceAll '"' "&quot;" <| replaceAll '>' "&gt;" <| replaceAll '<' "&lt;" <|
    replaceAll '&' "&amp;" value

/-- The source of a function of the engine. -/
def nativeSource (name : Text) : Text :=
  "function ".toList ++ (if name = "constructor".toList then "Object".toList else name) ++ "() \x7b [native code] \x7d".toList

/-- A callback that returns the value: replace turns it into a string. -/
def verbatim : Value → Except RenderError Text
  | .undefined => .ok "undefined".toList
  | .string text => .ok text
  | .function name => .ok (nativeSource name)

def escaped : Value → Except RenderError Text
  | .string text => .ok (escapeHtml text)
  | .undefined | .function _ => .error (.typeError "value.replace is not a function".toList)

end Escapes

section Interpolation

/-- The pattern of a variable at the start of the text: its name, and the length of the match. -/
def variableAt : Text → Option (Text × Nat)
  | '\x7b' :: '\x7b' :: cs => match cs.dropWhile isSpace with
      | '.' :: cs' => match (cs'.dropWhile isLetter).dropWhile isSpace with
          | '\x7d' :: '\x7d' :: rest =>
              if cs'.takeWhile isLetter = [] then none else some (cs'.takeWhile isLetter, cs.length + 2 - rest.length)
          | _ => none
      | _ => none
  | _ => none

def placeholder (name : Text) : Text := "template variable \x7b\x7b .".toList ++ name ++ " \x7d\x7d ".toList

def valueOf (vars : TemplateVariables) (escape : Value → Except RenderError Text) (name : Text) : Except RenderError Text :=
  match lookup vars name with
  | none => .error (.templateError (placeholder name ++ "is not one this template provides (available: ".toList ++
      join ", ".toList (vars.map Prod.fst) ++ ")".toList))
  | some .undefined => .error (.templateError (placeholder name ++ "has no value for this message".toList))
  | some value => escape value

/-- The rest of a text, after so many characters that belong to the last match. -/
def interpolateFrom (vars : TemplateVariables) (escape : Value → Except RenderError Text) : Nat → Text → Except RenderError Text
  | _, [] => .ok []
  | skip + 1, _ :: cs => interpolateFrom vars escape skip cs
  | 0, c :: cs => match variableAt (c :: cs) with
      | some (name, length) => do
          let value ← valueOf vars escape name
          let rest ← interpolateFrom vars escape (length - 1) cs
          return value ++ rest
      | none => do
          let rest ← interpolateFrom vars escape 0 cs
          return c :: rest

def interpolate (body : Text) (vars : TemplateVariables) (escape : Value → Except RenderError Text) : Except RenderError Text :=
  interpolateFrom vars escape 0 body

end Interpolation

structure TemplateSource where
  subject : Text
  body : List Text
  action : Option Text
deriving DecidableEq

/-- What a project supplies, each part or not. -/
structure Override where
  subject : Option Text
  body : Option (List Text)
  action : Option Text
deriving DecidableEq

/-- A text in several parts. -/
def chars (parts : List String) : Text := parts.flatMap String.toList

def templateSource (subject : String) (body : List (List String)) (action : Option String) : TemplateSource :=
  ⟨subject.toList, body.map chars, action.map String.toList⟩

def DEFAULT_TEMPLATES : TemplateName → TemplateSource
  | .confirmation => templateSource "Confirm your email address"
      [["Confirm \x7b\x7b .Email \x7d\x7d to finish setting up your account on \x7b\x7b .ProjectName \x7d\x7d."],
        ["This link can only be used once, and expires in 24 hours."],
        ["If you did not sign up, you can ignore this message."]]
      (some "Confirm email address")
  | .recovery => templateSource "Reset your password"
      [["Someone asked to reset the password for \x7b\x7b .Email \x7d\x7d on \x7b\x7b .ProjectName \x7d\x7d."],
        ["This link can only be used once, and expires in 1 hour."],
        ["If it was not you, no change has been made and you can ignore this message."]]
      (some "Choose a new password")
  | .accountExistsNotice => templateSource "Someone tried to sign up with your email address"
      [["Someone tried to create an account on \x7b\x7b .ProjectName \x7d\x7d using \x7b\x7b .Email \x7d\x7d, ",
          "which already has one."],
        ["No new account was created and nothing has changed. If you have forgotten ",
          "your password, you can reset it from the sign-in page."]]
      none
  | .emailChangeCurrent => templateSource "Confirm your new email address"
      [["A request was made to change the email address on your \x7b\x7b .ProjectName \x7d\x7d ",
          "account from \x7b\x7b .Email \x7d\x7d to \x7b\x7b .NewEmail \x7d\x7d."],
        ["Confirm below if you made this request. The change only takes effect once ",
          "both addresses have confirmed it."]]
      (some "Confirm this change")
  | .emailChangeNew => templateSource "Confirm your email address"
      [["Confirm \x7b\x7b .NewEmail \x7d\x7d as the new email address for your ",
          "\x7b\x7b .ProjectName \x7d\x7d account."],
        ["The change only takes effect once both the old and the new address have ",
          "confirmed it."]]
      (some "Confirm email address")
  | .passwordChangedNotice => templateSource "Your password was changed"
      [["The password for \x7b\x7b .Email \x7d\x7d on \x7b\x7b .ProjectName \x7d\x7d was just changed."],
        ["If you did not do this, someone else has access to your account. Reset ",
          "your password from the sign-in page immediately."]]
      none

section Layout

structure Action where
  url : Text
  label : Text
deriving DecidableEq

structure Parts where
  title : Text
  paragraphs : List Text
  action : Option Action
  footer : Text
deriving DecidableEq

def headText : Text := chars
  ["<!doctype html>\n",
    "<html><head><meta charset=\"utf-8\"><meta name=\"viewport\" content=\"width=device-width\">\n",
    "<title>"]

def bodyText : Text := chars
  ["</title></head>\n",
    "<body style=\"background:#f6f6f4;margin:0;padding:24px 12px;\">\n",
    "<table role=\"presentation\" cellpadding=\"0\" cellspacing=\"0\" border=\"0\" width=\"100%\" ",
    "style=\"max-width:520px;margin:0 auto;background:#ffffff;border-radius:10px;\">\n",
    "<tr><td style=\"padding:28px 28px 4px 28px;\">\n",
    "<table role=\"presentation\" cellpadding=\"0\" cellspacing=\"0\" border=\"0\" width=\"100%\">\n",
    "<tr><td style=\"color:#1a1a1a;font-family:-apple-system,Segoe UI,Helvetica,Arial,sans-serif;",
    "font-size:17px;font-weight:600;line-height:24px;padding:0 0 12px 0;\">"]

def rowText : Text := chars
  ["<tr><td style=\"color:#3d3d3d;font-family:-apple-system,Segoe UI,Helvetica,Arial,sans-serif;",
    "font-size:15px;line-height:23px;padding:0 0 14px 0;\">"]

def footText : Text := chars
  ["<tr><td style=\"border-top:1px solid #eceae6;color:#8a8a8a;font-family:-apple-system,Segoe UI,",
    "Helvetica,Arial,sans-serif;font-size:12px;line-height:18px;padding:16px 0 24px 0;\">"]

def endText : Text := chars
  ["</td></tr>\n",
    "</table></td></tr></table></body></html>"]

def buttonText : Text := chars
  ["<tr><td style=\"padding:8px 0 24px 0;\">\n",
    "         <a href=\""]

def buttonStyle : Text := chars
  ["\" style=\"background:#1a1a1a;border-radius:6px;color:#ffffff;display:inline-block;",
    "font-family:-apple-system,Segoe UI,Helvetica,Arial,sans-serif;font-size:15px;font-weight:600;",
    "line-height:1;padding:13px 20px;text-decoration:none;\">"]

def linkText : Text := chars
  ["</a>\n",
    "       </td></tr>\n",
    "       <tr><td style=\"color:#6b6b6b;font-family:-apple-system,Segoe UI,Helvetica,Arial,sans-serif;",
    "font-size:13px;line-height:20px;padding:0 0 8px 0;\">\n",
    "         Or paste this link into your browser:<br><span style=\"color:#6b6b6b;word-break:break-all;\">"]

def linkEnd : Text := chars
  ["</span>\n",
    "       </td></tr>"]

def rowEnd : Text := "</td></tr>".toList

def newline : Text := "\n".toList

def row (p : Text) : Text := rowText ++ p ++ rowEnd

def button : Option Action → Text
  | some action => buttonText ++ escapeHtml action.url ++ buttonStyle ++ action.label ++
      linkText ++ escapeHtml action.url ++ linkEnd
  | none => []

def layout (parts : Parts) : Text :=
  headText ++ parts.title ++ bodyText ++ parts.title ++ rowEnd ++ newline ++
    join newline (parts.paragraphs.map row) ++ newline ++
    button parts.action ++ newline ++
    footText ++ parts.footer ++ endText

end Layout

structure RenderedEmail where
  subject : Text
  html : Text
  text : Text
deriving DecidableEq

/-- The text is there, and not empty. -/
def truthy (t : Option Text) : Option Text := t.filter (· ≠ [])

def sourceOf (name : TemplateName) (override : Option Override) : TemplateSource :=
  let base := DEFAULT_TEMPLATES name
  { subject := (override.bind Override.subject).getD base.subject
    body := (override.bind Override.body).getD base.body
    action := base.action.map fun action => (override.bind Override.action).getD action }

def projectName (vars : TemplateVariables) : Text := (own vars "ProjectName".toList).join.getD "this app".toList

def withDefaults (vars : TemplateVariables) : TemplateVariables :=
  assign vars "ProjectName".toList (some (projectName vars))

/-- The label and the target of the button, if there is one. -/
def actionOf (source : TemplateSource) (vars : TemplateVariables) : Option Action := do
  let label ← truthy source.action
  let url ← truthy (own vars "ConfirmationURL".toList).join
  return ⟨url, label⟩

def footerOf (vars : TemplateVariables) : Text :=
  "Sent by Steadhold on behalf of ".toList ++ escapeHtml (projectName vars) ++
    ". You are receiving this because your email address was used on their app.".toList

def render (name : TemplateName) (vars : TemplateVariables) (override : Option Override) : Except RenderError RenderedEmail := do
  let source := sourceOf name override
  let subject ← interpolate source.subject (withDefaults vars) verbatim
  let paragraphs ← source.body.mapM fun p => interpolate p (withDefaults vars) escaped
  let action := actionOf source vars
  let html := layout
    { title := escapeHtml subject
      paragraphs := paragraphs
      action := action.map fun a => { a with label := escapeHtml a.label }
      footer := footerOf vars }
  let textParagraphs ← source.body.mapM fun p => interpolate p (withDefaults vars) verbatim
  let text := join newline <|
    [subject, []] ++ textParagraphs.flatMap (fun p => [p, []]) ++
      (match action with
        | some a => [a.label ++ ": ".toList ++ a.url, []]
        | none => []) ++
      ["Sent by Steadhold on behalf of ".toList ++ projectName vars ++ ".".toList]
  return { subject := subject, html := html, text := text }

end Corebase.EmailTemplates
