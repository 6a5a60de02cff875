import Corebase.JsText

namespace Corebase.UrlReference

open JsText

/-- Where a request to a URL goes. -/
structure Site (Host : Type) where
  scheme : Text
  host : Host
  /-- Nothing when the URL leaves it to the scheme. -/
  port : Option Nat
deriving DecidableEq

def defaultPort (scheme : Text) : Nat := if scheme = "https".toList then 443 else 80

variable {Host : Type}

def Site.effectivePort (s : Site Host) : Nat := s.port.getD (defaultPort s.scheme)

/-- The same host and the same port, whatever the scheme. -/
def Site.Meets (s t : Site Host) : Prop := s.host = t.host ∧ s.effectivePort = t.effectivePort

def isWeb (scheme : Text) : Bool := scheme = "http".toList || scheme = "https".toList

def isSlash (c : Char) : Bool := c = '/' || c = '\\'

def isEdge (c : Char) : Bool := c.toNat ≤ 32

def isDropped (c : Char) : Bool := c = '\t' || c = '\n' || c = '\r'

/-- The input without the blanks at its edges and without tabs and newlines. -/
def preprocess (input : Text) : Text :=
  ((input.dropWhile isEdge).reverse.dropWhile isEdge).reverse.filter fun c => !isDropped c

def isSchemeChar (c : Char) : Bool := isLetter c || isDigit c || c = '+' || c = '-' || c = '.'

/-- The scheme that begins the input, in lower case, with what follows its colon. -/
def scheme : Text → Option (Text × Text)
  | [] => none
  | c :: cs =>
      if isLetter c then
        match cs.dropWhile isSchemeChar with
        | ':' :: rest => some ((c :: cs.takeWhile isSchemeChar).map Char.toLower, rest)
        | _ => none
      else none

/-- The characters at which the authority of a web URL ends. -/
def endsAuthority (c : Char) : Bool := isSlash c || c = '?' || c = '#'

def afterUserinfo (cs : Text) : Text := (cs.reverse.takeWhile (· ≠ '@')).reverse

/-- The host and, after the first colon outside brackets, the port. -/
def splitPort (inside : Bool) : Text → Text × Option Text
  | [] => ([], none)
  | c :: cs =>
      if c = ':' ∧ !inside then ([], some cs)
      else
        let (host, port) := splitPort (c = '[' || (inside && c ≠ ']')) cs
        (c :: host, port)

/-- A port that is the scheme's own is dropped; one out of range or with other characters fails. -/
def readPort (scheme : Text) : Option Text → Option (Option Nat)
  | none | some [] => some none
  | some digits =>
      let n := Nat.ofDigitChars 10 digits 0
      if digits.all isDigit ∧ n < 65536 then some (if n = defaultPort scheme then none else some n) else none

variable (hostParser : Text → Option Host)

/-- The authority at the head of the input; path, query and fragment come after it. -/
def authority (scheme cs : Text) : Option (Site Host) :=
  let (host, port) := splitPort false (afterUserinfo (cs.takeWhile fun c => !endsAuthority c))
  if host = [] then none
  else (hostParser host).bind fun host => (readPort scheme port).map fun port => ⟨scheme, host, port⟩

def authorityIgnoreSlashes (scheme cs : Text) : Option (Site Host) :=
  authority hostParser scheme (cs.dropWhile isSlash)

def relativeSlash (base : Site Host) : Text → Option (Site Host)
  | c :: cs => if isSlash c then authorityIgnoreSlashes hostParser base.scheme cs else some base
  | [] => some base

def relative (base : Site Host) : Text → Option (Site Host)
  | c :: cs => if isSlash c then relativeSlash hostParser base cs else some base
  | [] => some base

def relativeOrAuthority (base : Site Host) : Text → Option (Site Host)
  | '/' :: '/' :: cs => authorityIgnoreSlashes hostParser base.scheme cs
  | cs => relative hostParser base cs

/-- The site of the web URL that the input stands for against a base, if it is one: a URL
with another scheme is left out, and a refused authority fails. -/
def resolve (base : Site Host) (input : Text) : Option (Site Host) :=
  let cs := preprocess input
  match scheme cs with
  | none => relative hostParser base cs
  | some (s, rest) =>
      if s = base.scheme then relativeOrAuthority hostParser base rest
      else if isWeb s then authorityIgnoreSlashes hostParser s rest
      else none

/-- The site of a URL that is given in full. -/
def parse (input : Text) : Option (Site Host) :=
  match scheme (preprocess input) with
  | none => none
  | some (s, rest) => if isWeb s then authorityIgnoreSlashes hostParser s rest else none

def isNetworkPath : Text → Bool
  | a :: b :: _ => isSlash a && isSlash b
  | _ => false

/-- The authority that a reference spells out itself, with its scheme: after two slashes of
either kind, or after a web scheme that is not the base's. -/
def ownAuthority (base : Text) (input : Text) : Option (Text × Text) :=
  let cs := preprocess input
  match scheme cs with
  | none => if isNetworkPath cs then some (base, cs.dropWhile isSlash) else none
  | some (s, rest) =>
      if s = base then if isNetworkPath rest then some (base, rest.dropWhile isSlash) else none
      else if isWeb s then some (s, rest.dropWhile isSlash)
      else none

theorem Site.Meets.refl (s : Site Host) : s.Meets s := ⟨rfl, rfl⟩

theorem relative_eq (base : Site Host) (cs : Text) : relative hostParser base cs =
    if isNetworkPath cs then authority hostParser base.scheme (cs.dropWhile isSlash) else some base := by
  cases cs with
  | nil => rfl
  | cons a cs =>
      by_cases ha : isSlash a = true
      · cases cs with
        | nil => simp [relative, relativeSlash, ha, isNetworkPath]
        | cons b cs =>
            by_cases hb : isSlash b = true
            · simp [relative, relativeSlash, authorityIgnoreSlashes, isNetworkPath, ha, hb]
            · simp [relative, relativeSlash, isNetworkPath, ha, hb]
      · have hn : isNetworkPath (a :: cs) = false := by cases cs <;> simp [isNetworkPath, ha]
        simp [relative, ha, hn]

theorem relativeOrAuthority_eq (base : Site Host) (cs : Text) :
    relativeOrAuthority hostParser base cs = relative hostParser base cs := by
  unfold relativeOrAuthority
  split
  · rfl
  · rfl

/-- A reference keeps the site of its base unless it spells out an authority of its own. -/
theorem resolve_inherits {base : Site Host} {input : Text} (h : ownAuthority base.scheme input = none) :
    resolve hostParser base input = some base ∨ resolve hostParser base input = none := by
  simp only [ownAuthority, resolve] at h ⊢
  split at h
  next hs =>
    split at h
    · cases h
    next hn => exact .inl (by rw [relative_eq, if_neg hn])
  next s rest hs =>
    split at h
    next hb =>
      split at h
      · cases h
      next hn => exact .inl (by rw [if_pos hb, relativeOrAuthority_eq, relative_eq, if_neg hn])
    next hb =>
      split at h
      · cases h
      next hw => exact .inr (by rw [if_neg hb, if_neg hw])

theorem resolve_own {base : Site Host} {input s cs : Text}
    (h : ownAuthority base.scheme input = some (s, cs)) :
    resolve hostParser base input = authority hostParser s cs := by
  simp only [ownAuthority, resolve] at h ⊢
  split at h
  next hs =>
    split at h
    next hn =>
      cases h
      rw [relative_eq, if_pos hn]
    · cases h
  next s rest hs =>
    split at h
    next hb =>
      split at h
      next hn =>
        cases h
        rw [if_pos hb, relativeOrAuthority_eq, relative_eq, if_pos hn]
      · cases h
    next hb =>
      split at h
      next hw =>
        cases h
        rw [if_neg hb, if_pos hw]
        rfl
      · cases h

/-- Every site the reference can reach is the base's, unless it spells out another one. -/
theorem resolve_meets_iff (base : Site Host) (input : Text) :
    (∀ site, resolve hostParser base input = some site → site.Meets base) ↔
      ∀ s cs, ownAuthority base.scheme input = some (s, cs) →
        ∀ site, authority hostParser s cs = some site → site.Meets base := by
  cases h : ownAuthority base.scheme input with
  | none =>
      refine ⟨fun _ s cs hs => (by cases hs), fun _ site hsite => ?_⟩
      rcases resolve_inherits hostParser h with hr | hr
      · rw [hr] at hsite
        cases hsite
        exact .refl base
      · rw [hr] at hsite
        cases hsite
  | some own =>
      obtain ⟨s, cs⟩ := own
      rw [resolve_own hostParser h]
      constructor
      · intro hall s' cs' hs
        cases hs
        exact hall
      · exact fun hall => hall s cs rfl

end Corebase.UrlReference
