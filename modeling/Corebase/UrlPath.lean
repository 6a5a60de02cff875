import Corebase.UrlReference
import Mathlib.Data.List.Induction

namespace Corebase.UrlReference

open JsText

/-! Percent-encoding -/

def hexDigit (n : Nat) : Char := Char.ofNat (if n < 10 then n + 48 else n + 55)

def percentByte (byte : Nat) : Text := ['%', hexDigit (byte / 16), hexDigit (byte % 16)]

def percentEncode (inSet : Char → Bool) (c : Char) : Text :=
  if inSet c then ((String.utf8EncodeChar c).map UInt8.toNat).flatMap percentByte else [c]

/-- The characters that are encoded in a path. -/
def inPathSet (c : Char) : Bool :=
  c.toNat < 32 || 126 < c.toNat || c ∈ [' ', '"', '#', '<', '>', '?', '^', '\x60', '\x7b', '\x7d']

/-! The path of a web URL -/

def isSingleDot (segment : Text) : Bool :=
  segment.map Char.toLower ∈ [".".toList, "%2e".toList]

def isDoubleDot (segment : Text) : Bool :=
  segment.map Char.toLower ∈ ["..".toList, ".%2e".toList, "%2e.".toList, "%2e%2e".toList]

/-- A segment has been read; `last` is set when no slash follows it. -/
def addSegment (path : List Text) (segment : Text) (last : Bool) : List Text :=
  if isDoubleDot segment then if last then path.dropLast ++ [[]] else path.dropLast
  else if isSingleDot segment then if last then path ++ [[]] else path
  else path ++ [segment]

def readPath (path : List Text) (segment : Text) : Text → List Text
  | [] => addSegment path segment true
  | c :: cs =>
      if isSlash c then readPath (addSegment path segment false) [] cs
      else if c = '?' ∨ c = '#' then addSegment path segment true
      else readPath path (segment ++ percentEncode inPathSet c) cs

/-- The path after the authority; the slash that begins it is not of a segment. -/
def startPath : Text → List Text
  | [] => readPath [] [] []
  | c :: cs => if isSlash c then readPath [] [] cs else readPath [] [] (c :: cs)

inductive Path
  | segments (list : List Text)
  /-- That of a URL whose path is not a hierarchy. -/
  | flat (text : Text)
deriving DecidableEq

def pathText (segments : List Text) : Text := segments.flatMap ('/' :: ·)

def Path.name : Path → Text
  | .segments list => pathText list
  | .flat text => text

structure Url (Host : Type) where
  scheme : Text
  /-- Nothing when it is not that of a web site. -/
  origin : Option (Site Host)
  path : Path

variable {Host : Type} (hostParser : Text → Option Host)

def readWeb (s rest : Text) : Option (Url Host) :=
  (authorityIgnoreSlashes hostParser s rest).map fun site =>
    ⟨s, some site, .segments (startPath ((rest.dropWhile isSlash).dropWhile fun c => !endsAuthority c))⟩

/-- The URL that is given in full. Of one with another scheme only a blob has the origin of a web site:
that of the URL which is its path. -/
def parseUrl (input : Text) : Option (Url Host) :=
  match scheme (preprocess input) with
  | none => none
  | some (s, rest) =>
      if isWeb s then readWeb hostParser s rest
      else
        let path := rest.takeWhile fun c => c ≠ '?' && c ≠ '#'
        some ⟨s, if s = "blob".toList ∧ path.head? ≠ some '/' then parse hostParser path else none, .flat path⟩

/-! Segments -/

/-- A segment of a path that has been read. -/
def Plain (segment : Text) : Prop :=
  isSingleDot segment = false ∧ isDoubleDot segment = false ∧ '/' ∉ segment

theorem hexDigit_ne {n : Nat} (h : n < 16) : hexDigit n ≠ '/' := by
  revert n
  decide

theorem slash_percentEncode {inSet : Char → Bool} {c : Char} (h : c ≠ '/') : '/' ∉ percentEncode inSet c := by
  unfold percentEncode
  split
  next =>
    intro hmem
    obtain ⟨byte, hbyte, hmem⟩ := List.mem_flatMap.mp hmem
    obtain ⟨b, -, rfl⟩ := List.mem_map.mp hbyte
    have hb : b.toNat < 256 := b.toNat_lt
    simp only [percentByte, List.mem_cons, List.not_mem_nil, or_false] at hmem
    rcases hmem with hmem | hmem | hmem
    · exact absurd hmem (by decide)
    · exact hexDigit_ne (by omega) hmem.symm
    · exact hexDigit_ne (Nat.mod_lt _ (by decide)) hmem.symm
  next => exact fun hmem => h (List.mem_singleton.mp hmem).symm

theorem plain_nil : Plain [] := ⟨by decide, by decide, List.not_mem_nil⟩

theorem plain_addSegment {path : List Text} (hpath : ∀ s ∈ path, Plain s) {segment : Text} (h : '/' ∉ segment)
    (last : Bool) : ∀ s ∈ addSegment path segment last, Plain s := by
  have hdrop : ∀ s ∈ path.dropLast, Plain s := fun s hs => hpath s ((List.dropLast_sublist path).subset hs)
  have hend : ∀ {list : List Text}, (∀ s ∈ list, Plain s) → ∀ s ∈ list ++ [[]], Plain s := by
    intro list hlist s hs
    rcases List.mem_append.mp hs with hs | hs
    · exact hlist s hs
    · rw [List.mem_singleton.mp hs]
      exact plain_nil
  unfold addSegment
  split
  next =>
    split
    next => exact hend hdrop
    next => exact hdrop
  next hdouble =>
    split
    next =>
      split
      next => exact hend hpath
      next => exact hpath
    next hsingle =>
      intro s hs
      rcases List.mem_append.mp hs with hs | hs
      · exact hpath s hs
      · rw [List.mem_singleton.mp hs]
        exact ⟨Bool.eq_false_iff.mpr hsingle, Bool.eq_false_iff.mpr hdouble, h⟩

theorem plain_readPath {path : List Text} (hpath : ∀ s ∈ path, Plain s) {segment : Text} (h : '/' ∉ segment)
    (cs : Text) : ∀ s ∈ readPath path segment cs, Plain s := by
  induction cs generalizing path segment with
  | nil => exact plain_addSegment hpath h true
  | cons c cs ih =>
      unfold readPath
      split
      next => exact ih (plain_addSegment hpath h false) List.not_mem_nil
      next hslash =>
        split
        next => exact plain_addSegment hpath h true
        next =>
          apply ih hpath
          have hc : c ≠ '/' := by
            rintro rfl
            exact hslash rfl
          rw [List.mem_append]
          exact fun hmem => hmem.elim h (slash_percentEncode hc)

/-- No segment of the path of a web URL is a dot segment. -/
theorem plain_startPath (cs : Text) : ∀ s ∈ startPath cs, Plain s := by
  have hread : ∀ ds, ∀ s ∈ readPath [] [] ds, Plain s := plain_readPath (List.forall_mem_nil _) List.not_mem_nil
  cases cs with
  | nil => exact hread []
  | cons c cs =>
      by_cases hc : isSlash c = true
      · rw [startPath, if_pos hc]
        exact hread cs
      · rw [startPath, if_neg hc]
        exact hread (c :: cs)

/-! Prefixes -/

/-- The segments without the empty ones at the end: two paths that differ in trailing slashes are one. -/
def trimmed (segments : List Text) : List Text := (segments.reverse.dropWhile (· = [])).reverse

def trimSlashes (path : Text) : Text := (path.reverse.dropWhile (· = '/')).reverse

theorem trimSlashes_append (path : Text) {s : Text} (hs : s ≠ []) (h : '/' ∉ s) :
    trimSlashes (path ++ s) = path ++ s := by
  obtain ⟨front, c, rfl⟩ := List.eq_nil_or_concat s |>.resolve_left hs
  have hc : c ≠ '/' := by
    rintro rfl
    exact h (by simp)
  simp [trimSlashes, hc]

theorem trimSlashes_cons {c : Char} (hc : c ≠ '/') (cs : Text) : trimSlashes (c :: cs) = c :: trimSlashes cs := by
  have hdrop : ([c] : Text).dropWhile (fun c => decide (c = '/')) = [c] := by simp [hc]
  simp only [trimSlashes, List.reverse_cons, List.dropWhile_append, hdrop]
  split
  next h => simp [List.isEmpty_iff.mp h]
  next => simp

theorem pathText_append (a b : List Text) : pathText (a ++ b) = pathText a ++ pathText b := List.flatMap_append

theorem trimSlashes_pathText {segments : List Text} (h : ∀ s ∈ segments, '/' ∉ s) :
    trimSlashes (pathText segments) = pathText (trimmed segments) := by
  induction segments using List.reverseRecOn with
  | nil => rfl
  | append_singleton front s ih =>
      have hfront := ih fun s hs => h s (List.mem_append_left _ hs)
      by_cases hs : s = []
      · subst hs
        have htext : pathText (front ++ [[]]) = pathText front ++ ['/'] := pathText_append front [[]]
        have htrim : trimSlashes (pathText front ++ ['/']) = trimSlashes (pathText front) := by simp [trimSlashes]
        have hsegments : trimmed (front ++ [[]]) = trimmed front := by simp [trimmed]
        rw [htext, htrim, hfront, hsegments]
      · have htext : pathText (front ++ [s]) = (pathText front ++ ['/']) ++ s := by simp [pathText]
        have hsegments : trimmed (front ++ [s]) = front ++ [s] := by simp [trimmed, hs]
        rw [htext, trimSlashes_append _ hs (h s (by simp)), hsegments, htext]

theorem mem_trimmed {segments : List Text} {s : Text} (h : s ∈ trimmed segments) : s ∈ segments := by
  have hsub := (List.dropWhile_sublist (fun s : Text => decide (s = [])) (l := segments.reverse)).subset
  exact List.mem_reverse.mp (hsub (List.mem_reverse.mp h))

theorem slash_within {a b : Text} (ha : '/' ∉ a) (hb : '/' ∉ b) (s t : Text) :
    a ++ '/' :: s <+: b ++ '/' :: t ↔ a = b ∧ s <+: t := by
  induction a generalizing b with
  | nil =>
      cases b with
      | nil => simp
      | cons d b =>
          have hd : '/' ≠ d := fun h => hb (h ▸ List.mem_cons_self)
          simp [List.cons_prefix_cons, hd]
  | cons c a ih =>
      have hc : c ≠ '/' := fun h => ha (h ▸ List.mem_cons_self)
      cases b with
      | nil => simp [List.cons_prefix_cons, hc]
      | cons d b =>
          have hrest := ih (fun h => ha (List.mem_cons_of_mem c h)) fun h => hb (List.mem_cons_of_mem d h)
          rw [List.cons_append, List.cons_append, List.cons_prefix_cons, hrest, List.cons_eq_cons, and_assoc]

theorem pathText_slash (segments : List Text) : ∃ rest, pathText segments ++ ['/'] = '/' :: rest := by
  cases segments with
  | nil => exact ⟨[], rfl⟩
  | cons s segments => exact ⟨s ++ (pathText segments ++ ['/']), by simp [pathText]⟩

/-- One path lies within another one, up to the slash at its end, where its segments do. -/
theorem pathText_within {a b : List Text} (ha : ∀ s ∈ a, '/' ∉ s) (hb : ∀ s ∈ b, '/' ∉ s) :
    pathText a ++ ['/'] <+: pathText b ++ ['/'] ↔ a <+: b := by
  induction a generalizing b with
  | nil =>
      obtain ⟨rest, hrest⟩ := pathText_slash b
      rw [hrest]
      simp [pathText]
  | cons s a ih =>
      obtain ⟨hs, ha⟩ := List.forall_mem_cons.mp ha
      obtain ⟨rest, hrest⟩ := pathText_slash a
      have htext : ∀ (x : Text) (xs : List Text), pathText (x :: xs) ++ ['/'] = '/' :: (x ++ (pathText xs ++ ['/'])) := by
        intro x xs
        simp [pathText]
      cases b with
      | nil =>
          rw [htext, hrest]
          simp [pathText, List.cons_prefix_cons]
      | cons t b =>
          obtain ⟨ht, hb⟩ := List.forall_mem_cons.mp hb
          obtain ⟨rest', hrest'⟩ := pathText_slash b
          rw [htext, htext, List.cons_prefix_cons, List.cons_prefix_cons, ← ih ha hb, hrest, hrest', slash_within hs ht]
          simp [List.cons_prefix_cons]

/-! The URLs that have the origin of a web site -/

variable {hostParser}

theorem parseUrl_web {input : Text} {url : Url Host} (h : parseUrl hostParser input = some url)
    (hweb : isWeb url.scheme = true) : ∃ site segments, url.origin = some site ∧ url.path = .segments segments ∧
      ∀ s ∈ segments, Plain s := by
  unfold parseUrl at h
  split at h
  next => cases h
  next s rest _ =>
    split at h
    next =>
      obtain ⟨site, -, rfl⟩ := Option.map_eq_some_iff.mp h
      exact ⟨site, _, rfl, rfl, plain_startPath _⟩
    next hother =>
      obtain rfl := Option.some.inj h
      exact absurd hweb hother

/-- An origin of a web site is a web URL's or that of a blob, whose path does not begin with a slash. -/
theorem parseUrl_origin {input : Text} {url : Url Host} (h : parseUrl hostParser input = some url) {site : Site Host}
    (hsite : url.origin = some site) :
    (∃ segments, url.path = .segments segments ∧ ∀ s ∈ segments, Plain s) ∨
      ∃ c text, url.path = .flat (c :: text) ∧ c ≠ '/' := by
  unfold parseUrl at h
  split at h
  next => cases h
  next s rest _ =>
    split at h
    next =>
      obtain ⟨site, -, rfl⟩ := Option.map_eq_some_iff.mp h
      exact Or.inl ⟨_, rfl, plain_startPath _⟩
    next =>
      simp only [Option.some.injEq] at h
      subst h
      simp only at hsite ⊢
      split at hsite
      next hblob =>
        cases hpath : rest.takeWhile fun c => c ≠ '?' && c ≠ '#' with
        | nil =>
            rw [hpath] at hsite
            cases hsite
        | cons c text =>
            rw [hpath] at hblob
            exact Or.inr ⟨c, text, rfl, fun hc => hblob.2 (congrArg some hc)⟩
      next => cases hsite

end Corebase.UrlReference
