import Corebase.UrlPath

namespace Corebase.AuthRedirects

open JsText UrlReference

structure RedirectPolicy where
  siteUrl : Option Text
  additionalRedirects : List Text

structure Redirect where
  url : Option Text
  substituted : Bool

variable {Host : Type} [DecidableEq Host] (hostParser : Text → Option Host)

def allowed (candidate : Url Host) (entry : Text) : Bool :=
  match parseUrl hostParser entry with
  | none => false
  | some base =>
      if candidate.origin ≠ base.origin then false
      else
        let basePath := trimSlashes base.path.name
        if basePath = [] then true
        else
          let path := trimSlashes candidate.path.name
          path = basePath || (basePath ++ ['/']).isPrefixOf path

def resolveRedirect (policy : RedirectPolicy) (requested : Option Text) : Redirect :=
  let site := policy.siteUrl
  match requested with
  | none | some [] => ⟨site, false⟩
  | some requested =>
      match parseUrl hostParser requested with
      | none => ⟨site, true⟩
      | some candidate =>
          if !isWeb candidate.scheme then ⟨site, true⟩
          else
            match site with
            | none | some [] => ⟨none, true⟩
            | some url =>
                if (url :: policy.additionalRedirects).any (allowed hostParser candidate) then ⟨some requested, false⟩
                else ⟨site, true⟩

/-- The URL is of the entry's site, and its path, free of dot segments, is the entry's path or lies below it;
how many slashes a path ends in makes no difference. -/
def Within (url entry : Text) : Prop :=
  ∃ target base : Url Host, ∃ site segments list,
    parseUrl hostParser url = some target ∧ isWeb target.scheme = true ∧ parseUrl hostParser entry = some base ∧
      target.origin = some site ∧ base.origin = some site ∧
        target.path = .segments segments ∧ base.path = .segments list ∧
          (∀ s ∈ segments, Plain s) ∧ trimmed list <+: trimmed segments

/-- The site URL, or one within an entry of the list that the site URL is the first of. -/
def Confined (policy : RedirectPolicy) (url : Text) : Prop :=
  policy.siteUrl = some url ∨ ∃ entry ∈ policy.siteUrl.toList ++ policy.additionalRedirects, Within hostParser url entry

def Permitted (policy : RedirectPolicy) : Option Text → Prop
  | none => True
  | some url => Confined hostParser policy url

variable {hostParser}

theorem prefix_iff {a b : Text} : (b = a ∨ a ++ ['/'] <+: b) ↔ a ++ ['/'] <+: b ++ ['/'] := by
  constructor
  · rintro (rfl | h)
    · exact List.prefix_refl _
    · exact h.trans (List.prefix_append b ['/'])
  · intro h
    rcases List.prefix_concat_iff.mp h with h | h
    · exact Or.inl (List.append_cancel_right h).symm
    · exact Or.inr h

/-- What an entry admits: the URLs of its site whose path is no shorter at a slash. -/
theorem allowed_iff {candidate : Url Host} {entry : Text} :
    allowed hostParser candidate entry = true ↔ ∃ base, parseUrl hostParser entry = some base ∧
      candidate.origin = base.origin ∧
        (trimSlashes base.path.name = [] ∨
          trimSlashes base.path.name ++ ['/'] <+: trimSlashes candidate.path.name ++ ['/']) := by
  unfold allowed
  cases hbase : parseUrl hostParser entry with
  | none => simp
  | some base =>
      by_cases horigin : candidate.origin = base.origin
      · by_cases hempty : trimSlashes base.path.name = []
        · simp [horigin, hempty]
        · simp [horigin, hempty, ← prefix_iff, List.isPrefixOf_iff_prefix]
      · simp [horigin]

theorem within_of_allowed {url entry : Text} {target : Url Host} (hurl : parseUrl hostParser url = some target)
    (hweb : isWeb target.scheme = true) (h : allowed hostParser target entry = true) : Within hostParser url entry := by
  obtain ⟨site, segments, hsite, hpath, hplain⟩ := parseUrl_web hurl hweb
  obtain ⟨base, hbase, horigin, hprefix⟩ := allowed_iff.mp h
  have hbaseSite : base.origin = some site := horigin ▸ hsite
  have hslash : ∀ s ∈ trimmed segments, '/' ∉ s := fun s hs => (hplain s (mem_trimmed hs)).2.2
  have hname : trimSlashes target.path.name = pathText (trimmed segments) := by
    rw [hpath]
    exact trimSlashes_pathText fun s hs => (hplain s hs).2.2
  rcases parseUrl_origin hbase hbaseSite with ⟨list, hlist, hlistPlain⟩ | ⟨c, text, hflat, hc⟩
  · refine ⟨target, base, site, segments, list, hurl, hweb, hbase, hsite, hbaseSite, hpath, hlist, hplain, ?_⟩
    have hlistSlash : ∀ s ∈ trimmed list, '/' ∉ s := fun s hs => (hlistPlain s (mem_trimmed hs)).2.2
    have hbaseName : trimSlashes base.path.name = pathText (trimmed list) := by
      rw [hlist]
      exact trimSlashes_pathText fun s hs => (hlistPlain s hs).2.2
    rw [hname, hbaseName] at hprefix
    rcases hprefix with hempty | hprefix
    · have hnil : trimmed list = [] := by
        cases hsegments : trimmed list with
        | nil => rfl
        | cons s rest =>
            rw [hsegments] at hempty
            cases hempty
      rw [hnil]
      exact List.nil_prefix
    · exact (pathText_within hlistSlash hslash).mp hprefix
  · -- the path of a blob neither is empty nor begins as that of the candidate does
    exfalso
    have hbaseName : trimSlashes base.path.name = c :: trimSlashes text := by
      rw [hflat]
      exact trimSlashes_cons hc text
    rw [hname, hbaseName] at hprefix
    rcases hprefix with hempty | hprefix
    · cases hempty
    · obtain ⟨rest, hrest⟩ := pathText_slash (trimmed segments)
      rw [hrest, List.cons_append, List.cons_prefix_cons] at hprefix
      exact hc hprefix.1

variable (hostParser)

/-- A redirect goes to the site URL, within an entry of the list, or nowhere. -/
theorem redirect_confined (policy : RedirectPolicy) (requested : Option Text) :
    Permitted hostParser policy (resolveRedirect hostParser policy requested).url := by
  have hsite : Permitted hostParser policy policy.siteUrl := by
    cases h : policy.siteUrl with
    | none => trivial
    | some url => exact Or.inl h
  unfold resolveRedirect
  dsimp only
  split
  next => exact hsite
  next => exact hsite
  next requested _ =>
    split
    next => exact hsite
    next candidate hcandidate =>
      split
      next => exact hsite
      next hweb =>
        split
        next => trivial
        next => trivial
        next url _ hurl =>
          split
          next hany =>
            obtain ⟨entry, hentry, hallowed⟩ := List.any_eq_true.mp hany
            have hlist : policy.siteUrl.toList ++ policy.additionalRedirects = url :: policy.additionalRedirects := by
              rw [hurl]
              rfl
            refine Or.inr ⟨entry, hlist ▸ hentry, within_of_allowed hcandidate (by simpa using hweb) hallowed⟩
          next => exact hsite

end Corebase.AuthRedirects
