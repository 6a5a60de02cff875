import Corebase.UrlReference

namespace Corebase.Gateway

open JsText UrlReference

structure RouteEntry where
  nodeAddress : Option Text
  postgrestPort : Option Nat
deriving DecidableEq

/-- Where the project's PostgREST is; an empty address or port 0 counts as none. -/
def upstream (entry : RouteEntry) : Option Text :=
  match entry.nodeAddress, entry.postgrestPort with
  | some address, some port =>
      if address ≠ [] ∧ port ≠ 0 then some ("http://".toList ++ address ++ ':' :: Nat.toDigits 10 port) else none
  | _, _ => none

/-- What is resolved against the upstream: the request URL without the prefix. -/
def reference (url : Text) : Text :=
  let rest := if "/rest/v1".toList.isPrefixOf url then url.drop 8 else url
  if rest = [] then ['/'] else rest

variable {Host : Type} (hostParser : Text → Option Host)

def upstreamSite (entry : RouteEntry) : Option (Site Host) := (upstream entry).bind (parse hostParser)

/-- Where the handler sends the request, with the caller's authorization, if it sends one. -/
def fetched (entry : RouteEntry) (url : Text) : Option (Site Host) :=
  (upstreamSite hostParser entry).bind fun base => resolve hostParser base (reference url)

/-- Whatever is sent goes to the project's own upstream. -/
def Confined (entry : RouteEntry) (url : Text) : Prop :=
  ∀ site, fetched hostParser entry url = some site →
    ∃ base, upstreamSite hostParser entry = some base ∧ site.Meets base

/-- The characters of an address that stands in a URL for itself. -/
def isPlain (c : Char) : Bool := !endsAuthority c && c ≠ '@' && c ≠ ':' && c ≠ '[' && 32 < c.toNat

theorem isPlain_iff {c : Char} : isPlain c = true ↔
    endsAuthority c = false ∧ c ≠ '@' ∧ c ≠ ':' ∧ c ≠ '[' ∧ 32 < c.toNat := by
  simp [isPlain, and_assoc]

theorem digit_visible {c : Char} (h : isDigit c = true) :
    endsAuthority c = false ∧ c ≠ '@' ∧ 32 < c.toNat := by
  have h : 48 ≤ c.toNat ∧ c.toNat ≤ 57 := by
    simpa [isDigit, Char.le_def, UInt32.le_iff_toNat_le] using h
  refine ⟨?_, ?_, by omega⟩
  · rw [Bool.eq_false_iff]
    intro he
    simp only [endsAuthority, isSlash, Bool.or_eq_true, decide_eq_true_eq] at he
    rcases he with ((rfl | rfl) | rfl) | rfl <;> revert h <;> decide
  · rintro rfl
    revert h
    decide

theorem splitPort_plain {host : Text} (port : Text) (h : ∀ c ∈ host, isPlain c = true) :
    splitPort false (host ++ ':' :: port) = (host, some port) := by
  induction host with
  | nil => simp [splitPort]
  | cons c host ih =>
      obtain ⟨-, -, hc, hb, -⟩ := isPlain_iff.mp (h c (by simp))
      rw [List.cons_append, splitPort, if_neg fun hn => hc hn.1]
      simp [hb, ih fun d hd => h d (by simp [hd])]

theorem dropWhile_none {p : Char → Bool} {cs : Text} (h : ∀ c ∈ cs, p c = false) : cs.dropWhile p = cs := by
  cases cs with
  | nil => rfl
  | cons c cs => simp [h c (by simp)]

theorem preprocess_visible {cs : Text} (h : ∀ c ∈ cs, 32 < c.toNat) : preprocess cs = cs := by
  have hedge : ∀ c ∈ cs, isEdge c = false := by
    intro c hc
    have hc := h c hc
    simp only [isEdge, decide_eq_false_iff_not]
    omega
  have hdropped : ∀ c ∈ cs, (!isDropped c) = true := by
    intro c hc
    have hc := h c hc
    by_contra hd
    simp only [isDropped, Bool.not_eq_true', Bool.not_eq_false, Bool.or_eq_true, decide_eq_true_eq] at hd
    rcases hd with (rfl | rfl) | rfl <;> exact absurd hc (by decide)
  rw [preprocess, dropWhile_none hedge, dropWhile_none (by simpa using hedge), List.reverse_reverse,
    List.filter_eq_self.mpr hdropped]

theorem readPort_digits {n : Nat} (h : n < 65536) :
    readPort "http".toList (some (Nat.toDigits 10 n)) = some (if n = 80 then none else some n) := by
  obtain ⟨d, ds, hd⟩ := List.exists_cons_of_ne_nil (Nat.toDigits_ne_nil (n := n) (b := 10))
  have hall : (Nat.toDigits 10 n).all isDigit = true := List.all_eq_true.mpr fun c hc => digit_plain hc
  have hvalue := Nat.ofDigitChars_ten_toDigits (n := n)
  rw [hd] at hall hvalue ⊢
  simp only [readPort, hvalue, hall, h, and_self, if_true]
  rfl

/-- The upstream of an entry whose address is a bare host is that host at that port. -/
theorem upstreamSite_plain {address : Text} {port : Nat} (ha : address ≠ [])
    (hplain : ∀ c ∈ address, isPlain c = true) (hp : port ≠ 0) (hlt : port < 65536) :
    upstreamSite hostParser ⟨some address, some port⟩ =
      (hostParser address).map fun host => ⟨"http".toList, host, if port = 80 then none else some port⟩ := by
  have hcs : ∀ c ∈ address ++ ':' :: Nat.toDigits 10 port, endsAuthority c = false ∧ c ≠ '@' ∧ 32 < c.toNat := by
    intro c hc
    simp only [List.mem_append, List.mem_cons] at hc
    rcases hc with hc | rfl | hc
    · obtain ⟨he, hu, -, -, hv⟩ := isPlain_iff.mp (hplain c hc)
      exact ⟨he, hu, hv⟩
    · decide
    · exact digit_visible (digit_plain hc)
  have hvisible : ∀ c ∈ "http://".toList ++ (address ++ ':' :: Nat.toDigits 10 port), 32 < c.toNat := by
    intro c hc
    rcases List.mem_append.mp hc with hc | hc
    · exact of_decide_eq_true (List.all_eq_true.mp (rfl : "http://".toList.all (fun c => 32 < c.toNat) = true) c hc)
    · exact (hcs c hc).2.2
  have hup : upstream ⟨some address, some port⟩ =
      some ("http://".toList ++ (address ++ ':' :: Nat.toDigits 10 port)) := by
    simp [upstream, ha, hp]
  have hslash : (address ++ ':' :: Nat.toDigits 10 port).dropWhile isSlash =
      address ++ ':' :: Nat.toDigits 10 port := by
    obtain ⟨c, cs, rfl⟩ := List.exists_cons_of_ne_nil ha
    have hc := (hcs c (by simp)).1
    simp only [endsAuthority, Bool.or_eq_false_iff] at hc
    simp [hc.1.1]
  have hscheme : scheme ("http://".toList ++ (address ++ ':' :: Nat.toDigits 10 port)) =
      some ("http".toList, '/' :: '/' :: (address ++ ':' :: Nat.toDigits 10 port)) := rfl
  have htake : (address ++ ':' :: Nat.toDigits 10 port).takeWhile (fun c => !endsAuthority c) =
      address ++ ':' :: Nat.toDigits 10 port :=
    List.takeWhile_eq_self_iff.mpr fun c hc => by simp [(hcs c hc).1]
  have huser : afterUserinfo (address ++ ':' :: Nat.toDigits 10 port) = address ++ ':' :: Nat.toDigits 10 port := by
    rw [afterUserinfo, List.takeWhile_eq_self_iff.mpr, List.reverse_reverse]
    intro c hc
    simpa using (hcs c (List.mem_reverse.mp hc)).2.1
  rw [upstreamSite, hup, Option.bind_some, parse, preprocess_visible hvisible, hscheme]
  simp only [isWeb, decide_true, Bool.true_or, if_true, authorityIgnoreSlashes]
  rw [List.dropWhile_cons_of_pos (by decide), List.dropWhile_cons_of_pos (by decide), hslash, authority, htake,
    huser, splitPort_plain _ hplain]
  simp only [ha, if_false, readPort_digits hlt, Option.map_some]
  cases hostParser address <;> rfl

/-- A request stays with the upstream exactly when the rest of its URL names no authority
of its own, or one that fails to parse or is the upstream's. -/
theorem confined_iff (entry : RouteEntry) (url : Text) :
    Confined hostParser entry url ↔
      ∀ base, upstreamSite hostParser entry = some base →
        ∀ s cs, ownAuthority base.scheme (reference url) = some (s, cs) →
          ∀ site, authority hostParser s cs = some site → site.Meets base := by
  unfold Confined fetched
  cases h : upstreamSite hostParser entry with
  | none => simp
  | some base =>
      simp only [Option.bind_some, Option.some.injEq, exists_eq_left', forall_eq']
      exact resolve_meets_iff hostParser base (reference url)

/-- A second slash after the prefix sends the request, with its credentials, elsewhere. -/
theorem not_confined_slashes : ¬ Confined some ⟨some "10.0.0.1".toList, some 7433⟩
    "/rest/v1//evil.example/x".toList := by
  intro h
  obtain ⟨base, hbase, hhost, -⟩ := h ⟨"http".toList, "evil.example".toList, none⟩ (by decide)
  have hb : base = ⟨"http".toList, "10.0.0.1".toList, some 7433⟩ := Option.some.inj (hbase.symm.trans (by decide))
  subst hb
  exact absurd hhost (by decide)

end Corebase.Gateway
