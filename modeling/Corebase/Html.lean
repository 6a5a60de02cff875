import Corebase.JsText
import Mathlib.Data.List.Infix

namespace Corebase.Html

open JsText

inductive TagState
  | name | beforeName | attribute | afterName | beforeValue | doubleQuoted | singleQuoted | unquoted
deriving DecidableEq

/-- What a tokenizer of HTML is in the middle of. The text of an element such as title ends at that element's end tag only. -/
inductive State
  | data | opening | closing
  | tag (t : TagState)
  | declaration | bogus | comment
  | raw (element : Text) | rawOpening (element : Text) | rawClosing (element : Text)
deriving DecidableEq

/-- What is read is neither text nor markup that has ended. -/
def State.inside : State → Bool
  | .tag _ | .declaration | .bogus | .comment => true
  | _ => false

def isBlank (c : Char) : Bool := c ∈ ['\t', '\n', '\x0c', '\r', ' ']

/-- The state after a character of a tag, unless the character ends the tag. -/
def TagState.next : TagState → Char → Option TagState
  | .name, c => if isBlank c || c = '/' then some .beforeName else if c = '>' then none else some .name
  | .beforeName, c =>
      if isBlank c || c = '/' then some .beforeName else if c = '>' then none else some .attribute
  | .attribute, c =>
      if isBlank c then some .afterName else if c = '/' then some .beforeName else if c = '>' then none
      else if c = '=' then some .beforeValue else some .attribute
  | .afterName, c =>
      if isBlank c then some .afterName else if c = '/' then some .beforeName else if c = '>' then none
      else if c = '=' then some .beforeValue else some .attribute
  | .beforeValue, c =>
      if isBlank c then some .beforeValue else if c = '"' then some .doubleQuoted else if c = '\'' then some .singleQuoted
      else if c = '>' then none else some .unquoted
  | .doubleQuoted, c => some (if c = '"' then .beforeName else .doubleQuoted)
  | .singleQuoted, c => some (if c = '\'' then .beforeName else .singleQuoted)
  | .unquoted, c => if isBlank c then some .beforeName else if c = '>' then none else some .unquoted

/-- The elements whose content is text. -/
def rawElements : List Text :=
  ["title", "textarea", "style", "xmp", "iframe", "noembed", "noframes", "script", "plaintext"].map String.toList

def lower (t : Text) : Text := t.map Char.toLower

/-- The name of a start tag; nothing else has one. -/
def tagName (tag : Text) : Text := lower ((tag.drop 1).takeWhile fun c => !(isBlank c || c = '/' || c = '>'))

def after (tag : Text) : State := if tagName tag ∈ rawElements then .raw (tagName tag) else .data

def start (c : Char) : State × Text := if c = '<' then (.opening, ['<']) else (.data, [])

def rawStart (element : Text) (c : Char) : State × Text :=
  if c = '<' then (.rawOpening element, ['<']) else (.raw element, [])

/-- The markup that a character ends, the state after it, and the part of the text that may be markup. -/
def step : State → Text → Char → Option Text × State × Text
  | .data, _, c => (none, start c)
  | .opening, piece, c =>
      if isLetter c then (none, .tag .name, piece ++ [c])
      else if c = '/' then (none, .closing, piece ++ [c])
      else if c = '!' then (none, .declaration, piece ++ [c])
      else if c = '?' then (none, .bogus, piece ++ [c])
      else (none, start c)
  | .closing, piece, c =>
      if isLetter c then (none, .tag .name, piece ++ [c])
      else if c = '>' then (some (piece ++ [c]), .data, [])
      else (none, .bogus, piece ++ [c])
  | .tag t, piece, c => match t.next c with
      | none => (some (piece ++ [c]), after (piece ++ [c]), [])
      | some t => (none, .tag t, piece ++ [c])
  | .declaration, piece, c =>
      if c = '>' then (some (piece ++ [c]), .data, [])
      else if c = '-' then (none, if piece = ['<', '!'] then .declaration else .comment, piece ++ [c])
      else (none, .bogus, piece ++ [c])
  | .bogus, piece, c => if c = '>' then (some (piece ++ [c]), .data, []) else (none, .bogus, piece ++ [c])
  | .comment, piece, c =>
      if c = '>' && (['-', '-'].isSuffixOf piece || ['-', '-', '!'].isSuffixOf (piece.drop 4))
      then (some (piece ++ [c]), .data, []) else (none, .comment, piece ++ [c])
  | .raw element, _, c => (none, rawStart element c)
  | .rawOpening element, piece, c =>
      if c = '/' then (none, .rawClosing element, piece ++ [c]) else (none, rawStart element c)
  | .rawClosing element, piece, c =>
      if isLetter c then (none, .rawClosing element, piece ++ [c])
      else if lower (piece.drop 2) = element && element ≠ "plaintext".toList then
        if c = '>' then (some (piece ++ [c]), .data, [])
        else if isBlank c || c = '/' then (none, .tag .beforeName, piece ++ [c])
        else (none, rawStart element c)
      else (none, rawStart element c)

/-- The markup that ends in a text, and what the tokenizer is in the middle of at the text's end. -/
def scan : State → Text → Text → List Text × State × Text
  | σ, piece, [] => ([], σ, piece)
  | σ, piece, c :: cs =>
      let (found, σ', piece') := step σ piece c
      let (rest, stop) := scan σ' piece' cs
      (found.toList ++ rest, stop)

/-- What is read as markup from a state on. Markup that the text's end cuts off is no text either. -/
def markupFrom (σ : State) (piece text : Text) : List Text :=
  let (found, σ', piece') := scan σ piece text
  found ++ if σ'.inside then [piece'] else []

/-- The tags, comments and declarations of a document, as they are written. -/
def markup (html : Text) : List Text := markupFrom .data [] html

/-- After a '<', the text makes it the start of markup. -/
def opens : Text → Bool
  | [] => false
  | c :: _ => isLetter c || c = '/' || c = '!' || c = '?'

/-- Nothing in the text is read as markup. -/
def plain : Text → Bool
  | [] => true
  | c :: cs => !(c = '<' && opens cs) && plain cs

def openers : Text → Nat
  | [] => 0
  | c :: cs => (if c = '<' && opens cs then 1 else 0) + openers cs

variable {σ : State} {piece text t u v rest : Text} {c : Char}

theorem scan_cons : scan σ piece (c :: text) =
    ((step σ piece c).1.toList ++ (scan (step σ piece c).2.1 (step σ piece c).2.2 text).1,
      (scan (step σ piece c).2.1 (step σ piece c).2.2 text).2) := rfl

theorem scan_append (σ : State) (piece u v : Text) : scan σ piece (u ++ v) =
    ((scan σ piece u).1 ++ (scan (scan σ piece u).2.1 (scan σ piece u).2.2 v).1,
      (scan (scan σ piece u).2.1 (scan σ piece u).2.2 v).2) := by
  induction u generalizing σ piece with
  | nil => rfl
  | cons c u ih => rw [List.cons_append, scan_cons, ih, scan_cons, List.append_assoc]

theorem markupFrom_append (σ : State) (piece u v : Text) : markupFrom σ piece (u ++ v) =
    (scan σ piece u).1 ++ markupFrom (scan σ piece u).2.1 (scan σ piece u).2.2 v := by
  simp only [markupFrom, scan_append, List.append_assoc]

/-- A text before markup is read over, also after a '<' that starts nothing. -/
theorem scan_plain (hplain : plain t = true) (hrest : rest.head? = some '<') :
    scan .data [] (t ++ rest) = scan .data [] rest ∧
      (opens t = false → scan .opening ['<'] (t ++ rest) = scan .data [] rest) := by
  induction t with
  | nil =>
      obtain ⟨rest, rfl⟩ : ∃ tail, rest = '<' :: tail := List.head?_eq_some_iff.mp hrest
      exact ⟨rfl, fun _ => rfl⟩
  | cons c t ih =>
      simp only [plain, Bool.and_eq_true, Bool.not_eq_true', Bool.and_eq_false_iff, decide_eq_false_iff_not] at hplain
      obtain ⟨hdata, hopening⟩ := ih hplain.2
      have hstart : scan .data [] (c :: t ++ rest) = scan .data [] rest := by
        rw [List.cons_append, scan_cons]
        by_cases hc : c = '<'
        · subst hc
          exact hopening (hplain.1.resolve_left fun hne => hne rfl)
        · rw [step, start, if_neg hc]
          exact hdata
      refine ⟨hstart, fun hopens => ?_⟩
      simp only [opens, Bool.or_eq_false_iff, decide_eq_false_iff_not] at hopens
      obtain ⟨⟨⟨hletter, hslash⟩, hbang⟩, hquestion⟩ := hopens
      rw [← hstart, List.cons_append, scan_cons, step, if_neg (by simp [hletter]), if_neg hslash, if_neg hbang, if_neg hquestion]
      rfl

theorem scan_raw {element : Text} (ht : '<' ∉ t) : scan (.raw element) [] (t ++ rest) = scan (.raw element) [] rest := by
  induction t with
  | nil => rfl
  | cons c t ih =>
      have hc := List.ne_of_not_mem_cons ht
      replace ht := List.not_mem_of_not_mem_cons ht
      rw [List.cons_append, scan_cons, step, rawStart, if_neg (Ne.symm hc)]
      exact ih ht

theorem scan_quoted (ht : '"' ∉ t) (piece : Text) :
    scan (.tag .doubleQuoted) piece (t ++ rest) = scan (.tag .doubleQuoted) (piece ++ t) rest := by
  induction t generalizing piece with
  | nil => rw [List.nil_append, List.append_nil]
  | cons c t ih =>
      have hc := List.ne_of_not_mem_cons ht
      replace ht := List.not_mem_of_not_mem_cons ht
      rw [List.cons_append, scan_cons, step, TagState.next, if_neg (Ne.symm hc)]
      exact (ih ht _).trans (by rw [List.append_assoc, List.singleton_append])

/-- Inside a tag the characters only add to it, as long as none ends it. -/
theorem scan_tag {t t' : TagState} {u : Text} (h : u.foldlM TagState.next t = some t') (piece : Text) :
    scan (.tag t) piece u = ([], .tag t', piece ++ u) := by
  induction u generalizing t piece with
  | nil =>
      obtain rfl : t = t' := Option.some.inj h
      rw [List.append_nil]
      rfl
  | cons c u ih =>
      rw [List.foldlM_cons] at h
      cases hnext : t.next c with
      | none => simp [hnext] at h
      | some t₁ =>
          rw [hnext] at h
          rw [scan_cons, step, hnext]
          dsimp only
          rw [ih h, List.append_assoc]
          rfl

theorem plain_of_notMem (ht : '<' ∉ t) : plain t = true := by
  induction t with
  | nil => rfl
  | cons c t ih =>
      have hc := List.ne_of_not_mem_cons ht
      replace ht := List.not_mem_of_not_mem_cons ht
      simp [plain, Ne.symm hc, ih ht]

/-- The first '<' that starts markup. -/
theorem first_opener (ht : plain t = false) : ∃ u v, t = u ++ '<' :: v ∧ plain u = true ∧ opens v = true := by
  induction t with
  | nil => cases ht
  | cons c t ih =>
      by_cases hc : c = '<' ∧ opens t = true
      · exact ⟨[], t, by rw [hc.1, List.nil_append], rfl, hc.2⟩
      · have htail : plain t = false := by
          rcases not_and_or.mp hc with hne | hshut
          · simpa [plain, hne] using ht
          · simpa [plain, hshut] using ht
        obtain ⟨u, v, rfl, hu, hv⟩ := ih htail
        refine ⟨c :: u, v, rfl, ?_, hv⟩
        rw [plain, hu, Bool.and_true, Bool.not_eq_true']
        rcases not_and_or.mp hc with hne | hshut
        · simp [hne]
        · cases u with
          | nil => simp [opens]
          | cons d u => simpa [opens] using fun _ => hshut

section Counting

theorem openers_append (u v : Text) : openers v ≤ openers (u ++ v) := by
  induction u with
  | nil => exact Nat.le_refl _
  | cons c u ih => exact Nat.le_trans ih (Nat.le_add_left _ _)

/-- How much markup the text starts, with what the tokenizer is in the middle of. -/
def started : State → Text → Nat
  | .data, cs => openers cs
  | .opening, cs => openers ('<' :: cs)
  | .raw _, cs => openers cs
  | .rawOpening _, cs => openers ('<' :: cs)
  | _, cs => 1 + openers cs

theorem openers_lt : openers ('<' :: text) ≤ 1 + openers text := by
  rw [openers]
  split <;> omega

theorem started_start (c : Char) : started (start c).1 text = openers (c :: text) := by
  unfold start
  split
  next hc => rw [hc, started]
  next hc => simp [started, openers, hc]

theorem started_rawStart (element : Text) (c : Char) : started (rawStart element c).1 text = openers (c :: text) := by
  unfold rawStart
  split
  next hc => rw [hc, started]
  next hc => simp [started, openers, hc]

theorem started_after (tag : Text) : started (after tag) text = openers text := by
  unfold after
  split <;> rfl

theorem openers_cons_le (c : Char) : openers text ≤ openers (c :: text) := Nat.le_add_left _ _

theorem openers_opens (h : opens text = true) : openers ('<' :: text) = 1 + openers text := by simp [openers, h]

theorem openers_shut (h : opens text = false) : openers ('<' :: text) = openers text := by simp [openers, h]

theorem openers_cons_of_ne (hc : c ≠ '<') : openers (c :: text) = openers text := by simp [openers, hc]

theorem markupFrom_cons (σ : State) (piece : Text) (c : Char) (text : Text) : markupFrom σ piece (c :: text) =
    (step σ piece c).1.toList ++ markupFrom (step σ piece c).2.1 (step σ piece c).2.2 text :=
  List.append_assoc ..

/-- In the middle of what can only become markup, unless the text ends. -/
def State.busy : State → Bool
  | .closing => true
  | σ => σ.inside

theorem started_busy (h : σ.busy = true) : started σ text = 1 + openers text := by
  cases σ with
  | data | opening | raw | rawOpening | rawClosing => cases h
  | _ => rfl

theorem started_le (σ : State) (text : Text) : started σ text ≤ 1 + openers text := by
  cases σ with
  | data | raw => exact Nat.le_add_left ..
  | opening | rawOpening => exact openers_lt
  | _ => exact Nat.le_refl _

theorem step_busy (h : σ.busy = true) (piece : Text) (c : Char) :
    (∃ σ', (σ' = .data ∨ σ' = after (piece ++ [c])) ∧ step σ piece c = (some (piece ++ [c]), σ', [])) ∨
    ∃ σ', σ'.busy = true ∧ step σ piece c = (none, σ', piece ++ [c]) := by
  cases σ with
  | data | opening | raw | rawOpening | rawClosing => cases h
  | tag t =>
      simp only [step]
      split
      · exact .inl ⟨_, .inr rfl, rfl⟩
      · exact .inr ⟨_, rfl, rfl⟩
  | declaration =>
      simp only [step]
      split
      · exact .inl ⟨_, .inl rfl, rfl⟩
      · split
        · refine .inr ⟨_, ?_, rfl⟩
          split <;> rfl
        · exact .inr ⟨_, rfl, rfl⟩
  | closing =>
      simp only [step]
      split
      · exact .inr ⟨_, rfl, rfl⟩
      · split
        · exact .inl ⟨_, .inl rfl, rfl⟩
        · exact .inr ⟨_, rfl, rfl⟩
  | bogus | comment =>
      simp only [step]
      split
      · exact .inl ⟨_, .inl rfl, rfl⟩
      · exact .inr ⟨_, rfl, rfl⟩

theorem step_opening (piece : Text) (c : Char) :
    (opens [c] = true ∧ ∃ σ', σ'.busy = true ∧ step .opening piece c = (none, σ', piece ++ [c])) ∨
    (opens [c] = false ∧ step .opening piece c = (none, start c)) := by
  simp only [step, opens]
  by_cases hletter : isLetter c = true
  · exact .inl ⟨by simp [hletter], _, rfl, if_pos hletter⟩
  by_cases hslash : c = '/'
  · subst hslash
    exact .inl ⟨rfl, .closing, rfl, rfl⟩
  by_cases hbang : c = '!'
  · subst hbang
    exact .inl ⟨rfl, .declaration, rfl, rfl⟩
  by_cases hquestion : c = '?'
  · subst hquestion
    exact .inl ⟨rfl, .bogus, rfl, rfl⟩
  · exact .inr ⟨by simp [hletter, hslash, hbang, hquestion], by simp [hletter, hslash, hbang, hquestion]⟩

/-- A step finishes no more markup than has been started. -/
theorem step_started (σ : State) (piece : Text) (c : Char) (text : Text) :
    (step σ piece c).1.toList.length + started (step σ piece c).2.1 text ≤ started σ (c :: text) := by
  have hle : openers text ≤ openers (c :: text) := openers_cons_le c
  have hlt : openers (c :: text) ≤ openers ('<' :: c :: text) := openers_cons_le _
  by_cases hbusy : σ.busy = true
  · rw [started_busy hbusy]
    obtain ⟨σ', hσ', hstep⟩ | ⟨σ', hbusy', hstep⟩ := step_busy hbusy piece c <;> rw [hstep]
    · have hstarted : started σ' text = openers text := by
        rcases hσ' with rfl | rfl
        · rfl
        · exact started_after _
      rw [hstarted]
      exact Nat.add_le_add_left hle 1
    · rw [started_busy hbusy', Option.toList_none, List.length_nil, Nat.zero_add]
      exact Nat.add_le_add_left hle 1
  cases σ with
  | closing | tag | declaration | bogus | comment => exact absurd rfl hbusy
  | data => exact (Nat.zero_add _).trans_le (started_start c).le
  | opening =>
      obtain ⟨hopens, σ', hbusy', hstep⟩ | ⟨-, hstep⟩ := step_opening piece c <;> rw [hstep, started]
      · have hopener : openers ('<' :: c :: text) = 1 + openers (c :: text) := openers_opens hopens
        rw [hopener, started_busy hbusy', Option.toList_none, List.length_nil]
        omega
      · exact (Nat.zero_add _).trans_le ((started_start c).trans_le hlt)
  | raw element => exact (Nat.zero_add _).trans_le (started_rawStart element c).le
  | rawOpening element =>
      simp only [step]
      split
      next hslash =>
        subst hslash
        have hopener : openers ('<' :: '/' :: text) = 1 + openers ('/' :: text) := openers_opens rfl
        rw [started, hopener]
        exact (Nat.zero_add _).trans_le (Nat.add_le_add_left hle 1)
      · exact (Nat.zero_add _).trans_le ((started_rawStart element c).trans_le hlt)
  | rawClosing element =>
      have hnone (σ' : State) : 0 + started σ' text ≤ 1 + openers (c :: text) :=
        (Nat.zero_add _).trans_le ((started_le σ' text).trans (Nat.add_le_add_left hle 1))
      simp only [step]
      split
      · exact hnone _
      · split
        · split
          · exact Nat.add_le_add_left hle 1
          · split <;> exact hnone _
        · exact hnone _

theorem length_markupFrom (σ : State) (piece text : Text) : (markupFrom σ piece text).length ≤ started σ text := by
  induction text generalizing σ piece with
  | nil => cases σ <;> simp [markupFrom, scan, State.inside, started]
  | cons c text ih =>
      have hstep := step_started σ piece c text
      have hrest := ih (step σ piece c).2.1 (step σ piece c).2.2
      rw [markupFrom_cons, List.length_append]
      omega

/-- What has been read of a piece of markup is the beginning of one that is found. -/
theorem piece_prefix (h : σ.busy = true) (hend : (scan σ piece text).2.1 ≠ .closing) :
    ∃ t ∈ markupFrom σ piece text, piece <+: t := by
  induction text generalizing σ piece with
  | nil =>
      have hinside : σ.inside = true := by
        cases σ with
        | closing => exact absurd rfl hend
        | _ => exact h
      exact ⟨piece, by simp [markupFrom, scan, hinside], List.prefix_rfl⟩
  | cons c text ih =>
      rw [scan_cons] at hend
      rw [markupFrom_cons]
      obtain ⟨σ', -, hstep⟩ | ⟨σ', hbusy, hstep⟩ := step_busy h piece c <;> rw [hstep] at hend ⊢
      · exact ⟨piece ++ [c], List.mem_append_left _ (List.mem_singleton_self _), List.prefix_append ..⟩
      · obtain ⟨t, ht, hpre⟩ := ih hbusy hend
        exact ⟨t, List.mem_append_right _ ht, (List.prefix_append ..).trans hpre⟩

/-- Markup that contains no other start of markup, and after which the tokenizer reads on as before. -/
def Whole (tag : Text) : Prop := tag.count '<' ≤ 1 ∧ after tag = .data

instance (tag : Text) : Decidable (Whole tag) := inferInstanceAs (Decidable (_ ∧ _))

theorem Whole.ne (h : Whole t) (hpiece : '<' ∈ piece) (hpre : piece ++ [c] <+: t) : c ≠ '<' := by
  rintro rfl
  have hpos := List.count_pos_iff.mpr hpiece
  have hle := hpre.sublist.count_le '<'
  rw [List.count_append, List.count_singleton_self] at hle
  have hone := h.1
  omega

/-- Every start of markup is found, if all that is found is whole. -/
theorem started_le_length (hσ : σ = .data ∨ (σ = .opening ∨ σ.busy = true) ∧ '<' ∈ piece)
    (hwhole : ∀ t ∈ markupFrom σ piece text, Whole t) (hend : (scan σ piece text).2.1 ≠ .closing) :
    started σ text ≤ (markupFrom σ piece text).length := by
  induction text generalizing σ piece with
  | nil =>
      rcases hσ with rfl | ⟨rfl | hbusy, -⟩
      · exact Nat.zero_le _
      · exact Nat.zero_le _
      · cases σ with
        | closing => exact absurd rfl hend
        | data | opening | raw | rawOpening | rawClosing => cases hbusy
        | _ => exact Nat.le_refl _
  | cons c text ih =>
      have hcut : ∀ t, t ∈ markupFrom σ piece (c :: text) → piece ++ [c] <+: t → '<' ∈ piece → openers (c :: text) = openers text :=
        fun t ht hpre hmem => openers_cons_of_ne ((hwhole t ht).ne hmem hpre)
      have hstart : (start c).1 = .data ∨ ((start c).1 = .opening ∨ (start c).1.busy = true) ∧ '<' ∈ (start c).2 := by
        unfold start
        split
        · exact .inr ⟨.inl rfl, List.mem_singleton_self _⟩
        · exact .inl rfl
      rw [markupFrom_cons] at hwhole hcut ⊢
      rw [scan_cons] at hend
      rcases hσ with rfl | ⟨hσ, hmem⟩
      · rw [started, ← started_start]
        exact ih hstart (fun t ht => hwhole t (List.mem_append_right _ ht)) hend
      have hmem' : '<' ∈ piece ++ [c] := List.mem_append_left _ hmem
      rcases hσ with rfl | hbusy
      · obtain ⟨hopens, σ', hbusy', hstep⟩ | ⟨hopens, hstep⟩ := step_opening piece c <;> rw [hstep] at hwhole hend hcut ⊢
        · have hle := ih (.inr ⟨.inr hbusy', hmem'⟩) hwhole hend
          obtain ⟨t, ht, hpre⟩ := piece_prefix hbusy' hend
          have hopener : openers ('<' :: c :: text) = 1 + openers (c :: text) := openers_opens hopens
          rw [started, hopener, hcut t ht hpre hmem, ← started_busy hbusy']
          exact hle
        · have hle := ih hstart hwhole hend
          have hopener : openers ('<' :: c :: text) = openers (c :: text) := openers_shut hopens
          rw [started, hopener, ← started_start]
          exact hle
      · rw [started_busy hbusy]
        obtain ⟨σ', hσ', hstep⟩ | ⟨σ', hbusy', hstep⟩ := step_busy hbusy piece c <;> rw [hstep] at hwhole hend hcut ⊢
        · have hfound := hcut _ List.mem_cons_self List.prefix_rfl hmem
          have hdata : σ' = .data := hσ'.elim id fun heq => heq.trans (hwhole _ List.mem_cons_self).2
          subst hdata
          have hle := ih (.inl rfl) (fun t ht => hwhole t (List.mem_cons_of_mem _ ht)) hend
          rw [hfound, Nat.add_comm]
          exact Nat.succ_le_succ hle
        · have hle := ih (.inr ⟨.inr hbusy', hmem'⟩) hwhole hend
          obtain ⟨t, ht, hpre⟩ := piece_prefix hbusy' hend
          rw [hcut t ht hpre hmem, ← started_busy hbusy']
          exact hle

end Counting

theorem after_ne_closing (tag : Text) : after tag ≠ .closing := by
  unfold after
  split <;> nofun

theorem start_ne_closing (c : Char) : (start c).1 ≠ .closing := by
  unfold start
  split <;> nofun

theorem rawStart_ne_closing (element : Text) (c : Char) : (rawStart element c).1 ≠ .closing := by
  unfold rawStart
  split <;> nofun

theorem step_ne_closing (σ : State) (piece : Text) (hc : c ≠ '/') : (step σ piece c).2.1 ≠ .closing := by
  by_cases hbusy : σ.busy = true
  · cases σ with
    | data | opening | raw | rawOpening | rawClosing => cases hbusy
    | tag t =>
        simp only [step]
        split
        · exact after_ne_closing _
        · nofun
    | declaration =>
        simp only [step]
        split
        · nofun
        · split
          · dsimp only
            split <;> nofun
          · nofun
    | closing =>
        simp only [step]
        split
        · nofun
        · split <;> nofun
    | bogus | comment =>
        simp only [step]
        split <;> nofun
  cases σ with
  | closing | tag | declaration | bogus | comment => exact absurd rfl hbusy
  | data => exact start_ne_closing c
  | opening =>
      simp only [step, if_neg hc]
      split
      · nofun
      · split
        · nofun
        · split
          · nofun
          · exact start_ne_closing c
  | raw element => exact rawStart_ne_closing element c
  | rawOpening element =>
      simp only [step, if_neg hc]
      exact rawStart_ne_closing element c
  | rawClosing element =>
      simp only [step]
      split
      · nofun
      · split
        · split
          · nofun
          · split
            · nofun
            · exact rawStart_ne_closing element c
        · exact rawStart_ne_closing element c

/-- A text that ends in '>' is not left in the middle of what may still be text. -/
theorem scan_ends (σ : State) (piece text : Text) (hlast : text.getLast? = some '>') : (scan σ piece text).2.1 ≠ .closing := by
  obtain ⟨text, rfl⟩ := List.getLast?_eq_some_iff.mp hlast
  rw [scan_append]
  exact step_ne_closing _ _ (by decide)

section Documents

/-- The markup of a fixed part of a document. -/
def tags (part : Text) : List Text := (scan .data [] part).1

/-- Parts with a text after each, and a last part. -/
def assemble (blocks : List (Text × Text)) (last : Text) : Text := blocks.flatMap (fun b => b.1 ++ b.2) ++ last

/-- A part that starts with markup and ends outside of it. -/
structure Ended (part : Text) : Prop where
  starts : part.head? = some '<'
  ends : (scan .data [] part).2 = (.data, [])

structure Closed (part : Text) : Prop extends Ended part where
  whole : ∀ t ∈ tags part, Whole t

theorem Ended.markupFrom_append (h : Ended u) (v : Text) : markupFrom .data [] (u ++ v) = tags u ++ markupFrom .data [] v := by
  rw [Html.markupFrom_append, h.ends]
  rfl

theorem Ended.tags_append (h : Ended u) (v : Text) : tags (u ++ v) = tags u ++ tags v := by
  rw [tags, scan_append, h.ends]
  rfl

theorem Closed.append (hu : Closed u) (hv : Closed v) : Closed (u ++ v) := by
  refine ⟨⟨?_, ?_⟩, fun t ht => ?_⟩
  · rw [List.head?_append, hu.starts]
    rfl
  · rw [scan_append, hu.ends]
    exact hv.ends
  · rw [hu.tags_append] at ht
    exact (List.mem_append.mp ht).elim (hu.whole t) (hv.whole t)

theorem scan_text (ht : '<' ∉ t) : scan .data [] t = ([], .data, []) := by
  induction t with
  | nil => rfl
  | cons c t ih =>
      rw [scan_cons, step, start, if_neg (Ne.symm (List.ne_of_not_mem_cons ht))]
      dsimp only
      rw [ih (List.not_mem_of_not_mem_cons ht)]
      rfl

theorem Ended.tags_append_text (h : Ended u) (ht : '<' ∉ t) : tags (u ++ t) = tags u := by
  rw [h.tags_append, show tags t = [] from congrArg Prod.fst (scan_text ht), List.append_nil]

theorem Closed.append_text (h : Closed u) (ht : '<' ∉ t) : Closed (u ++ t) := by
  refine ⟨⟨?_, ?_⟩, fun s hs => h.whole s (h.tags_append_text ht ▸ hs)⟩
  · rw [List.head?_append, h.starts]
    rfl
  · rw [scan_append, h.ends, scan_text ht]

theorem Ended.markup_eq (h : Ended u) : markup u = tags u := by
  simp [markup, markupFrom, h.ends, tags, State.inside]

theorem Ended.length_tags (h : Ended u) : (tags u).length ≤ openers u :=
  h.markup_eq ▸ length_markupFrom .data [] u

theorem openers_add_le (u v : Text) : openers u + openers v ≤ openers (u ++ v) := by
  induction u with
  | nil => exact (Nat.zero_add _).le
  | cons c u ih =>
      have hopens : opens u = true → opens (u ++ v) = true := by
        cases u with
        | nil => nofun
        | cons d u => exact id
      rw [List.cons_append, openers, openers]
      by_cases hc : (c = '<' && opens u) = true
      · have hstill : (c = '<' && opens (u ++ v)) = true := by
          rw [Bool.and_eq_true] at hc ⊢
          exact ⟨hc.1, hopens hc.2⟩
        rw [if_pos hc, if_pos hstill]
        omega
      · rw [if_neg hc]
        omega

variable {blocks : List (Text × Text)} {last : Text}

theorem assemble_cons (b : Text × Text) (blocks : List (Text × Text)) (last : Text) :
    assemble (b :: blocks) last = b.1 ++ (b.2 ++ assemble blocks last) := by
  simp only [assemble, List.flatMap_cons, List.append_assoc]

theorem assemble_starts (hblocks : ∀ b ∈ blocks, Closed b.1) (hlast : Closed last) :
    (assemble blocks last).head? = some '<' := by
  cases blocks with
  | nil => exact hlast.starts
  | cons b blocks =>
      rw [assemble_cons, List.head?_append, (hblocks b List.mem_cons_self).starts]
      rfl

theorem length_tags_le (hblocks : ∀ b ∈ blocks, Closed b.1) (hlast : Closed last) :
    (blocks.flatMap (fun b => tags b.1) ++ tags last).length ≤ openers (assemble blocks last) := by
  induction blocks with
  | nil => exact hlast.length_tags
  | cons b blocks ih =>
      have hrest := ih fun b hb => hblocks b (List.mem_cons_of_mem _ hb)
      have hb := (hblocks b List.mem_cons_self).length_tags
      have hadd := openers_add_le b.1 (b.2 ++ assemble blocks last)
      have htext := openers_append b.2 (assemble blocks last)
      rw [assemble_cons, List.flatMap_cons, List.append_assoc, List.length_append]
      omega

/-- The document has the markup of its fixed parts exactly if no text between them starts markup. -/
theorem markup_assemble (hblocks : ∀ b ∈ blocks, Closed b.1) (hlast : Closed last) (hend : last.getLast? = some '>') :
    markup (assemble blocks last) = blocks.flatMap (fun b => tags b.1) ++ tags last ↔ ∀ b ∈ blocks, plain b.2 = true := by
  induction blocks with
  | nil => exact iff_of_true hlast.markup_eq nofun
  | cons b blocks ih =>
      have hrest : ∀ b ∈ blocks, Closed b.1 := fun b hb => hblocks b (List.mem_cons_of_mem _ hb)
      have hstarts := assemble_starts hrest hlast
      rw [assemble_cons, markup, (hblocks b List.mem_cons_self).toEnded.markupFrom_append, List.flatMap_cons, List.append_assoc,
        List.append_right_inj, List.forall_mem_cons]
      cases hplain : plain b.2 with
      | true =>
          have hscan : markupFrom .data [] (b.2 ++ assemble blocks last) = markup (assemble blocks last) := by
            simp only [markup, markupFrom, (scan_plain hplain hstarts).1]
          rw [hscan, ih hrest]
          exact (and_iff_right rfl).symm
      | false =>
          refine iff_of_false (fun heq => ?_) fun h => nomatch h.1
          obtain ⟨u, v, hsplit, hu, hv⟩ := first_opener hplain
          have hskip : markupFrom .data [] (b.2 ++ assemble blocks last) =
              markupFrom .data [] ('<' :: (v ++ assemble blocks last)) := by
            have hscan : scan .data [] (u ++ '<' :: (v ++ assemble blocks last)) =
                scan .data [] ('<' :: (v ++ assemble blocks last)) := (scan_plain hu rfl).1
            rw [hsplit, List.append_assoc, List.cons_append]
            simp only [markupFrom, hscan]
          have hwhole : ∀ t ∈ blocks.flatMap (fun b => tags b.1) ++ tags last, Whole t := by
            intro t ht
            rcases List.mem_append.mp ht with ht | ht
            · obtain ⟨b, hb, ht⟩ := List.mem_flatMap.mp ht
              exact (hrest b hb).whole t ht
            · exact hlast.whole t ht
          have hgt : ('<' :: (v ++ assemble blocks last)).getLast? = some '>' := by
            rw [assemble, ← List.cons_append, List.getLast?_append, List.getLast?_append, hend]
            rfl
          have hle : openers ('<' :: (v ++ assemble blocks last)) ≤ _ :=
            started_le_length (.inl rfl) (by rwa [← hskip, heq]) (scan_ends .data [] _ hgt)
          have hopens : opens (v ++ assemble blocks last) = true := by
            cases v with
            | nil => cases hv
            | cons c v => exact hv
          have hcount := length_tags_le hrest hlast
          have hmore := openers_append v (assemble blocks last)
          rw [← hskip, heq, openers_opens hopens] at hle
          omega

end Documents

end Corebase.Html
