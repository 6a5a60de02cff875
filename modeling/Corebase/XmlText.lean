import Corebase.JsText

namespace Corebase.XmlText

open JsText

/-! Character data as a document writes it -/

inductive Entity
  | lt | gt | quot | apos | amp
deriving DecidableEq

def Entity.name : Entity → Text
  | .lt => ['l', 't']
  | .gt => ['g', 't']
  | .quot => ['q', 'u', 'o', 't']
  | .apos => ['a', 'p', 'o', 's']
  | .amp => ['a', 'm', 'p']

def Entity.char : Entity → Char
  | .lt => '<'
  | .gt => '>'
  | .quot => '"'
  | .apos => '\''
  | .amp => '&'

def digitOf (base : Nat) (c : Char) : Option Nat :=
  (if isDigit c then some (c.toNat - 48)
    else if 'a' ≤ c ∧ c ≤ 'f' then some (c.toNat - 87)
    else if 'A' ≤ c ∧ c ≤ 'F' then some (c.toNat - 55)
    else none).filter (· < base)

def numeralFrom (base : Nat) : Nat → Text → Option Nat
  | n, [] => some n
  | n, c :: cs => (digitOf base c).bind fun d => numeralFrom base (base * n + d) cs

/-- The number of a character reference: `38` and `x26` are the same. -/
def codePoint : Text → Option Nat
  | 'x' :: c :: cs => numeralFrom 16 0 (c :: cs)
  | c :: cs => numeralFrom 10 0 (c :: cs)
  | [] => none

/-- A character as it is, by name or by number, or a CDATA section. A literal carriage return is read as a line feed,
so that it can only be written by number. -/
inductive Piece
  | plain (c : Char) (literal : c ≠ '<' ∧ c ≠ '&' ∧ c ≠ '\r')
  | named (e : Entity)
  | numeric (c : Char) (digits : Text) (denotes : codePoint digits = some c.toNat)
  | cdata (text : Text)

def cdataStart : Text := "<![CDATA[".toList

def cdataEnd : Text := "]]>".toList

namespace Piece

def content : Piece → Text
  | plain c _ => [c]
  | named e => [e.char]
  | numeric c _ _ => [c]
  | cdata text => text

def raw : Piece → Text
  | plain c _ => [c]
  | named e => '&' :: e.name ++ [';']
  | numeric _ digits _ => '&' :: '#' :: digits ++ [';']
  | cdata text => cdataStart ++ text ++ cdataEnd

def isCdata : Piece → Bool
  | cdata _ => true
  | _ => false

def isNumeric : Piece → Bool
  | numeric .. => true
  | _ => false

def isPlain : Piece → Bool
  | plain .. => true
  | _ => false

end Piece

abbrev Written := List Piece

namespace Written

def content (w : Written) : Text := w.flatMap Piece.content

def raw (w : Written) : Text := w.flatMap Piece.raw

def Free (w : Written) : Prop := ∀ p ∈ w, p.isCdata = false

end Written

/-! Reading by patterns -/

/-- All matches from left to right, the first number counting what is left of the match before. A pattern answers what
it takes and how long its match is. -/
def matchAll {α : Type} (pattern : Text → Option (α × Nat)) : Nat → Text → List α
  | _, [] => []
  | n + 1, _ :: cs => matchAll pattern n cs
  | 0, c :: cs =>
      match pattern (c :: cs) with
      | some (x, length) => x :: matchAll pattern (length - 1) cs
      | none => matchAll pattern 0 cs

/-- Every occurrence of the text replaced by the character. -/
def replaceFrom (text : Text) (r : Char) : Nat → Text → Text
  | _, [] => []
  | n + 1, _ :: cs => replaceFrom text r n cs
  | 0, c :: cs =>
      if text.isPrefixOf (c :: cs) then r :: replaceFrom text r (text.length - 1) cs
      else c :: replaceFrom text r 0 cs

def replaceAll (text : Text) (r : Char) (s : Text) : Text := replaceFrom text r 0 s

def tag (inside : Text) : Text := '<' :: (inside ++ ['>'])

def openTag (name : Text) : Text := tag name

def closeTag (name : Text) : Text := tag ('/' :: name)

/-- An element and a run of such characters in it. As none of them is a `<`, the run is as long as it can be. -/
def elementOf (p : Char → Bool) (name s : Text) : Option (Text × Nat) :=
  if (openTag name).isPrefixOf s then
    let after := s.drop (openTag name).length
    let inner := after.takeWhile p
    if (closeTag name).isPrefixOf (after.drop inner.length) then
      some (inner, (openTag name).length + inner.length + (closeTag name).length)
    else none
  else none

/-- An element and what stands before its first end tag. -/
def blockOf (name s : Text) : Option (Text × Nat) :=
  if (openTag name).isPrefixOf s then
    let after := s.drop (openTag name).length
    (indexOf (closeTag name) after).map fun n =>
      (after.take n, (openTag name).length + n + (closeTag name).length)
  else none

def isText (c : Char) : Bool := c ≠ '<'

def contains (text s : Text) : Bool := (indexOf text s).isSome

/-- The tag does not begin in the text, whatever follows. -/
def Quiet (inside s : Text) : Prop := ∀ t, t ≠ [] → t <:+ s → ∀ rest, ¬ tag inside <+: t ++ rest

section Scanning

variable {α : Type} {f : Text → Option (α × Nat)} {s t rest : Text}

theorem matchAll_drop (n : Nat) (s : Text) : matchAll f n s = matchAll f 0 (s.drop n) := by
  induction s generalizing n with
  | nil => cases n <;> rfl
  | cons c cs ih =>
      cases n with
      | zero => rfl
      | succ n => exact ih n

theorem matchAll_hit {x : α} (ht : t ≠ []) (h : f (t ++ rest) = some (x, t.length)) :
    matchAll f 0 (t ++ rest) = x :: matchAll f 0 rest := by
  cases t with
  | nil => exact absurd rfl ht
  | cons c cs =>
      rw [List.cons_append] at h ⊢
      rw [matchAll, h]
      dsimp only
      rw [matchAll_drop, List.length_cons, Nat.add_sub_cancel, List.drop_left]

theorem matchAll_skip (h : ∀ u, u ≠ [] → u <:+ t → f (u ++ rest) = none) : matchAll f 0 (t ++ rest) = matchAll f 0 rest := by
  induction t with
  | nil => rfl
  | cons c cs ih =>
      have hhere := h (c :: cs) (List.cons_ne_nil _ _) (List.suffix_refl _)
      rw [List.cons_append] at hhere ⊢
      rw [matchAll, hhere]
      exact ih fun u hne hu => h u hne (hu.trans (List.suffix_cons _ _))

theorem indexOf_skip {pat : Text} (h : ∀ u, u ≠ [] → u <:+ t → ¬ pat <+: u ++ rest) :
    indexOf pat (t ++ rest) = (indexOf pat rest).map (t.length + ·) := by
  induction t with
  | nil =>
      cases hrest : indexOf pat rest with
      | none => rw [List.nil_append, hrest]; rfl
      | some n => rw [List.nil_append, hrest, Option.map_some, List.length_nil, Nat.zero_add]
  | cons c cs ih =>
      have hhere := h (c :: cs) (List.cons_ne_nil _ _) (List.suffix_refl _)
      rw [List.cons_append] at hhere ⊢
      rw [indexOf, if_neg (by rwa [List.isPrefixOf_iff_prefix]),
        ih fun u hne hu => h u hne (hu.trans (List.suffix_cons _ _)), Option.map_map]
      congr 1
      funext n
      exact (Nat.succ_add _ _).symm

theorem indexOf_here {pat : Text} (rest : Text) : indexOf pat (pat ++ rest) = some 0 := by
  cases hpat : pat ++ rest with
  | nil => rw [indexOf, if_pos (List.append_eq_nil_iff.mp hpat).1]
  | cons c cs => rw [indexOf, if_pos (List.isPrefixOf_iff_prefix.mpr (hpat ▸ List.prefix_append _ _))]

end Scanning

/-! Texts where no tag begins -/

section Quiet

variable {x y s t : Text}

theorem Quiet.append (hs : Quiet x s) (ht : Quiet x t) : Quiet x (s ++ t) := by
  rintro u hne ⟨v, hv⟩ rest
  rcases List.append_eq_append_iff.mp hv with ⟨w, rfl, rfl⟩ | ⟨w, rfl, rfl⟩
  · cases w with
    | nil => exact ht t hne (List.suffix_refl _) rest
    | cons c w =>
        rw [List.append_assoc]
        exact hs (c :: w) (List.cons_ne_nil _ _) (List.suffix_append _ _) _
  · exact ht u hne (List.suffix_append _ _) rest

theorem quiet_nil : Quiet x [] := fun _ hne hu => absurd (List.suffix_nil.mp hu) hne

theorem quiet_of_not_mem (h : '<' ∉ s) : Quiet x s := by
  intro u hne hu rest hstarts
  cases u with
  | nil => exact hne rfl
  | cons c u =>
      obtain rfl : '<' = c := (List.cons_prefix_cons.mp hstarts).1
      exact h (hu.subset List.mem_cons_self)

/-- Texts that end at the first of such characters. -/
theorem prefix_unique {c : Char} (hx : c ∉ x) (hy : c ∉ y) (h : x ++ [c] <+: y ++ c :: s) : x = y := by
  induction x generalizing y with
  | nil =>
      cases y with
      | nil => rfl
      | cons d y => exact absurd ((List.cons_prefix_cons.mp h).1 ▸ List.mem_cons_self) hy
  | cons d x ih =>
      cases y with
      | nil => exact absurd ((List.cons_prefix_cons.mp h).1 ▸ List.mem_cons_self) hx
      | cons e y =>
          obtain ⟨rfl, htail⟩ := List.cons_prefix_cons.mp h
          rw [ih (fun hmem => hx (List.mem_cons_of_mem _ hmem)) (fun hmem => hy (List.mem_cons_of_mem _ hmem)) htail]

theorem quiet_tag (hne : x ≠ y) (hx : '>' ∉ x) (hy : '>' ∉ y) (hopen : '<' ∉ y) : Quiet x (tag y) := by
  intro u hu ⟨v, hv⟩ rest hstarts
  cases v with
  | nil =>
      obtain rfl : u = tag y := hv
      have htail : x ++ ['>'] <+: y ++ '>' :: rest := by
        have htag := (List.cons_prefix_cons.mp hstarts).2
        rw [List.append_cons y]
        exact htag
      exact hne (prefix_unique hx hy htail)
  | cons c v =>
      have htail : v ++ u = y ++ ['>'] := (List.cons.inj hv).2
      have hnone : '<' ∉ y ++ ['>'] := by simpa using hopen
      exact quiet_of_not_mem hnone u hu ⟨v, htail⟩ rest hstarts

variable {α : Type} {rest : Text}

theorem elementOf_none {p : Char → Bool} (h : ¬ openTag x <+: s) : elementOf p x s = none := by
  rw [elementOf, if_neg (by rwa [List.isPrefixOf_iff_prefix])]

theorem blockOf_none (h : ¬ openTag x <+: s) : blockOf x s = none := by
  rw [blockOf, if_neg (by rwa [List.isPrefixOf_iff_prefix])]

theorem Quiet.matchAll {f : Text → Option (α × Nat)} (h : Quiet x s) (hf : ∀ u, ¬ tag x <+: u → f u = none) :
    matchAll f 0 (s ++ rest) = matchAll f 0 rest :=
  matchAll_skip fun u hne hu => hf _ (h u hne hu rest)

theorem Quiet.indexOf_tag (h : Quiet x s) : indexOf (tag x) (s ++ tag x ++ rest) = some s.length := by
  rw [List.append_assoc, indexOf_skip fun u hne hu => h u hne hu _, indexOf_here, Option.map_some, Nat.add_zero]

theorem indexOf_tag_skip (h : Quiet x s) : indexOf (tag x ++ t) (s ++ rest) = (indexOf (tag x ++ t) rest).map (s.length + ·) :=
  indexOf_skip fun u hne hu hstarts => h u hne hu rest ((List.prefix_append _ _).trans hstarts)

theorem takeWhile_append_stop {p : Char → Bool} {d : Char} (hs : ∀ c ∈ s, p c = true) (hd : p d = false) :
    (s ++ d :: rest).takeWhile p = s := by
  rw [List.takeWhile_append_of_pos hs, List.takeWhile_cons, hd, if_neg Bool.false_ne_true, List.append_nil]

theorem elementOf_hit {p : Char → Bool} (hp : p '<' = false) (hs : ∀ c ∈ s, p c = true) :
    elementOf p x (openTag x ++ s ++ closeTag x ++ rest) = some (s, (openTag x ++ s ++ closeTag x).length) := by
  have hinner : (s ++ (closeTag x ++ rest)).takeWhile p = s := takeWhile_append_stop hs hp
  rw [elementOf, List.append_assoc, List.append_assoc, if_pos (List.isPrefixOf_iff_prefix.mpr (List.prefix_append _ _)),
    List.drop_left]
  dsimp only
  rw [hinner, List.drop_left, if_pos (List.isPrefixOf_iff_prefix.mpr (List.prefix_append _ _))]
  simp only [List.length_append, Nat.add_assoc]

theorem elementOf_stop {p : Char → Bool} {d : Char} (hs : ∀ c ∈ s, p c = true) (hd : p d = false) (hopen : d ≠ '<') :
    elementOf p x (openTag x ++ (s ++ d :: rest)) = none := by
  have hinner : (s ++ d :: rest).takeWhile p = s := takeWhile_append_stop hs hd
  rw [elementOf, if_pos (List.isPrefixOf_iff_prefix.mpr (List.prefix_append _ _)), List.drop_left]
  dsimp only
  rw [hinner, List.drop_left, if_neg]
  rw [List.isPrefixOf_iff_prefix]
  exact fun hstarts => hopen (List.cons_prefix_cons.mp hstarts).1.symm

theorem matchAll_element {p : Char → Bool} (hp : p '<' = false) (hs : ∀ c ∈ s, p c = true) :
    matchAll (elementOf p x) 0 (openTag x ++ s ++ closeTag x ++ rest) = s :: matchAll (elementOf p x) 0 rest :=
  matchAll_hit (List.cons_ne_nil _ _) (elementOf_hit hp hs)

theorem blockOf_hit (h : Quiet ('/' :: x) s) :
    blockOf x (openTag x ++ s ++ closeTag x ++ rest) = some (s, (openTag x ++ s ++ closeTag x).length) := by
  have hindex : indexOf (closeTag x) (s ++ (closeTag x ++ rest)) = some s.length := by
    rw [← List.append_assoc]
    exact h.indexOf_tag
  rw [blockOf, List.append_assoc, List.append_assoc, if_pos (List.isPrefixOf_iff_prefix.mpr (List.prefix_append _ _)),
    List.drop_left]
  dsimp only
  rw [hindex, Option.map_some, List.take_left]
  simp only [List.length_append, Nat.add_assoc]

theorem matchAll_block (h : Quiet ('/' :: x) s) :
    matchAll (blockOf x) 0 (openTag x ++ s ++ closeTag x ++ rest) = s :: matchAll (blockOf x) 0 rest :=
  matchAll_hit (List.cons_ne_nil _ _) (blockOf_hit h)

end Quiet

/-! Replacing references -/

section References

variable {text name : Text} {r : Char} {s t rest : Text}

def reference (name : Text) : Text := '&' :: (name ++ [';'])

/-- A character or a reference. -/
inductive Chunk : Text → Prop
  | char (c : Char) : c ≠ '&' → Chunk [c]
  | named (name : Text) : '&' ∉ name → ';' ∉ name → Chunk (reference name)

theorem replaceFrom_drop (n : Nat) (s : Text) : replaceFrom text r n s = replaceFrom text r 0 (s.drop n) := by
  induction s generalizing n with
  | nil => cases n <;> rfl
  | cons c cs ih =>
      cases n with
      | zero => rfl
      | succ n => exact ih n

theorem replaceAll_here : replaceAll (reference name) r (reference name ++ rest) = r :: replaceAll (reference name) r rest := by
  have hstarts : (reference name).isPrefixOf ('&' :: (name ++ [';'] ++ rest)) = true :=
    List.isPrefixOf_iff_prefix.mpr (List.prefix_append _ _)
  calc replaceAll (reference name) r (reference name ++ rest)
      = r :: replaceFrom (reference name) r ((reference name).length - 1) (name ++ [';'] ++ rest) := by
        show replaceFrom (reference name) r 0 ('&' :: (name ++ [';'] ++ rest)) = _
        rw [replaceFrom, if_pos hstarts]
    _ = r :: replaceAll (reference name) r rest := by
        rw [replaceFrom_drop, reference, List.length_cons, Nat.add_sub_cancel, List.drop_left]
        rfl

theorem replaceAll_pass (h : ¬ reference name <+: s ++ rest) (hs : '&' ∉ s.tail) (hne : s ≠ []) :
    replaceAll (reference name) r (s ++ rest) = s ++ replaceAll (reference name) r rest := by
  have hpass : ∀ u : Text, '&' ∉ u → replaceFrom (reference name) r 0 (u ++ rest) = u ++ replaceFrom (reference name) r 0 rest := by
    intro u hu
    induction u with
    | nil => rfl
    | cons c u ih =>
        have hnot : ¬ reference name <+: c :: (u ++ rest) := by
          intro hstarts
          exact hu ((List.cons_prefix_cons.mp hstarts).1 ▸ List.mem_cons_self)
        rw [List.cons_append, replaceFrom, if_neg (by rwa [List.isPrefixOf_iff_prefix]),
          ih fun hmem => hu (List.mem_cons_of_mem _ hmem), List.cons_append]
  cases s with
  | nil => exact absurd rfl hne
  | cons c s =>
      rw [List.cons_append] at h ⊢
      rw [replaceAll, replaceFrom, if_neg (by rwa [List.isPrefixOf_iff_prefix]), hpass s hs]
      rfl

theorem replaceAll_chunk (ht : Chunk t) (hname : ';' ∉ name) :
    replaceAll (reference name) r (t ++ rest) =
      (if t = reference name then [r] else t) ++ replaceAll (reference name) r rest := by
  by_cases heq : t = reference name
  · rw [if_pos heq, heq]
    exact replaceAll_here
  · rw [if_neg heq]
    cases ht with
    | char c hc =>
        exact replaceAll_pass (fun hstarts => hc (List.cons_prefix_cons.mp hstarts).1.symm) (List.not_mem_nil)
          (List.cons_ne_nil _ _)
    | named other hamp hend =>
        refine replaceAll_pass ?_ ?_ (List.cons_ne_nil _ _)
        · intro hstarts
          have htail : name ++ [';'] <+: other ++ ';' :: rest := by
            rw [List.append_cons other]
            exact (List.cons_prefix_cons.mp hstarts).2
          exact heq (congrArg reference (prefix_unique hname hend htail).symm)
        · intro hmem
          rcases List.mem_append.mp hmem with hleft | hright
          · exact hamp hleft
          · exact absurd (List.mem_singleton.mp hright) (by decide)

theorem replaceAll_chunks {ts : List Text} (hts : ∀ t ∈ ts, Chunk t) (hname : ';' ∉ name) :
    replaceAll (reference name) r ts.flatten = (ts.map fun t => if t = reference name then [r] else t).flatten := by
  induction ts with
  | nil => rfl
  | cons t ts ih =>
      rw [List.flatten_cons, replaceAll_chunk (hts t List.mem_cons_self) hname,
        ih fun u hu => hts u (List.mem_cons_of_mem _ hu)]
      rfl

theorem Chunk.replace (ht : Chunk t) (hr : r ≠ '&') : Chunk (if t = reference name then [r] else t) := by
  split
  · exact .char r hr
  · exact ht

end References

/-! What character data is, and what it is written as -/

section Writing

variable {w : Written} {p : Piece} {base n : Nat} {cs digits : Text} {c : Char}

theorem digitOf_some {d : Nat} (h : digitOf base c = some d) : c ≠ '&' ∧ c ≠ ';' ∧ c ≠ '<' := by
  refine ⟨?_, ?_, ?_⟩
  all_goals
    rintro rfl
    simp [digitOf, isDigit] at h

theorem numeralFrom_some {m : Nat} (h : numeralFrom base m cs = some n) : ∀ c ∈ cs, c ≠ '&' ∧ c ≠ ';' ∧ c ≠ '<' := by
  induction cs generalizing m with
  | nil => exact List.forall_mem_nil _
  | cons c cs ih =>
      obtain ⟨d, hd, htail⟩ := Option.bind_eq_some_iff.mp h
      exact List.forall_mem_cons.mpr ⟨digitOf_some hd, ih htail⟩

theorem codePoint_some (h : codePoint digits = some n) : ∀ c ∈ digits, c ≠ '&' ∧ c ≠ ';' ∧ c ≠ '<' := by
  unfold codePoint at h
  split at h
  next => exact List.forall_mem_cons.mpr ⟨by decide, numeralFrom_some h⟩
  next => exact numeralFrom_some h
  next => cases h

theorem Entity.name_free (e : Entity) : '&' ∉ e.name ∧ ';' ∉ e.name := by
  cases e <;> decide

theorem Piece.chunk (hp : p.isCdata = false) : Chunk p.raw := by
  cases p with
  | plain c hc => exact .char c hc.2.1
  | named e => exact .named e.name e.name_free.1 e.name_free.2
  | numeric c digits h =>
      have hdigits := codePoint_some h
      refine .named ('#' :: digits) ?_ ?_
      · exact fun hmem => (List.mem_cons.mp hmem).elim (by decide) fun hmem => (hdigits _ hmem).1 rfl
      · exact fun hmem => (List.mem_cons.mp hmem).elim (by decide) fun hmem => (hdigits _ hmem).2.1 rfl
  | cdata text => exact absurd hp.symm Bool.false_ne_true

theorem Piece.raw_free (hp : p.isCdata = false) : '<' ∉ p.raw := by
  cases p with
  | plain c hc => exact fun hmem => hc.1 (List.mem_singleton.mp hmem).symm
  | named e => cases e <;> decide
  | numeric c digits h =>
      intro hmem
      rcases List.mem_cons.mp hmem with hmem | hmem
      · exact absurd hmem (by decide)
      · rcases List.mem_cons.mp hmem with hmem | hmem
        · exact absurd hmem (by decide)
        · rcases List.mem_append.mp hmem with hmem | hmem
          · exact (codePoint_some h _ hmem).2.2 rfl
          · exact absurd hmem (by decide)
  | cdata text => exact absurd hp.symm Bool.false_ne_true

theorem Piece.content_lt_raw (p : Piece) (hplain : p.isPlain = false) (hp : p.isCdata = false) :
    p.content.length < p.raw.length := by
  cases p with
  | plain c hc => cases hplain
  | named e => cases e <;> decide
  | numeric c digits h => exact Nat.succ_lt_succ (Nat.zero_lt_succ _)
  | cdata text => exact absurd hp.symm Bool.false_ne_true

theorem Piece.content_le_raw (p : Piece) (hp : p.isCdata = false) : p.content.length ≤ p.raw.length := by
  cases hplain : p.isPlain with
  | true =>
      cases p with
      | plain c hc => exact Nat.le_refl _
      | named | numeric | cdata => exact absurd hplain Bool.false_ne_true
  | false => exact (p.content_lt_raw hplain hp).le

/-- What is left of a piece when the five names are replaced. -/
def Piece.unnamed : Piece → Text
  | named e => [e.char]
  | p => p.raw

theorem Piece.unnamed_eq (hp : p.isNumeric = false) (hfree : p.isCdata = false) : p.unnamed = p.content := by
  cases p with
  | plain | named => rfl
  | numeric => exact absurd hp.symm Bool.false_ne_true
  | cdata => exact absurd hfree.symm Bool.false_ne_true

theorem Piece.content_le_unnamed (p : Piece) (hp : p.isCdata = false) : p.content.length ≤ p.unnamed.length := by
  cases p with
  | plain | named => exact Nat.le_refl _
  | numeric c digits h => exact Nat.succ_le_succ (Nat.zero_le _)
  | cdata => exact absurd hp.symm Bool.false_ne_true

theorem Piece.content_lt_unnamed (p : Piece) (hp : p.isNumeric = true) : p.content.length < p.unnamed.length := by
  cases p with
  | numeric c digits h => exact Nat.succ_lt_succ (Nat.zero_lt_succ _)
  | plain | named | cdata => exact absurd hp Bool.false_ne_true

theorem Piece.amp_mem_raw (hp : p.isPlain = false) (hfree : p.isCdata = false) : '&' ∈ p.raw := by
  cases p with
  | plain => exact absurd hp.symm Bool.false_ne_true
  | named | numeric => exact List.mem_cons_self
  | cdata => exact absurd hfree.symm Bool.false_ne_true

namespace Written

theorem raw_free (hw : w.Free) : '<' ∉ w.raw := by
  intro hmem
  obtain ⟨p, hp, hmem⟩ := List.mem_flatMap.mp hmem
  exact Piece.raw_free (hw p hp) hmem

def plain (w : Written) : Bool := w.all Piece.isPlain

theorem raw_plain (hw : w.plain = true) : w.raw = w.content := by
  unfold Written.raw Written.content
  rw [List.flatMap, List.flatMap, List.map_congr_left]
  intro p hp
  have hplain := List.all_eq_true.mp hw p hp
  cases p with
  | plain => rfl
  | named | numeric | cdata => exact absurd hplain Bool.false_ne_true

theorem content_le_raw (hfree : w.Free) : w.content.length ≤ w.raw.length := by
  induction w with
  | nil => exact Nat.le_refl _
  | cons p w ih =>
      have htail := ih fun q hq => hfree q (List.mem_cons_of_mem _ hq)
      have hp := hfree p List.mem_cons_self
      simp only [Written.content, Written.raw, List.flatMap_cons, List.length_append] at htail ⊢
      exact Nat.add_le_add (p.content_le_raw hp) htail

/-- With a reference in it, text is longer than what it stands for. -/
theorem content_lt_raw (hw : w.plain = false) (hfree : w.Free) : w.content.length < w.raw.length := by
  induction w with
  | nil => cases hw
  | cons p w ih =>
      have hp := hfree p List.mem_cons_self
      have hrest : Written.Free w := fun q hq => hfree q (List.mem_cons_of_mem _ hq)
      have htail := content_le_raw hrest
      rw [plain, List.all_cons, Bool.and_eq_false_iff] at hw
      simp only [Written.content, Written.raw, List.flatMap_cons, List.length_append] at ih htail ⊢
      rcases hw with hw | hw
      · exact Nat.add_lt_add_of_lt_of_le (p.content_lt_raw hw hp) htail
      · exact Nat.add_lt_add_of_le_of_lt (p.content_le_raw hp) (ih hw hrest)

def unnamed (w : Written) : Text := w.flatMap Piece.unnamed

theorem unnamed_eq (hw : ∀ p ∈ w, p.isNumeric = false) (hfree : w.Free) : w.unnamed = w.content := by
  unfold unnamed content
  rw [List.flatMap, List.flatMap, List.map_congr_left]
  exact fun p hp => p.unnamed_eq (hw p hp) (hfree p hp)

/-- With a character written by number, text stays longer than what it stands for. -/
theorem content_lt_unnamed (hw : ¬ ∀ p ∈ w, p.isNumeric = false) (hfree : w.Free) : w.content.length < w.unnamed.length := by
  have hle : ∀ w : Written, w.Free → w.content.length ≤ w.unnamed.length := by
    intro w hfree
    induction w with
    | nil => exact Nat.le_refl _
    | cons p w ih =>
        have htail := ih fun q hq => hfree q (List.mem_cons_of_mem _ hq)
        simp only [content, unnamed, List.flatMap_cons, List.length_append] at htail ⊢
        exact Nat.add_le_add (p.content_le_unnamed (hfree p List.mem_cons_self)) htail
  induction w with
  | nil => exact absurd (List.forall_mem_nil _) hw
  | cons p w ih =>
      have hp := hfree p List.mem_cons_self
      have hrest : Written.Free w := fun q hq => hfree q (List.mem_cons_of_mem _ hq)
      have htail := hle w hrest
      simp only [content, unnamed, List.flatMap_cons, List.length_append] at ih htail ⊢
      cases hnumeric : p.isNumeric with
      | true => exact Nat.add_lt_add_of_lt_of_le (p.content_lt_unnamed hnumeric) htail
      | false =>
          exact Nat.add_lt_add_of_le_of_lt (p.content_le_unnamed hp)
            (ih (fun hall => hw (List.forall_mem_cons.mpr ⟨hnumeric, hall⟩)) hrest)

theorem amp_mem_raw (hw : w.plain = false) (hfree : w.Free) : '&' ∈ w.raw := by
  obtain ⟨p, hp, hplain⟩ := List.all_eq_false.mp hw
  exact List.mem_flatMap.mpr ⟨p, hp, Piece.amp_mem_raw (Bool.eq_false_iff.mpr hplain) (hfree p hp)⟩

end Written

end Writing

end Corebase.XmlText
