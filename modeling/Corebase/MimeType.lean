import Corebase.JsText

namespace Corebase.MimeType

open JsText (Text isLetter isDigit isSpace trim trimStart)

/-! Media types as browsers read them -/

def httpSpace (c : Char) : Bool := c ∈ ['\t', '\n', '\r', ' ']

def tokenChar (c : Char) : Bool :=
  isLetter c || isDigit c || c ∈ ['!', '#', '$', '%', '&', '\'', '*', '+', '-', '.', '^', '_', '\x60', '|', '~']

def token (t : Text) : Bool := t ≠ [] && t.all tokenChar

def strip (t : Text) : Text := ((t.dropWhile httpSpace).reverse.dropWhile httpSpace).reverse

def stripEnd (t : Text) : Text := (t.reverse.dropWhile httpSpace).reverse

/-- The type and the subtype, in lower case. -/
def parse (input : Text) : Option (Text × Text) :=
  let input := strip input
  let kind := input.takeWhile (· ≠ '/')
  match input.dropWhile (· ≠ '/') with
  | [] => none
  | _ :: rest =>
      let subtype := stripEnd (rest.takeWhile (· ≠ ';'))
      if token kind && token subtype then some (kind.map Char.toLower, subtype.map Char.toLower) else none

def essence (input : Text) : Option Text := (parse input).map fun m => m.1 ++ '/' :: m.2

def isXml (essence : Text) : Bool :=
  "+xml".toList.isSuffixOf essence || essence = "text/xml".toList || essence = "application/xml".toList

/-- What is opened as a document that can run scripts. -/
def scriptable (essence : Text) : Bool := essence = "text/html".toList || isXml essence

/-! Characters of tokens -/

/-- What holds of the characters of ASCII holds of each of them. -/
theorem of_ascii {P : Char → Prop} (h : ∀ n < 128, P (Char.ofNat n)) {c : Char} (hc : c.toNat < 128) : P c := by
  have := h c.toNat hc
  rwa [Char.ofNat_toNat] at this

theorem token_ascii {c : Char} (h : tokenChar c = true) : c.toNat < 128 := by
  simp only [tokenChar, isLetter, isDigit, Bool.or_eq_true, Bool.and_eq_true, decide_eq_true_eq, List.mem_cons,
    List.not_mem_nil, or_false] at h
  simp only [Char.le_def, UInt32.le_iff_toNat_le] at h
  have hval : c.toNat = c.val.toNat := rfl
  rcases h with ((h | h) | h) | h
  · have : 'Z'.val.toNat = 90 := rfl
    omega
  · have : 'z'.val.toNat = 122 := rfl
    omega
  · have : '9'.val.toNat = 57 := rfl
    omega
  · rcases h with rfl | rfl | rfl | rfl | rfl | rfl | rfl | rfl | rfl | rfl | rfl | rfl | rfl | rfl | rfl <;> decide

theorem token_lower {c : Char} (h : tokenChar c = true) : tokenChar c.toLower = true ∧ c.toLower.toLower = c.toLower ∧
    isSpace c = false ∧ c ≠ '/' ∧ c ≠ ';' := by
  have hall : ∀ n < 128, tokenChar (Char.ofNat n) = true → tokenChar (Char.ofNat n).toLower = true ∧
      (Char.ofNat n).toLower.toLower = (Char.ofNat n).toLower ∧ isSpace (Char.ofNat n) = false ∧ Char.ofNat n ≠ '/' ∧
        Char.ofNat n ≠ ';' := by decide
  exact @of_ascii (fun c => tokenChar c = true → tokenChar c.toLower = true ∧ c.toLower.toLower = c.toLower ∧
    isSpace c = false ∧ c ≠ '/' ∧ c ≠ ';') hall c (token_ascii h) h

theorem token_iff {t : Text} : token t = true ↔ t ≠ [] ∧ ∀ c ∈ t, tokenChar c = true := by
  simp [token]

theorem token_map_lower {t : Text} (h : token t = true) : token (t.map Char.toLower) = true := by
  obtain ⟨hne, hall⟩ := token_iff.mp h
  refine token_iff.mpr ⟨by simpa using hne, fun c hc => ?_⟩
  obtain ⟨d, hd, rfl⟩ := List.mem_map.mp hc
  exact (token_lower (hall d hd)).1

theorem token_not_space {c : Char} (h : tokenChar c = true) : httpSpace c = false := by
  have hspace := (token_lower h).2.2.1
  by_contra hblank
  rw [Bool.not_eq_false, httpSpace, decide_eq_true_eq] at hblank
  simp only [List.mem_cons, List.not_mem_nil, or_false] at hblank
  rcases hblank with rfl | rfl | rfl | rfl <;> exact absurd hspace (by decide)

theorem httpSpace_isSpace {c : Char} (h : httpSpace c = true) : isSpace c = true := by
  simp only [httpSpace, decide_eq_true_eq, List.mem_cons, List.not_mem_nil, or_false] at h
  rcases h with rfl | rfl | rfl | rfl <;> decide

/-! The shape of what has an essence -/

/-- The essence stands in the input between blanks, and parameters may follow. -/
structure Shape (input essence lead body trail rest : Text) : Prop where
  input_eq : input = lead ++ (body ++ (trail ++ rest))
  blankLead : ∀ c ∈ lead, httpSpace c = true
  blankTrail : ∀ c ∈ trail, httpSpace c = true
  params : ∀ c, rest.head? = some c → c = ';'
  essence_eq : body.map Char.toLower = essence
  split : ∃ kind subtype, body = kind ++ '/' :: subtype ∧ token kind = true ∧ token subtype = true

theorem strip_split (t : Text) : ∃ lead trail, t = lead ++ (strip t ++ trail) ∧ (∀ c ∈ lead, httpSpace c = true) ∧
    ∀ c ∈ trail, httpSpace c = true := by
  refine ⟨t.takeWhile httpSpace, ((t.dropWhile httpSpace).reverse.takeWhile httpSpace).reverse, ?_, ?_, ?_⟩
  · rw [strip, ← List.reverse_append, List.takeWhile_append_dropWhile, List.reverse_reverse,
      List.takeWhile_append_dropWhile]
  · exact fun c hc => List.mem_takeWhile_imp hc
  · exact fun c hc => List.mem_takeWhile_imp (List.mem_reverse.mp hc)

theorem stripEnd_split (t : Text) : ∃ trail, t = stripEnd t ++ trail ∧ ∀ c ∈ trail, httpSpace c = true := by
  refine ⟨(t.reverse.takeWhile httpSpace).reverse, ?_, fun c hc => List.mem_takeWhile_imp (List.mem_reverse.mp hc)⟩
  rw [stripEnd, ← List.reverse_append, List.takeWhile_append_dropWhile, List.reverse_reverse]

/-- Where a text is cut, the part after the cut starts with the character that it is cut at. -/
theorem head_dropWhile {c d : Char} {t : Text} (h : (t.dropWhile (· ≠ c)).head? = some d) : d = c := by
  induction t with
  | nil => cases h
  | cons x t ih =>
      by_cases hx : x = c
      · rw [List.dropWhile_cons_of_neg (by simp [hx])] at h
        exact (Option.some.inj h).symm.trans hx
      · rw [List.dropWhile_cons_of_pos (by simp [hx])] at h
        exact ih h

theorem shape_of_essence {input e : Text} (h : essence input = some e) :
    ∃ lead body trail rest, Shape input e lead body trail rest := by
  obtain ⟨lead, trail, hinput, hlead, htrail⟩ := strip_split input
  obtain ⟨m, hparse, rfl⟩ := Option.map_eq_some_iff.mp h
  rw [parse] at hparse
  have hcut : (strip input).takeWhile (· ≠ '/') ++ (strip input).dropWhile (· ≠ '/') = strip input :=
    List.takeWhile_append_dropWhile
  cases hrest : (strip input).dropWhile (· ≠ '/') with
  | nil =>
      rw [hrest] at hparse
      cases hparse
  | cons s r =>
      obtain rfl : s = '/' := head_dropWhile (by rw [hrest]; rfl)
      rw [hrest] at hparse hcut
      dsimp only at hparse
      split at hparse
      next htoken =>
        cases hparse
        obtain ⟨blank, hblank, hall⟩ := stripEnd_split (r.takeWhile (· ≠ ';'))
        have hparams : r.takeWhile (· ≠ ';') ++ r.dropWhile (· ≠ ';') = r := List.takeWhile_append_dropWhile
        rw [hblank] at hparams
        obtain ⟨hkind, hsub⟩ := Bool.and_eq_true_iff.mp htoken
        have hessence : ((strip input).takeWhile (· ≠ '/') ++ '/' :: stripEnd (r.takeWhile (· ≠ ';'))).map Char.toLower =
            ((strip input).takeWhile (· ≠ '/')).map Char.toLower ++
              '/' :: (stripEnd (r.takeWhile (· ≠ ';'))).map Char.toLower := by
          rw [List.map_append, List.map_cons]
          rfl
        cases hcase : r.dropWhile (· ≠ ';') with
        | nil =>
            rw [hcase, List.append_nil] at hparams
            refine ⟨lead, _, blank ++ trail, [], ?_, hlead, ?_, by simp, hessence, _, _, rfl, hkind, hsub⟩
            · rw [List.append_nil, ← List.append_assoc _ blank, List.append_assoc _ _ blank, List.cons_append, hparams,
                hcut, ← hinput]
            · intro c hc
              rcases List.mem_append.mp hc with hc | hc
              · exact hall c hc
              · exact htrail c hc
        | cons p ps =>
            obtain rfl : p = ';' := head_dropWhile (by rw [hcase]; rfl)
            refine ⟨lead, _, blank, r.dropWhile (· ≠ ';') ++ trail, ?_, hlead, hall, ?_, hessence, _, _, rfl, hkind, hsub⟩
            · rw [← List.append_assoc blank, ← List.append_assoc _ (blank ++ _), List.append_assoc _ _ (blank ++ _),
                List.cons_append, ← List.append_assoc _ blank, hparams, hcut, ← hinput]
            · rw [hcase]
              intro c hc
              exact (Option.some.inj hc).symm
      next => cases hparse

namespace Shape

variable {input essence lead body trail rest : Text} (h : Shape input essence lead body trail rest)

include h

theorem body_clean {c : Char} (hc : c ∈ body) : isSpace c = false ∧ c ≠ ';' := by
  obtain ⟨kind, subtype, rfl, hkind, hsub⟩ := h.split
  rcases List.mem_append.mp hc with hc | hc
  · have := token_lower ((token_iff.mp hkind).2 c hc)
    exact ⟨this.2.2.1, this.2.2.2.2⟩
  · rcases List.mem_cons.mp hc with rfl | hc
    · decide
    · have := token_lower ((token_iff.mp hsub).2 c hc)
      exact ⟨this.2.2.1, this.2.2.2.2⟩

theorem body_ascii {c : Char} (hc : c ∈ body) : c.toNat < 128 := by
  obtain ⟨kind, subtype, rfl, hkind, hsub⟩ := h.split
  rcases List.mem_append.mp hc with hc | hc
  · exact token_ascii ((token_iff.mp hkind).2 c hc)
  · rcases List.mem_cons.mp hc with rfl | hc
    · decide
    · exact token_ascii ((token_iff.mp hsub).2 c hc)

theorem body_ne_nil : body ≠ [] := by
  obtain ⟨kind, subtype, rfl, -, -⟩ := h.split
  simp

theorem before_params : input.takeWhile (· ≠ ';') = lead ++ (body ++ trail) := by
  have hblank : ∀ c, httpSpace c = true → c ≠ ';' := by
    rintro c hc rfl
    exact absurd hc (by decide)
  have hall : ∀ c ∈ lead ++ (body ++ trail), decide (c ≠ ';') = true := by
    intro c hc
    apply decide_eq_true
    rcases List.mem_append.mp hc with hc | hc
    · exact hblank c (h.blankLead c hc)
    · rcases List.mem_append.mp hc with hc | hc
      · exact (h.body_clean hc).2
      · exact hblank c (h.blankTrail c hc)
  rw [h.input_eq, ← List.append_assoc body, ← List.append_assoc lead]
  exact (JsText.takeWhile_stop hall fun c hc => by simp [h.params c hc]).1

/-- Cut at its parameters and trimmed, the input is the body. -/
theorem trim_before : trim (input.takeWhile (· ≠ ';')) = body := by
  have hlead : ∀ c ∈ lead, isSpace c = true := fun c hc => httpSpace_isSpace (h.blankLead c hc)
  have htrail : ∀ c ∈ trail.reverse, isSpace c = true := by
    intro c hc
    exact httpSpace_isSpace (h.blankTrail c (List.mem_reverse.mp hc))
  have hstart : ∀ (t : Text), t ≠ [] → (∀ c ∈ t, isSpace c = false) → ∀ more, trimStart (t ++ more) = t ++ more := by
    intro t hne hall more
    cases t with
    | nil => exact absurd rfl hne
    | cons c t =>
        rw [trimStart, List.cons_append, List.dropWhile_cons_of_neg]
        rw [hall c (List.mem_cons_self ..)]
        decide
  have hfirst : trimStart (lead ++ (body ++ trail)) = body ++ trail := by
    rw [trimStart, List.dropWhile_append_of_pos hlead]
    exact hstart body h.body_ne_nil (fun c hc => (h.body_clean hc).1) trail
  have hlast : trimStart (body ++ trail).reverse = body.reverse := by
    have hback := hstart body.reverse (by simpa using h.body_ne_nil)
      (fun c hc => (h.body_clean (List.mem_reverse.mp hc)).1) []
    rw [List.append_nil] at hback
    rw [List.reverse_append, trimStart, List.dropWhile_append_of_pos htrail]
    exact hback
  rw [h.before_params, trim, hfirst, hlast, List.reverse_reverse]

end Shape

theorem essence_tokens {kind subtype : Text} (hkind : token kind = true) (hsub : token subtype = true) :
    essence (kind ++ '/' :: subtype) = some (kind.map Char.toLower ++ '/' :: subtype.map Char.toLower) := by
  have hk := (token_iff.mp hkind).2
  have hs := (token_iff.mp hsub).2
  have hnone : ∀ t : Text, (∀ c ∈ t, httpSpace c = false) → t.dropWhile httpSpace = t := by
    intro t ht
    cases t with
    | nil => rfl
    | cons c t => exact List.dropWhile_cons_of_neg (by simp [ht c (List.mem_cons_self ..)])
  have hblank : ∀ c ∈ kind ++ '/' :: subtype, httpSpace c = false := by
    intro c hc
    rcases List.mem_append.mp hc with hc | hc
    · exact token_not_space (hk c hc)
    · rcases List.mem_cons.mp hc with rfl | hc
      · decide
      · exact token_not_space (hs c hc)
  have hstrip : strip (kind ++ '/' :: subtype) = kind ++ '/' :: subtype := by
    rw [strip, hnone _ hblank, hnone _ fun c hc => hblank c (List.mem_reverse.mp hc), List.reverse_reverse]
  obtain ⟨htake, hdrop⟩ := JsText.takeWhile_stop (p := (· ≠ '/')) (w := kind) (b := '/' :: subtype)
    (fun c hc => decide_eq_true (token_lower (hk c hc)).2.2.2.1) (fun c hc => by rw [← Option.some.inj hc]; decide)
  have hparams : subtype.takeWhile (· ≠ ';') = subtype :=
    List.takeWhile_eq_self_iff.mpr fun c hc => decide_eq_true (token_lower (hs c hc)).2.2.2.2
  have hend : stripEnd subtype = subtype := by
    rw [stripEnd, hnone _ fun c hc => token_not_space (hs c (List.mem_reverse.mp hc)), List.reverse_reverse]
  rw [essence, parse]
  simp only [hstrip, htake, hdrop, hparams, hend, hkind, hsub, Bool.and_self, if_true, Option.map_some]

/-- An essence is its own essence. -/
theorem essence_self {input e : Text} (h : essence input = some e) : essence e = some e ∧ e.map Char.toLower = e := by
  obtain ⟨lead, body, trail, rest, hshape⟩ := shape_of_essence h
  obtain ⟨kind, subtype, rfl, hkind, hsub⟩ := hshape.split
  have hidem : ∀ t, token t = true → (t.map Char.toLower).map Char.toLower = t.map Char.toLower := by
    intro t ht
    rw [List.map_map]
    exact List.map_congr_left fun c hc => (token_lower ((token_iff.mp ht).2 c hc)).2.1
  rw [← hshape.essence_eq, List.map_append, List.map_cons]
  have hslash : '/'.toLower = '/' := by decide
  refine ⟨?_, ?_⟩
  · rw [hslash, essence_tokens (token_map_lower hkind) (token_map_lower hsub), hidem _ hkind, hidem _ hsub]
  · rw [List.map_append, List.map_cons, hidem _ hkind, hidem _ hsub, hslash, hslash]

end Corebase.MimeType
