import Corebase.Json

namespace Corebase.Json

open JsNumber
open JsText (Text)

theorem Value.induct {N : Type} {P : Value N → Prop} (scalar : ∀ value, P (.scalar value))
    (array : ∀ items, (∀ item ∈ items, P item) → P (.array items))
    (object : ∀ members, (∀ member ∈ members, P member.2) → P (.object members)) (value : Value N) : P value := by
  refine Value.rec (motive_1 := P) (motive_2 := fun items => ∀ item ∈ items, P item)
    (motive_3 := fun members => ∀ member ∈ members, P member.2) (motive_4 := fun member => P member.2)
    scalar array object ?_ ?_ ?_ ?_ ?_ value
  · exact List.forall_mem_nil _
  · exact fun item items hitem hitems => List.forall_mem_cons.mpr ⟨hitem, hitems⟩
  · exact List.forall_mem_nil _
  · exact fun member members hmember hmembers => List.forall_mem_cons.mpr ⟨hmember, hmembers⟩
  · exact fun name value h => h

/-! The tokens of a document are read back as the document. -/

mutual

def tokens : Document → List Token
  | .scalar value => [.scalar value]
  | .array items => .beginArray :: (itemTokens items).tail ++ [.endArray]
  | .object members => .beginObject :: (memberTokens members).tail ++ [.endObject]

def itemTokens : List Document → List Token
  | [] => []
  | item :: items => .comma :: tokens item ++ itemTokens items

def memberTokens : List (Str × Document) → List Token
  | [] => []
  | (name, value) :: members =>
      .comma :: .scalar (.string name) :: .colon :: tokens value ++ memberTokens members

end

/-- The tokens of the document are read as one value. -/
def Readable (document : Document) : Prop :=
  ∀ stack ts, readAll (.value stack) (tokens document ++ ts) = readAll (.after document stack) ts

theorem readAll_first (document : Document) (stack : List Frame) (ts : List Token) :
    readAll (.item stack) (tokens document ++ ts) = readAll (.value (.array [] :: stack)) (tokens document ++ ts) := by
  cases document <;> rfl

theorem readAll_items {items : List Document} (h : ∀ item ∈ items, Readable item) (item : Document)
    (done : List Document) (stack : List Frame) (ts : List Token) :
    readAll (.after item (.array done :: stack)) (itemTokens items ++ .endArray :: ts) =
      readAll (.after (.array (done ++ item :: items)) stack) ts := by
  induction items generalizing item done with
  | nil => rfl
  | cons next items ih =>
      obtain ⟨hnext, hitems⟩ := List.forall_mem_cons.mp h
      calc readAll (.after item (.array done :: stack)) (itemTokens (next :: items) ++ .endArray :: ts)
          = readAll (.value (.array (done ++ [item]) :: stack))
              (tokens next ++ (itemTokens items ++ .endArray :: ts)) := by
            simp only [itemTokens, List.cons_append, List.append_assoc]
            rfl
        _ = readAll (.after next (.array (done ++ [item]) :: stack)) (itemTokens items ++ .endArray :: ts) :=
            hnext _ _
        _ = readAll (.after (.array (done ++ item :: next :: items)) stack) ts := by
            rw [ih hitems, List.append_assoc]
            rfl

theorem readAll_members {members : List (Str × Document)} (h : ∀ member ∈ members, Readable member.2)
    (name : Str) (value : Document) (done : List (Str × Document)) (stack : List Frame) (ts : List Token) :
    readAll (.after value (.object done name :: stack)) (memberTokens members ++ .endObject :: ts) =
      readAll (.after (.object (done ++ (name, value) :: members)) stack) ts := by
  induction members generalizing name value done with
  | nil => rfl
  | cons next members ih =>
      obtain ⟨hnext, hmembers⟩ := List.forall_mem_cons.mp h
      obtain ⟨key, document⟩ := next
      calc readAll (.after value (.object done name :: stack))
            (memberTokens ((key, document) :: members) ++ .endObject :: ts)
          = readAll (.value (.object (done ++ [(name, value)]) key :: stack))
              (tokens document ++ (memberTokens members ++ .endObject :: ts)) := by
            simp only [memberTokens, List.cons_append, List.append_assoc]
            rfl
        _ = readAll (.after document (.object (done ++ [(name, value)]) key :: stack))
              (memberTokens members ++ .endObject :: ts) := hnext _ _
        _ = readAll (.after (.object (done ++ (name, value) :: (key, document) :: members)) stack) ts := by
            rw [ih hmembers, List.append_assoc]
            rfl

theorem readable (document : Document) : Readable document := by
  induction document using Value.induct with
  | scalar value => exact fun stack ts => rfl
  | array items ih =>
      intro stack ts
      cases items with
      | nil => rfl
      | cons item items =>
          obtain ⟨hitem, hitems⟩ := List.forall_mem_cons.mp ih
          calc readAll (.value stack) (tokens (.array (item :: items)) ++ ts)
              = readAll (.item stack) (tokens item ++ (itemTokens items ++ .endArray :: ts)) := by
                simp only [tokens, itemTokens, List.cons_append, List.tail_cons, List.append_assoc, List.nil_append]
                rfl
            _ = readAll (.after item (.array [] :: stack)) (itemTokens items ++ .endArray :: ts) := by
                rw [readAll_first, hitem]
            _ = readAll (.after (.array (item :: items)) stack) ts := readAll_items hitems item [] stack ts
  | object members ih =>
      intro stack ts
      cases members with
      | nil => rfl
      | cons member members =>
          obtain ⟨hmember, hmembers⟩ := List.forall_mem_cons.mp ih
          obtain ⟨name, value⟩ := member
          calc readAll (.value stack) (tokens (.object ((name, value) :: members)) ++ ts)
              = readAll (.value (.object [] name :: stack)) (tokens value ++ (memberTokens members ++ .endObject :: ts)) := by
                simp only [tokens, memberTokens, List.cons_append, List.tail_cons, List.append_assoc, List.nil_append]
                rfl
            _ = readAll (.after value (.object [] name :: stack)) (memberTokens members ++ .endObject :: ts) :=
                hmember _ _
            _ = readAll (.after (.object ((name, value) :: members)) stack) ts :=
                readAll_members hmembers name value [] stack ts

theorem readAll_tokens (document : Document) : readAll (.value []) (tokens document) = some document := by
  have h := readable document [] []
  rw [List.append_nil] at h
  exact h

/-! What is printed is cut into the tokens of what it says. -/

/-- The text takes the mode to another one, with these tokens. -/
def Reads (mode : Mode) (text : Str) (ts : List Token) (next : Mode) : Prop :=
  ∀ rest, lex mode (text ++ rest) = (lex next rest).map (ts ++ ·)

theorem Reads.refl (mode : Mode) : Reads mode [] [] mode := by
  intro rest
  exact Option.map_id'.symm

theorem Reads.trans {mode next last : Mode} {text text' : Str} {ts ts' : List Token} (h : Reads mode text ts next)
    (h' : Reads next text' ts' last) : Reads mode (text ++ text') (ts ++ ts') last := by
  intro rest
  rw [List.append_assoc, h, h', Option.map_map]
  congr 1
  funext tail
  exact (List.append_assoc ts ts' tail).symm

theorem Reads.cons {mode next last : Mode} {u : Nat} {text : Str} {ts ts' : List Token}
    (h : step mode u = some (ts, next)) (h' : Reads next text ts' last) : Reads mode (u :: text) (ts ++ ts') last := by
  intro rest
  rw [List.cons_append, lex, h, Option.bind_some]
  dsimp only
  rw [h', Option.map_map]
  congr 1
  funext tail
  exact (List.append_assoc ts ts' tail).symm

theorem Reads.skip {mode next last : Mode} {u : Nat} {text : Str} {ts : List Token}
    (h : step mode u = some ([], next)) (h' : Reads next text ts last) : Reads mode (u :: text) ts last :=
  Reads.cons h h'

theorem Reads.unit {mode next : Mode} {u : Nat} {ts : List Token} (h : step mode u = some (ts, next)) :
    Reads mode [u] ts next := by
  simpa using Reads.cons h (Reads.refl next)

/-! Strings -/

theorem hexDigit_hexUnit {d : Nat} (h : d < 16) : hexDigit (hexUnit d) = some d := by
  revert d
  decide

theorem reads_hex (done : Str) (count value : Nat) {d : Nat} (hd : d < 16) (hcount : count ≠ 3) :
    Reads (.hex done count value) [hexUnit d] [] (.hex done (count + 1) (16 * value + d)) := by
  apply Reads.unit
  simp [step, hexDigit_hexUnit hd, hcount]

theorem reads_lastHex (done : Str) (value : Nat) {d : Nat} (hd : d < 16) :
    Reads (.hex done 3 value) [hexUnit d] [] (.string ((16 * value + d) :: done)) := by
  apply Reads.unit
  simp [step, hexDigit_hexUnit hd]

theorem reads_unicodeEscape (done : Str) {u : Nat} (h : u < 65536) :
    Reads (.string done) (unicodeEscape u) [] (.string (u :: done)) := by
  have hvalue : 16 * (16 * (16 * (16 * 0 + u / 4096 % 16) + u / 256 % 16) + u / 16 % 16) + u % 16 = u := by omega
  have hdigits := ((reads_hex done 0 0 (Nat.mod_lt (u / 4096) (by norm_num)) (by decide)).trans
    (reads_hex done 1 _ (Nat.mod_lt (u / 256) (by norm_num)) (by decide))).trans
    ((reads_hex done 2 _ (Nat.mod_lt (u / 16) (by norm_num)) (by decide)).trans
      (reads_lastHex done _ (Nat.mod_lt u (by norm_num))))
  rw [hvalue] at hdigits
  exact Reads.skip rfl (Reads.skip rfl hdigits)

theorem surrogate_lt {u : Nat} (h : isLead u = true ∨ isTrail u = true) : 32 ≤ u ∧ 92 < u ∧ u < 65536 := by
  simp only [isLead, isTrail, Bool.and_eq_true, decide_eq_true_eq] at h
  omega

theorem reads_raw (done : Str) {u : Nat} (h : 32 ≤ u) (hquote : u ≠ '"'.toNat) (hback : u ≠ '\\'.toNat) :
    Reads (.string done) [u] [] (.string (u :: done)) := by
  apply Reads.unit
  have hlow : ¬ u < 32 := by omega
  simp only [step, if_neg hquote, if_neg hback, if_neg hlow]

theorem reads_surrogate (done : Str) {u : Nat} (h : isLead u = true ∨ isTrail u = true) :
    Reads (.string done) [u] [] (.string (u :: done)) := by
  obtain ⟨hlow, hback, -⟩ := surrogate_lt h
  have hquote : '"'.toNat = 34 := rfl
  have hback' : '\\'.toNat = 92 := rfl
  exact reads_raw done hlow (by omega) (by omega)

theorem reads_escapeUnit (done : Str) (u : Nat) :
    Reads (.string done) (escapeUnit u) [] (.string (u :: done)) := by
  unfold escapeUnit
  split_ifs with h h8 h12 h10 h13 h9 hescape
  · rcases h with rfl | rfl <;> exact Reads.skip rfl (Reads.unit rfl)
  · subst h8
    exact Reads.skip rfl (Reads.unit rfl)
  · subst h12
    exact Reads.skip rfl (Reads.unit rfl)
  · subst h10
    exact Reads.skip rfl (Reads.unit rfl)
  · subst h13
    exact Reads.skip rfl (Reads.unit rfl)
  · subst h9
    exact Reads.skip rfl (Reads.unit rfl)
  · apply reads_unicodeEscape
    rcases hescape with hlow | hlead | htrail
    · omega
    · exact (surrogate_lt (.inl hlead)).2.2
    · exact (surrogate_lt (.inr htrail)).2.2
  · obtain ⟨hquote, hback⟩ := not_or.mp h
    obtain ⟨hlow, -⟩ := not_or.mp hescape
    exact reads_raw done (by omega) hquote hback

/-- The units of a string, and the quotation mark at its end. -/
theorem reads_escapeUnits (paired : Bool) (us done : Str) (h : paired = true → us.head?.any isTrail = true) :
    Reads (.string done) (escapeUnits paired us ++ ['"'.toNat]) [.scalar (.string (done.reverse ++ us))] .between := by
  induction us generalizing paired done with
  | nil =>
      rw [List.append_nil]
      exact Reads.unit rfl
  | cons u us ih =>
      have hdone : done.reverse ++ u :: us = (u :: done).reverse ++ us := by simp
      rw [hdone, escapeUnits]
      split_ifs with hpaired hlead
      · have htrail : isTrail u = true := by simpa using h hpaired
        exact (reads_surrogate done (.inr htrail)).trans (ih false (u :: done) nofun)
      · rw [Bool.and_eq_true] at hlead
        exact (reads_surrogate done (.inl hlead.1)).trans (ih true (u :: done) fun _ => hlead.2)
      · rw [List.append_assoc]
        exact (reads_escapeUnit done u).trans (ih false (u :: done) nofun)

theorem reads_quote (s : Str) : Reads .between (quote s) [.scalar (.string s)] .between :=
  Reads.skip rfl (reads_escapeUnits false s [] nofun)

/-! Numbers -/

theorem isDigit_toNat {c : Char} (h : c.isDigit = true) : isDigit c.toNat = true := by
  simpa [Char.isDigit, isDigit, UInt32.le_iff_toNat_le] using h

theorem reads_whole {ds : Text} (h : ∀ c ∈ ds, c.isDigit = true) (l : Literal) :
    Reads (.number l .whole) (str ds) []
      (.number { l with mantissa := Nat.ofDigitChars 10 ds l.mantissa } .whole) := by
  induction ds generalizing l with
  | nil => exact Reads.refl _
  | cons c ds ih =>
      obtain ⟨hc, hds⟩ := List.forall_mem_cons.mp h
      refine Reads.skip ?_ (ih hds (l.digit c.toNat))
      simp only [step, numberStep, isDigit_toNat hc, if_true]

theorem reads_fraction {ds : Text} (h : ∀ c ∈ ds, c.isDigit = true) (l : Literal) :
    Reads (.number l .fraction) (str ds) []
      (.number { l with mantissa := Nat.ofDigitChars 10 ds l.mantissa, scale := l.scale + ds.length } .fraction) := by
  induction ds generalizing l with
  | nil => exact Reads.refl _
  | cons c ds ih =>
      obtain ⟨hc, hds⟩ := List.forall_mem_cons.mp h
      have hrest := ih hds (l.fractionDigit c.toNat)
      have hlength : (l.fractionDigit c.toNat).scale + ds.length = l.scale + (c :: ds).length := by
        simp only [Literal.fractionDigit, List.length_cons]
        omega
      rw [hlength] at hrest
      refine Reads.skip ?_ hrest
      simp only [step, numberStep, isDigit_toNat hc, if_true]

theorem reads_point {ds : Text} (h : ∀ c ∈ ds, c.isDigit = true) (hds : ds ≠ []) (l : Literal) :
    Reads (.number l .point) (str ds) []
      (.number { l with mantissa := Nat.ofDigitChars 10 ds l.mantissa, scale := l.scale + ds.length } .fraction) := by
  obtain ⟨c, ds, rfl⟩ := List.exists_cons_of_ne_nil hds
  have hc := isDigit_toNat (h c (by simp))
  have hfirst : step (.number l .point) c.toNat = step (.number l .fraction) c.toNat := by
    simp only [step, numberStep, hc, if_true]
  intro rest
  rw [← reads_fraction h l rest]
  simp only [str, List.map_cons, List.cons_append, lex, hfirst]

theorem reads_exponent {ds : Text} (h : ∀ c ∈ ds, c.isDigit = true) (l : Literal) :
    Reads (.number l .exponent) (str ds) []
      (.number { l with exponent := Nat.ofDigitChars 10 ds l.exponent } .exponent) := by
  induction ds generalizing l with
  | nil => exact Reads.refl _
  | cons c ds ih =>
      obtain ⟨hc, hds⟩ := List.forall_mem_cons.mp h
      refine Reads.skip ?_ (ih hds (l.exponentDigit c.toNat))
      simp only [step, numberStep, isDigit_toNat hc, if_true]

theorem reads_markSign {ds : Text} (h : ∀ c ∈ ds, c.isDigit = true) (hds : ds ≠ []) (l : Literal) :
    Reads (.number l .markSign) (str ds) []
      (.number { l with exponent := Nat.ofDigitChars 10 ds l.exponent } .exponent) := by
  obtain ⟨c, ds, rfl⟩ := List.exists_cons_of_ne_nil hds
  have hc := isDigit_toNat (h c (by simp))
  have hfirst : step (.number l .markSign) c.toNat = step (.number l .exponent) c.toNat := by
    simp only [step, numberStep, hc, if_true]
  intro rest
  rw [← reads_exponent h l rest]
  simp only [str, List.map_cons, List.cons_append, lex, hfirst]

theorem toDigits_head {n : Nat} (h : 0 < n) : (Nat.toDigits 10 n).head? ≠ some '0' := by
  induction n using Nat.strong_induction_on with
  | _ n ih =>
      rcases Nat.lt_or_ge n 10 with hlt | hge
      · rw [Nat.toDigits_of_lt_base hlt]
        simpa using (by omega : n ≠ 0)
      · rw [Nat.toDigits_of_base_le (by norm_num) hge, List.head?_append_of_ne_nil _ Nat.toDigits_ne_nil]
        exact ih (n / 10) (by omega) (by omega)

theorem toDigits_isDigit (n : Nat) : ∀ c ∈ Nat.toDigits 10 n, c.isDigit = true :=
  fun _ h => Nat.isDigit_of_mem_toDigits (by norm_num) (by norm_num) h

/-- The digits of a positive number, in place of the whole part. -/
theorem reads_sign {d : Char} {ds : Text} (h : ∀ c ∈ d :: ds, c.isDigit = true) (hd : d ≠ '0') (negative : Bool) :
    Reads (.number { negative } .sign) (str (d :: ds)) []
      (.number { negative, mantissa := Nat.ofDigitChars 10 (d :: ds) 0 } .whole) := by
  obtain ⟨hdigit, hds⟩ := List.forall_mem_cons.mp h
  refine Reads.skip ?_ (reads_whole hds (Literal.digit { negative } d.toNat))
  have hzero : d.toNat ≠ '0'.toNat := fun heq => hd (Char.toNat_inj.mp heq)
  simp only [step, numberStep, isDigit_toNat hdigit, if_true, if_neg hzero]

/-- The text is read as a number of this value. -/
def Spells (negative : Bool) (text : Text) (size : Rat) : Prop :=
  ∃ l stage, Reads (.number { negative } .sign) (str text) [] (.number l stage) ∧ stage.complete = true ∧
    l.value = signed negative size

theorem str_append (a b : Text) : str (a ++ b) = str a ++ str b := List.map_append

theorem ofDigitChars_zeros (j : Nat) : Nat.ofDigitChars 10 (List.replicate j '0') 0 = 0 := by
  rw [Nat.ofDigitChars_replicate_zero, Nat.mul_zero]

theorem spells_whole (negative : Bool) {d : Char} {ds : Text} (h : ∀ c ∈ d :: ds, c.isDigit = true) (hd : d ≠ '0')
    (j : Nat) : Spells negative (d :: ds ++ List.replicate j '0') (shift 10 (Nat.ofDigitChars 10 (d :: ds) 0) j) := by
  have hall : ∀ c ∈ d :: (ds ++ List.replicate j '0'), c.isDigit = true := by
    intro c hc
    rw [← List.cons_append, List.mem_append] at hc
    rcases hc with hc | hc
    · exact h c hc
    · rw [List.eq_of_mem_replicate hc]
      rfl
  refine ⟨_, _, reads_sign hall hd negative, rfl, ?_⟩
  rw [← List.cons_append, Nat.ofDigitChars_append, Nat.ofDigitChars_replicate_zero, Nat.mul_comm]
  simp only [Literal.value, Literal.power, shift_scale]
  congr 2
  simp

theorem reads_pointed (negative : Bool) {d : Char} (ds : Text) {es : Text} (h : ∀ c ∈ d :: ds ++ es, c.isDigit = true)
    (hd : d ≠ '0') (hes : es ≠ []) :
    Reads (.number { negative } .sign) (str (d :: ds ++ '.' :: es)) []
      (.number { negative, mantissa := Nat.ofDigitChars 10 (d :: ds ++ es) 0, scale := es.length } .fraction) := by
  obtain ⟨hds, hes'⟩ := List.forall_mem_append.mp h
  have hwhole := reads_sign hds hd negative
  have hpoint := reads_point hes' hes { negative, mantissa := Nat.ofDigitChars 10 (d :: ds) 0 }
  have hread := hwhole.trans (Reads.skip (u := '.'.toNat) rfl hpoint)
  have htext : str (d :: ds ++ '.' :: es) = str (d :: ds) ++ '.'.toNat :: str es := str_append _ _
  rw [htext, Nat.ofDigitChars_append]
  simpa using hread

theorem spells_fraction (negative : Bool) {d : Char} (ds es : Text) (h : ∀ c ∈ d :: ds ++ es, c.isDigit = true)
    (hd : d ≠ '0') (hes : es ≠ []) :
    Spells negative (d :: ds ++ '.' :: es) (shift 10 (Nat.ofDigitChars 10 (d :: ds ++ es) 0) (-es.length)) := by
  refine ⟨_, _, reads_pointed negative ds h hd hes, rfl, ?_⟩
  simp only [Literal.value, Literal.power]
  congr 2
  simp

theorem spells_small (negative : Bool) {ds : Text} (h : ∀ c ∈ ds, c.isDigit = true) (hds : ds ≠ []) (j : Nat) :
    Spells negative ('0' :: '.' :: (List.replicate j '0' ++ ds))
      (shift 10 (Nat.ofDigitChars 10 ds 0) (-(j + ds.length : Nat))) := by
  have hall : ∀ c ∈ List.replicate j '0' ++ ds, c.isDigit = true := by
    intro c hc
    rcases List.mem_append.mp hc with hc | hc
    · rw [List.eq_of_mem_replicate hc]
      rfl
    · exact h c hc
  have hpoint := reads_point hall (by simp [hds]) { negative }
  refine ⟨_, _, Reads.skip rfl (Reads.skip rfl hpoint), rfl, ?_⟩
  simp only [Literal.value, Literal.power, Nat.ofDigitChars_append, ofDigitChars_zeros]
  congr 2
  simp

theorem reads_mark {stage : Stage} (l : Literal) (hstage : stage = .whole ∨ stage = .fraction)
    (hexponent : l.exponent = 0 ∧ l.exponentNegative = false) (e : Int) :
    ∃ l', Reads (.number l stage)
        (str ('e' :: (if e < 0 then '-' else '+') :: Nat.toDigits 10 e.natAbs)) [] (.number l' .exponent) ∧
      l'.value = signed l.negative (shift 10 l.mantissa (e - l.scale)) := by
  have hmark : step (.number l stage) 'e'.toNat = some ([], .number l .mark) := by
    rcases hstage with rfl | rfl <;> rfl
  have hdigits := toDigits_isDigit e.natAbs
  by_cases he : e < 0
  · refine ⟨_, Reads.skip hmark (Reads.skip (by rw [if_pos he]; rfl)
      (reads_markSign hdigits Nat.toDigits_ne_nil { l with exponentNegative := true })), ?_⟩
    have hpower : -((e.natAbs : Nat) : Int) = e := by omega
    simp only [Literal.value, Literal.power, hexponent.1, Nat.ofDigitChars_ten_toDigits, if_true, hpower]
  · refine ⟨_, Reads.skip hmark (Reads.skip (by rw [if_neg he]; rfl)
      (reads_markSign hdigits Nat.toDigits_ne_nil l)), ?_⟩
    have hpower : ((e.natAbs : Nat) : Int) = e := by omega
    simp only [Literal.value, Literal.power, hexponent.1, hexponent.2, Nat.ofDigitChars_ten_toDigits, hpower]
    rfl

theorem spells_scientific (negative : Bool) {d : Char} {ds : Text} (h : ∀ c ∈ d :: ds, c.isDigit = true)
    (hd : d ≠ '0') (e : Int) :
    Spells negative ([d] ++ (if ds = [] then [] else '.' :: ds) ++
        'e' :: (if e < 0 then '-' else '+') :: Nat.toDigits 10 e.natAbs)
      (shift 10 (Nat.ofDigitChars 10 (d :: ds) 0) (e - ds.length)) := by
  by_cases hds : ds = []
  · subst hds
    obtain ⟨l, hread, hvalue⟩ := reads_mark { negative, mantissa := Nat.ofDigitChars 10 [d] 0 } (.inl rfl) ⟨rfl, rfl⟩ e
    refine ⟨l, .exponent, ?_, rfl, hvalue⟩
    rw [if_pos rfl, List.append_nil, str_append]
    exact (reads_sign h hd negative).trans hread
  · have hpointed := reads_pointed negative [] h hd hds
    obtain ⟨l, hread, hvalue⟩ := reads_mark { negative, mantissa := Nat.ofDigitChars 10 (d :: ds) 0, scale := ds.length }
      (.inr rfl) ⟨rfl, rfl⟩ e
    refine ⟨l, .exponent, ?_, rfl, hvalue⟩
    rw [if_neg hds, str_append]
    exact hpointed.trans hread

theorem spells_decimal (negative : Bool) {s : Nat} (hs : 0 < s) (p : Int) :
    Spells negative (decimalText s p) (shift 10 s p) := by
  obtain ⟨d, ds, hdigits⟩ := List.exists_cons_of_ne_nil (Nat.toDigits_ne_nil (n := s) (b := 10))
  have hall := toDigits_isDigit s
  have hhead := toDigits_head hs
  have hvalue := Nat.ofDigitChars_ten_toDigits (n := s)
  rw [hdigits] at hall hhead hvalue
  have hd : d ≠ '0' := by simpa using hhead
  simp only [decimalText, hdigits]
  by_cases hwhole : ((d :: ds).length : Int) ≤ p + (d :: ds).length ∧ p + (d :: ds).length ≤ 21
  · rw [if_pos hwhole]
    have hp : ((p.toNat : Nat) : Int) = p := by omega
    have hspells := spells_whole negative hall hd p.toNat
    rwa [hvalue, hp] at hspells
  rw [if_neg hwhole]
  by_cases hpoint : 0 < p + (d :: ds).length ∧ p + (d :: ds).length ≤ 21
  · rw [if_pos hpoint]
    obtain ⟨n, hn⟩ := Int.eq_ofNat_of_zero_le (show 0 ≤ p + (d :: ds).length - 1 by omega)
    have hn' : (p + (d :: ds).length).toNat = n + 1 := by omega
    simp only [List.length_cons] at hn hwhole hpoint
    have hsplit : d :: ds.take n ++ ds.drop n = d :: ds := by simp
    have hp : (-(ds.drop n).length : Int) = p := by
      rw [List.length_drop]
      omega
    have hrest : ds.drop n ≠ [] := by
      rw [Ne, List.drop_eq_nil_iff]
      omega
    have hspells := spells_fraction negative (ds.take n) (ds.drop n) (by rwa [hsplit]) hd hrest
    rw [hsplit, hvalue, hp] at hspells
    rwa [hn', List.take_succ_cons, List.drop_succ_cons]
  rw [if_neg hpoint]
  by_cases hsmall : -6 < p + (d :: ds).length ∧ p + (d :: ds).length ≤ 0
  · rw [if_pos hsmall]
    have hp : (-((-(p + (d :: ds).length)).toNat + (d :: ds).length : Nat) : Int) = p := by omega
    have hspells := spells_small negative hall (List.cons_ne_nil d ds) (-(p + (d :: ds).length)).toNat
    rwa [hvalue, hp] at hspells
  rw [if_neg hsmall]
  have hp : p + (d :: ds).length - 1 - ds.length = p := by
    simp only [List.length_cons]
    omega
  have hone : (d :: ds).length = 1 ↔ ds = [] := by simp
  have hspells := spells_scientific negative hall hd (p + (d :: ds).length - 1)
  rw [hvalue, hp] at hspells
  simpa only [hone, List.take_succ_cons, List.take_zero, List.drop_succ_cons, List.drop_zero] using hspells

/-! Values -/

/-- What may follow a value. -/
def isMark (u : Nat) : Bool := u = ','.toNat || u = ']'.toNat || u = '\x7d'.toNat

/-- Where the end or a mark follows, the text is cut into these tokens. -/
def Ends (text : Str) (ts : List Token) : Prop :=
  ∀ rest, (∀ u ∈ rest.head?, isMark u = true) → lex .between (text ++ rest) = (lex .between rest).map (ts ++ ·)

theorem Reads.ends {text : Str} {ts : List Token} (h : Reads .between text ts .between) : Ends text ts :=
  fun rest _ => h rest

theorem step_number_mark {l : Literal} {stage : Stage} (hstage : stage.complete = true) {u : Nat}
    (hu : isMark u = true) : step (.number l stage) u =
      (start u).map fun (ts, mode) => (.scalar (.number l.value) :: ts, mode) := by
  simp only [isMark, Bool.or_eq_true, decide_eq_true_eq] at hu
  have hnone : numberStep l stage u = none := by
    rcases hu with (rfl | rfl) | rfl <;> cases stage <;> rfl
  simp only [step, hnone, hstage, if_true]

theorem lex_number {l : Literal} {stage : Stage} (hstage : stage.complete = true) {rest : Str}
    (hrest : ∀ u ∈ rest.head?, isMark u = true) :
    lex (.number l stage) rest = (lex .between rest).map (.scalar (.number l.value) :: ·) := by
  cases rest with
  | nil => simp [lex, finish, hstage]
  | cons u us =>
      have hu := hrest u rfl
      rw [lex, step_number_mark hstage hu, lex]
      simp only [step]
      cases start u with
      | none => rfl
      | some next =>
          simp only [Option.map_some, Option.bind_some, Option.map_map]
          rfl

theorem lex_digit {u : Nat} (h : isDigit u = true) (rest : Str) :
    lex .between (u :: rest) = lex (.number {} .sign) (u :: rest) := by
  have hrange : 48 ≤ u ∧ u ≤ 57 := by simpa [isDigit] using h
  have hwhite : isWhite u = false := by
    simp only [isWhite, Bool.or_eq_false_iff, decide_eq_false_iff_not]
    omega
  have hquote : u ≠ '"'.toNat := by
    rintro rfl
    exact absurd hrange (by decide)
  have hminus : u ≠ '-'.toNat := by
    rintro rfl
    exact absurd hrange (by decide)
  have hstep : step .between u = step (.number {} .sign) u := by
    simp only [step, start, hwhite, Bool.false_eq_true, if_false, if_neg hquote, if_neg hminus, h, if_true, numberStep,
      Option.map_some]
  rw [lex, lex, hstep]

theorem Spells.cons {negative : Bool} {text : Text} {size : Rat} (h : Spells negative text size) :
    ∃ c cs, text = c :: cs ∧ isDigit c.toNat = true := by
  obtain ⟨l, stage, hread, hstage, -⟩ := h
  have hread := hread []
  rw [lex_number hstage (by simp), List.append_nil] at hread
  cases text with
  | nil => simp [str, lex, finish, Stage.complete] at hread
  | cons c cs =>
      refine ⟨c, cs, rfl, ?_⟩
      by_contra hc
      simp [str, lex, step, numberStep, hc, Stage.complete, finish] at hread

theorem ends_spelled {negative : Bool} {text : Text} {size : Rat} (h : Spells negative text size) :
    Ends (str ((if negative then ['-'] else []) ++ text)) [.scalar (.number (signed negative size))] := by
  intro rest hrest
  obtain ⟨c, cs, rfl, hc⟩ := h.cons
  obtain ⟨l, stage, hread, hstage, hvalue⟩ := h
  have hsign : lex (.number { negative } .sign) (str (c :: cs) ++ rest) =
      (lex .between rest).map ([.scalar (.number (signed negative size))] ++ ·) := by
    rw [hread, lex_number hstage hrest, hvalue, Option.map_map]
    rfl
  cases negative with
  | false =>
      rw [← hsign]
      exact lex_digit hc _
  | true =>
      rw [← hsign]
      have hminus : Reads .between ['-'.toNat] [] (.number { negative := true } .sign) := Reads.unit rfl
      exact (hminus _).trans Option.map_id'

theorem ends_number (q : Rat) : Ends (str (toText (.finite q))) [.scalar (.number (shown q))] := by
  by_cases hq : q = 0
  · subst hq
    intro rest hrest
    have hread : Reads .between ['0'.toNat] [] (.number {} .zero) := Reads.unit rfl
    have hvalue : Literal.value {} = shown 0 := by simp [Literal.value, Literal.power, signed, shift_eq, shown]
    have hlex := (hread rest).trans Option.map_id'
    rw [lex_number rfl hrest, hvalue] at hlex
    exact hlex
  · have hpos : 0 < |q| := abs_pos.mpr hq
    have hspells := ends_spelled (spells_decimal (decide (q < 0)) (shortest_pos hpos) (shortest |q|).2)
    simp only [decide_eq_true_eq] at hspells
    simpa only [toText, shown, if_neg hq] using hspells

def Scalar.content : Scalar Number → Scalar Rat
  | .null => .null
  | .bool value => .bool value
  | .number (.finite value) => .number (shown value)
  | .number (.infinite _) => .null
  | .string value => .string value

mutual

/-- What the printed value says. -/
def content : JsValue → Document
  | .scalar value => .scalar value.content
  | .array items => .array (itemContents items)
  | .object members => .object (enumerate (memberContents members))

def itemContents : List JsValue → List Document
  | [] => []
  | item :: items => content item :: itemContents items

def memberContents : List (Str × JsValue) → List (Str × Document)
  | [] => []
  | (name, value) :: members => (name, content value) :: memberContents members

end

theorem itemContents_eq (items : List JsValue) : itemContents items = items.map content := by
  induction items with
  | nil => rfl
  | cons item items ih => rw [itemContents, ih, List.map_cons]

theorem memberContents_eq (members : List (Str × JsValue)) :
    memberContents members = members.map fun m => (m.1, content m.2) := by
  induction members with
  | nil => rfl
  | cons member members ih => rw [memberContents, ih, List.map_cons]

theorem printMembers_eq (members : List (Str × JsValue)) :
    printMembers members = members.map fun m => (m.1, print m.2) := by
  induction members with
  | nil => rfl
  | cons member members ih => rw [printMembers, ih, List.map_cons]

/-- What keeps the names keeps the order. -/
theorem enumerate_rename {α β : Type} (g : Str × α → Str × β) (hg : ∀ m, (g m).1 = m.1) (members : List (Str × α)) :
    enumerate (members.map g) = (enumerate members).map g := by
  have hfilter : ∀ p : Str → Bool, (members.map g).filter (fun m => p m.1) =
      (members.filter fun m => p m.1).map g := by
    intro p
    rw [List.filter_map]
    congr 2
    funext m
    exact congrArg p (hg m)
  have hsort := List.map_insertionSort (fun a b : Str × α => (index a.1).getD 0 ≤ (index b.1).getD 0)
    (fun a b : Str × β => (index a.1).getD 0 ≤ (index b.1).getD 0) g
    (members.filter fun m => (index m.1).isSome) fun a _ b _ => by rw [hg, hg]
  simp only [enumerate, List.map_append]
  rw [hfilter fun name => (index name).isSome, hfilter fun name => !(index name).isSome, hsort]

theorem enumerate_map {α β : Type} (f : α → β) (members : List (Str × α)) :
    enumerate (members.map fun m => (m.1, f m.2)) = (enumerate members).map fun m => (m.1, f m.2) :=
  enumerate_rename (fun m => (m.1, f m.2)) (fun _ => rfl) members

theorem enumerate_sorted {α : Type} {a b : List (Str × α)}
    (ha : a.Pairwise fun m m' => (index m.1).getD 0 ≤ (index m'.1).getD 0)
    (hindex : ∀ m ∈ a, (index m.1).isSome = true) (hname : ∀ m ∈ b, (index m.1).isSome = false) :
    enumerate (a ++ b) = a ++ b := by
  have hleft : (a ++ b).filter (fun m => (index m.1).isSome) = a := by
    rw [List.filter_append, List.filter_eq_self.mpr hindex, List.filter_eq_nil_iff.mpr (by simpa using hname),
      List.append_nil]
  have hright : (a ++ b).filter (fun m => !(index m.1).isSome) = b := by
    rw [List.filter_append, List.filter_eq_nil_iff.mpr (fun m hm => by simp [hindex m hm]),
      List.filter_eq_self.mpr (by simpa using hname), List.nil_append]
  rw [enumerate, hleft, hright, List.Pairwise.insertionSort_eq ha]

/-- What is left of an enumeration is in its order. -/
theorem enumerate_filter {α : Type} (p : Str × α → Bool) (members : List (Str × α)) :
    enumerate ((enumerate members).filter p) = (enumerate members).filter p := by
  have hsorted := (List.pairwise_insertionSort (fun a b : Str × α => (index a.1).getD 0 ≤ (index b.1).getD 0)
    (members.filter fun m => (index m.1).isSome)).filter p
  have hleft : enumerate members = (members.filter fun m => (index m.1).isSome).insertionSort
      (fun a b => (index a.1).getD 0 ≤ (index b.1).getD 0) ++ members.filter fun m => !(index m.1).isSome := rfl
  rw [hleft, List.filter_append]
  apply enumerate_sorted hsorted
  · intro m hm
    have hmem := (List.perm_insertionSort _ _).mem_iff.mp (List.mem_of_mem_filter hm)
    exact (List.mem_filter.mp hmem).2
  · intro m hm
    simpa using (List.mem_filter.mp (List.mem_of_mem_filter hm)).2

theorem enumerate_perm {α : Type} (members : List (Str × α)) : (enumerate members).Perm members :=
  ((List.perm_insertionSort _ _).append_right _).trans (List.filter_append_perm _ _)

theorem ends_scalar (value : Scalar Number) : Ends value.print [.scalar value.content] := by
  cases value with
  | null => exact Reads.ends (Reads.skip rfl (Reads.skip rfl (Reads.skip rfl (Reads.unit rfl))))
  | bool value =>
      cases value with
      | true => exact Reads.ends (Reads.skip rfl (Reads.skip rfl (Reads.skip rfl (Reads.unit rfl))))
      | false => exact Reads.ends (Reads.skip rfl (Reads.skip rfl (Reads.skip rfl (Reads.skip rfl (Reads.unit rfl)))))
  | number value =>
      cases value with
      | finite value => exact ends_number value
      | infinite negative => exact Reads.ends (Reads.skip rfl (Reads.skip rfl (Reads.skip rfl (Reads.unit rfl))))
  | string value => exact (reads_quote value).ends

/-- The text of the value is cut into the tokens of what it says. -/
def Tokenised (value : JsValue) : Prop := Ends (print value) (tokens (content value))

theorem lex_items {items : List JsValue} (h : ∀ item ∈ items, Tokenised item) (rest : Str) :
    lex .between (printItems items ++ ']'.toNat :: rest) =
      (lex .between (']'.toNat :: rest)).map (itemTokens (itemContents items) ++ ·) := by
  induction items with
  | nil => exact Option.map_id'.symm
  | cons item items ih =>
      obtain ⟨hitem, hitems⟩ := List.forall_mem_cons.mp h
      have hmark : ∀ u ∈ (printItems items ++ ']'.toNat :: rest).head?, isMark u = true := by
        cases items <;> rintro u ⟨⟩ <;> rfl
      have hcomma : Reads .between [','.toNat] [.comma] .between := Reads.unit rfl
      have htext : printItems (item :: items) ++ ']'.toNat :: rest =
          [','.toNat] ++ (print item ++ (printItems items ++ ']'.toNat :: rest)) := by simp [printItems]
      rw [htext, hcomma, hitem _ hmark, ih hitems, Option.map_map, Option.map_map, itemContents, itemTokens]
      congr 1
      funext tail
      simp

theorem lex_members {members : List (Str × JsValue)} (h : ∀ member ∈ members, Tokenised member.2) (rest : Str) :
    lex .between ((members.map fun m => (m.1, print m.2)).flatMap memberText ++ '\x7d'.toNat :: rest) =
      (lex .between ('\x7d'.toNat :: rest)).map
        (memberTokens (members.map fun m => (m.1, content m.2)) ++ ·) := by
  induction members with
  | nil => exact Option.map_id'.symm
  | cons member members ih =>
      obtain ⟨hmember, hmembers⟩ := List.forall_mem_cons.mp h
      have hmark : ∀ u ∈ ((members.map fun m => (m.1, print m.2)).flatMap memberText ++ '\x7d'.toNat :: rest).head?,
          isMark u = true := by
        cases members <;> rintro u ⟨⟩ <;> rfl
      have hcolon : Reads .between [':'.toNat] [.colon] .between := Reads.unit rfl
      have hname : Reads .between (','.toNat :: (quote member.1 ++ [':'.toNat]))
          ([.comma] ++ ([.scalar (.string member.1)] ++ [.colon])) .between :=
        Reads.cons rfl ((reads_quote member.1).trans hcolon)
      have htext : (((member :: members).map fun m => (m.1, print m.2)).flatMap memberText ++ '\x7d'.toNat :: rest) =
          (','.toNat :: (quote member.1 ++ [':'.toNat])) ++ (print member.2 ++
            ((members.map fun m => (m.1, print m.2)).flatMap memberText ++ '\x7d'.toNat :: rest)) := by
        simp [memberText]
      rw [htext, hname, hmember _ hmark, ih hmembers, Option.map_map, Option.map_map]
      congr 1
      funext tail
      simp [memberTokens]

theorem tokenised (value : JsValue) : Tokenised value := by
  induction value using Value.induct with
  | scalar value => exact ends_scalar value
  | array items ih =>
      have hopen : Reads .between ['['.toNat] [.beginArray] .between := Reads.unit rfl
      have hclose : Reads .between [']'.toNat] [.endArray] .between := Reads.unit rfl
      intro rest hrest
      cases items with
      | nil => exact (hopen.trans hclose) rest
      | cons item items =>
          obtain ⟨hitem, hitems⟩ := List.forall_mem_cons.mp ih
          have hmark : ∀ u ∈ (printItems items ++ ']'.toNat :: rest).head?, isMark u = true := by
            cases items <;> rintro u ⟨⟩ <;> rfl
          have htext : print (.array (item :: items)) ++ rest =
              ['['.toNat] ++ (print item ++ (printItems items ++ ']'.toNat :: rest)) := by simp [print, printItems]
          have hend : lex .between (']'.toNat :: rest) = (lex .between rest).map ([.endArray] ++ ·) := hclose rest
          rw [htext, hopen, hitem _ hmark, lex_items hitems, hend, Option.map_map, Option.map_map, Option.map_map]
          congr 1
          funext tail
          simp [content, tokens, itemContents, itemTokens]
  | object members ih =>
      have hopen : Reads .between ['\x7b'.toNat] [.beginObject] .between := Reads.unit rfl
      have hclose : Reads .between ['\x7d'.toNat] [.endObject] .between := Reads.unit rfl
      have hprint : print (.object members) = '\x7b'.toNat ::
          (((enumerate members).map fun m => (m.1, print m.2)).flatMap memberText).tail ++ ['\x7d'.toNat] := by
        rw [print, printMembers_eq, enumerate_map]
      have hcontent : content (.object members) = .object ((enumerate members).map fun m => (m.1, content m.2)) := by
        rw [content, memberContents_eq, enumerate_map]
      have hih : ∀ member ∈ enumerate members, Tokenised member.2 :=
        fun member hm => ih member ((enumerate_perm members).mem_iff.mp hm)
      intro rest hrest
      rw [hprint, hcontent]
      cases hsorted : enumerate members with
      | nil => exact (hopen.trans hclose) rest
      | cons member rows =>
          rw [hsorted] at hih
          obtain ⟨hmember, hrows⟩ := List.forall_mem_cons.mp hih
          have hmark : ∀ u ∈ ((rows.map fun m => (m.1, print m.2)).flatMap memberText ++ '\x7d'.toNat :: rest).head?,
              isMark u = true := by
            cases rows <;> rintro u ⟨⟩ <;> rfl
          have hcolon : Reads .between [':'.toNat] [.colon] .between := Reads.unit rfl
          have hname : Reads .between ('\x7b'.toNat :: (quote member.1 ++ [':'.toNat]))
              ([.beginObject] ++ ([.scalar (.string member.1)] ++ [.colon])) .between :=
            Reads.cons rfl ((reads_quote member.1).trans hcolon)
          have htext : '\x7b'.toNat :: (((member :: rows).map fun m => (m.1, print m.2)).flatMap memberText).tail ++
              ['\x7d'.toNat] ++ rest = ('\x7b'.toNat :: (quote member.1 ++ [':'.toNat])) ++ (print member.2 ++
                ((rows.map fun m => (m.1, print m.2)).flatMap memberText ++ '\x7d'.toNat :: rest)) := by
            simp [memberText]
          have hend : lex .between ('\x7d'.toNat :: rest) = (lex .between rest).map ([.endObject] ++ ·) := hclose rest
          rw [htext, hname, hmember _ hmark, lex_members hrows, hend, Option.map_map, Option.map_map, Option.map_map]
          congr 1
          funext tail
          simp [tokens, memberTokens]

theorem lex_print (value : JsValue) : lex .between (print value) = some (tokens (content value)) := by
  have hlex := tokenised value [] (by simp)
  rw [List.append_nil] at hlex
  rw [hlex]
  simp [lex, finish]

/-- A printed value is a text again, and it says what the value's content is. -/
theorem parseText_print (value : JsValue) : parseText (print value) = some (content value) := by
  rw [parseText, lex_print]
  exact readAll_tokens (content value)

end Corebase.Json
