import Corebase.JsonText

namespace Corebase.Json

open JsNumber
open JsText (Text)

/-! Well-formed UTF-16 and the length of its UTF-8 -/

/-- `paired` is set for the second surrogate of a pair. -/
def wellFormed (paired : Bool) : Str → Bool
  | [] => true
  | u :: us =>
      if paired then wellFormed false us
      else if isLead u && us.head?.any isTrail then wellFormed true us
      else !isLead u && !isTrail u && wellFormed false us

/-- Buffer.byteLength; a surrogate that is alone is written as the replacement character. -/
def byteLength (paired : Bool) : Str → Nat
  | [] => 0
  | u :: us =>
      if paired then 2 + byteLength false us
      else if isLead u && us.head?.any isTrail then 2 + byteLength true us
      else (if u < 128 then 1 else if u < 2048 then 2 else 3) + byteLength false us

theorem wellFormed_append {paired : Bool} {a : Str} (ha : wellFormed paired a = true) (hpaired : paired = true → a ≠ [])
    (b : Str) : wellFormed paired (a ++ b) = wellFormed false b := by
  induction a generalizing paired with
  | nil =>
      cases paired with
      | false => rfl
      | true => exact absurd rfl (hpaired rfl)
  | cons u us ih =>
      cases paired with
      | true => exact ih ha (by simp)
      | false =>
          simp only [wellFormed, Bool.false_eq_true, if_false] at ha
          by_cases hpair : (isLead u && us.head?.any isTrail) = true
          · have hne : us ≠ [] := by rintro rfl; simp at hpair
            have hpair' : (isLead u && (us ++ b).head?.any isTrail) = true := by
              rwa [List.head?_append_of_ne_nil us hne]
            rw [if_pos hpair] at ha
            simp only [List.cons_append, wellFormed, Bool.false_eq_true, if_false, if_pos hpair']
            exact ih ha fun _ => hne
          · rw [if_neg hpair, Bool.and_eq_true, Bool.and_eq_true, Bool.not_eq_true', Bool.not_eq_true'] at ha
            simp [wellFormed, ha.1.1, ha.1.2, ih ha.2]

theorem wellFormed_plain {us : Str} (h : ∀ u ∈ us, isLead u = false ∧ isTrail u = false) :
    wellFormed false us = true := by
  induction us with
  | nil => rfl
  | cons u us ih =>
      obtain ⟨⟨hlead, htrail⟩, hus⟩ := List.forall_mem_cons.mp h
      simp [wellFormed, hlead, htrail, ih hus]

theorem not_lead {u : Nat} (h : isTrail u = true) : isLead u = false := by
  simp only [isTrail, isLead, Bool.and_eq_true, decide_eq_true_eq, Bool.and_eq_false_iff, decide_eq_false_iff_not] at h ⊢
  omega

/-- Where a well-formed text is cut, what is left is well formed if it does not end within a pair. -/
theorem wellFormed_take {us : Str} {paired : Bool} (h : wellFormed paired us = true) (n : Nat) :
    wellFormed paired (us.take (n + 1)) = true ↔ us[n]?.any isLead = false ∨ paired = true ∧ n = 0 := by
  induction us generalizing paired n with
  | nil => simp [wellFormed]
  | cons u us ih =>
      cases paired with
      | true =>
          have hus : wellFormed false us = true := h
          cases n with
          | zero => simp [wellFormed]
          | succ m => simpa [wellFormed] using ih hus m
      | false =>
          simp only [wellFormed, Bool.false_eq_true, if_false] at h
          by_cases hpair : (isLead u && us.head?.any isTrail) = true
          · rw [if_pos hpair] at h
            cases n with
            | zero => simp [wellFormed, (Bool.and_eq_true_iff.mp hpair).1]
            | succ m =>
                have hhead : (us.take (m + 1)).head? = us.head? := by cases us <;> rfl
                have hfirst : m = 0 → us[m]?.any isLead = false := by
                  rintro rfl
                  cases us with
                  | nil => rfl
                  | cons v vs =>
                      have htrail : isTrail v = true := by simpa using (Bool.and_eq_true_iff.mp hpair).2
                      simpa using not_lead htrail
                simp only [List.take_succ_cons, wellFormed, Bool.false_eq_true, if_false, hhead, if_pos hpair,
                  ih h m, List.getElem?_cons_succ, true_and, false_and, or_false]
                exact ⟨fun h => h.elim id hfirst, Or.inl⟩
          · rw [if_neg hpair, Bool.and_eq_true, Bool.and_eq_true, Bool.not_eq_true', Bool.not_eq_true'] at h
            obtain ⟨⟨hlead, htrail⟩, hus⟩ := h
            cases n with
            | zero => simp [wellFormed, hlead, htrail]
            | succ m => simpa [wellFormed, hlead, htrail] using ih hus m

theorem str_plain (text : Text) : ∀ u ∈ str text, isLead u = false ∧ isTrail u = false := by
  intro u hu
  obtain ⟨c, -, rfl⟩ := List.mem_map.mp hu
  have hc := c.valid
  simp only [isLead, isTrail, Bool.and_eq_false_iff, decide_eq_false_iff_not]
  have hval : c.toNat = c.val.toNat := rfl
  simp only [UInt32.isValidChar, Nat.isValidChar] at hc
  omega

theorem escapeUnit_plain {u : Nat} : ∀ x ∈ escapeUnit u, isLead x = false ∧ isTrail x = false := by
  have hhex : ∀ d < 16, isLead (hexUnit d) = false ∧ isTrail (hexUnit d) = false := by decide
  have hexAt : ∀ n, isLead (hexUnit (n % 16)) = false ∧ isTrail (hexUnit (n % 16)) = false :=
    fun n => hhex _ (Nat.mod_lt n (by decide))
  have hback : isLead '\\'.toNat = false ∧ isTrail '\\'.toNat = false := by decide
  unfold escapeUnit
  split
  next h => rcases h with rfl | rfl <;> decide
  split
  next => decide
  split
  next => decide
  split
  next => decide
  split
  next => decide
  split
  next => decide
  split
  next =>
    intro x hx
    simp only [unicodeEscape, List.mem_cons, List.not_mem_nil, or_false] at hx
    rcases hx with rfl | rfl | rfl | rfl | rfl | rfl
    · exact hback
    · decide
    · exact hexAt _
    · exact hexAt _
    · exact hexAt _
    · exact hexAt _
  next h =>
    simp only [not_or, Bool.not_eq_true] at h
    intro x hx
    obtain rfl := List.mem_singleton.mp hx
    exact h.2

theorem wellFormed_escapeUnits (paired : Bool) (us : Str) : wellFormed paired (escapeUnits paired us) = true := by
  induction us generalizing paired with
  | nil => cases paired <;> rfl
  | cons u us ih =>
      cases paired with
      | true => exact ih false
      | false =>
          simp only [escapeUnits, Bool.false_eq_true, if_false]
          split
          next h =>
            have hhead : (isLead u && (escapeUnits true us).head?.any isTrail) = true := by
              cases us with
              | nil => simp at h
              | cons v vs => simpa [escapeUnits] using h
            simp only [wellFormed, Bool.false_eq_true, if_false, if_pos hhead]
            exact ih true
          next =>
            rw [wellFormed_append (wellFormed_plain escapeUnit_plain) (by simp)]
            exact ih false

theorem wellFormed_cons {u : Nat} (h : isLead u = false ∧ isTrail u = false) (us : Str) :
    wellFormed false (u :: us) = wellFormed false us := by
  simp [wellFormed, h.1, h.2]

theorem wellFormed_quote (s : Str) : wellFormed false (quote s) = true := by
  have hmark : isLead '"'.toNat = false ∧ isTrail '"'.toNat = false := by decide
  rw [quote, List.cons_append, wellFormed_cons hmark, wellFormed_append (wellFormed_escapeUnits false s) (by simp)]
  rfl

theorem wellFormed_scalar (value : Scalar Number) : wellFormed false value.print = true := by
  cases value with
  | null => exact wellFormed_plain (str_plain _)
  | bool value => cases value <;> exact wellFormed_plain (str_plain _)
  | number value => cases value <;> exact wellFormed_plain (str_plain _)
  | string value => exact wellFormed_quote value

theorem wellFormed_items {items : List JsValue} (h : ∀ item ∈ items, wellFormed false (print item) = true) :
    wellFormed false (printItems items) = true := by
  induction items with
  | nil => rfl
  | cons item items ih =>
      obtain ⟨hitem, hitems⟩ := List.forall_mem_cons.mp h
      rw [printItems, List.cons_append, wellFormed_cons (by decide), wellFormed_append hitem (by simp)]
      exact ih hitems

theorem wellFormed_members {members : List (Str × Str)} (h : ∀ member ∈ members, wellFormed false member.2 = true) :
    wellFormed false (members.flatMap memberText) = true := by
  induction members with
  | nil => rfl
  | cons member members ih =>
      obtain ⟨hmember, hmembers⟩ := List.forall_mem_cons.mp h
      have htext : (member :: members).flatMap memberText =
          ','.toNat :: (quote member.1 ++ ':'.toNat :: (member.2 ++ members.flatMap memberText)) := by
        simp [memberText]
      rw [htext, wellFormed_cons (by decide), wellFormed_append (wellFormed_quote member.1) (by simp),
        wellFormed_cons (by decide), wellFormed_append hmember (by simp)]
      exact ih hmembers

theorem wellFormed_tail {us : Str} (h : wellFormed false us = true) (hus : ∀ u ∈ us.head?, u = ','.toNat) :
    wellFormed false us.tail = true := by
  cases us with
  | nil => rfl
  | cons u us =>
      obtain rfl := hus u rfl
      rwa [wellFormed_cons (by decide)] at h

/-- What is printed is well formed, whatever the strings of the value are. -/
theorem wellFormed_print (value : JsValue) : wellFormed false (print value) = true := by
  induction value using Value.induct with
  | scalar value => exact wellFormed_scalar value
  | array items ih =>
      have htail := wellFormed_tail (wellFormed_items ih) (by cases items <;> simp [printItems])
      rw [print, List.cons_append, wellFormed_cons (by decide), wellFormed_append htail (by simp)]
      rfl
  | object members ih =>
      have hrows : ∀ row ∈ enumerate (printMembers members), wellFormed false row.2 = true := by
        intro row hrow
        rw [(enumerate_perm _).mem_iff, printMembers_eq, List.mem_map] at hrow
        obtain ⟨member, hmember, rfl⟩ := hrow
        exact ih member hmember
      have htail := wellFormed_tail (wellFormed_members hrows)
        (by cases enumerate (printMembers members) <;> simp [memberText])
      rw [print, List.cons_append, wellFormed_cons (by decide), wellFormed_append htail (by simp)]
      rfl

/-! The length in bytes -/

/-- What a unit takes at most. -/
def width (u : Nat) : Nat := if u < 128 then 1 else 3

theorem byteLength_le (paired : Bool) (us : Str) :
    byteLength paired us ≤ (us.map width).sum + if paired then 1 else 0 := by
  induction us generalizing paired with
  | nil => exact Nat.zero_le _
  | cons u us ih =>
      have hfalse : byteLength false us ≤ (us.map width).sum := ih false
      have htrue : byteLength true us ≤ (us.map width).sum + 1 := ih true
      have hpos : 1 ≤ width u := by unfold width; split <;> decide
      rw [List.map_cons, List.sum_cons]
      cases paired with
      | true =>
          simp only [byteLength, if_true]
          omega
      | false =>
          simp only [byteLength, Bool.false_eq_true, if_false]
          split
          next h =>
            have hu : width u = 3 := if_neg (by
              have := (surrogate_lt (Or.inl (Bool.and_eq_true_iff.mp h).1)).2.2
              simp only [isLead, Bool.and_eq_true, decide_eq_true_eq] at h
              omega)
            omega
          next =>
            have hu : (if u < 128 then 1 else if u < 2048 then 2 else 3) ≤ width u := by
              unfold width
              split
              next => exact Nat.le_refl 1
              next => split <;> decide
            omega

theorem width_escapeUnit (u : Nat) : ((escapeUnit u).map width).sum ≤ 6 := by
  have hhex : ∀ d < 16, width (hexUnit d) = 1 := by decide
  have hexAt : ∀ n, width (hexUnit (n % 16)) = 1 := fun n => hhex _ (Nat.mod_lt n (by decide))
  have hback : width '\\'.toNat = 1 := rfl
  have hu : width u ≤ 3 := by unfold width; split <;> decide
  unfold escapeUnit
  split
  next => simp only [List.map_cons, List.map_nil, List.sum_cons, List.sum_nil, hback]; omega
  split
  next => decide
  split
  next => decide
  split
  next => decide
  split
  next => decide
  split
  next => decide
  split
  next =>
    have huni : width 'u'.toNat = 1 := rfl
    simp only [unicodeEscape, List.map_cons, List.map_nil, List.sum_cons, List.sum_nil, hexAt, huni, hback]
    decide
  next => simp only [List.map_cons, List.map_nil, List.sum_cons, List.sum_nil]; omega

theorem width_escapeUnits (paired : Bool) (us : Str) : ((escapeUnits paired us).map width).sum ≤ 6 * us.length := by
  induction us generalizing paired with
  | nil => exact Nat.le_refl 0
  | cons u us ih =>
      have hu : width u ≤ 3 := by unfold width; split <;> decide
      have hescape := width_escapeUnit u
      have hus := ih false
      have hpair := ih true
      simp only [escapeUnits, List.length_cons]
      split
      next => rw [List.map_cons, List.sum_cons]; omega
      split
      next => rw [List.map_cons, List.sum_cons]; omega
      next => rw [List.map_append, List.sum_append]; omega

theorem width_quote (s : Str) : ((quote s).map width).sum ≤ 6 * s.length + 2 := by
  have hmark : width '"'.toNat = 1 := rfl
  have hs := width_escapeUnits false s
  simp only [quote, List.map_cons, List.map_append, List.sum_cons, List.sum_append, List.map_nil, List.sum_nil, hmark,
    List.cons_append]
  omega

/-! The beginning of a text -/

/-- The tokens that the text has completed. -/
def emitted (mode : Mode) : Str → List Token
  | [] => []
  | u :: us =>
      match step mode u with
      | some (ts, next) => ts ++ emitted next us
      | none => []

def modeAfter (mode : Mode) : Str → Option Mode
  | [] => some mode
  | u :: us => (step mode u).bind fun next => modeAfter next.2 us

/-- The string that has begun and not ended. -/
def Mode.unfinished : Mode → Option Str
  | .string done | .escape done | .hex done _ _ => some done.reverse
  | _ => none

/-- What follows the last token that the text has completed. -/
def remainder (mode : Mode) : Str → Str
  | [] => []
  | u :: us =>
      if emitted mode (u :: us) = [] then u :: us
      else
        match step mode u with
        | some (_, next) => remainder next us
        | none => []

theorem lex_append (mode : Mode) (text rest : Str) :
    lex mode (text ++ rest) =
      (modeAfter mode text).bind fun next => (lex next rest).map (emitted mode text ++ ·) := by
  induction text generalizing mode with
  | nil => exact (Option.map_id'.symm : lex mode rest = _)
  | cons u us ih =>
      rw [List.cons_append, lex, modeAfter]
      cases hstep : step mode u with
      | none => rfl
      | some next =>
          simp only [Option.bind_some, emitted, hstep, ih next.2]
          cases modeAfter next.2 us with
          | none => rfl
          | some last => simp [Option.map_map, Function.comp_def]

theorem emitted_append {mode next : Mode} {text : Str} (h : modeAfter mode text = some next) (rest : Str) :
    emitted mode (text ++ rest) = emitted mode text ++ emitted next rest := by
  induction text generalizing mode with
  | nil =>
      obtain rfl := Option.some.inj h
      rfl
  | cons u us ih =>
      obtain ⟨⟨ts, middle⟩, hstep, hus⟩ := Option.bind_eq_some_iff.mp h
      simp only [List.cons_append, emitted, hstep, ih hus, List.append_assoc]

theorem modeAfter_append (mode : Mode) (text rest : Str) :
    modeAfter mode (text ++ rest) = (modeAfter mode text).bind fun next => modeAfter next rest := by
  induction text generalizing mode with
  | nil => rfl
  | cons u us ih =>
      rw [List.cons_append, modeAfter, modeAfter, Option.bind_assoc]
      exact congrArg _ (funext fun next => ih next.2)

theorem remainder_suffix (mode : Mode) (text : Str) : remainder mode text <:+ text := by
  induction text generalizing mode with
  | nil => exact List.suffix_refl []
  | cons u us ih =>
      simp only [remainder]
      split
      next => exact List.suffix_refl _
      next =>
        split
        next ts next _ => exact (ih next).trans (List.suffix_cons u us)
        next => exact List.nil_suffix

/-- What comes after the last token stays in the remainder. -/
theorem remainder_append {mode next : Mode} {text rest : Str} (h : modeAfter mode text = some next)
    (hrest : emitted next rest = []) : rest <:+ remainder mode (text ++ rest) := by
  induction text generalizing mode with
  | nil =>
      obtain rfl := Option.some.inj h
      cases rest with
      | nil => exact List.nil_suffix
      | cons u us => rw [List.nil_append, remainder, if_pos hrest]
  | cons u us ih =>
      obtain ⟨⟨ts, middle⟩, hstep, hus⟩ := Option.bind_eq_some_iff.mp h
      rw [List.cons_append, remainder]
      split
      next => exact ⟨u :: us, by simp⟩
      next => simpa only [hstep] using ih hus

/-! Within a string -/

theorem step_unfinished {mode next : Mode} {s : Str} {u : Nat} {ts : List Token} (hmode : mode.unfinished = some s)
    (h : step mode u = some (ts, next)) :
    ts = [.scalar (.string s)] ∨ ts = [] ∧ ∃ s', next.unfinished = some s' ∧ s <+: s' := by
  cases mode with
  | between | word _ _ | number _ _ => cases hmode
  | string done =>
      obtain rfl := Option.some.inj hmode
      simp only [step] at h
      split at h
      next => cases h; exact Or.inl rfl
      split at h
      next => cases h; exact Or.inr ⟨rfl, _, rfl, List.prefix_refl _⟩
      split at h
      next => cases h
      next => cases h; exact Or.inr ⟨rfl, _, rfl, ⟨[u], by simp⟩⟩
  | escape done =>
      obtain rfl := Option.some.inj hmode
      simp only [step] at h
      split at h
      next => cases h; exact Or.inr ⟨rfl, _, rfl, List.prefix_refl _⟩
      next =>
        obtain ⟨unit, -, hunit⟩ := Option.map_eq_some_iff.mp h
        cases hunit
        exact Or.inr ⟨rfl, _, rfl, ⟨[unit], by simp⟩⟩
  | hex done count value =>
      obtain rfl := Option.some.inj hmode
      obtain ⟨d, -, hd⟩ := Option.map_eq_some_iff.mp h
      cases hd
      refine Or.inr ⟨rfl, ?_⟩
      split
      next => exact ⟨_, rfl, ⟨[16 * value + d], by simp⟩⟩
      next => exact ⟨_, rfl, List.prefix_refl _⟩

/-- The string that has begun is the first token that is completed, if one is. -/
theorem emitted_unfinished {mode next : Mode} {s text : Str} (hmode : mode.unfinished = some s)
    (h : modeAfter mode text = some next) :
    (∃ t ts, emitted mode text = .scalar (.string t) :: ts ∧ s <+: t) ∨
      emitted mode text = [] ∧ ∃ s', next.unfinished = some s' ∧ s <+: s' := by
  induction text generalizing mode s with
  | nil =>
      obtain rfl := Option.some.inj h
      exact Or.inr ⟨rfl, s, hmode, List.prefix_refl s⟩
  | cons u us ih =>
      obtain ⟨⟨ts, middle⟩, hstep, hus⟩ := Option.bind_eq_some_iff.mp h
      simp only [emitted, hstep]
      rcases step_unfinished hmode hstep with rfl | ⟨rfl, s', hs', hle⟩
      · exact Or.inl ⟨s, _, rfl, List.prefix_refl s⟩
      · rcases ih hs' hus with ⟨t, ts, ht, hlet⟩ | ⟨hnone, s'', hs'', hle'⟩
        · exact Or.inl ⟨t, ts, ht, hle.trans hlet⟩
        · exact Or.inr ⟨hnone, s'', hs'', hle.trans hle'⟩

/-- A unit that stands for itself within a string. -/
def isRaw (u : Nat) : Bool := 32 ≤ u && u ≠ '"'.toNat && u ≠ '\\'.toNat

theorem step_raw (done : Str) {u : Nat} (h : isRaw u = true) : step (.string done) u = some ([], .string (u :: done)) := by
  simp only [isRaw, Bool.and_eq_true, decide_eq_true_eq] at h
  simp only [step, if_neg h.1.2, if_neg h.2, if_neg (show ¬ u < 32 by omega)]

theorem modeAfter_raw (done : Str) {us : Str} (h : ∀ u ∈ us, isRaw u = true) :
    modeAfter (.string done) us = some (.string (us.reverse ++ done)) := by
  induction us generalizing done with
  | nil => rfl
  | cons u us ih =>
      obtain ⟨hu, hus⟩ := List.forall_mem_cons.mp h
      rw [modeAfter, step_raw done hu, Option.bind_some, ih _ hus]
      simp

theorem emitted_raw (done : Str) {us : Str} (h : ∀ u ∈ us, isRaw u = true) : emitted (.string done) us = [] := by
  induction us generalizing done with
  | nil => rfl
  | cons u us ih =>
      obtain ⟨hu, hus⟩ := List.forall_mem_cons.mp h
      rw [emitted, step_raw done hu]
      exact ih _ hus

/-- The words that may be read are of small letters. -/
def Mode.Sane : Mode → Prop
  | .word _ rest => ∀ u ∈ rest, 97 ≤ u
  | _ => True

theorem some_ite {α : Type} {P : α → Prop} {c : Prop} [Decidable c] {x y : Option α} (hx : ∀ r, x = some r → P r)
    (hy : ∀ r, y = some r → P r) : ∀ r, (if c then x else y) = some r → P r := by
  split
  next => exact hx
  next => exact hy

theorem sane_start {u : Nat} {ts : List Token} {next : Mode} (h : start u = some (ts, next)) : next.Sane := by
  have htrivial : ∀ {ts' next'}, next'.Sane → ∀ r : List Token × Mode, some (ts', next') = some r → r.2.Sane := by
    intro ts' next' hnext r hr
    cases hr
    exact hnext
  have hdigit : ∀ r, (numberStep {} .sign u).map (fun n => (([] : List Token), Mode.number n.1 n.2)) = some r →
      r.2.Sane := by
    intro r hr
    obtain ⟨n, -, rfl⟩ := Option.map_eq_some_iff.mp hr
    trivial
  have hnone : ∀ r : List Token × Mode, none = some r → r.2.Sane := by
    intro r hr
    cases hr
  have hwords : (∀ u ∈ str "rue".toList, 97 ≤ u) ∧ (∀ u ∈ str "alse".toList, 97 ≤ u) ∧ ∀ u ∈ str "ull".toList, 97 ≤ u := by
    decide
  have hall : ∀ r, start u = some r → r.2.Sane :=
    some_ite (htrivial trivial) (some_ite (htrivial trivial) (some_ite (htrivial trivial) (some_ite hdigit
    (some_ite (htrivial hwords.1) (some_ite (htrivial hwords.2.1) (some_ite (htrivial hwords.2.2)
    (some_ite (htrivial trivial) (some_ite (htrivial trivial) (some_ite (htrivial trivial) (some_ite (htrivial trivial)
    (some_ite (htrivial trivial) (some_ite (htrivial trivial) hnone))))))))))))
  exact hall (ts, next) h

theorem sane_step {mode next : Mode} {u : Nat} {ts : List Token} (hmode : mode.Sane)
    (h : step mode u = some (ts, next)) : next.Sane := by
  cases mode with
  | between => exact sane_start h
  | word value rest =>
      match rest with
      | [] => cases h
      | [c] =>
          simp only [step] at h
          split at h
          next => cases h; trivial
          next => cases h
      | c :: c' :: rest =>
          simp only [step] at h
          split at h
          next => cases h; exact fun u hu => hmode u (List.mem_cons_of_mem c hu)
          next => cases h
  | string done =>
      simp only [step] at h
      split at h
      next => cases h; trivial
      split at h
      next => cases h; trivial
      split at h
      next => cases h
      next => cases h; trivial
  | escape done =>
      simp only [step] at h
      split at h
      next => cases h; trivial
      next =>
        obtain ⟨unit, -, hunit⟩ := Option.map_eq_some_iff.mp h
        cases hunit
        trivial
  | hex done count value =>
      obtain ⟨d, -, hd⟩ := Option.map_eq_some_iff.mp h
      cases hd
      split <;> trivial
  | number literal stage =>
      simp only [step] at h
      split at h
      next => cases h; trivial
      split at h
      next =>
        obtain ⟨n, hn, hnext⟩ := Option.map_eq_some_iff.mp h
        cases hnext
        exact sane_start hn
      next => cases h

theorem step_zero {mode : Mode} (hmode : mode.Sane) : step mode 0 = none := by
  cases mode with
  | between | string _ | escape _ | hex _ _ _ => rfl
  | word value rest =>
      match rest with
      | [] => rfl
      | c :: rest =>
          have hc : 97 ≤ c := hmode c List.mem_cons_self
          cases rest <;> exact if_neg (by omega)
  | number literal stage => cases stage <;> rfl

theorem ne_zero {mode next : Mode} {text : Str} (hmode : mode.Sane) (h : modeAfter mode text = some next) :
    ∀ u ∈ text, u ≠ 0 := by
  induction text generalizing mode with
  | nil => exact List.forall_mem_nil _
  | cons u us ih =>
      obtain ⟨⟨ts, middle⟩, hstep, hus⟩ := Option.bind_eq_some_iff.mp h
      refine List.forall_mem_cons.mpr ⟨?_, ih (sane_step hmode hstep) hus⟩
      rintro rfl
      rw [step_zero hmode] at hstep
      cases hstep

theorem sane_after {mode next : Mode} {text : Str} (hmode : mode.Sane) (h : modeAfter mode text = some next) :
    next.Sane := by
  induction text generalizing mode with
  | nil =>
      obtain rfl := Option.some.inj h
      exact hmode
  | cons u us ih =>
      obtain ⟨⟨ts, middle⟩, hstep, hus⟩ := Option.bind_eq_some_iff.mp h
      exact ih (sane_step hmode hstep) hus

def dashes : Str := str "---".toList

/-- Three dashes stand within a string only. -/
theorem string_of_dashes {mode next : Mode} (hmode : mode.Sane) (h : modeAfter mode dashes = some next) :
    ∃ done, mode = .string done := by
  cases mode with
  | string done => exact ⟨done, rfl⟩
  | between | escape _ | hex _ _ _ => cases h
  | word value rest =>
      match rest with
      | [] => cases h
      | c :: rest =>
          have hc : 97 ≤ c := hmode c List.mem_cons_self
          have hstep : step (.word value (c :: rest)) 45 = none := by
            cases rest <;> exact if_neg (by omega)
          have hnone : modeAfter (.word value (c :: rest)) dashes = none := by
            change (step (.word value (c :: rest)) 45).bind _ = none
            rw [hstep]
            rfl
          rw [hnone] at h
          cases h
  | number literal stage => cases stage <;> cases h

/-- A run that begins with three dashes and stands for itself lies within one string, complete or not. -/
theorem within_string {text run : Str} (hrun : run <:+: text) (hdashes : dashes <+: run)
    (hraw : ∀ u ∈ run, isRaw u = true) {last : Mode} (hlast : modeAfter .between text = some last) :
    (∃ s, .scalar (.string s) ∈ emitted .between text ∧ run <:+: s) ∨
      run <:+: remainder .between text ∧ ∃ s, last.unfinished = some s ∧ run <:+: s := by
  obtain ⟨a, b, rfl⟩ := hrun
  rw [List.append_assoc, modeAfter_append] at hlast
  obtain ⟨mode, hmode, hrest⟩ := Option.bind_eq_some_iff.mp hlast
  obtain ⟨more, hmore⟩ := hdashes
  have hin : ∃ done, mode = .string done := by
    have hdash : modeAfter mode (dashes ++ (more ++ b)) = some last := by rwa [← List.append_assoc, hmore]
    rw [modeAfter_append] at hdash
    obtain ⟨middle, hmiddle, -⟩ := Option.bind_eq_some_iff.mp hdash
    exact string_of_dashes (sane_after (show Mode.between.Sane from trivial) hmode) hmiddle
  obtain ⟨done, rfl⟩ := hin
  have hthrough := modeAfter_raw done hraw
  rw [modeAfter_append, hthrough, Option.bind_some] at hrest
  have hopen : (Mode.string (run.reverse ++ done)).unfinished = some (done.reverse ++ run) := by
    simp [Mode.unfinished]
  have hnone : emitted (.string done) run = [] := emitted_raw done hraw
  have hemitted : emitted .between (a ++ (run ++ b)) = emitted .between a ++ emitted (.string (run.reverse ++ done)) b := by
    rw [emitted_append hmode, emitted_append hthrough, hnone, List.nil_append]
  rw [List.append_assoc]
  rcases emitted_unfinished hopen hrest with ⟨t, ts, ht, hle⟩ | ⟨hempty, s, hs, hle⟩
  · refine Or.inl ⟨t, ?_, (List.suffix_append done.reverse run).isInfix.trans hle.isInfix⟩
    rw [hemitted, ht]
    simp
  · refine Or.inr ⟨?_, s, hs, (List.suffix_append done.reverse run).isInfix.trans hle.isInfix⟩
    have hwhole : emitted (.string done) (run ++ b) = [] := by
      rw [emitted_append hthrough, hnone, hempty, List.append_nil]
    exact (List.prefix_append run b).isInfix.trans (remainder_append hmode hwhole).isInfix

/-! The strings and the names of a document -/

theorem mem_itemTokens (items : List Document) (s : Str) :
    .scalar (.string s) ∈ itemTokens items ↔ ∃ item ∈ items, .scalar (.string s) ∈ tokens item := by
  induction items with
  | nil => simp [itemTokens]
  | cons item items ih => simp [itemTokens, ih]

theorem mem_memberTokens (members : List (Str × Document)) (s : Str) :
    .scalar (.string s) ∈ memberTokens members ↔
      ∃ member ∈ members, s = member.1 ∨ .scalar (.string s) ∈ tokens member.2 := by
  induction members with
  | nil => simp [memberTokens]
  | cons member members ih => simp [memberTokens, ih, or_assoc]

theorem mem_tail {t : Token} {ts : List Token} (h : ∀ t' ∈ ts.head?, t' ≠ t) : t ∈ ts.tail ↔ t ∈ ts := by
  cases ts with
  | nil => rfl
  | cons t' ts => simp [Ne.symm (h t' rfl)]

theorem mem_array (items : List Document) (s : Str) :
    .scalar (.string s) ∈ tokens (.array items) ↔ ∃ item ∈ items, .scalar (.string s) ∈ tokens item := by
  have hhead : ∀ t ∈ (itemTokens items).head?, t ≠ .scalar (.string s) := by cases items <;> simp [itemTokens]
  rw [← mem_itemTokens, ← mem_tail hhead]
  simp [tokens]

theorem mem_object (members : List (Str × Document)) (s : Str) :
    .scalar (.string s) ∈ tokens (.object members) ↔
      ∃ member ∈ members, s = member.1 ∨ .scalar (.string s) ∈ tokens member.2 := by
  have hhead : ∀ t ∈ (memberTokens members).head?, t ≠ .scalar (.string s) := by cases members <;> simp [memberTokens]
  rw [← mem_memberTokens, ← mem_tail hhead]
  simp [tokens]

theorem lex_complete {mode : Mode} {text : Str} {ts : List Token} (h : lex mode text = some ts) :
    ∃ last rest, modeAfter mode text = some last ∧ finish last = some rest ∧ ts = emitted mode text ++ rest := by
  rw [← List.append_nil text, lex_append, Option.bind_eq_some_iff] at h
  obtain ⟨last, hlast, hrest⟩ := h
  obtain ⟨rest, hfinish, rfl⟩ := Option.map_eq_some_iff.mp hrest
  exact ⟨last, rest, hlast, hfinish, rfl⟩

end Corebase.Json
