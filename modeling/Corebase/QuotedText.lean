import Corebase.JsText
import Mathlib.Data.List.Perm.Subperm
import Mathlib.Tactic.Tauto
import Mathlib.Tactic.Push
import Mathlib.Algebra.Order.BigOperators.Group.List
import Mathlib.Algebra.Order.Group.Nat

namespace Corebase.QuotedText

open JsText

/-- How far the pattern "(?:[^"]|"")*" goes on after the quote that opens it. -/
def quotedRun : Text → Option Nat
  | [] => none
  | '"' :: '"' :: cs =>
      -- without a closing quote further on, the first of the two closes the run
      some (match quotedRun cs with
        | some n => n + 2
        | none => 1)
  | '"' :: _ => some 1
  | _ :: cs => (quotedRun cs).map (· + 1)

/-- The quoted runs of the text from left to right, and the text with a blank for each. -/
def liftQuoted : Nat → Text → List Text × Text
  | 0, _ => ([], [])
  | _, [] => ([], [])
  | fuel + 1, c :: cs =>
      match if c = '"' then quotedRun cs else none with
      | some n =>
          let (runs, rest) := liftQuoted fuel (cs.drop n)
          (('"' :: cs.take n) :: runs, ' ' :: rest)
      | none =>
          let (runs, rest) := liftQuoted fuel cs
          (runs, c :: rest)

def reading (typed : Text) : List Text × Text := liftQuoted typed.length typed

variable (sep : Char → Bool)

def words (rest : Text) : List Text := (rest.splitOnP sep).filter (· ≠ [])

/-- The quoted runs of a text and the words of what is left. -/
def tokens (typed : Text) : List Text := (reading typed).1 ++ words sep (reading typed).2

/-- Every quote has another one right after or before it. -/
def doubled : Text → Bool
  | [] => true
  | '"' :: '"' :: cs => doubled cs
  | '"' :: _ => false
  | _ :: cs => doubled cs

/-- A text between quotes, with the quotes inside it doubled. -/
def Enclosed (n : Text) : Prop := ∃ body, n = '"' :: (body ++ ['"']) ∧ doubled body = true

/-- A text without separators. -/
def Unbroken (n : Text) : Prop := n ≠ [] ∧ ∀ c ∈ n, sep c = false

/-- Each text can be read back from the list typed out: it is enclosed in quotes, or it has
no separator and no quote but perhaps the last one of the whole list. -/
def Typeable : List Text → Prop
  | [] => True
  | n :: ns =>
      (Enclosed n ∨ Unbroken sep n ∧ (n.count '"' = 0 ∨ n.count '"' = 1 ∧ ∀ m ∈ ns, m.count '"' = 0)) ∧ Typeable ns

/-- The text is the list typed out, with blanks and commas between its members. -/
inductive Typed : List Text → Text → Prop
  | nil : Typed [] []
  | one (n : Text) : Typed [n] n
  | more {n gap text : Text} {ns : List Text} : gap ≠ [] → (∀ c ∈ gap, c = ' ' ∨ c = ',') → ns ≠ [] →
      Typed ns text → Typed (n :: ns) (n ++ (gap ++ text))

theorem quotedRun_none {cs : Text} : quotedRun cs = none ↔ cs.count '"' = 0 := by
  fun_induction quotedRun cs with
  | case1 => simp
  | case2 cs ih => simp
  | case3 cs h => simp
  | case4 c cs h1 h2 ih =>
      have hc : c ≠ '"' := by
        rintro rfl
        exact h2 rfl
      rw [Option.map_eq_none_iff, ih, List.count_cons_of_ne hc]

example : quotedRun "a\"\"b".toList = some 2 := by decide

/-- A run closes. -/
theorem quotedRun_enclosed {cs : Text} {n : Nat} (h : quotedRun cs = some n) :
    ∃ body, cs.take n = body ++ ['"'] ∧ doubled body = true := by
  fun_induction quotedRun cs generalizing n with
  | case1 => cases h
  | case2 cs ih =>
      cases hq : quotedRun cs with
      | none =>
          rw [hq] at h
          cases h
          exact ⟨[], rfl, rfl⟩
      | some m =>
          rw [hq] at h
          cases h
          obtain ⟨body, hb, hd⟩ := ih hq
          refine ⟨'"' :: '"' :: body, ?_, hd⟩
          simp [hb]
  | case3 cs hne =>
      cases h
      exact ⟨[], rfl, rfl⟩
  | case4 c cs h1 h2 ih =>
      obtain ⟨m, hm, rfl⟩ := Option.map_eq_some_iff.mp h
      obtain ⟨body, hb, hd⟩ := ih hm
      refine ⟨c :: body, by simp [hb], ?_⟩
      have hc : c ≠ '"' := by
        rintro rfl
        exact h2 rfl
      rw [doubled, hd]
      · exact fun _ h => absurd h hc
      · exact hc

/-- The run that opens a text whose quotes are doubled up to the closing one. -/
theorem quotedRun_body {body rest : Text} (h : doubled body = true) (hrest : rest.head? ≠ some '"') :
    quotedRun (body ++ '"' :: rest) = some (body.length + 1) := by
  fun_induction doubled body with
  | case1 =>
      cases rest with
      | nil => rfl
      | cons c rest =>
          have hc : c ≠ '"' := fun heq => hrest (by rw [heq]; rfl)
          rw [List.nil_append, quotedRun]
          · rfl
          · rintro cs ⟨⟩
            exact hc rfl
  | case2 cs ih => simp [quotedRun, ih h]
  | case3 cs hcs => cases h
  | case4 c cs h1 h2 ih =>
      have hc : c ≠ '"' := by
        rintro rfl
        exact h2 rfl
      rw [List.cons_append, quotedRun, ih h]
      · rfl
      · exact fun _ heq => absurd heq hc
      · exact hc

theorem liftQuoted_fuel (cs : Text) {m n : Nat} (hm : cs.length ≤ m) (hn : cs.length ≤ n) :
    liftQuoted m cs = liftQuoted n cs := by
  induction m generalizing n cs with
  | zero =>
      rw [List.eq_nil_of_length_eq_zero (Nat.le_zero.mp hm)]
      cases n <;> rfl
  | succ m ih =>
      cases cs with
      | nil => cases n <;> rfl
      | cons c cs =>
          cases n with
          | zero => cases hn
          | succ n =>
              rw [List.length_cons, Nat.add_le_add_iff_right] at hm hn
              simp only [liftQuoted]
              split
              · rename_i k _
                have hk : (cs.drop k).length ≤ cs.length := by simp
                rw [ih (cs.drop k) (hk.trans hm) (hk.trans hn)]
              · rw [ih cs hm hn]

theorem reading_nil : reading [] = ([], []) := rfl

theorem reading_char {c : Char} {cs : Text} (h : (if c = '"' then quotedRun cs else none) = none) :
    reading (c :: cs) = ((reading cs).1, c :: (reading cs).2) := by
  simp only [reading, List.length_cons, liftQuoted, h]

theorem reading_run {cs : Text} {n : Nat} (h : quotedRun cs = some n) :
    reading ('"' :: cs) =
      (('"' :: cs.take n) :: (reading (cs.drop n)).1, ' ' :: (reading (cs.drop n)).2) := by
  simp only [reading, List.length_cons, liftQuoted, if_true, h]
  rw [liftQuoted_fuel (cs.drop n) (by simp) le_rfl]

theorem reading_plain {n : Text} (rest : Text) (h : n.count '"' = 0) :
    reading (n ++ rest) = ((reading rest).1, n ++ (reading rest).2) := by
  induction n with
  | nil => rfl
  | cons c n ih =>
      have hc : c ≠ '"' := fun heq => List.count_eq_zero.mp h (by simp [heq])
      rw [List.count_cons_of_ne hc] at h
      rw [List.cons_append, reading_char (if_neg hc), ih h]
      rfl

/-- A last quote stays where it is. -/
theorem reading_unbroken {n : Text} (rest : Text)
    (h : n.count '"' = 0 ∨ n.count '"' = 1 ∧ rest.count '"' = 0) :
    reading (n ++ rest) = ((reading rest).1, n ++ (reading rest).2) := by
  rcases h with h | ⟨h, hrest⟩
  · exact reading_plain rest h
  · have hmem : '"' ∈ n := List.count_pos_iff.mp (by omega)
    obtain ⟨n1, n2, rfl, h1⟩ := List.eq_append_cons_of_mem hmem
    have h1 : n1.count '"' = 0 := List.count_eq_zero.mpr h1
    have h2 : n2.count '"' = 0 := by
      rw [List.count_append, List.count_cons_self] at h
      omega
    have hq : quotedRun (n2 ++ rest) = none := by rw [quotedRun_none, List.count_append, h2, hrest]
    rw [List.append_assoc, List.cons_append, reading_plain _ h1, reading_char (by rw [if_pos rfl, hq]),
      reading_plain _ h2]
    simp

theorem reading_enclosed {n : Text} (rest : Text) (h : Enclosed n) (hrest : rest.head? ≠ some '"') :
    reading (n ++ rest) = (n :: (reading rest).1, ' ' :: (reading rest).2) := by
  obtain ⟨body, rfl, hd⟩ := h
  have hq := quotedRun_body hd hrest
  have heq : '"' :: (body ++ ['"']) ++ rest = '"' :: (body ++ '"' :: rest) := by simp
  have hlen : body.length + 1 = (body ++ ['"']).length := by simp
  rw [heq, reading_run hq]
  have happ : body ++ '"' :: rest = (body ++ ['"']) ++ rest := by simp
  rw [happ, hlen, List.take_left, List.drop_left]

section Words

variable {sep}

theorem words_gap (gap rest : Text) (h : ∀ c ∈ gap, sep c = true) : words sep (gap ++ rest) = words sep rest := by
  induction gap with
  | nil => rfl
  | cons c gap ih =>
      have hc : words sep (c :: (gap ++ rest)) = words sep (gap ++ rest) := by
        simp only [words, List.splitOnP_cons_eq_if_modifyHead, h c (by simp), if_true]
        rfl
      rw [List.cons_append, hc, ih fun d hd => h d (by simp [hd])]

theorem words_unbroken {n rest : Text} (h : Unbroken sep n) (hrest : ∀ c, rest.head? = some c → sep c = true) :
    words sep (n ++ rest) = n :: words sep rest := by
  cases rest with
  | nil => simp [words, List.splitOnP_eq_singleton h.2, h.1]
  | cons c rest =>
      have hc := hrest c rfl
      have hgap : words sep (c :: rest) = words sep rest := words_gap [c] rest (by simpa using hc)
      rw [hgap, words, List.splitOnP_append_cons_of_forall_mem h.2 c hc]
      simp [words, h.1]

theorem mem_splitOnP {cs w : Text} (h : w ∈ cs.splitOnP sep) : ∀ c ∈ w, sep c = false := by
  induction cs generalizing w with
  | nil =>
      rw [List.splitOnP_nil, List.mem_singleton] at h
      simp [h]
  | cons d cs ih =>
      rw [List.splitOnP_cons_eq_if_modifyHead] at h
      obtain ⟨r, rs, hr⟩ := List.exists_cons_of_ne_nil (List.splitOnP_ne_nil sep cs)
      split at h
      · rcases List.mem_cons.mp h with rfl | h
        · simp
        · exact ih h
      · rename_i hd
        rw [hr, List.modifyHead_cons, List.mem_cons] at h
        rcases h with rfl | h
        · intro c hc
          rcases List.mem_cons.mp hc with rfl | hc
          · simpa using hd
          · exact ih (hr ▸ List.mem_cons_self) c hc
        · exact ih (hr ▸ List.mem_cons_of_mem _ h)

theorem mem_words {rest w : Text} (h : w ∈ words sep rest) : Unbroken sep w := by
  obtain ⟨hw, hne⟩ := List.mem_filter.mp h
  exact ⟨by simpa using hne, mem_splitOnP hw⟩

/-- Splitting loses no character that is not a separator. -/
theorem count_words (rest : Text) {q : Char} (hq : sep q = false) :
    ((words sep rest).map (List.count q)).sum = rest.count q := by
  have hfilter : ∀ ws : List Text, ((ws.filter (· ≠ [])).map (List.count q)).sum = (ws.map (List.count q)).sum := by
    intro ws
    induction ws with
    | nil => rfl
    | cons w ws ih => cases w <;> simp_all
  rw [words, hfilter]
  induction rest with
  | nil => rfl
  | cons c rest ih =>
      rw [List.splitOnP_cons_eq_if_modifyHead]
      obtain ⟨r, rs, hr⟩ := List.exists_cons_of_ne_nil (List.splitOnP_ne_nil sep rest)
      rw [hr] at ih ⊢
      split
      · rename_i hc
        have hne : c ≠ q := by
          rintro rfl
          rw [hq] at hc
          cases hc
        rw [List.map_cons, List.sum_cons, ih, List.count_cons_of_ne hne]
        simp
      · rw [List.modifyHead_cons, List.map_cons, List.sum_cons, List.count_cons, List.count_cons, ← ih, List.map_cons,
          List.sum_cons]
        omega

end Words

section Typed

variable {sep}

/-- Separators are at least the blank and the comma, and no quote. -/
structure Separates (sep : Char → Bool) : Prop where
  blank : sep ' ' = true
  comma : sep ',' = true
  quote : sep '"' = false

theorem gap_sep (hs : Separates sep) {gap : Text} (h : ∀ c ∈ gap, c = ' ' ∨ c = ',') : ∀ c ∈ gap, sep c = true := by
  intro c hc
  rcases h c hc with rfl | rfl
  · exact hs.blank
  · exact hs.comma

theorem gap_quotes {gap : Text} (h : ∀ c ∈ gap, c = ' ' ∨ c = ',') : gap.count '"' = 0 := by
  rw [List.count_eq_zero]
  intro hq
  have hne : ¬ ('"' = ' ' ∨ '"' = ',') := by decide
  exact hne (h '"' hq)

theorem Typed.count {ns : List Text} {text : Text} (h : Typed ns text) :
    text.count '"' = (ns.map (List.count '"')).sum := by
  induction h with
  | nil => rfl
  | one n => simp
  | more _ hgap _ _ ih => rw [List.count_append, List.count_append, gap_quotes hgap, ih]; simp

/-- A typeable text comes back as the first token, before those of the rest. -/
theorem mem_tokens_append (hs : Separates sep) {n : Text} {ns : List Text} (rest : Text) (hn : Typeable sep (n :: ns))
    (hcount : (∀ m ∈ ns, m.count '"' = 0) → rest.count '"' = 0)
    (hrest : ∀ c, rest.head? = some c → sep c = true) (t : Text) :
    t ∈ tokens sep (n ++ rest) ↔ t = n ∨ t ∈ tokens sep rest := by
  have hquote : rest.head? ≠ some '"' := by
    intro h
    have := hrest _ h
    rw [hs.quote] at this
    cases this
  rcases hn.1 with hn | ⟨hn, hc⟩
  · have hblank : words sep (' ' :: (reading rest).2) = words sep (reading rest).2 :=
      words_gap [' '] _ (by simpa using hs.blank)
    rw [tokens, reading_enclosed rest hn hquote, hblank]
    simp [tokens]
  · have hc : n.count '"' = 0 ∨ n.count '"' = 1 ∧ rest.count '"' = 0 := hc.imp_right fun h => ⟨h.1, hcount h.2⟩
    have hhead : ∀ c, (reading rest).2.head? = some c → sep c = true := by
      intro c hc
      cases rest with
      | nil => cases hc
      | cons d rest =>
          have hd : d ≠ '"' := fun heq => hquote (by rw [heq]; rfl)
          rw [reading_char (if_neg hd)] at hc
          cases hc
          exact hrest _ rfl
    rw [tokens, reading_unbroken rest hc, words_unbroken hn hhead]
    simp only [tokens, List.mem_append, List.mem_cons]
    tauto

theorem tokens_gap (hs : Separates sep) {gap : Text} (text : Text) (h : ∀ c ∈ gap, c = ' ' ∨ c = ',') :
    tokens sep (gap ++ text) = tokens sep text := by
  rw [tokens, reading_plain text (gap_quotes h), words_gap _ _ (gap_sep hs h)]
  rfl

/-- The tokens of a list that can be read back are its members. -/
theorem mem_tokens (hs : Separates sep) {ns : List Text} {text : Text} (h : Typed ns text) (hn : Typeable sep ns)
    (t : Text) : t ∈ tokens sep text ↔ t ∈ ns := by
  induction h with
  | nil => simp [tokens, words, reading_nil]
  | one n =>
      have hstep := mem_tokens_append hs [] hn (fun _ => rfl) (by simp) t
      rw [List.append_nil] at hstep
      rw [hstep]
      simp [tokens, words, reading_nil]
  | @more n gap text ns hne hgap _ htyped ih =>
      have hcount : (∀ m ∈ ns, m.count '"' = 0) → (gap ++ text).count '"' = 0 := by
        intro h
        rw [List.count_append, gap_quotes hgap, htyped.count, List.map_congr_left h]
        simp
      have hhead : ∀ c, (gap ++ text).head? = some c → sep c = true := by
        intro c hc
        cases gap with
        | nil => exact absurd rfl hne
        | cons d gap =>
            obtain rfl : d = c := Option.some.inj hc
            exact gap_sep hs hgap _ List.mem_cons_self
      rw [mem_tokens_append hs _ hn hcount hhead, tokens_gap hs text hgap, ih hn.2, List.mem_cons]

end Typed

section Complete

variable {sep}

theorem liftQuoted_runs (fuel : Nat) (cs : Text) : ∀ r ∈ (liftQuoted fuel cs).1, Enclosed r := by
  fun_induction liftQuoted fuel cs with
  | case1 => simp
  | case2 => simp
  | case3 fuel c cs n hq runs rest heq ih =>
      rw [heq] at ih
      intro r hr
      rcases List.mem_cons.mp hr with rfl | hr
      · split at hq
        · obtain ⟨body, hb, hd⟩ := quotedRun_enclosed hq
          exact ⟨body, by rw [hb], hd⟩
        · cases hq
      · exact ih r hr
  | case4 fuel c cs hq runs rest heq ih =>
      rw [heq] at ih
      exact ih

theorem liftQuoted_count (fuel : Nat) (cs : Text) (h : cs.length ≤ fuel) :
    ((liftQuoted fuel cs).1.map (List.count '"')).sum + (liftQuoted fuel cs).2.count '"' = cs.count '"' := by
  fun_induction liftQuoted fuel cs with
  | case1 cs =>
      rw [List.eq_nil_of_length_eq_zero (Nat.le_zero.mp h)]
      rfl
  | case2 => rfl
  | case3 fuel c cs n hq runs rest heq ih =>
      rw [heq] at ih
      have hc : c = '"' := by
        by_contra hc
        rw [if_neg hc] at hq
        cases hq
      have ih := ih (by simp only [List.length_cons] at h; simp only [List.length_drop]; omega)
      have hcs : cs.count '"' = (cs.take n).count '"' + (cs.drop n).count '"' := by
        rw [← List.count_append, List.take_append_drop]
      have hblank : (' ' :: rest).count '"' = rest.count '"' := List.count_cons_of_ne (by decide)
      rw [hc, List.map_cons, List.sum_cons, List.count_cons_self, List.count_cons_self, hblank, hcs, ← ih]
      simp only
      omega
  | case4 fuel c cs hq runs rest heq ih =>
      rw [heq] at ih
      have ih := ih (by simp only [List.length_cons] at h; omega)
      simp only [List.count_cons, ← ih]
      omega

/-- At most one quote is left over, the last one. -/
theorem liftQuoted_rest (fuel : Nat) (cs : Text) (h : cs.length ≤ fuel) : (liftQuoted fuel cs).2.count '"' ≤ 1 := by
  fun_induction liftQuoted fuel cs with
  | case1 => simp
  | case2 => simp
  | case3 fuel c cs n hq runs rest heq ih =>
      rw [heq] at ih
      have hblank : (' ' :: rest).count '"' = rest.count '"' := List.count_cons_of_ne (by decide)
      rw [hblank]
      exact ih (by simp only [List.length_cons] at h; simp only [List.length_drop]; omega)
  | case4 fuel c cs hq runs rest heq ih =>
      have hfuel : cs.length ≤ fuel := by simpa using h
      rw [heq] at ih
      by_cases hc : c = '"'
      · rw [if_pos hc, quotedRun_none] at hq
        have hcount := liftQuoted_count fuel cs hfuel
        rw [heq, hq] at hcount
        simp only at hcount
        rw [hc, List.count_cons_self]
        omega
      · rw [List.count_cons_of_ne hc]
        exact ih hfuel

/-- A quote with another one after it lies in a run. -/
theorem liftQuoted_covers (fuel : Nat) (cs : Text) (h : cs.length ≤ fuel) {a b : Text} (hcs : cs = a ++ '"' :: b)
    (hb : b.count '"' ≠ 0) : ∃ p q, p ++ '"' :: q ∈ (liftQuoted fuel cs).1 ∧ p <:+ a ∧ q <+: b := by
  fun_induction liftQuoted fuel cs generalizing a with
  | case1 cs =>
      rw [List.eq_nil_of_length_eq_zero (Nat.le_zero.mp h)] at hcs
      simp at hcs
  | case2 => simp at hcs
  | case3 fuel c cs n hq runs rest heq ih =>
      rw [heq] at ih
      have hc : c = '"' := by
        by_contra hc
        rw [if_neg hc] at hq
        cases hq
      have hfuel : (cs.drop n).length ≤ fuel := by simp only [List.length_cons] at h; simp only [List.length_drop]; omega
      by_cases hlen : a.length ≤ n
      · cases a with
        | nil =>
            obtain ⟨-, rfl⟩ := List.cons_eq_cons.mp hcs
            exact ⟨[], cs.take n, by simp, List.suffix_rfl, List.take_prefix n cs⟩
        | cons d a =>
            rw [List.cons_append, List.cons_eq_cons] at hcs
            obtain ⟨rfl, rfl⟩ := hcs
            have htake : (a ++ '"' :: b).take n = a ++ '"' :: b.take (n - a.length - 1) := by
              simp only [List.length_cons] at hlen
              obtain ⟨k, rfl⟩ : ∃ k, n = a.length + (k + 1) := ⟨n - a.length - 1, by omega⟩
              rw [List.take_append, List.take_of_length_le (by omega)]
              simp
            refine ⟨c :: a, b.take (n - a.length - 1), ?_, List.suffix_rfl, List.take_prefix _ b⟩
            rw [htake, ← hc]
            simp
      · cases a with
        | nil => simp at hlen
        | cons d a =>
            rw [List.cons_append, List.cons_eq_cons] at hcs
            obtain ⟨rfl, rfl⟩ := hcs
            simp only [List.length_cons] at hlen
            have hdrop : (a ++ '"' :: b).drop n = a.drop n ++ '"' :: b := by
              rw [List.drop_append_of_le_length (by omega)]
            obtain ⟨p, q, hmem, hp, hq⟩ := ih hfuel hdrop
            refine ⟨p, q, List.mem_cons_of_mem _ hmem, ?_, hq⟩
            exact (hp.trans (List.drop_suffix n a)).trans (List.suffix_cons c a)
  | case4 fuel c cs hq runs rest heq ih =>
      rw [heq] at ih
      have hfuel : cs.length ≤ fuel := by simpa using h
      cases a with
      | nil =>
          obtain ⟨rfl, rfl⟩ := List.cons_eq_cons.mp hcs
          rw [if_pos rfl, quotedRun_none] at hq
          exact absurd hq hb
      | cons d a =>
          rw [List.cons_append, List.cons_eq_cons] at hcs
          obtain ⟨rfl, rfl⟩ := hcs
          obtain ⟨p, q, hmem, hp, hq⟩ := ih hfuel rfl
          exact ⟨p, q, hmem, hp.trans (List.suffix_cons c a), hq⟩

/-- Every quote of the text is in one of its tokens. -/
theorem count_tokens (hs : Separates sep) (text : Text) :
    ((tokens sep text).map (List.count '"')).sum = text.count '"' := by
  rw [tokens, List.map_append, List.sum_append, count_words _ hs.quote, reading, liftQuoted_count _ _ le_rfl]

theorem typed_join {gap : Text} (hne : gap ≠ []) (hgap : ∀ c ∈ gap, c = ' ' ∨ c = ',') (ns : List Text) :
    Typed ns (join gap ns) := by
  induction ns with
  | nil => exact .nil
  | cons n ns ih =>
      cases ns with
      | nil => exact .one n
      | cons m ns =>
          rw [join, List.append_assoc]
          exact .more hne hgap (by simp) ih

/-- Where a text stands in the list typed out. -/
theorem join_split (gap n : Text) (pre post : List Text) :
    (∃ front, join gap (pre ++ n :: post) = front ++ join gap (n :: post) ∧ (front = [] ∨ gap <:+ front)) ∧
      (post ≠ [] → join gap (n :: post) = n ++ (gap ++ join gap post)) := by
  constructor
  · induction pre with
    | nil => exact ⟨[], rfl, .inl rfl⟩
    | cons m pre ih =>
        obtain ⟨front, heq, hfront⟩ := ih
        refine ⟨m ++ (gap ++ front), ?_, .inr ?_⟩
        · cases hp : pre ++ n :: post with
          | nil => simp at hp
          | cons k ks => rw [List.cons_append, hp, join, ← hp, heq]; simp
        · rcases hfront with rfl | ⟨before, rfl⟩
          · exact ⟨m, by simp⟩
          · exact ⟨m ++ (gap ++ before), by simp⟩
  · intro hpost
    cases post with
    | nil => exact absurd rfl hpost
    | cons k post => rw [join, List.append_assoc]

theorem enclosed_count {n : Text} (h : Enclosed n) : 2 ≤ n.count '"' := by
  obtain ⟨body, rfl, -⟩ := h
  rw [List.count_cons_self, List.count_append]
  simp

/-- The tokens with quotes are members of the list, if all its members are tokens. -/
theorem quoted_token (hs : Separates sep) {ns : List Text} {text : Text} (htyped : Typed ns text) (hnd : ns.Nodup)
    (hmem : ∀ n ∈ ns, n ∈ tokens sep text) {t : Text} (ht : t ∈ tokens sep text) (hq : t.count '"' ≠ 0) : t ∈ ns := by
  obtain ⟨ms, hperm, hsub⟩ := hnd.subperm hmem
  obtain ⟨others, hothers⟩ := hsub.exists_perm_append
  have hsum := count_tokens hs text
  rw [(hothers.map _).sum_eq, List.map_append, List.sum_append, (hperm.map _).sum_eq, htyped.count] at hsum
  rcases List.mem_append.mp (hothers.mem_iff.mp ht) with h | h
  · exact hperm.mem_iff.mp h
  · have hle := List.le_sum_of_mem (List.mem_map_of_mem (f := List.count '"') h)
    omega

theorem typeable_of_splits {ns : List Text} (h : ∀ pre n post, ns = pre ++ n :: post →
      Enclosed n ∨ Unbroken sep n ∧ (n.count '"' = 0 ∨ n.count '"' = 1 ∧ ∀ m ∈ post, m.count '"' = 0)) :
    Typeable sep ns := by
  induction ns with
  | nil => trivial
  | cons n ns ih =>
      refine ⟨h [] n ns rfl, ih fun pre m post heq => h (n :: pre) m post (by rw [heq]; rfl)⟩

/-- A list whose members are all among the tokens, however wide the gaps, can be read back. -/
theorem typeable_of_mem (hs : Separates sep) {ns : List Text} (hnd : ns.Nodup)
    (h : ∀ text, Typed ns text → ∀ n ∈ ns, n ∈ tokens sep text) : Typeable sep ns := by
  -- the gaps are wider than any member, so that no token of the list reaches over one
  let gap := List.replicate ((ns.map List.length).sum + 1) ' '
  have hgap : ∀ c ∈ gap, c = ' ' ∨ c = ',' := fun c hc => .inl (List.eq_of_mem_replicate hc)
  have hwide : ∀ n ∈ ns, n.length < gap.length := by
    intro n hn
    have hle := List.le_sum_of_mem (List.mem_map_of_mem (f := List.length) hn)
    simp only [gap, List.length_replicate]
    omega
  have htyped : Typed ns (join gap ns) := typed_join (by simp [gap]) hgap ns
  have hmem := h _ htyped
  refine typeable_of_splits fun pre n post hns => ?_
  have hn : n ∈ ns := by simp [hns]
  rcases List.mem_append.mp (hmem n hn) with hrun | hword
  · exact .inl (liftQuoted_runs _ _ n hrun)
  refine .inr ⟨mem_words hword, ?_⟩
  have hle : n.count '"' ≤ 1 := by
    have hcount := List.le_sum_of_mem (List.mem_map_of_mem (f := List.count '"') hword)
    rw [count_words _ hs.quote] at hcount
    exact hcount.trans (liftQuoted_rest _ _ le_rfl)
  rcases Nat.eq_zero_or_pos (n.count '"') with hzero | hpos
  · exact .inl hzero
  refine .inr ⟨by omega, ?_⟩
  by_contra hpost
  push Not at hpost
  obtain ⟨m, hm, hquote⟩ := hpost
  obtain ⟨n1, n2, rfl, -⟩ := List.eq_append_cons_of_mem (List.count_pos_iff.mp hpos)
  rw [List.count_append, List.count_cons_self] at hle
  obtain ⟨⟨front, hfront, hends⟩, hback⟩ := join_split gap (n1 ++ '"' :: n2) pre post
  have hback := hback (List.ne_nil_of_mem hm)
  have hcs : join gap ns = (front ++ n1) ++ '"' :: (n2 ++ (gap ++ join gap post)) := by
    rw [hns, hfront, hback]
    simp
  have hb : (n2 ++ (gap ++ join gap post)).count '"' ≠ 0 := by
    have hsum := (typed_join (by simp [gap]) hgap post).count
    have hone := List.le_sum_of_mem (List.mem_map_of_mem (f := List.count '"') hm)
    rw [List.count_append, List.count_append]
    omega
  obtain ⟨p, q, hrun, hp, hq⟩ := liftQuoted_covers _ _ le_rfl hcs hb
  have htwo := enclosed_count (liftQuoted_runs _ _ _ hrun)
  have hin := quoted_token hs htyped hnd hmem (List.mem_append_left _ hrun) (by omega)
  have hlen := hwide _ hin
  rw [List.length_append, List.length_cons] at hlen
  -- the run around the quote stays between the gaps, where there is no other quote
  have hpcount : p.count '"' = 0 := by
    have hsuf : p <:+ gap ++ n1 := by
      rcases hends with rfl | ⟨before, rfl⟩
      · exact hp.trans (List.suffix_append gap n1)
      · rw [List.append_assoc] at hp
        exact List.suffix_of_suffix_length_le hp (List.suffix_append before _) (by simp; omega)
    have hle := hsuf.sublist.count_le '"'
    rw [List.count_append, gap_quotes hgap] at hle
    omega
  have hqcount : q.count '"' = 0 := by
    rw [← List.append_assoc] at hq
    have hpre : q <+: n2 ++ gap := List.prefix_of_prefix_length_le hq (List.prefix_append _ _) (by simp; omega)
    have hle := hpre.sublist.count_le '"'
    rw [List.count_append, gap_quotes hgap] at hle
    omega
  rw [List.count_append, List.count_cons_self] at htwo
  omega

end Complete

end Corebase.QuotedText
