import Corebase.ObjectListing
import Corebase.UrlEscapes

namespace Corebase.S3Codecs

open JsText XmlText
open ObjectListing (decodeXml)
open UrlReference (bytes decodeComponent encodeComponent percentByte percentEncode hexDigit)

def escapeXml (s : Text) : Text :=
  [Entity.amp, .lt, .gt, .quot, .apos].foldl
    (fun s e => s.flatMap fun c => if c = e.char then reference e.name else [c]) s

/-- The characters that encodeURIComponent leaves alone and a canonical request does not. -/
def marks : List Char := ['!', '\'', '(', ')', '*']

def encodeMark (c : Char) : Text :=
  if c ∈ marks then '%' :: (Nat.toDigits 16 c.toNat).map Char.toUpper else [c]

def uriEncode (s : Text) : Text := (encodeComponent s).flatMap encodeMark

/-! One pass over a text -/

section OnePass

variable (es : List Entity)

def entityAt (s : Text) : Option Entity := es.find? fun e => (reference e.name).isPrefixOf s

/-- Each of the references is read once, from left to right; the number counts what is left of the last one. -/
def readFrom : Nat → Text → Text
  | _, [] => []
  | n + 1, _ :: cs => readFrom n cs
  | 0, c :: cs =>
      match entityAt es (c :: cs) with
      | some e => e.char :: readFrom (e.name.length + 1) cs
      | none => c :: readFrom 0 cs

def readOnce (s : Text) : Text := readFrom es 0 s

variable {es} {e : Entity} {c : Char} {s t : Text}

theorem readFrom_drop (n : Nat) (s : Text) : readFrom es n s = readOnce es (s.drop n) := by
  induction s generalizing n with
  | nil => cases n <;> rfl
  | cons c cs ih =>
      cases n with
      | zero => rfl
      | succ n => exact ih n

theorem readOnce_none (h : entityAt es (c :: s) = none) : readOnce es (c :: s) = c :: readOnce es s := by
  rw [readOnce, readFrom, h]
  rfl

theorem readOnce_some (h : entityAt es (reference e.name ++ t) = some e) :
    readOnce es (reference e.name ++ t) = e.char :: readOnce es t := by
  have hcons : reference e.name ++ t = '&' :: (e.name ++ [';'] ++ t) := rfl
  rw [hcons] at h ⊢
  have hlength : (e.name ++ [';']).length = e.name.length + 1 := List.length_append
  rw [readOnce, readFrom, h]
  dsimp only
  rw [readFrom_drop, List.drop_left' hlength]

theorem entityAt_plain (h : c ≠ '&') (s : Text) : entityAt es (c :: s) = none := by
  rw [entityAt, List.find?_eq_none]
  intro e _ hstarts
  exact h (List.cons_prefix_cons.mp (List.isPrefixOf_iff_prefix.mp hstarts)).1.symm

theorem entityAt_some (h : entityAt es s = some e) : e ∈ es ∧ ∃ t, s = reference e.name ++ t := by
  have hfind : es.find? (fun x => (reference x.name).isPrefixOf s) = some e := h
  have hstarts := List.find?_some hfind
  obtain ⟨t, ht⟩ := List.isPrefixOf_iff_prefix.mp hstarts
  exact ⟨List.mem_of_find?_eq_some h, t, ht.symm⟩

theorem readOnce_append (h : '&' ∉ s) (t : Text) : readOnce es (s ++ t) = s ++ readOnce es t := by
  induction s with
  | nil => rfl
  | cons c s ih =>
      obtain ⟨hc, hs⟩ := not_or.mp (mt List.mem_cons.mpr h)
      rw [List.cons_append, readOnce_none (entityAt_plain (Ne.symm hc) _), ih hs, List.cons_append]

/-- What is not of a reference, and no character that one stands for, has been there before. -/
theorem prefix_of_readOnce (hs : ∀ c ∈ s, c ≠ '&' ∧ ∀ e ∈ es, c ≠ e.char) (h : s <+: readOnce es t) : s <+: t := by
  induction s generalizing t with
  | nil => exact List.nil_prefix
  | cons c s ih =>
      obtain ⟨hc, hs⟩ := List.forall_mem_cons.mp hs
      cases t with
      | nil => exact absurd (List.prefix_nil.mp h) (List.cons_ne_nil _ _)
      | cons d t =>
          cases hd : entityAt es (d :: t) with
          | some e =>
              rw [readOnce, readFrom, hd] at h
              exact absurd (List.cons_prefix_cons.mp h).1 (hc.2 e (entityAt_some hd).1)
          | none =>
              rw [readOnce_none hd] at h
              obtain ⟨rfl, htail⟩ := List.cons_prefix_cons.mp h
              exact List.cons_prefix_cons.mpr ⟨rfl, ih hs htail⟩

/-- One more reference is read by one more replacement. -/
theorem replaceAll_readOnce (hname : ∀ c ∈ e.name ++ [';'], c ≠ '&' ∧ ∀ x ∈ es, c ≠ x.char) (hes : ∀ x ∈ es, x.char ≠ '&')
    (s : Text) : replaceAll (reference e.name) e.char (readOnce es s) = readOnce (es ++ [e]) s := by
  have hadded : ∀ u, entityAt (es ++ [e]) u = (entityAt es u).or (if (reference e.name).isPrefixOf u then some e else none) := by
    intro u
    rw [entityAt, entityAt, List.find?_append, List.find?_singleton]
  have hpass : ∀ {c : Char} {u : Text}, ¬ reference e.name <+: c :: u →
      replaceAll (reference e.name) e.char (c :: u) = c :: replaceAll (reference e.name) e.char u := by
    intro c u hnot
    exact replaceAll_pass hnot List.not_mem_nil (List.cons_ne_nil c [])
  induction hn : s.length using Nat.strongRecOn generalizing s with
  | ind n ih =>
      subst hn
      cases s with
      | nil => rfl
      | cons c cs =>
          cases hat : entityAt es (c :: cs) with
          | some x =>
              obtain ⟨hmem, t, ht⟩ := entityAt_some hat
              have hx : x.char ≠ '&' := hes x hmem
              have hnot : ¬ reference e.name <+: x.char :: readOnce es t :=
                fun hstarts => hx (List.cons_prefix_cons.mp hstarts).1.symm
              have hless : t.length < (c :: cs).length := by
                rw [ht, List.length_append, reference, List.length_cons]
                omega
              rw [ht] at hat ⊢
              have hboth : entityAt (es ++ [e]) (reference x.name ++ t) = some x := by rw [hadded, hat]; rfl
              rw [readOnce_some hat, readOnce_some hboth, hpass hnot, ih t.length hless t rfl]
          | none =>
              rw [readOnce_none hat]
              by_cases hstarts : reference e.name <+: c :: cs
              · obtain ⟨t, ht⟩ := hstarts
                have hboth : entityAt (es ++ [e]) (reference e.name ++ t) = some e := by
                  rw [hadded, ht, hat, ← ht, if_pos (List.isPrefixOf_iff_prefix.mpr (List.prefix_append _ _))]
                  rfl
                have hless : t.length < (c :: cs).length := by
                  rw [← ht, List.length_append, reference, List.length_cons]
                  omega
                obtain ⟨rfl, hcs⟩ := List.cons.inj ht
                have hfree : '&' ∉ e.name ++ [';'] := fun hmem => (hname '&' hmem).1 rfl
                have hread : '&' :: readOnce es cs = reference e.name ++ readOnce es t := by
                  rw [← hcs]
                  exact congrArg ('&' :: ·) (readOnce_append hfree t)
                rw [hread, replaceAll_here, ih t.length hless t rfl, ← ht, readOnce_some hboth]
              · have hnot : ¬ reference e.name <+: c :: readOnce es cs := by
                  intro hprefix
                  obtain ⟨rfl, htail⟩ := List.cons_prefix_cons.mp hprefix
                  exact hstarts (List.cons_prefix_cons.mpr ⟨rfl, prefix_of_readOnce hname htail⟩)
                have hneither : entityAt (es ++ [e]) (c :: cs) = none := by
                  rw [hadded, hat, if_neg (by rwa [List.isPrefixOf_iff_prefix])]
                  rfl
                rw [hpass hnot, readOnce_none hneither, ih cs.length (Nat.lt_succ_self _) cs rfl]

end OnePass

/-! Escaping -/

def entities : List Entity := [.lt, .gt, .quot, .apos, .amp]

/-- No reference is made by reading another: the replacements in turn are one pass. -/
theorem decodeXml_once (s : Text) : decodeXml s = readOnce entities s := by
  have hnothing : readOnce [] s = s := by
    induction s with
    | nil => rfl
    | cons c cs ih => rw [readOnce_none rfl, ih]
  have hone := fun (es : List Entity) (e : Entity) hname hes => @replaceAll_readOnce es e hname hes s
  have hlt := hone [] .lt (List.all_iff_forall_prop.mp (by decide)) (by decide)
  have hgt := hone [.lt] .gt (List.all_iff_forall_prop.mp (by decide)) (by decide)
  have hquot := hone [.lt, .gt] .quot (List.all_iff_forall_prop.mp (by decide)) (by decide)
  have hapos := hone [.lt, .gt, .quot] .apos (List.all_iff_forall_prop.mp (by decide)) (by decide)
  have hamp := hone [.lt, .gt, .quot, .apos] .amp (List.all_iff_forall_prop.mp (by decide)) (by decide)
  rw [hnothing] at hlt
  simp only [List.nil_append, List.cons_append] at hlt hgt hquot hapos hamp
  simp only [decodeXml, List.foldl_cons, List.foldl_nil]
  rw [hlt, hgt, hquot, hapos, hamp, entities]

def escapeChar (c : Char) : Text :=
  match entities.find? fun e => c = e.char with
  | some e => reference e.name
  | none => [c]

theorem escapeChar_plain {c : Char} (h : ∀ e ∈ entities, c ≠ e.char) : escapeChar c = [c] := by
  have hnone : (entities.find? fun e => c = e.char) = none := List.find?_eq_none.mpr (by simpa using h)
  rw [escapeChar, hnone]

theorem escapeXml_eq (s : Text) : escapeXml s = s.flatMap escapeChar := by
  simp only [escapeXml, List.foldl_cons, List.foldl_nil, List.flatMap_assoc]
  congr 1
  funext c
  by_cases hc : ∃ e, c = Entity.char e
  · obtain ⟨e, rfl⟩ := hc
    cases e <;> decide
  · have hplain : ∀ e, c ≠ Entity.char e := fun e he => hc ⟨e, he⟩
    simp only [if_neg (hplain _), List.flatMap_singleton, escapeChar_plain fun e _ => hplain e]

theorem readOnce_escapeChar (c : Char) (t : Text) :
    readOnce entities (escapeChar c ++ t) = c :: readOnce entities t := by
  by_cases hc : ∃ e, c = Entity.char e
  · obtain ⟨e, rfl⟩ := hc
    have hescape : escapeChar e.char = reference e.name := by cases e <;> decide
    have hat : entityAt entities (reference e.name ++ t) = some e := by cases e <;> rfl
    rw [hescape, readOnce_some hat]
  · have hplain : ∀ e, c ≠ Entity.char e := fun e he => hc ⟨e, he⟩
    rw [escapeChar_plain fun e _ => hplain e]
    exact readOnce_none (entityAt_plain (hplain .amp) t)

theorem decode_escape (s : Text) : decodeXml (escapeXml s) = s := by
  rw [decodeXml_once, escapeXml_eq]
  induction s with
  | nil => rfl
  | cons c cs ih => rw [List.flatMap_cons, readOnce_escapeChar, ih]

/-! The characters of an address -/

/-- The unreserved characters of an address -/
def isUnreserved (c : Char) : Bool := isLetter c || isDigit c || c ∈ ['-', '_', '.', '~']

theorem encodeMark_percent {bs : List Nat} (h : ∀ b ∈ bs, b < 256) :
    (bs.flatMap percentByte).flatMap encodeMark = bs.flatMap percentByte := by
  have hdigit : ∀ n < 16, encodeMark (hexDigit n) = [hexDigit n] := by decide
  induction bs with
  | nil => rfl
  | cons b bs ih =>
      obtain ⟨hb, hbs⟩ := List.forall_mem_cons.mp h
      have hbyte : (percentByte b).flatMap encodeMark = percentByte b := by
        have hpercent : encodeMark '%' = ['%'] := by decide
        simp only [percentByte, List.flatMap_cons, List.flatMap_nil, hpercent, hdigit (b / 16) (by omega),
          hdigit (b % 16) (Nat.mod_lt _ (by decide)), List.cons_append, List.nil_append]
      rw [List.flatMap_cons, List.flatMap_append, hbyte, ih hbs]

theorem uriEncode_char (c : Char) : (percentEncode (fun c => !UrlReference.isUnreserved c) c).flatMap encodeMark =
    percentEncode (fun c => !isUnreserved c) c := by
  by_cases hmark : c ∈ marks
  · simp only [marks, List.mem_cons, List.not_mem_nil, or_false] at hmark
    rcases hmark with rfl | rfl | rfl | rfl | rfl <;> decide
  · have hsame : UrlReference.isUnreserved c = isUnreserved c := by
      rw [Bool.eq_iff_iff]
      simp only [marks, List.mem_cons, List.not_mem_nil, or_false] at hmark
      simp only [UrlReference.isUnreserved, isUnreserved, Bool.or_eq_true, decide_eq_true_eq, List.mem_cons,
        List.not_mem_nil, or_false]
      tauto
    cases hc : isUnreserved c with
    | true =>
        simp only [percentEncode, hsame, hc, Bool.not_true, Bool.false_eq_true, if_false, List.flatMap_singleton,
          encodeMark, if_neg hmark]
    | false =>
        have hbytes : ∀ b ∈ (String.utf8EncodeChar c).map UInt8.toNat, b < 256 := by
          intro b hb
          obtain ⟨byte, -, rfl⟩ := List.mem_map.mp hb
          exact byte.toNat_lt
        simp only [percentEncode, hsame, hc, Bool.not_false, if_true, encodeMark_percent hbytes]

/-- The unreserved characters are left alone, and of all others the bytes are encoded. -/
theorem uriEncode_eq (s : Text) : uriEncode s = s.flatMap (percentEncode fun c => !isUnreserved c) := by
  rw [uriEncode, encodeComponent, List.flatMap_assoc]
  exact congrArg s.flatMap (funext uriEncode_char)

theorem uriEncode_self (c : Char) : uriEncode [c] = [c] ↔ isUnreserved c = true := by
  rw [uriEncode_eq, List.flatMap_singleton, percentEncode]
  cases hc : isUnreserved c with
  | true => simp
  | false =>
      obtain ⟨b, bs, hbytes⟩ := List.exists_cons_of_ne_nil (@String.utf8EncodeChar_ne_nil c)
      simp [hbytes, percentByte]

theorem decode_uriEncode (s : Text) : decodeComponent (uriEncode s) = some s := by
  rw [uriEncode_eq, decodeComponent, UrlReference.unescape_encode (by decide), Option.bind_some,
    UrlReference.fromUtf8_bytes]

/-- A key is read again from what is written of it, by one reading of each reference; and so is what is written in an
address, where exactly the unreserved characters stand for themselves. -/
theorem codecs_invert :
    (∀ key, decodeXml (escapeXml key) = key) ∧
    (∀ text, decodeXml text = readOnce entities text) ∧
    (∀ s, decodeComponent (uriEncode s) = some s) ∧
    (∀ s, uriEncode s = s.flatMap fun c => uriEncode [c]) ∧ (∀ c, uriEncode [c] = [c] ↔ isUnreserved c = true) ∧
    Function.Injective uriEncode := by
  refine ⟨decode_escape, decodeXml_once, decode_uriEncode, fun s => ?_, uriEncode_self, fun s t h => ?_⟩
  · simp only [uriEncode_eq, List.flatMap_singleton]
  · have hs := decode_uriEncode s
    rw [h, decode_uriEncode t] at hs
    exact (Option.some.inj hs).symm

end Corebase.S3Codecs
