import Corebase.SqlGuard

namespace Corebase.TokenTests

open JsText SqlLex SqlGuard

variable {s : Statement} {t : Token} {ts : List Token} {v w : String} {vs ws : List String} {c d : Char}

theorem isWord_lit (h : t.isWord w = true) : t.kind = .word ∧ t.value = lit w := by
  simpa [Token.isWord, lit] using h

theorem isWord_inj (hv : t.isWord v = true) (hw : t.isWord w = true) : v = w :=
  String.toList_injective ((isWord_lit hv).2.symm.trans (isWord_lit hw).2)

theorem isWord_unique (h : t.isWord v = true) (hne : v ≠ w) : t.isWord w = false := by
  rw [Bool.eq_false_iff]
  exact fun hw => hne (isWord_inj h hw)

theorem isOneOf_iff : isOneOf ws t = true ↔ ∃ w ∈ ws, t.isWord w = true := by
  simp only [isOneOf, Bool.and_eq_true, decide_eq_true_eq, List.any_eq_true]
  exact ⟨fun h => h.2, fun ⟨w, hw, h⟩ => ⟨(isWord_lit h).1, w, hw, h⟩⟩

theorem isWord_oneOf (h : t.isWord w = true) (hw : w ∈ ws) : isOneOf ws t = true := isOneOf_iff.mpr ⟨w, hw, h⟩

theorem isOneOf_mono (h : isOneOf ws t = true) (hsub : ws ⊆ vs) : isOneOf vs t = true := by
  obtain ⟨w, hw, h⟩ := isOneOf_iff.mp h
  exact isWord_oneOf h (hsub hw)

theorem isOneOf_word (h : isOneOf ws t = false) (hw : w ∈ ws) : t.isWord w = false := by
  rw [Bool.eq_false_iff] at h ⊢
  exact fun ht => h (isWord_oneOf ht hw)

/-- A token that is one of some words is none of others. -/
theorem isOneOf_disjoint (h : isOneOf vs t = true) (hd : ∀ v ∈ vs, v ∉ ws) : isOneOf ws t = false := by
  rw [Bool.eq_false_iff]
  intro hw
  obtain ⟨v, hv, hvt⟩ := isOneOf_iff.mp h
  obtain ⟨w, hw, hwt⟩ := isOneOf_iff.mp hw
  exact hd v hv (isWord_inj hvt hwt ▸ hw)

theorem isWord_notOneOf (h : t.isWord v = true) (hv : v ∉ ws) : isOneOf ws t = false :=
  isOneOf_disjoint (isWord_oneOf h (List.mem_singleton_self v)) (by simpa using hv)

theorem isPunct_iff : t.isPunct c = true ↔ t.kind = .punct ∧ t.value = [c] := by
  simp [Token.isPunct]

theorem isPunct_ne (h : t.isPunct c = true) (hne : c ≠ d) : t.isPunct d = false := by
  rw [isPunct_iff] at h
  simp [Token.isPunct, h.2, hne]

theorem isPunct_kind (h : t.kind ≠ .punct) : t.isPunct c = false := by
  simp [Token.isPunct, h]

theorem isWord_isPunct (h : t.isWord w = true) : t.isPunct c = false :=
  isPunct_kind (by rw [(isWord_lit h).1]; decide)

theorem isPunct_isWord (h : t.isPunct c = true) : t.isWord w = false := by
  rw [Bool.eq_false_iff]
  intro hw
  rw [isWord_isPunct hw] at h
  cases h

theorem isPunct_oneOf (h : t.isPunct c = true) : isOneOf ws t = false := by
  rw [Bool.eq_false_iff]
  intro hw
  obtain ⟨w, -, hw⟩ := isOneOf_iff.mp hw
  rw [isWord_isPunct hw] at h
  cases h

theorem isWord_isName (h : t.isWord w = true) : isName t = true := by
  simp [isName, (isWord_lit h).1]

theorem isOneOf_isName (h : isOneOf ws t = true) : isName t = true := by
  obtain ⟨w, -, h⟩ := isOneOf_iff.mp h
  exact isWord_isName h

theorem isName_isPunct (h : isName t = true) : t.isPunct c = false := by
  simp only [isName, Bool.or_eq_true, decide_eq_true_eq] at h
  rcases h with h | h <;> simp [Token.isPunct, h]

theorem isOneOf_isPunct (h : isOneOf ws t = true) : t.isPunct c = false := isName_isPunct (isOneOf_isName h)

theorem isPunct_isName (h : t.isPunct c = true) : isName t = false := by
  rw [Bool.eq_false_iff]
  intro hn
  rw [isName_isPunct hn] at h
  cases h

theorem lead_of_isWord (hs : s.tokens = t :: ts) (h : t.isWord w = true) : lead s = lit w := by
  obtain ⟨hk, hv⟩ := isWord_lit h
  simp [lead, hs, hk, hv]

theorem isWord_of_lead (hs : s.tokens = t :: ts) (hw : lit w ≠ []) (h : lead s = lit w) : t.isWord w = true := by
  simp only [lead, hs] at h
  split at h
  next hk => simp [Token.isWord, hk, h, lit]
  · exact absurd h.symm hw

end Corebase.TokenTests
