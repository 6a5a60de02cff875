import Corebase.TokenTests
import Corebase.Verdicts
import Mathlib.Data.List.Forall2

namespace Corebase.DropNames

open JsText SqlLex SqlGuard TokenTests Verdicts

/-- A name of a statement with its parts: identifiers with dots between them. -/
inductive DottedName : List Token → List Token → Prop
  | one {t : Token} : isName t = true → DottedName [t] [t]
  | more {t d : Token} {ts parts : List Token} : isName t = true → d.isPunct '.' = true → DottedName ts parts →
      DottedName (t :: d :: ts) (t :: parts)

/-- A list of names with commas between them. -/
inductive NameList : List Token → List (List Token) → Prop
  | one {ts parts : List Token} : DottedName ts parts → NameList ts [parts]
  | more {ts parts rest : List Token} {names : List (List Token)} {c : Token} : DottedName ts parts →
      c.isPunct ',' = true → NameList rest names → NameList (ts ++ c :: rest) (parts :: names)

/-- A name as the guard writes it. -/
def spelled (s : Statement) (parts : List Token) : Text := join ['.'] (parts.map (text s))

/-- A DROP TABLE or DROP SCHEMA with the names that it lists. -/
inductive Drops : List Token → List (List Token) → Prop
  | mk {d k : Token} {ifExists list behavior : List Token} {names : List (List Token)} : d.isWord "DROP" = true →
      isOneOf ["TABLE", "SCHEMA"] k = true →
      ifExists = [] ∨ (∃ i e, ifExists = [i, e] ∧ i.isWord "IF" = true ∧ e.isWord "EXISTS" = true) →
      NameList list names →
      behavior = [] ∨ (∃ b, behavior = [b] ∧ isOneOf ["CASCADE", "RESTRICT"] b = true) →
      Drops (d :: k :: (ifExists ++ (list ++ behavior))) names

theorem dottedParts_end (s : Statement) {ts : List Token} (h : ts.head?.any (·.isPunct '.') = false) :
    dottedParts s ts = ([], ts) := by
  cases ts with
  | nil => rfl
  | cons d ts =>
      have hd : d.isPunct '.' = false := h
      cases ts with
      | nil => rfl
      | cons t ts => simp [dottedParts, hd]

theorem dottedParts_more (s : Statement) {d t : Token} {ts : List Token} (hd : d.isPunct '.' = true)
    (ht : isName t = true) :
    dottedParts s (d :: t :: ts) = (text s t :: (dottedParts s ts).1, (dottedParts s ts).2) := by
  simp [dottedParts, hd, ht]

theorem DottedName.head {ts parts : List Token} (h : DottedName ts parts) :
    ∃ t rest more, ts = t :: rest ∧ parts = t :: more ∧ isName t = true := by
  cases h with
  | one ht => exact ⟨_, _, _, rfl, rfl, ht⟩
  | more ht _ _ => exact ⟨_, _, _, rfl, rfl, ht⟩

/-- The guard reads a whole name, up to the first token that does not go on with it. -/
theorem dottedName_spelled (s : Statement) {ts parts rest : List Token} (h : DottedName ts parts)
    (hrest : rest.head?.any (·.isPunct '.') = false) :
    dottedName s (ts ++ rest) = some (spelled s parts, rest) := by
  have hparts : ∀ t more, parts = t :: more →
      ∃ tail, ts = t :: tail ∧ dottedParts s (tail ++ rest) = (more.map (text s), rest) := by
    induction h with
    | one _ =>
        intro t more hp
        cases hp
        exact ⟨[], rfl, dottedParts_end s hrest⟩
    | @more t d ts parts ht hd hn ih =>
        intro t' more hp
        cases hp
        obtain ⟨u, urest, umore, rfl, rfl, hu⟩ := hn.head
        obtain ⟨tail, heq, hdp⟩ := ih u umore rfl
        cases heq
        refine ⟨_, rfl, ?_⟩
        simp only [List.cons_append]
        rw [dottedParts_more s hd hu, hdp]
        rfl
  obtain ⟨t, trest, more, rfl, rfl, ht⟩ := h.head
  obtain ⟨tail, heq, hdp⟩ := hparts t more rfl
  cases heq
  simp only [List.cons_append, dottedName, ht, if_true, hdp]
  rfl

/-- The guard reads a whole list of names. -/
theorem namesFrom_spelled (s : Statement) {ts rest : List Token} {names : List (List Token)}
    (h : NameList ts names) (hrest : ∀ t, rest.head? = some t → t.isPunct '.' = false ∧ t.isPunct ',' = false)
    (fuel : Nat) (hfuel : ts.length ≤ fuel) :
    namesFrom s fuel (ts ++ rest) = names.map (spelled s) := by
  induction h generalizing fuel with
  | @one ts parts hn =>
      obtain ⟨t, tail, more, rfl, rfl, -⟩ := hn.head
      cases fuel with
      | zero => cases hfuel
      | succ fuel =>
          have hdot : rest.head?.any (·.isPunct '.') = false := by
            cases hr : rest.head? with
            | none => rfl
            | some u => exact (hrest u hr).1
          rw [namesFrom, dottedName_spelled s hn hdot]
          cases rest with
          | nil => rfl
          | cons u rest => simp [(hrest u rfl).2]
  | @more ts parts list names c hn hc hl ih =>
      obtain ⟨t, tail, more, rfl, rfl, -⟩ := hn.head
      cases fuel with
      | zero => cases hfuel
      | succ fuel =>
          have hdot : ((c :: list) ++ rest).head?.any (·.isPunct '.') = false := isPunct_ne hc (by decide)
          rw [List.append_assoc, namesFrom, dottedName_spelled s hn hdot]
          simp only [List.cons_append, hc, if_true, List.map_cons]
          rw [ih fuel]
          simp only [List.length_append, List.length_cons] at hfuel
          omega

/-- The first word of the list is not one that the guard steps over before a name. -/
def readable (names : List (List Token)) : Bool := !(names.head?.any fun parts => parts.head?.any (isOneOf SKIP))

theorem NameList.head {ts : List Token} {names : List (List Token)} (h : NameList ts names) :
    ∃ t rest more list, ts = t :: rest ∧ names = (t :: more) :: list := by
  cases h with
  | one hn =>
      obtain ⟨t, rest, more, rfl, rfl, -⟩ := hn.head
      exact ⟨t, rest, more, [], rfl, rfl⟩
  | more hn _ _ =>
      obtain ⟨t, rest, more, rfl, rfl, -⟩ := hn.head
      exact ⟨t, _, more, _, rfl, rfl⟩

/-- The names of a DROP TABLE or DROP SCHEMA are the ones it lists. -/
theorem objectNames_drop {s : Statement} {names : List (List Token)} (h : Drops s.tokens names)
    (hr : readable names = true) : objectNames s = names.map (spelled s) := by
  generalize hts : s.tokens = ts at h
  cases h with
  | @mk d k ifExists list behavior names hd hk hif hlist hb =>
      obtain ⟨t, rest, more, tailNames, rfl, rfl⟩ := hlist.head
      have hskip : isOneOf SKIP t = false := by simpa [readable] using hr
      have hk : isOneOf SKIP k = true := isOneOf_mono hk (by decide)
      have hstart : nameListStart s = (t :: rest) ++ behavior := by
        rw [nameListStart, hts, List.drop_one, List.tail_cons, List.dropWhile_cons_of_pos hk]
        rcases hif with rfl | ⟨i, e, rfl, hi, he⟩
        · rw [List.nil_append, List.cons_append, List.dropWhile_cons_of_neg (by simp [hskip])]
        · rw [List.cons_append, List.cons_append, List.nil_append,
            List.dropWhile_cons_of_pos (isWord_oneOf hi (by decide)),
            List.dropWhile_cons_of_pos (isWord_oneOf he (by decide)), List.cons_append,
            List.dropWhile_cons_of_neg (by simp [hskip])]
      rw [objectNames, hstart]
      apply namesFrom_spelled s hlist
      · intro u hu
        rcases hb with rfl | ⟨b, rfl, hb⟩
        · cases hu
        · cases hu
          exact ⟨isOneOf_isPunct hb, isOneOf_isPunct hb⟩
      · simp

theorem names_drop {s : Statement} {names : List (List Token)} (h : Drops s.tokens names)
    (hr : readable names = true) : (danger s).names = names.map (spelled s) := by
  have hnames := objectNames_drop h hr
  generalize hts : s.tokens = ts at h
  cases h with
  | @mk d k ifExists list behavior names hd hk _ _ _ =>
      have hlead : lead s = lit "DROP" := lead_of_isWord hts hd
      have hsecond : (s.tokens.drop 1).head?.any (isOneOf ["TABLE", "SCHEMA"]) = true := by
        rw [hts]
        exact hk
      simp only [danger, hlead, if_true, dropVerdict, hsecond, hnames]

/-- What a statement adds to the names that have to be typed. -/
inductive Contributes (s : Statement) : List Text → Prop
  | drop {names : List (List Token)} {texts : List Text} : Drops s.tokens names → readable names = true →
      texts = names.map (spelled s) → Contributes s texts
  /-- A DROP of anything but tables and schemas. -/
  | otherDrop : lead s = lit "DROP" → (s.tokens.drop 1).head?.any (isOneOf ["TABLE", "SCHEMA"]) = false →
      Contributes s []
  | alter : lead s = lit "ALTER" → Contributes s (alterVerdict s).names
  | other : lead s ≠ lit "DROP" → lead s ≠ lit "ALTER" → Contributes s []

theorem names_contributed {s : Statement} {names : List Text} (h : Contributes s names) :
    (danger s).names = names := by
  cases h with
  | drop hd hr ht => exact (names_drop hd hr).trans ht.symm
  | otherDrop hl hk =>
      simp only [danger, hl, if_true, dropVerdict, hk, Bool.false_eq_true, if_false]
  | alter hl =>
      have hne : lit "ALTER" ≠ lit "DROP" := by decide
      simp only [danger, hl, hne, if_false, if_true]
  | other hd ha => exact names_other hd ha

/-- The names to type are exactly those of the tables and schemas that the script drops,
each once and in order, beside the columns of its ALTER statements. -/
theorem namesToType_exact (sql : Text) (contributions : List (List Text))
    (h : List.Forall₂ Contributes (split sql) contributions) :
    (classify sql).namesToType = distinct contributions.flatten := by
  have hnames : ((split sql).map classifyOne).flatMap (fun c => c.names) = contributions.flatten := by
    generalize split sql = ss at h
    induction h with
    | nil => rfl
    | cons hs _ ih =>
        rw [List.map_cons, List.flatMap_cons, ih, List.flatten_cons]
        congr 1
        exact names_contributed hs
  simp only [classify, hnames]

theorem namesToType_two : (classify (lit "DROP TABLE a, public.b CASCADE")).namesToType = [lit "a", lit "public.b"] := by
  have hsplit : split (lit "DROP TABLE a, public.b CASCADE") = [⟨lit "DROP TABLE a, public.b CASCADE",
      [⟨.word, lit "DROP", 0, 4⟩, ⟨.word, lit "TABLE", 5, 10⟩, ⟨.word, lit "A", 11, 12⟩, ⟨.punct, lit ",", 12, 13⟩,
        ⟨.word, lit "PUBLIC", 14, 20⟩, ⟨.punct, lit ".", 20, 21⟩, ⟨.word, lit "B", 21, 22⟩,
        ⟨.word, lit "CASCADE", 23, 30⟩], 0, 30⟩] := by decide
  have hlist := NameList.more (.one (t := ⟨.word, lit "A", 11, 12⟩) (by decide))
    (c := ⟨.punct, lit ",", 12, 13⟩) (by decide) (.one (.more (t := ⟨.word, lit "PUBLIC", 14, 20⟩) (by decide)
      (d := ⟨.punct, lit ".", 20, 21⟩) (by decide) (.one (t := ⟨.word, lit "B", 21, 22⟩) (by decide))))
  have hdrops := Drops.mk (d := ⟨.word, lit "DROP", 0, 4⟩) (k := ⟨.word, lit "TABLE", 5, 10⟩) (by decide) (by decide)
    (.inl rfl) hlist (.inr ⟨⟨.word, lit "CASCADE", 23, 30⟩, rfl, by decide⟩)
  refine (namesToType_exact _ [[lit "a", lit "public.b"]] ?_).trans ?_
  · rw [hsplit]
    exact .cons (.drop hdrops (by decide) (by decide)) .nil
  · decide

/-- A materialized view holds data, but its name is not asked for. -/
theorem namesToType_matview : lit "v" ∉ (classify (lit "DROP MATERIALIZED VIEW v")).namesToType := by
  decide

end Corebase.DropNames
