import Corebase.LexSteps
import Corebase.SqlBrackets
import Corebase.Verdicts
import Corebase.Confirm

namespace Corebase.Splitting

open JsText SqlLex SqlGuard LexSteps GuardClasses Confirm

/-- Nothing is open at the end: a line break there is a blank of its own. -/
structure Closed (a : Text) : Prop where
  read : (pieces (a ++ ['\n'])).getLast? = some ⟨.blank, 1, ['\n']⟩
  balanced : (lex a).foldl depthAfter 0 = 0

def shiftStatement (k : Nat) (s : Statement) : Statement :=
  { s with tokens := s.tokens.map (shift k), start := s.start + k, stop := s.stop + k }

/-- The statement that ran to the end of its script, with a semicolon after it. -/
def closeAt (stop stop' : Nat) (s : Statement) : Statement := if s.stop = stop then { s with stop := stop' } else s

theorem lexFrom_newline {a : Text} (i : Nat) (r : Text)
    (h : (pieces (a ++ ['\n'])).getLast? = some ⟨.blank, 1, ['\n']⟩) :
    lexFrom i (a ++ '\n' :: r) = lexFrom i a ++ lexFrom (i + a.length + 1) r := by
  induction hn : a.length using Nat.strong_induction_on generalizing i a with
  | _ n ih =>
      cases a with
      | nil =>
          obtain rfl : n = 0 := hn.symm
          exact lexFrom_cons i (x := .blank) (n := 1) (by simp [lexeme, isSpace])
      | cons c cs =>
          cases hx : lexeme (c :: cs ++ ['\n']) with
          | mk x m =>
              have hpos := lexeme_pos c (cs ++ ['\n'])
              rw [← List.cons_append, hx] at hpos
              rw [List.cons_append, pieces_cons, ← List.cons_append, hx] at h
              have hm : m ≤ (c :: cs).length := by
                by_contra hm
                rw [List.drop_of_length_le (by rw [List.length_append, List.length_singleton]; omega)] at h
                obtain ⟨rfl, rfl, -⟩ := Piece.mk.inj (Option.some.inj h)
                exact hm (by simp)
              have hlen : ((c :: cs).drop m).length = n - m := by rw [List.length_drop, hn]
              have hlong : lexeme (c :: cs ++ '\n' :: r) = (x, m) :=
                lexeme_stable (w := ['\n']) ('\n' :: r) (List.cons_ne_nil c cs) (.inr ⟨rfl, by decide⟩) hx hm
              have hshort : lexeme (c :: cs) = (x, m) := by
                have ht := lexeme_stable [] (List.cons_ne_nil c cs) (.inl rfl) hx hm
                rwa [List.append_nil] at ht
              have hrest : (pieces ((c :: cs).drop m ++ ['\n'])).getLast? = some ⟨.blank, 1, ['\n']⟩ := by
                rw [List.drop_append_of_le_length hm] at h
                cases hp : pieces ((c :: cs).drop m ++ ['\n']) with
                | nil =>
                    obtain ⟨d, ds, hd⟩ := List.exists_cons_of_ne_nil (l := (c :: cs).drop m ++ ['\n']) (by simp)
                    rw [hd, pieces_cons] at hp
                    cases hp
                | cons p ps => rwa [hp, List.getLast?_cons_cons] at h
              rw [List.cons_append] at hlong
              rw [List.cons_append, lexFrom_cons i hlong, ← List.cons_append, List.take_append_of_le_length hm,
                List.drop_append_of_le_length hm, ih (n - m) (by omega) (i + m) hrest hlen, lexFrom_cons i hshort,
                List.append_assoc]
              congr 3
              omega

theorem lex_join {a : Text} (b : Text) (h : Closed a) : lex (a ++ '\n' :: ';' :: '\n' :: b) =
    lex a ++ ⟨.punct, [';'], a.length + 1, a.length + 2⟩ :: (lex b).map (shift (a.length + 3)) := by
  have hsemi : lexFrom (a.length + 1) (';' :: '\n' :: b) =
      ⟨.punct, [';'], a.length + 1, a.length + 2⟩ :: lexFrom (a.length + 2) ('\n' :: b) :=
    lexFrom_cons _ (x := .token .punct) (n := 1)
      (by simp [lexeme, isSpace, dollarTag_none, isDigit, isWordStart, isLetter, isHigh])
  have hblank : lexFrom (a.length + 2) ('\n' :: b) = lexFrom (a.length + 3) b :=
    lexFrom_cons _ (x := .blank) (n := 1) (by simp [lexeme, isSpace])
  have hall := lexFrom_newline 0 (';' :: '\n' :: b) h.read
  rw [Nat.zero_add, hsemi, hblank, lexFrom_shift (a.length + 3)] at hall
  exact hall

theorem push_near {a r : Text} {current : List Token} {stop : Nat} (h : stop ≤ a.length) :
    push (a ++ r) current stop = push a current stop := by
  cases current with
  | nil => rfl
  | cons t ts => rw [push, push, slice, slice, List.take_append_of_le_length h]

theorem trim_blank (cs : Text) {c : Char} (h : isSpace c = true) : trim (cs ++ [c]) = trim cs := by
  have hstart : (trimStart (trimStart (cs ++ [c])).reverse) = trimStart (trimStart cs).reverse := by
    unfold trimStart
    induction cs with
    | nil => simp [h]
    | cons d cs ih =>
        by_cases hd : isSpace d = true
        · rw [List.cons_append, List.dropWhile_cons_of_pos hd, List.dropWhile_cons_of_pos hd, ih]
        · rw [List.cons_append, List.dropWhile_cons_of_neg hd, List.dropWhile_cons_of_neg hd, ← List.cons_append,
            List.reverse_append, List.reverse_singleton, List.singleton_append, List.dropWhile_cons_of_pos h]
  rw [trim, trim, hstart]

/-- A statement that a semicolon after a line break ends, instead of the end of the script. -/
theorem push_break {a r : Text} {current : List Token} (h : ∀ t ∈ current, t.start < a.length) :
    push (a ++ '\n' :: r) current (a.length + 1) =
      (push a current a.length).map (closeAt a.length (a.length + 1)) := by
  cases current with
  | nil => rfl
  | cons t ts =>
      have ht := h t List.mem_cons_self
      have hslice : slice (a ++ '\n' :: r) t.start (a.length + 1) = slice a t.start a.length ++ ['\n'] := by
        rw [slice, slice, List.take_length_add_append, List.take_length, List.drop_append_of_le_length (by omega)]
        rfl
      rw [push, push]
      simp only [hslice, trim_blank _ (show isSpace '\n' = true by decide)]
      split
      · rfl
      · simp [closeAt]

theorem closeAt_push {a : Text} {current : List Token} {stop : Nat} (h : stop < a.length) :
    (push a current stop).map (closeAt a.length (a.length + 1)) = push a current stop := by
  rw [List.map_congr_left (g := id), List.map_id]
  intro s hs
  rw [closeAt, if_neg]
  · rfl
  · rw [(GuardTokens.push_start hs).2]
    omega

theorem splitFrom_join {a r : Text} {semi : Token} {us : List Token} (hs : semi.isPunct ';' = true)
    (hstart : semi.start = a.length + 1) {depth : Nat} {current ts : List Token}
    (hd : ts.foldl depthAfter depth = 0) (h : ∀ t ∈ current ++ ts, t.start < a.length) :
    splitFrom (a ++ '\n' :: r) depth current (ts ++ semi :: us) =
      (splitFrom a depth current ts).map (closeAt a.length (a.length + 1)) ++
        splitFrom (a ++ '\n' :: r) 0 [] us := by
  induction ts generalizing depth current with
  | nil =>
      obtain rfl : depth = 0 := hd
      rw [List.append_nil] at h
      have hcut : splitFrom (a ++ '\n' :: r) 0 current (semi :: us) =
          push (a ++ '\n' :: r) current semi.start ++ splitFrom (a ++ '\n' :: r) 0 [] us := by
        rw [splitFrom, if_pos (And.intro hs rfl)]
      rw [List.nil_append, hcut, hstart, push_break h, splitFrom]
  | cons t ts ih =>
      have ht : t.start < a.length := h t (by simp)
      rw [List.cons_append, splitFrom, splitFrom]
      rw [List.foldl_cons] at hd
      split
      next hcut =>
        have hsame : depthAfter depth t = depth := by
          have hk := hcut.1
          simp only [Token.isPunct, Bool.and_eq_true, decide_eq_true_eq] at hk
          simp [depthAfter, Token.isPunct, hk]
        rw [hsame] at hd
        rw [List.map_append, closeAt_push ht, List.append_assoc, push_near (Nat.le_of_lt ht),
          ih hd fun u hu => h u (by simp at hu; simp [hu])]
      next hcut =>
        refine ih hd fun u hu => h u ?_
        simpa [or_assoc] using hu

theorem push_shift (pre b : Text) (current : List Token) (stop : Nat) :
    push (pre ++ b) (current.map (shift pre.length)) (stop + pre.length) =
      (push b current stop).map (shiftStatement pre.length) := by
  cases current with
  | nil => rfl
  | cons t ts =>
      have hslice : slice (pre ++ b) (t.start + pre.length) (stop + pre.length) = slice b t.start stop := by
        rw [slice, slice, Nat.add_comm stop, List.take_length_add_append, Nat.add_comm, ← List.drop_drop,
          List.drop_left]
      change (if trim (slice (pre ++ b) (t.start + pre.length) (stop + pre.length)) = [] then [] else
        [(⟨trim (slice (pre ++ b) (t.start + pre.length) (stop + pre.length)), (t :: ts).map (shift pre.length),
          t.start + pre.length, stop + pre.length⟩ : Statement)]) = _
      rw [hslice, push]
      split
      · rfl
      · rfl

theorem depthAfter_shift (k depth : Nat) (t : Token) : depthAfter depth (shift k t) = depthAfter depth t := rfl

/-- The statements of a script behind other text are its own, further on. -/
theorem splitFrom_shift (pre b : Text) (depth : Nat) (current ts : List Token) :
    splitFrom (pre ++ b) depth (current.map (shift pre.length)) (ts.map (shift pre.length)) =
      (splitFrom b depth current ts).map (shiftStatement pre.length) := by
  induction ts generalizing depth current with
  | nil =>
      have h := push_shift pre b current b.length
      rw [Nat.add_comm, ← List.length_append] at h
      exact h
  | cons t ts ih =>
      rw [List.map_cons, splitFrom, splitFrom]
      change (if t.isPunct ';' = true ∧ depth = 0 then _ else _) = _
      split
      · rw [List.map_append, ← ih depth [], ← push_shift]
        rfl
      · rw [depthAfter_shift, ← ih, List.map_append]
        rfl

theorem split_join {a : Text} (b : Text) (h : Closed a) :
    split (a ++ '\n' :: ';' :: '\n' :: b) =
      (split a).map (closeAt a.length (a.length + 1)) ++ (split b).map (shiftStatement (a.length + 3)) := by
  have hbefore : ∀ t ∈ [] ++ lex a, t.start < a.length := by
    intro t ht
    have hmem := (mem_lexFrom (i := 0) ht).2.2
    omega
  have hpre : a ++ '\n' :: ';' :: '\n' :: b = (a ++ ['\n', ';', '\n']) ++ b := by simp
  have hlen : (a ++ ['\n', ';', '\n']).length = a.length + 3 := by simp
  rw [split, lex_join b h, splitFrom_join rfl rfl h.balanced hbefore, hpre, ← hlen]
  exact congrArg _ (splitFrom_shift (a ++ ['\n', ';', '\n']) b 0 [] (lex b))

section Moved

variable {s s' : Statement} {k : Nat} (hsql : s'.sql = s.sql) (hstart : s'.start = s.start + k)
  (htokens : s'.tokens = s.tokens.map (shift k))

theorem topLevel_shift (p : Token → Bool) (hp : ∀ t, p (shift k t) = p t) (depth : Nat) (ts : List Token) :
    topLevel p depth (ts.map (shift k)) = topLevel p depth ts := by
  induction ts generalizing depth with
  | nil => rfl
  | cons t ts ih => rw [List.map_cons, topLevel, topLevel, hp, depthAfter_shift, ih]

include hsql hstart in
theorem text_shift (t : Token) : text s' (shift k t) = text s t := by
  simp only [text, shift, hsql, hstart, Nat.add_sub_add_right]

include hsql hstart in
theorem dottedParts_shift (ts : List Token) :
    dottedParts s' (ts.map (shift k)) = Prod.map id (List.map (shift k)) (dottedParts s ts) := by
  fun_induction dottedParts s ts with
  | case1 d t ts hd parts rest hrec ih =>
      rw [hrec] at ih
      have hd' : ((shift k d).isPunct '.' && isName (shift k t)) = true := hd
      simp only [List.map_cons, dottedParts]
      rw [if_pos hd', ih, text_shift hsql hstart]
      rfl
  | case2 d t ts hd =>
      have hd' : ¬ ((shift k d).isPunct '.' && isName (shift k t)) = true := hd
      simp only [List.map_cons, dottedParts]
      rw [if_neg hd']
      rfl
  | case3 ts hts =>
      rcases ts with _ | ⟨d, _ | ⟨t, ts⟩⟩
      · rfl
      · rfl
      · exact absurd rfl (hts d t ts)

include hsql hstart in
theorem dottedName_shift (ts : List Token) :
    dottedName s' (ts.map (shift k)) = (dottedName s ts).map (Prod.map id (List.map (shift k))) := by
  cases ts with
  | nil => rfl
  | cons head ts =>
      simp only [List.map_cons, dottedName, dottedParts_shift hsql hstart, text_shift hsql hstart]
      change (if isName head = true then _ else _) = _
      split
      · rfl
      · rfl

theorem dropWhile_shift (words : List String) (ts : List Token) :
    (ts.map (shift k)).dropWhile (isOneOf words) = (ts.dropWhile (isOneOf words)).map (shift k) := by
  rw [List.dropWhile_map]
  rfl

include htokens in
theorem nameListStart_shift : nameListStart s' = (nameListStart s).map (shift k) := by
  rw [nameListStart, nameListStart, htokens, ← List.map_drop, dropWhile_shift]

include hsql hstart in
theorem namesFrom_shift (fuel : Nat) (ts : List Token) :
    namesFrom s' fuel (ts.map (shift k)) = namesFrom s fuel ts := by
  induction fuel generalizing ts with
  | zero => rfl
  | succ fuel ih =>
      rw [namesFrom, namesFrom, dottedName_shift hsql hstart]
      rcases dottedName s ts with _ | ⟨name, _ | ⟨c, rest⟩⟩
      · rfl
      · rfl
      · simp only [Option.map_some, Prod.map, List.map_cons, id_eq, ih]
        rfl

include hsql hstart htokens in
theorem objectNames_shift : objectNames s' = objectNames s := by
  rw [objectNames, objectNames, nameListStart_shift htokens, namesFrom_shift hsql hstart, List.length_map]

theorem afterCommas_shift (depth : Nat) (ts : List Token) :
    afterCommas depth (ts.map (shift k)) = (afterCommas depth ts).map (List.map (shift k)) := by
  induction ts generalizing depth with
  | nil => rfl
  | cons t ts ih =>
      rw [List.map_cons, afterCommas, afterCommas, depthAfter_shift, ih, List.map_append]
      change (if depth = 0 ∧ t.isPunct ',' = true then _ else _) ++ _ = _
      split <;> rfl

include hsql hstart htokens in
theorem alterActions_shift : alterActions s' = (alterActions s).map (List.map (shift k)) := by
  rw [alterActions, alterActions, nameListStart_shift htokens, dottedName_shift hsql hstart]
  rcases dottedName s (nameListStart s) with _ | ⟨name, rest⟩
  · rfl
  · simp only [Option.map_some, Prod.map, afterCommas_shift, List.map_cons]

theorem skipWord_shift (w : String) (ts : List Token) : skipWord w (ts.map (shift k)) = (skipWord w ts).map (shift k) := by
  cases ts with
  | nil => rfl
  | cons t ts =>
      rw [List.map_cons, skipWord, skipWord, apply_ite (List.map (shift k))]
      rfl

include hsql hstart in
theorem dropTarget_shift (ts : List Token) : dropTarget s' (ts.map (shift k)) = dropTarget s ts := by
  rw [dropTarget, dropTarget, skipWord_shift, skipWord_shift, dottedName_shift hsql hstart, Option.map_map]
  rfl

include hsql hstart in
theorem actionDrop_shift (ts : List Token) : actionDrop s' (ts.map (shift k)) = actionDrop s ts := by
  cases ts with
  | nil => rfl
  | cons t ts =>
      change (if t.isWord "DROP" = true then alterDrop s' (ts.map (shift k)) else _) = _
      rw [actionDrop]
      congr 1
      cases ts with
      | nil => rfl
      | cons u ts =>
          have hu := dropTarget_shift hsql hstart (u :: ts)
          have hts := dropTarget_shift hsql hstart ts
          rw [List.map_cons] at hu
          rw [List.map_cons, alterDrop, alterDrop, hts, hu]
          rfl

include hsql hstart in
theorem grantTargetFrom_shift (depth : Nat) (ts : List Token) :
    grantTargetFrom s' depth (ts.map (shift k)) = grantTargetFrom s depth ts := by
  induction ts generalizing depth with
  | nil => rfl
  | cons t ts ih =>
      rw [List.map_cons, grantTargetFrom, grantTargetFrom, depthAfter_shift, ih, dropWhile_shift,
        dottedName_shift hsql hstart, Option.map_map]
      change (if depth = 0 ∧ t.isWord "ON" = true then _ else _) = _
      congr 1
      cases ts <;> rfl

theorem grantsSchema_shift (ts : List Token) : grantsSchema (ts.map (shift k)) = grantsSchema ts := by
  induction ts with
  | nil => rfl
  | cons a ts ih =>
      cases ts with
      | nil => rfl
      | cons b ts =>
          rw [List.map_cons, List.map_cons, grantsSchema, grantsSchema, ← List.map_cons, ih]
          rfl

theorem granteeFrom_shift (depth : Nat) (afterTo : Bool) (ts : List Token) :
    granteeFrom depth afterTo (ts.map (shift k)) = granteeFrom depth afterTo ts := by
  induction ts generalizing depth afterTo with
  | nil => rfl
  | cons t ts ih =>
      rw [List.map_cons, granteeFrom, granteeFrom, depthAfter_shift, ih, ih]
      rfl

include hsql hstart htokens in
theorem dropVerdict_shift : dropVerdict s' = dropVerdict s := by
  have hhead : (s'.tokens.drop 1).head?.any (isOneOf ["TABLE", "SCHEMA"]) =
      (s.tokens.drop 1).head?.any (isOneOf ["TABLE", "SCHEMA"]) := by
    rw [htokens, ← List.map_drop, List.head?_map, Option.any_map]
    rfl
  simp only [dropVerdict, objectName, objectNames_shift hsql hstart htokens, hhead]

include hsql hstart htokens in
theorem alterVerdict_shift : alterVerdict s' = alterVerdict s := by
  have hdrops : (alterActions s').map (actionDrop s') = (alterActions s).map (actionDrop s) := by
    rw [alterActions_shift hsql hstart htokens, List.map_map]
    exact List.map_congr_left fun ts _ => actionDrop_shift hsql hstart ts
  simp only [alterVerdict, objectName, objectNames_shift hsql hstart htokens, hdrops]

include hsql hstart htokens in
theorem grantVerdict_shift : grantVerdict s' = grantVerdict s := by
  have hgrantee : grantee s' = grantee s := by
    rw [grantee, grantee, htokens, grantsSchema_shift, granteeFrom_shift]
  have htarget : grantTarget s' = grantTarget s := by
    rw [grantTarget, grantTarget, htokens, grantTargetFrom_shift hsql hstart]
  simp only [grantVerdict, objectName, objectNames_shift hsql hstart htokens, hgrantee, htarget]

include htokens in
theorem lead_shift : lead s' = lead s := by
  rw [lead, lead, htokens]
  cases s.tokens <;> rfl

include hsql hstart htokens in
theorem danger_shift : danger s' = danger s := by
  have hwhere : hasTopLevelWhere s' = hasTopLevelWhere s := by
    rw [hasTopLevelWhere, hasTopLevelWhere, htokens, topLevel_shift _ fun _ => rfl]
  have hobject : objectName s' = objectName s := by
    rw [objectName, objectName, objectNames_shift hsql hstart htokens]
  simp only [danger, lead_shift htokens, dropVerdict_shift hsql hstart htokens,
    alterVerdict_shift hsql hstart htokens, grantVerdict_shift hsql hstart htokens, truncateVerdict,
    deleteVerdict, updateVerdict, writeVerdict, hwhere, hobject]

include hsql hstart htokens in
/-- The verdict on a statement does not depend on where in the script it stands. -/
theorem classifyOne_shift : classifyOne s' = classifyOne s := by
  have hlimit : isLimitable s' = isLimitable s := by
    rw [isLimitable, isLimitable, lead_shift htokens, htokens, topLevel_shift _ fun _ => rfl]
  rw [classifyOne, classifyOne, danger_shift hsql hstart htokens, hsql, lead_shift htokens, hlimit]

end Moved

theorem topLevel_append (p : Token → Bool) (depth : Nat) (ts us : List Token) :
    topLevel p depth (ts ++ us) = (topLevel p depth ts || topLevel p (ts.foldl depthAfter depth) us) := by
  induction ts generalizing depth with
  | nil => rfl
  | cons t ts ih => rw [List.cons_append, topLevel, topLevel, ih, List.foldl_cons, Bool.or_assoc]

/-- What split makes a statement of: tokens up to a semicolon outside parentheses or the end of the script. -/
structure Stretch (sql : Text) (pre ts rest : List Token) (stop : Nat) : Prop where
  all : lex sql = pre ++ ts ++ rest
  whole : topLevel (·.isPunct ';') 0 ts = false
  ends : rest = [] ∧ stop = sql.length ∨ ∃ semi us, rest = semi :: us ∧ semi.isPunct ';' = true ∧ stop = semi.start

theorem splitFrom_stretch {sql : Text} (pre current : List Token) {ts : List Token} {st : Statement}
    (hall : lex sql = pre ++ current ++ ts) (hcur : topLevel (·.isPunct ';') 0 current = false)
    (h : st ∈ splitFrom sql (current.foldl depthAfter 0) current ts) :
    ∃ pre toks rest, Stretch sql pre toks rest st.stop ∧ st ∈ push sql toks st.stop := by
  induction ts generalizing pre current with
  | nil =>
      rw [splitFrom] at h
      have hstop := (GuardTokens.push_start h).2
      exact ⟨pre, current, [], ⟨by simpa using hall, hcur, .inl ⟨rfl, hstop⟩⟩, hstop ▸ h⟩
  | cons t ts ih =>
      rw [splitFrom] at h
      split at h
      next hcut =>
        rcases List.mem_append.mp h with h | h
        · have hstop := (GuardTokens.push_start h).2
          exact ⟨pre, current, t :: ts, ⟨hall, hcur, .inr ⟨t, ts, rfl, hcut.1, hstop⟩⟩, hstop ▸ h⟩
        · rw [hcut.2] at h
          exact ih (pre ++ current ++ [t]) [] (by simpa using hall) rfl h
      next hcut =>
        have hdepth : depthAfter (current.foldl depthAfter 0) t = (current ++ [t]).foldl depthAfter 0 := by simp
        rw [hdepth] at h
        refine ih pre (current ++ [t]) (by simpa using hall) ?_ h
        rw [topLevel_append, hcur, topLevel, topLevel]
        simp only [not_and, ← Bool.not_eq_true] at hcut ⊢
        intro hor
        simp only [Bool.or_eq_true, Bool.and_eq_true, decide_eq_true_eq, Bool.false_eq_true, false_or, or_false] at hor
        exact hcut hor.2 hor.1

theorem mem_push {sql : Text} {toks : List Token} {stop : Nat} {st : Statement} (h : st ∈ push sql toks stop) :
    st.sql = trim (slice sql st.start st.stop) ∧ st.sql ≠ [] ∧ st.tokens = toks ∧ st.stop = stop ∧
      ∃ t ts, toks = t :: ts ∧ st.start = t.start := by
  cases toks with
  | nil => cases h
  | cons t ts =>
      simp only [push] at h
      split at h
      · cases h
      next hne =>
        obtain rfl := List.mem_singleton.mp h
        exact ⟨rfl, hne, rfl, rfl, t, ts, rfl, rfl⟩

theorem splitFrom_whole {sql : Text} {depth : Nat} {current ts : List Token}
    (h : topLevel (·.isPunct ';') depth ts = false) : splitFrom sql depth current ts = push sql (current ++ ts) sql.length := by
  induction ts generalizing depth current with
  | nil => rw [splitFrom, List.append_nil]
  | cons t ts ih =>
      simp only [topLevel, Bool.or_eq_false_iff, Bool.and_eq_false_iff, decide_eq_false_iff_not] at h
      rw [splitFrom, if_neg fun hc => h.1.elim (fun hd => hd hc.2) (fun hp => by rw [hc.1] at hp; cases hp), ih h.2,
        List.append_assoc]
      rfl

/-- The text from a token on begins with the token's own characters. -/
theorem lexFrom_head {i : Nat} {cs : Text} {t : Token} {ts : List Token} (h : lexFrom i cs = t :: ts)
    (hi : t.start = i) : ∃ c ds, cs = c :: ds ∧ isSpace c = false ∧ (t.isPunct ';' = true → c = ';') := by
  cases cs with
  | nil => cases h
  | cons c ds =>
      cases hx : lexeme (c :: ds) with
      | mk x m =>
          have hpos := lexeme_pos c ds
          rw [hx] at hpos
          rw [lexFrom_cons i hx] at h
          have hspace : isSpace c = false := by
            rw [← Bool.not_eq_true]
            intro hs
            have hb : lexeme (c :: ds) = (.blank, 1) := by simp [lexeme, hs]
            obtain ⟨rfl, rfl⟩ := Prod.mk.inj (hx.symm.trans hb)
            have htail : lexFrom (i + 1) ((c :: ds).drop 1) = t :: ts := h
            have hlater := (mem_lexFrom (htail ▸ List.mem_cons_self)).1
            omega
          refine ⟨c, ds, rfl, hspace, fun hp => ?_⟩
          rcases single_token (i := i) (n := m) (x := x) (s := (c :: ds).take m) with ⟨u, hu⟩ | ⟨hu, -⟩
          · rw [hu] at h
            obtain ⟨rfl, -⟩ := List.cons.inj h
            cases x with
            | blank => cases hu
            | comment => cases hu
            | token k =>
                cases k with
                | punct =>
                    obtain ⟨-, rfl⟩ | ⟨hk | hk, -⟩ := GuardTokens.lexeme_code hx (by decide) (by decide)
                    · obtain rfl := List.head_eq_of_cons_eq hu
                      simpa [Token.isPunct] using hp
                    · cases hk
                    · cases hk
                | word => obtain rfl := List.head_eq_of_cons_eq hu; simp [Token.isPunct] at hp
                | string => obtain rfl := List.head_eq_of_cons_eq hu; simp [Token.isPunct] at hp
                | ident => obtain rfl := List.head_eq_of_cons_eq hu; simp [Token.isPunct] at hp
                | number => obtain rfl := List.head_eq_of_cons_eq hu; simp [Token.isPunct] at hp
          · rw [hu] at h
            have htail : lexFrom (i + m) ((c :: ds).drop m) = t :: ts := h
            have hlater := (mem_lexFrom (htail ▸ List.mem_cons_self)).1
            omega

theorem trim_split {c : Char} {x : Text} (h : isSpace c = false) :
    ∃ blanks, c :: x = trim (c :: x) ++ blanks ∧ (∀ d ∈ blanks, isSpace d = true) ∧
      trim (trim (c :: x)) = trim (c :: x) := by
  have htrim : trim (c :: x) = ((c :: x).reverse.dropWhile isSpace).reverse := by
    have hstart : trimStart (c :: x) = c :: x := trimStart_stable fun d hd => by rw [← Option.some.inj hd, h]
    rw [trim, hstart, trimStart]
  have hsplit : c :: x = trim (c :: x) ++ ((c :: x).reverse.takeWhile isSpace).reverse := by
    rw [htrim, ← List.reverse_append, List.takeWhile_append_dropWhile, List.reverse_reverse]
  refine ⟨_, hsplit, fun d hd => List.mem_takeWhile_imp (List.mem_reverse.mp hd), ?_⟩
  apply trim_stable
  · intro d hd
    have hd' : (c :: x).head? = some d := by
      rw [hsplit, List.head?_append, hd, Option.some_or]
    rw [← Option.some.inj hd', h]
  · intro d hd
    rw [htrim, List.getLast?_reverse] at hd
    exact head_dropWhile hd

/-- The text of a statement, and what trimming took from behind it. -/
structure Placed (sql : Text) (st : Statement) (pre : List Token) (t : Token) (ts rest : List Token)
    (blanks : Text) : Prop where
  stretch : Stretch sql pre (t :: ts) rest st.stop
  tokens : st.tokens = t :: ts
  start : st.start = t.start
  text : sql.drop st.start = st.sql ++ (blanks ++ sql.drop st.stop)
  within : st.start + st.sql.length ≤ st.stop
  blank : ∀ c ∈ blanks, isSpace c = true
  trimmed : st.sql ≠ [] ∧ trim st.sql = st.sql
  next : (sql.drop st.stop).head?.all (· = ';') = true

theorem split_placed {sql : Text} {st : Statement} (hst : st ∈ split sql) :
    ∃ pre t ts rest blanks, Placed sql st pre t ts rest blanks := by
  obtain ⟨pre, toks, rest, hstretch, hpush⟩ := splitFrom_stretch [] [] rfl rfl hst
  obtain ⟨htext, hne, htoks, -, t, ts, rfl, hstart⟩ := mem_push hpush
  have hall := hstretch.all
  rw [List.append_assoc, List.cons_append] at hall
  obtain ⟨k, hk, hlex⟩ := lexFrom_suffix (i := 0) hall
  rw [Nat.zero_add] at hk hlex
  obtain ⟨c, ds, hdrop, hspace, -⟩ := lexFrom_head hlex hk
  rw [← hk] at hdrop
  have hsorted := hall ▸ GuardTokens.lex_sorted sql
  have hafter := (List.pairwise_cons.mp (List.pairwise_append.mp hsorted).2.1).1
  have hinside : t.start < sql.length := by
    have hlen := congrArg List.length hdrop
    rw [List.length_drop, List.length_cons] at hlen
    omega
  have hend : t.start < st.stop ∧ (sql.drop st.stop).head?.all (· = ';') = true := by
    rcases hstretch.ends with ⟨-, hstop⟩ | ⟨semi, us, rfl, hp, hstop⟩
    · rw [hstop, List.drop_length]
      exact ⟨hinside, rfl⟩
    · have hsplit : lexFrom 0 sql = (pre ++ t :: ts) ++ semi :: us := hall.trans (by simp)
      obtain ⟨j, hj, hlex'⟩ := lexFrom_suffix hsplit
      rw [Nat.zero_add] at hj hlex'
      obtain ⟨d, es, hdrop', -, hd⟩ := lexFrom_head hlex' hj
      rw [hstop, hj, hdrop', hd hp]
      exact ⟨hj ▸ hafter semi (by simp), rfl⟩
  have hslice : slice sql t.start st.stop = c :: ds.take (st.stop - t.start - 1) := by
    obtain ⟨m, hm⟩ := Nat.exists_eq_add_of_lt hend.1
    rw [slice, List.drop_take, hdrop, hm, show t.start + m + 1 - t.start = m + 1 by omega, List.take_succ_cons]
    rfl
  have hrest : sql.drop t.start = slice sql t.start st.stop ++ sql.drop st.stop := by
    rw [slice, ← List.drop_append_of_le_length (by rw [List.length_take]; omega), List.take_append_drop]
  obtain ⟨blanks, hblanks, hspaces, htrim⟩ := trim_split (x := ds.take (st.stop - t.start - 1)) hspace
  rw [← hslice, ← hstart, ← htext] at hblanks htrim
  have hshort := congrArg List.length hblanks
  rw [List.length_append, slice, List.length_drop, List.length_take] at hshort
  refine ⟨pre, t, ts, rest, blanks, hstretch, htoks, hstart, ?_, by omega, hspaces, ⟨hne, htrim⟩, hend.2⟩
  rw [hstart] at hblanks ⊢
  rw [hrest, hblanks, List.append_assoc]

/-- A statement whose tokens the trimming left whole reads the same alone as in its script. -/
theorem split_alone {sql : Text} {st : Statement} (hst : st ∈ split sql)
    (hwhole : ∀ t ∈ st.tokens, min t.stop sql.length ≤ st.start + st.sql.length) :
    split st.sql = [⟨st.sql, lex st.sql, 0, st.sql.length⟩] ∧ (lex st.sql).map (shift st.start) = st.tokens ∧
      (split st.sql).map classifyOne = [classifyOne st] := by
  obtain ⟨pre, t, ts, rest, blanks, hplaced⟩ := split_placed hst
  obtain ⟨hstretch, htoks, hstart, htext, hwithin, hspaces, ⟨hne, htrim⟩, hnext⟩ := hplaced
  have hall := hstretch.all
  rw [List.append_assoc, List.cons_append] at hall
  obtain ⟨k, hk, hlex⟩ := lexFrom_suffix (i := 0) hall
  rw [Nat.zero_add] at hk hlex
  rw [← hk, ← hstart, htext] at hlex
  have hsorted := (List.pairwise_append.mp (hall ▸ GuardTokens.lex_sorted sql)).2.1
  have hhead : ∀ d, isSpace d = false → d ≠ ';' → (blanks ++ sql.drop st.stop).head? ≠ some d := by
    intro d hd hne' heq
    cases blanks with
    | nil =>
        rw [List.nil_append] at heq
        rw [heq] at hnext
        exact hne' (by simpa using hnext)
    | cons e es =>
        obtain rfl := Option.some.inj heq
        rw [hspaces e List.mem_cons_self] at hd
        cases hd
  have hlen := congrArg List.length htext
  rw [List.length_drop] at hlen
  have halone : lexFrom st.start st.sql = t :: ts := by
    refine lexFrom_cut ⟨hhead '-' (by decide) (by decide), hhead '*' (by decide) (by decide)⟩ hlex ?_ ?_
    · intro u hu
      have hle := hwhole u (htoks ▸ hu)
      omega
    · intro u hu
      rcases hstretch.ends with ⟨rfl, -⟩ | ⟨semi, us, rfl, -, hstop⟩
      · cases hu
      · have hle : semi.start ≤ u.start := by
          rcases List.mem_cons.mp hu with rfl | hu
          · exact Nat.le_refl _
          · have hs := (List.pairwise_append.mp (List.pairwise_cons.mp hsorted).2).2.1
            exact Nat.le_of_lt ((List.pairwise_cons.mp hs).1 u hu)
        omega
  rw [lexFrom_shift] at halone
  have hone : split st.sql = [⟨st.sql, lex st.sql, 0, st.sql.length⟩] := by
    have hwhole' : topLevel (·.isPunct ';') 0 (lex st.sql) = false := by
      rw [← topLevel_shift (k := st.start) _ fun _ => rfl, halone]
      exact hstretch.whole
    rw [split, splitFrom_whole hwhole', List.nil_append]
    obtain ⟨u, us, hu⟩ := List.exists_cons_of_ne_nil (l := lex st.sql) (by
      intro hnil
      rw [hnil] at halone
      cases halone)
    rw [hu, List.map_cons] at halone
    have hmoved := congrArg Token.start (List.cons.inj halone).1
    simp only [shift] at hmoved
    have hzero : u.start = 0 := by omega
    rw [hu]
    simp only [push, hzero]
    rw [slice, List.take_length, List.drop_zero, htrim, if_neg hne]
  have hmoved : classifyOne st = classifyOne ⟨st.sql, lex st.sql, 0, st.sql.length⟩ :=
    classifyOne_shift rfl (Nat.zero_add _).symm (by rw [htoks]; exact halone.symm)
  exact ⟨hone, by rw [halone, htoks], by rw [hone, List.map_singleton, hmoved]⟩

theorem foldl_worst (ss : List Classified) (acc : Danger) :
    (∀ s ∈ ss, s.danger.rank ≤ (ss.foldl (fun acc s => worse acc s.danger) acc).rank) ∧
      acc.rank ≤ (ss.foldl (fun acc s => worse acc s.danger) acc).rank ∧
      (ss.foldl (fun acc s => worse acc s.danger) acc = acc ∨
        ∃ s ∈ ss, s.danger = ss.foldl (fun acc s => worse acc s.danger) acc) := by
  induction ss generalizing acc with
  | nil => simp
  | cons s ss ih =>
      obtain ⟨hall, hacc, hsome⟩ := ih (worse acc s.danger)
      have hle : acc.rank ≤ (worse acc s.danger).rank ∧ s.danger.rank ≤ (worse acc s.danger).rank := by
        rw [worse]
        split <;> omega
      have hone : worse acc s.danger = acc ∨ worse acc s.danger = s.danger := by
        rw [worse]
        split <;> simp
      rw [List.foldl_cons]
      refine ⟨?_, Nat.le_trans hle.1 hacc, ?_⟩
      · intro u hu
        rcases List.mem_cons.mp hu with rfl | hu
        · exact Nat.le_trans hle.2 hacc
        · exact hall u hu
      · rcases hsome with hsome | ⟨u, hu, hsome⟩
        · rcases hone with hone | hone
          · exact .inl (hsome.trans hone)
          · exact .inr ⟨s, List.mem_cons_self, (hsome.trans hone).symm⟩
        · exact .inr ⟨u, List.mem_cons_of_mem _ hu, hsome⟩

/-- The danger of a script bounds that of each statement, and one of them has it unless it is safe. -/
theorem classify_worst (sql : Text) :
    (∀ st ∈ split sql, (classifyOne st).danger.rank ≤ (classify sql).danger.rank) ∧
      ((classify sql).danger = .safe ∨ ∃ st ∈ split sql, (classifyOne st).danger = (classify sql).danger) := by
  obtain ⟨hall, -, hsome⟩ := foldl_worst ((split sql).map classifyOne) .safe
  refine ⟨fun st hst => hall _ (List.mem_map_of_mem hst), hsome.imp id ?_⟩
  rintro ⟨s, hs, heq⟩
  obtain ⟨st, hst, rfl⟩ := List.mem_map.mp hs
  exact ⟨st, hst, heq⟩

/-- Scripts compose: joined by a semicolon they split into the statements of both, a statement stands for
itself, and the worst statement decides. -/
theorem split_composes :
    (∀ a b, Closed a → split (a ++ '\n' :: ';' :: '\n' :: b) =
      (split a).map (closeAt a.length (a.length + 1)) ++ (split b).map (shiftStatement (a.length + 3))) ∧
    (∀ sql, ∀ st ∈ split sql, (∀ t ∈ st.tokens, min t.stop sql.length ≤ st.start + st.sql.length) →
      split st.sql = [⟨st.sql, lex st.sql, 0, st.sql.length⟩] ∧ (lex st.sql).map (shift st.start) = st.tokens ∧
        (split st.sql).map classifyOne = [classifyOne st]) ∧
    ∀ sql, (∀ st ∈ split sql, (classifyOne st).danger.rank ≤ (classify sql).danger.rank) ∧
      ((classify sql).danger = .safe ∨ ∃ st ∈ split sql, (classifyOne st).danger = (classify sql).danger) :=
  ⟨fun _ b h => split_join b h, fun _ _ hst hwhole => split_alone hst hwhole, classify_worst⟩

def first : Text := lit "SELECT 1"

theorem closed_first : Closed first := ⟨by decide, by decide⟩

theorem split_first : split (first ++ '\n' :: ';' :: '\n' :: first) =
    (split first).map (closeAt 8 9) ++ (split first).map (shiftStatement 11) :=
  split_composes.1 first first closed_first

/-- A keyword with a no-break space behind it: a word of its own in the script, the keyword when trimmed. -/
def spaced : Text := lit "DELETE FROM t WHERE\u00a0"

/-- The end of an unterminated statement moves to the semicolon, and a name that ends in a blank is cut. -/
theorem split_shifted :
    (¬ ∀ a b, Closed a → split (a ++ '\n' :: ';' :: '\n' :: b) =
      split a ++ (split b).map (shiftStatement (a.length + 3))) ∧
    ¬ ∀ sql, ∀ st ∈ split sql, (split st.sql).map classifyOne = [classifyOne st] := by
  constructor
  · intro h
    exact absurd (h first first closed_first) (by decide)
  · intro h
    have hone : (split spaced).all (fun st => (split st.sql).map classifyOne = [classifyOne st]) = true := by
      rw [List.all_eq_true]
      exact fun st hst => decide_eq_true (h spaced st hst)
    exact absurd hone (by decide)

end Corebase.Splitting
