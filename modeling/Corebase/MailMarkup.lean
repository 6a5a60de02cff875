import Corebase.EmailTemplates

namespace Corebase.EmailTemplates

open JsText Html

section Escapes

def escapeChar (c : Char) : Text :=
  if c = '&' then "&amp;".toList else if c = '<' then "&lt;".toList else if c = '>' then "&gt;".toList
  else if c = '"' then "&quot;".toList else if c = '\'' then "&#39;".toList else [c]

theorem replaceAll_append (c : Char) (r : String) (u v : Text) :
    replaceAll c r (u ++ v) = replaceAll c r u ++ replaceAll c r v := List.flatMap_append ..

theorem escapeHtml_singleton (c : Char) : escapeHtml [c] = escapeChar c := by
  by_cases hamp : c = '&'
  · subst hamp
    decide
  by_cases hlt : c = '<'
  · subst hlt
    decide
  by_cases hgt : c = '>'
  · subst hgt
    decide
  by_cases hquot : c = '"'
  · subst hquot
    decide
  by_cases hapos : c = '\''
  · subst hapos
    decide
  · simp only [escapeHtml, replaceAll, escapeChar, List.flatMap_cons, List.flatMap_nil, List.append_nil, if_neg hamp, if_neg hlt,
      if_neg hgt, if_neg hquot, if_neg hapos]

theorem escapeHtml_cons (c : Char) (value : Text) : escapeHtml (c :: value) = escapeChar c ++ escapeHtml value := by
  rw [← escapeHtml_singleton, ← List.singleton_append]
  simp only [escapeHtml, replaceAll_append]

theorem escapeHtml_notMem (value : Text) : '<' ∉ escapeHtml value ∧ '"' ∉ escapeHtml value := by
  induction value with
  | nil => exact ⟨List.not_mem_nil, List.not_mem_nil⟩
  | cons c value ih =>
      have hchar : '<' ∉ escapeChar c ∧ '"' ∉ escapeChar c := by
        unfold escapeChar
        split
        · decide
        split
        · decide
        split
        · decide
        split
        · decide
        split
        · decide
        next _ hlt _ hquot _ => exact ⟨fun h => hlt (List.mem_singleton.mp h).symm, fun h => hquot (List.mem_singleton.mp h).symm⟩
      rw [escapeHtml_cons, List.mem_append, List.mem_append]
      exact ⟨not_or.mpr ⟨hchar.1, ih.1⟩, not_or.mpr ⟨hchar.2, ih.2⟩⟩

/-- A browser reads the references back that escapeHtml writes. -/
def unescape : Text → Text
  | '&' :: 'a' :: 'm' :: 'p' :: ';' :: cs => '&' :: unescape cs
  | '&' :: 'l' :: 't' :: ';' :: cs => '<' :: unescape cs
  | '&' :: 'g' :: 't' :: ';' :: cs => '>' :: unescape cs
  | '&' :: 'q' :: 'u' :: 'o' :: 't' :: ';' :: cs => '"' :: unescape cs
  | '&' :: '#' :: '3' :: '9' :: ';' :: cs => '\'' :: unescape cs
  | c :: cs => c :: unescape cs
  | [] => []

theorem unescape_escapeHtml (value : Text) : unescape (escapeHtml value) = value := by
  induction value with
  | nil => rfl
  | cons c value ih =>
      rw [escapeHtml_cons]
      unfold escapeChar
      split
      next hc => subst hc; exact congrArg _ ih
      split
      next hc => subst hc; exact congrArg _ ih
      split
      next hc => subst hc; exact congrArg _ ih
      split
      next hc => subst hc; exact congrArg _ ih
      split
      next hc => subst hc; exact congrArg _ ih
      next hamp _ _ _ _ =>
        rw [List.singleton_append, unescape]
        · rw [ih]
        all_goals exact fun _ hc _ => hamp hc

end Escapes

section Fixed

def anchorText : Text := "<a href=\"".toList

/-- Where a tag of the layout's own form links to. -/
def target (tag : Text) : Option Text :=
  if anchorText.isPrefixOf tag then some (unescape ((tag.drop anchorText.length).takeWhile (· ≠ '"'))) else none

def links (html : Text) : List Text := (markup html).filterMap target

theorem chars_ofList (parts : List Text) : chars (parts.map String.ofList) = parts.flatten := by
  rw [chars, List.flatMap_map, List.flatten_eq_flatMap]
  congr 1
  funext part
  exact String.toList_ofList

/-- A part of the layout without a link. -/
structure Fixed (part : Text) : Prop extends Closed part where
  unlinked : (tags part).filterMap target = []

theorem fixed_rowEnd : Fixed rowEnd := ⟨⟨⟨by decide, by decide⟩, by decide⟩, by decide⟩

theorem fixed_texts : Fixed rowText ∧ Fixed footText ∧ Fixed endText ∧ Fixed linkText ∧ Fixed linkEnd := by
  have hrow : rowText = _ := chars_ofList [_, _]
  have hfoot : footText = _ := chars_ofList [_, _]
  have hend : endText = _ := chars_ofList [_, _]
  have hlink : linkText = _ := chars_ofList [_, _, _, _, _]
  have hlinkEnd : linkEnd = _ := chars_ofList [_, _]
  rw [hrow, hfoot, hend, hlink, hlinkEnd]
  refine ⟨?_, ?_, ?_, ?_, ?_⟩ <;>
    exact ⟨⟨⟨by decide +kernel, by decide +kernel⟩, by decide +kernel⟩, by decide +kernel⟩

theorem fixed_rowText : Fixed rowText := fixed_texts.1

theorem fixed_footText : Fixed footText := fixed_texts.2.1

theorem fixed_endText : Fixed endText := fixed_texts.2.2.1

theorem fixed_linkText : Fixed linkText := fixed_texts.2.2.2.1

theorem fixed_linkEnd : Fixed linkEnd := fixed_texts.2.2.2.2

theorem newline_notMem : '<' ∉ newline := by decide

def title : Text := "title".toList

set_option maxRecDepth 8000 in
theorem headText_facts : headText.head? = some '<' ∧ (scan .data [] headText).2 = (.raw title, []) ∧
    (tags headText).filterMap target = [] := by
  have h : headText = _ := chars_ofList [_, _, _]
  rw [h]
  decide

set_option maxRecDepth 8000 in
theorem bodyText_facts : (scan (.raw title) [] bodyText).2 = (.data, []) ∧
    (scan (.raw title) [] bodyText).1.filterMap target = [] := by
  have h : bodyText = _ := chars_ofList [_, _, _, _, _, _, _, _]
  rw [h]
  decide

def headTags : List Text := tags headText ++ (scan (.raw title) [] bodyText).1

theorem unlinked_head : headTags.filterMap target = [] := by
  rw [headTags, List.filterMap_append, headText_facts.2.2, bodyText_facts.2]
  rfl

/-- The document up to the heading, with its title. -/
def head (t : Text) : Text := headText ++ (t ++ bodyText)

theorem scan_head {t : Text} (ht : '<' ∉ t) : scan .data [] (head t) = (headTags, .data, []) := by
  rw [head, scan_append, headText_facts.2.1]
  dsimp only
  rw [scan_raw ht, bodyText_facts.1]
  rfl

theorem ended_head {t : Text} (ht : '<' ∉ t) : Ended (head t) := by
  constructor
  · rw [head, List.head?_append, headText_facts.1]
    rfl
  · rw [scan_head ht]

/-- The tag of the link, as it is written. -/
def anchor (href : Text) : Text := anchorText ++ href ++ buttonStyle

def buttonTags : List Text := (scan .data [] buttonText).1

theorem buttonText_facts : buttonText.head? = some '<' ∧ (scan .data [] buttonText).2 = (.tag .doubleQuoted, anchorText) ∧
    (∀ t ∈ buttonTags, Whole t) ∧ buttonTags.filterMap target = [] := by
  have h : buttonText = _ := chars_ofList [_, _]
  rw [buttonTags, h]
  decide

set_option maxRecDepth 8000 in
theorem buttonStyle_facts : buttonStyle = buttonStyle.dropLast ++ ['>'] ∧
    buttonStyle.dropLast.foldlM TagState.next .doubleQuoted = some .beforeName ∧ '<' ∉ buttonStyle ∧
    buttonStyle.head? = some '"' := by
  have h : buttonStyle = _ := chars_ofList [_, _, _]
  rw [h]
  decide

theorem whole_anchor {href : Text} (hlt : '<' ∉ href) : Whole (anchor href) := by
  constructor
  · rw [anchor, List.count_append, List.count_append, List.count_eq_zero.mpr hlt, List.count_eq_zero.mpr buttonStyle_facts.2.2.1]
    decide
  · have hname (rest : Text) : after ('<' :: 'a' :: ' ' :: rest) = .data := rfl
    have htext : anchorText = ['<', 'a', ' ', 'h', 'r', 'e', 'f', '=', '"'] := String.toList_ofList
    rw [anchor, htext]
    exact hname _

theorem scan_button {href : Text} (hlt : '<' ∉ href) (hquot : '"' ∉ href) :
    scan .data [] (buttonText ++ (href ++ buttonStyle)) = (buttonTags ++ [anchor href], .data, []) := by
  obtain ⟨hends, hstyle, -⟩ := buttonStyle_facts
  have hanchor : anchorText ++ href ++ buttonStyle.dropLast ++ ['>'] = anchor href := by
    rw [anchor, List.append_assoc, ← hends]
  have hlast (piece : Text) : scan (.tag .beforeName) piece ['>'] = ([piece ++ ['>']], after (piece ++ ['>']), []) := rfl
  rw [scan_append, buttonText_facts.2.1]
  dsimp only
  rw [scan_quoted hquot, hends, scan_append, scan_tag hstyle]
  dsimp only
  rw [hlast, hanchor, (whole_anchor hlt).2]
  rfl

theorem closed_button {href : Text} (hlt : '<' ∉ href) (hquot : '"' ∉ href) : Closed (buttonText ++ (href ++ buttonStyle)) := by
  refine ⟨⟨?_, ?_⟩, ?_⟩
  · rw [List.head?_append, buttonText_facts.1]
    rfl
  · rw [scan_button hlt hquot]
  · rw [tags, scan_button hlt hquot]
    intro t ht
    rcases List.mem_append.mp ht with ht | ht
    · exact buttonText_facts.2.2.1 t ht
    · exact List.mem_singleton.mp ht ▸ whole_anchor hlt

end Fixed

section Layout

/-- Without paragraphs the two line breaks around them meet. -/
def gap : List Text → Text
  | [] => newline
  | _ :: _ => []

def rowBlocks (paragraphs : List Text) : List (Text × Text) := paragraphs.map fun p => (rowEnd ++ newline ++ rowText, p)

/-- What follows the rows, from the end of the last one on. -/
def endBlocks (paragraphs : List Text) (action : Option Action) (footer : Text) : List (Text × Text) :=
  match action with
  | some a =>
      [(rowEnd ++ (gap paragraphs ++ newline) ++ (buttonText ++ (escapeHtml a.url ++ buttonStyle)), a.label),
        (linkText, escapeHtml a.url), (linkEnd ++ newline ++ footText, footer)]
  | none => [(rowEnd ++ (gap paragraphs ++ newline ++ newline) ++ footText, footer)]

def blocks (parts : Parts) : List (Text × Text) :=
  rowBlocks parts.paragraphs ++ endBlocks parts.paragraphs parts.action parts.footer

theorem rows_eq (paragraphs : List Text) : rowEnd ++ newline ++ join newline (paragraphs.map row) =
    (rowBlocks paragraphs).flatMap (fun b => b.1 ++ b.2) ++ (rowEnd ++ gap paragraphs) := by
  induction paragraphs with
  | nil => simp [rowBlocks, join, gap]
  | cons p paragraphs ih =>
      cases paragraphs with
      | nil => simp [rowBlocks, join, gap, row]
      | cons q paragraphs =>
          have hjoin : join newline ((p :: q :: paragraphs).map row) =
              rowText ++ p ++ (rowEnd ++ newline ++ join newline ((q :: paragraphs).map row)) := by
            simp [join, row]
          rw [hjoin, ih]
          simp [rowBlocks, gap]

theorem layout_eq (parts : Parts) : layout parts = head parts.title ++ (parts.title ++ assemble (blocks parts) endText) := by
  have hrows := rows_eq parts.paragraphs
  have hlayout : layout parts = head parts.title ++ (parts.title ++
      (rowEnd ++ newline ++ join newline (parts.paragraphs.map row) ++
        (newline ++ button parts.action ++ newline ++ footText ++ parts.footer ++ endText))) := by
    simp only [layout, head, List.append_assoc]
  rw [hlayout, hrows, assemble, blocks, List.flatMap_append]
  cases haction : parts.action <;>
    simp only [endBlocks, button, List.flatMap_cons, List.flatMap_nil, List.append_assoc, List.append_nil]

theorem gap_notMem (paragraphs : List Text) : '<' ∉ gap paragraphs := by
  cases paragraphs with
  | nil => exact newline_notMem
  | cons p paragraphs => exact List.not_mem_nil

theorem append_notMem {u v : Text} (hu : '<' ∉ u) (hv : '<' ∉ v) : '<' ∉ u ++ v :=
  fun h => (List.mem_append.mp h).elim hu hv

theorem closed_blocks (parts : Parts) : ∀ b ∈ blocks parts, Closed b.1 := by
  have hgap := append_notMem (gap_notMem parts.paragraphs) newline_notMem
  intro b hb
  rcases List.mem_append.mp hb with hb | hb
  · obtain ⟨p, -, rfl⟩ := List.mem_map.mp hb
    exact (fixed_rowEnd.toClosed.append_text newline_notMem).append fixed_rowText.toClosed
  · unfold endBlocks at hb
    cases haction : parts.action with
    | none =>
        rw [haction, List.mem_singleton] at hb
        exact hb ▸ (fixed_rowEnd.toClosed.append_text (append_notMem hgap newline_notMem)).append fixed_footText.toClosed
    | some a =>
        obtain ⟨hlt, hquot⟩ := escapeHtml_notMem a.url
        simp only [haction, List.mem_cons, List.not_mem_nil, or_false] at hb
        obtain rfl | rfl | rfl := hb
        · exact (fixed_rowEnd.toClosed.append_text hgap).append (closed_button hlt hquot)
        · exact fixed_linkText.toClosed
        · exact (fixed_linkEnd.toClosed.append_text newline_notMem).append fixed_footText.toClosed

/-- The layout's own markup, whatever the texts in it. -/
def fixedTags (paragraphs : Nat) (url : Option Text) : List Text :=
  headTags ++ ((List.replicate paragraphs (tags rowEnd ++ tags rowText)).flatten ++
    (match url with
      | some url => tags rowEnd ++ (buttonTags ++ [anchor (escapeHtml url)]) ++ tags linkText ++ (tags linkEnd ++ tags footText)
      | none => tags rowEnd ++ tags footText) ++ tags endText)

theorem fixedTags_eq (parts : Parts) : headTags ++ ((blocks parts).flatMap (fun b => tags b.1) ++ tags endText) =
    fixedTags parts.paragraphs.length (parts.action.map Action.url) := by
  have hgap := append_notMem (gap_notMem parts.paragraphs) newline_notMem
  have hrow : tags (rowEnd ++ newline ++ rowText) = tags rowEnd ++ tags rowText := by
    rw [(fixed_rowEnd.toClosed.append_text newline_notMem).tags_append, fixed_rowEnd.tags_append_text newline_notMem]
  have hrows : (rowBlocks parts.paragraphs).flatMap (fun b => tags b.1) =
      (List.replicate parts.paragraphs.length (tags rowEnd ++ tags rowText)).flatten := by
    induction parts.paragraphs with
    | nil => rfl
    | cons p paragraphs ih =>
        rw [rowBlocks, List.map_cons, List.flatMap_cons, hrow]
        exact congrArg _ ih
  unfold fixedTags
  rw [blocks, List.flatMap_append, hrows]
  cases haction : parts.action with
  | none =>
      have hend := append_notMem hgap newline_notMem
      simp only [endBlocks, List.flatMap_cons, List.flatMap_nil, List.append_nil, Option.map_none,
        (fixed_rowEnd.toClosed.append_text hend).tags_append, fixed_rowEnd.tags_append_text hend]
  | some a =>
      obtain ⟨hlt, hquot⟩ := escapeHtml_notMem a.url
      have hbutton : tags (buttonText ++ (escapeHtml a.url ++ buttonStyle)) = buttonTags ++ [anchor (escapeHtml a.url)] := by
        rw [tags, scan_button hlt hquot]
      simp only [endBlocks, List.flatMap_cons, List.flatMap_nil, List.append_nil, Option.map_some, hbutton,
        (fixed_rowEnd.toClosed.append_text hgap).tags_append, fixed_rowEnd.tags_append_text hgap,
        (fixed_linkEnd.toClosed.append_text newline_notMem).tags_append, fixed_linkEnd.tags_append_text newline_notMem]
      simp only [List.append_assoc]

/-- The texts between the parts of the layout, except the paragraphs, come escaped. -/
structure Quoted (parts : Parts) : Prop where
  title : '<' ∉ parts.title
  label : ∀ a ∈ parts.action, '<' ∉ a.label
  footer : '<' ∉ parts.footer

theorem markup_layout {parts : Parts} (h : Quoted parts) :
    markup (layout parts) = fixedTags parts.paragraphs.length (parts.action.map Action.url) ↔
      ∀ p ∈ parts.paragraphs, plain p = true := by
  have hlast : endText.getLast? = some '>' := by
    have h : endText = _ := chars_ofList [_, _]
    rw [h]
    decide
  have hclosed := closed_blocks parts
  have hhead := ended_head h.title
  have htags : tags (head parts.title) = headTags := by rw [tags, scan_head h.title]
  have hskip : markupFrom .data [] (parts.title ++ assemble (blocks parts) endText) = markup (assemble (blocks parts) endText) := by
    simp only [markup, markupFrom, (scan_plain (plain_of_notMem h.title) (assemble_starts hclosed fixed_endText.toClosed)).1]
  rw [← fixedTags_eq, layout_eq, markup, hhead.markupFrom_append, htags, hskip, List.append_right_inj,
    markup_assemble hclosed fixed_endText.toClosed hlast, blocks, List.forall_mem_append]
  have hrest : ∀ b ∈ endBlocks parts.paragraphs parts.action parts.footer, plain b.2 = true := by
    have hlabel := h.label
    intro b hb
    unfold endBlocks at hb
    cases haction : parts.action with
    | none =>
        rw [haction, List.mem_singleton] at hb
        exact hb ▸ plain_of_notMem h.footer
    | some a =>
        simp only [haction, List.mem_cons, List.not_mem_nil, or_false] at hb
        obtain rfl | rfl | rfl := hb
        · exact plain_of_notMem (hlabel a haction)
        · exact plain_of_notMem (escapeHtml_notMem a.url).1
        · exact plain_of_notMem h.footer
  rw [and_iff_left hrest, rowBlocks, List.forall_mem_map]

end Layout

section Links

theorem target_anchor (url : Text) : target (anchor (escapeHtml url)) = some url := by
  have hquot := (escapeHtml_notMem url).2
  obtain ⟨style, hstyle⟩ := List.head?_eq_some_iff.mp buttonStyle_facts.2.2.2
  have hprefix : anchorText.isPrefixOf (anchor (escapeHtml url)) = true := by
    rw [List.isPrefixOf_iff_prefix, anchor, List.append_assoc]
    exact List.prefix_append ..
  have hcut : ((anchor (escapeHtml url)).drop anchorText.length).takeWhile (· ≠ '"') = escapeHtml url := by
    rw [anchor, List.append_assoc, List.drop_left, hstyle, List.takeWhile_append_of_pos]
    · simp
    · exact fun c hc => decide_eq_true fun heq => hquot (heq ▸ hc)
  rw [target, if_pos hprefix, hcut, unescape_escapeHtml]

theorem links_fixedTags (paragraphs : Nat) (url : Option Text) : (fixedTags paragraphs url).filterMap target = url.toList := by
  have hrows : (List.replicate paragraphs (tags rowEnd ++ tags rowText)).flatten.filterMap target = [] := by
    induction paragraphs with
    | zero => rfl
    | succ n ih =>
        rw [List.replicate_succ, List.flatten_cons, List.filterMap_append, ih, List.filterMap_append, fixed_rowEnd.unlinked,
          fixed_rowText.unlinked]
        rfl
  unfold fixedTags
  rw [List.filterMap_append, List.filterMap_append, List.filterMap_append, hrows, unlinked_head, fixed_endText.unlinked]
  cases url with
  | none =>
      rw [List.filterMap_append, fixed_rowEnd.unlinked, fixed_footText.unlinked]
      rfl
  | some url =>
      simp only [List.filterMap_append, fixed_rowEnd.unlinked, buttonText_facts.2.2.2, fixed_linkText.unlinked, fixed_linkEnd.unlinked,
        fixed_footText.unlinked, List.filterMap_cons, target_anchor]
      rfl

end Links

section Mails

def layoutParts (subject : Text) (paragraphs : List Text) (action : Option Action) (footer : Text) : Parts where
  title := escapeHtml subject
  paragraphs := paragraphs
  action := action.map fun a => { a with label := escapeHtml a.label }
  footer := footer

theorem render_html {name : TemplateName} {vars : TemplateVariables} {override : Option Override} {mail : RenderedEmail}
    (h : render name vars override = .ok mail) : ∃ subject paragraphs,
      ((sourceOf name override).body.mapM fun p => interpolate p (withDefaults vars) escaped) = .ok paragraphs ∧
      mail.html = layout (layoutParts subject paragraphs (actionOf (sourceOf name override) vars) (footerOf vars)) := by
  unfold render at h
  cases hsubject : interpolate (sourceOf name override).subject (withDefaults vars) verbatim with
  | error e => simp [hsubject, bind, Except.bind] at h
  | ok subject =>
      cases hparagraphs : (sourceOf name override).body.mapM fun p => interpolate p (withDefaults vars) escaped with
      | error e => simp [hsubject, hparagraphs, bind, Except.bind] at h
      | ok paragraphs =>
          cases htext : (sourceOf name override).body.mapM fun p => interpolate p (withDefaults vars) verbatim with
          | error e => simp [hsubject, hparagraphs, htext, bind, Except.bind] at h
          | ok texts =>
              simp only [hsubject, hparagraphs, htext, bind, Except.bind, pure, Except.pure, Except.ok.injEq] at h
              exact ⟨subject, paragraphs, rfl, by rw [← h]; rfl⟩

theorem mapM_ok {f : Text → Except RenderError Text} {ps qs : List Text} (h : ps.mapM f = .ok qs) :
    qs.length = ps.length ∧ ∀ P : Text → Prop, (∀ q ∈ qs, P q) ↔ ∀ p ∈ ps, ∀ q, f p = .ok q → P q := by
  induction ps generalizing qs with
  | nil =>
      obtain rfl : [] = qs := Except.ok.inj h
      exact ⟨rfl, fun P => iff_of_true nofun nofun⟩
  | cons p ps ih =>
      rw [List.mapM_cons] at h
      cases hp : f p with
      | error e => simp [hp, bind, Except.bind] at h
      | ok q =>
          cases hps : ps.mapM f with
          | error e => simp [hp, hps, bind, Except.bind] at h
          | ok rest =>
              simp only [hp, hps, bind, Except.bind, pure, Except.pure, Except.ok.injEq] at h
              obtain ⟨hlength, hall⟩ := ih hps
              subst h
              refine ⟨congrArg (· + 1) hlength, fun P => ?_⟩
              rw [List.forall_mem_cons, List.forall_mem_cons, hall P, hp]
              simp

/-- The layout with nothing in its places but the target of its button. -/
def bare (paragraphs : List Text) (action : Option Action) : Parts where
  title := []
  paragraphs := paragraphs.map fun _ => []
  action := action.map fun a => { a with label := [] }
  footer := []

/-- The mail has the markup of its bare layout, and its only link is the action's. -/
structure Inert (name : TemplateName) (vars : TemplateVariables) (override : Option Override) (mail : RenderedEmail) : Prop where
  markup : markup mail.html = markup (layout (bare (sourceOf name override).body (actionOf (sourceOf name override) vars)))
  links : links mail.html = ((actionOf (sourceOf name override) vars).map Action.url).toList

theorem footer_notMem (vars : TemplateVariables) : '<' ∉ footerOf vars := by
  have hbefore : '<' ∉ "Sent by Steadhold on behalf of ".toList := by decide
  have hafter : '<' ∉ ". You are receiving this because your email address was used on their app.".toList := by decide
  exact append_notMem (append_notMem hbefore (escapeHtml_notMem _).1) hafter

theorem quoted_parts (subject : Text) (paragraphs : List Text) (action : Option Action) (vars : TemplateVariables) :
    Quoted (layoutParts subject paragraphs action (footerOf vars)) := by
  refine ⟨(escapeHtml_notMem subject).1, fun a ha => ?_, footer_notMem vars⟩
  obtain ⟨b, -, rfl⟩ := Option.map_eq_some_iff.mp ha
  exact (escapeHtml_notMem b.label).1

theorem quoted_bare (paragraphs : List Text) (action : Option Action) : Quoted (bare paragraphs action) := by
  refine ⟨List.not_mem_nil, fun a ha => ?_, List.not_mem_nil⟩
  obtain ⟨b, -, rfl⟩ := Option.map_eq_some_iff.mp ha
  exact List.not_mem_nil

theorem markup_bare (paragraphs : List Text) (action : Option Action) :
    Html.markup (layout (bare paragraphs action)) = fixedTags paragraphs.length (action.map Action.url) := by
  have hplain : ∀ p ∈ (bare paragraphs action).paragraphs, plain p = true := by
    intro p hp
    obtain ⟨-, -, rfl⟩ := List.mem_map.mp hp
    rfl
  have heq := (markup_layout (quoted_bare paragraphs action)).mpr hplain
  cases action <;> simpa [bare] using heq

theorem inert_iff {name : TemplateName} {vars : TemplateVariables} {override : Option Override} {mail : RenderedEmail}
    (h : render name vars override = .ok mail) : Inert name vars override mail ↔
      ∀ p ∈ (sourceOf name override).body, ∀ q, interpolate p (withDefaults vars) escaped = .ok q → plain q = true := by
  obtain ⟨subject, paragraphs, hparagraphs, hhtml⟩ := render_html h
  obtain ⟨hlength, hall⟩ := mapM_ok hparagraphs
  have hmarkup := markup_layout (quoted_parts subject paragraphs (actionOf (sourceOf name override) vars) vars)
  have hurl : (layoutParts subject paragraphs (actionOf (sourceOf name override) vars) (footerOf vars)).action.map Action.url =
      (actionOf (sourceOf name override) vars).map Action.url := by
    rw [layoutParts, Option.map_map]
    rfl
  rw [hurl, ← hhtml, show (layoutParts subject paragraphs _ _).paragraphs = paragraphs from rfl, hlength, ← markup_bare,
    hall] at hmarkup
  rw [← hmarkup]
  constructor
  · exact Inert.markup
  · intro heq
    refine ⟨heq, ?_⟩
    rw [links, heq, markup_bare, links_fixedTags]

/-- No value brings a '<' into a paragraph. -/
theorem interpolateFrom_notMem {vars : TemplateVariables} {skip : Nat} {t q : Text} (ht : '<' ∉ t)
    (h : interpolateFrom vars escaped skip t = .ok q) : '<' ∉ q := by
  induction t generalizing skip q with
  | nil =>
      cases skip <;> (obtain rfl : [] = q := Except.ok.inj h; exact List.not_mem_nil)
  | cons c t ih =>
      have htail := List.not_mem_of_not_mem_cons ht
      cases skip with
      | succ skip => exact ih htail h
      | zero =>
          unfold interpolateFrom at h
          split at h
          next name length _ =>
            cases hvalue : valueOf vars escaped name with
            | error e => simp [hvalue, bind, Except.bind] at h
            | ok value =>
                cases hrest : interpolateFrom vars escaped (length - 1) t with
                | error e => simp [hvalue, hrest, bind, Except.bind] at h
                | ok rest =>
                    simp only [hvalue, hrest, bind, Except.bind, pure, Except.pure, Except.ok.injEq] at h
                    have hescaped : '<' ∉ value := by
                      unfold valueOf at hvalue
                      split at hvalue
                      · cases hvalue
                      · cases hvalue
                      next v _ _ =>
                        cases v with
                        | string text => exact Except.ok.inj hvalue ▸ (escapeHtml_notMem text).1
                        | undefined | function => cases hvalue
                    exact h ▸ append_notMem hescaped (ih htail hrest)
          · cases hrest : interpolateFrom vars escaped 0 t with
            | error e => simp [hrest, bind, Except.bind] at h
            | ok rest =>
                simp only [hrest, bind, Except.bind, pure, Except.pure, Except.ok.injEq] at h
                rw [← h]
                exact List.not_mem_cons_of_ne_of_not_mem (List.ne_of_not_mem_cons ht) (ih htail hrest)

variable {name : TemplateName} {vars : TemplateVariables} {override : Option Override} {mail : RenderedEmail}

theorem inert_of_notMem (h : render name vars override = .ok mail) (hbody : ∀ p ∈ (sourceOf name override).body, '<' ∉ p) :
    Inert name vars override mail :=
  (inert_iff h).mpr fun p hp _ hq => plain_of_notMem (interpolateFrom_notMem (hbody p hp) hq)

theorem bodies_ofList (ps : List (List Text)) : (ps.map (·.map String.ofList)).map chars = ps.map List.flatten := by
  rw [List.map_map]
  exact List.map_congr_left fun p _ => chars_ofList p

theorem default_notMem (name : TemplateName) : ∀ p ∈ (DEFAULT_TEMPLATES name).body, '<' ∉ p := by
  cases name with
  | confirmation | recovery =>
      rw [show TemplateSource.body _ = _ from bodies_ofList [[_], [_], [_]]]
      decide
  | accountExistsNotice | emailChangeCurrent | emailChangeNew =>
      rw [show TemplateSource.body _ = _ from bodies_ofList [[_, _], [_, _]]]
      decide
  | passwordChangedNotice =>
      rw [show TemplateSource.body _ = _ from bodies_ofList [[_], [_, _]]]
      decide

/-- A mail has the layout's markup and link exactly if no paragraph starts markup. Only a paragraph's own '<' can. -/
theorem mail_inert (h : render name vars override = .ok mail) :
    (Inert name vars override mail ↔
      ∀ p ∈ (sourceOf name override).body, ∀ q, interpolate p (withDefaults vars) escaped = .ok q → plain q = true) ∧
    ((∀ p ∈ (sourceOf name override).body, '<' ∉ p) → Inert name vars override mail) ∧
    (override = none → Inert name vars override mail) := by
  refine ⟨inert_iff h, inert_of_notMem h, ?_⟩
  rintro rfl
  exact inert_of_notMem h (default_notMem name)

section Examples

def sender : TemplateVariables :=
  [("Email".toList, some "<b>a@b</b>".toList), ("ConfirmationURL".toList, some "https://x.test/?a=\"&b".toList)]

def written (paragraph : String) : Option Override := some ⟨some "Hi".toList, some [paragraph.toList], none⟩

theorem mail_inert_values : ∃ mail, render .confirmation sender (written "Hi \x7b\x7b.Email\x7d\x7d") = .ok mail ∧
    Inert .confirmation sender (written "Hi \x7b\x7b.Email\x7d\x7d") mail := by
  have hok : (render .confirmation sender (written "Hi \x7b\x7b.Email\x7d\x7d")).isOk = true := by decide
  cases h : render .confirmation sender (written "Hi \x7b\x7b.Email\x7d\x7d") with
  | error e => simp [h, Except.isOk, Except.toBool] at hok
  | ok mail => exact ⟨mail, rfl, (mail_inert h).2.1 (by decide)⟩

/-- The body of the override is a link of its own. -/
theorem not_mail_inert : ¬ ∀ name vars override mail, render name vars override = .ok mail → Inert name vars override mail := by
  intro hall
  have hok : (render .confirmation [] (written "<a href=//x.test>Confirm</a>")).isOk = true := by decide
  cases h : render .confirmation [] (written "<a href=//x.test>Confirm</a>") with
  | error e => simp [h, Except.isOk, Except.toBool] at hok
  | ok mail =>
      have hplain := (inert_iff h).mp (hall _ _ _ _ h) _ (List.mem_singleton_self _)
        "<a href=//x.test>Confirm</a>".toList (by decide)
      revert hplain
      decide

end Examples

end Mails

end Corebase.EmailTemplates
