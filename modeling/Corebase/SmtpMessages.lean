import Corebase.Base64Url
import Corebase.SmtpReplies
import Corebase.Utf8Text

namespace Corebase.SmtpMessages

open JsText SmtpReplies

structure OutgoingMessage where
  sender : Text
  fromName : Option Text
  recipient : Text
  subject : Text
  html : Text
  text : Text
  replyTo : Option Text
  tag : Option Text

def isBreak (c : Char) : Bool := c = '\r' || c = '\n'

/-- One space for each run of line breaks. -/
def collapse : Text → Text
  | [] => []
  | c :: cs =>
      if isBreak c then if cs.head?.any isBreak then collapse cs else ' ' :: collapse cs
      else c :: collapse cs

def headerSafe (v : Text) : Text := trim (collapse v)

def isPrintable (c : Char) : Bool := 0x20 ≤ c.toNat && c.toNat ≤ 0x7e

/-- The letters of base64url with the two that differ. -/
def standard (u : Nat) : Char := if u = '-'.toNat then '+' else if u = '_'.toNat then '/' else Char.ofNat u

def base64 (bytes : List Nat) : Text :=
  (Jwt.b64url bytes).map standard ++ List.replicate ((3 - bytes.length % 3) % 3) '='

def utf8 (t : Text) : List Nat := (Utf8Text.encode t).map UInt8.toNat

def encodeHeader (value : Text) : Text :=
  if value.all isPrintable then value else "=?UTF-8?B?".toList ++ base64 (utf8 value) ++ "?=".toList

def displayName (value : Text) : Text :=
  let safe := (headerSafe value).flatMap fun c => if c = '\\' || c = '"' then ['\\', c] else [c]
  if safe.all isPrintable then '"' :: (safe ++ ['"']) else encodeHeader safe

/-- A line break after every 76 characters, from a column on. -/
def foldFrom : Nat → Text → Text
  | _, [] => []
  | column, c :: cs => if column = 75 then c :: CRLF ++ foldFrom 0 cs else c :: foldFrom (column + 1) cs

/-- An empty string is as none. -/
def present (value : Option Text) : Option Text := value.filter (· ≠ [])

def opening : Text := "Content-Type: multipart/alternative; boundary=\"".toList

def contentType (boundary : Text) : Text := opening ++ boundary ++ ['"']

def fromValue (m : OutgoingMessage) : Text :=
  match present m.fromName with
  | some name => displayName name ++ " <".toList ++ headerSafe m.sender ++ ['>']
  | none => headerSafe m.sender

def headers (m : OutgoingMessage) (messageId date boundary : Text) : List Text :=
  ["From: ".toList ++ fromValue m, "To: ".toList ++ headerSafe m.recipient,
    "Subject: ".toList ++ encodeHeader (headerSafe m.subject), "Message-ID: <".toList ++ messageId ++ ['>'],
    "Date: ".toList ++ date, "MIME-Version: 1.0".toList]
    ++ ((present m.replyTo).map fun r => "Reply-To: ".toList ++ headerSafe r).toList
    ++ ["Auto-Submitted: auto-generated".toList, "X-Auto-Response-Suppress: All".toList]
    ++ ((present m.tag).map fun t => "X-SH-Tag: ".toList ++ headerSafe t).toList
    ++ [contentType boundary]

def partHeaders (type : String) : List Text :=
  ["Content-Type: ".toList ++ type.toList ++ "; charset=utf-8".toList, "Content-Transfer-Encoding: base64".toList]

def buildMime (m : OutgoingMessage) (messageId date boundary : Text) : Text :=
  let delimiter := "--".toList ++ boundary
  let body :=
    delimiter :: (partHeaders "text/plain" ++ [[], foldFrom 0 (base64 (utf8 m.text))])
      ++ delimiter :: (partHeaders "text/html" ++ [[], foldFrom 0 (base64 (utf8 m.html))])
      ++ [delimiter ++ "--".toList, []]
  join CRLF (headers m messageId date boundary ++ [] :: body)

/-- split on line breaks. -/
def lines : Text → List Text
  | [] => [[]]
  | '\r' :: '\n' :: cs => [] :: lines cs
  | c :: cs =>
      match lines cs with
      | l :: ls => (c :: l) :: ls
      | [] => [[c]]

def stuff (line : Text) : Text := if line.head? = some '.' then '.' :: line else line

def dotStuff (body : Text) : Text := join CRLF ((lines body).map stuff)

/-- What is written in answer to the reply to DATA. -/
def transmitted (m : OutgoingMessage) (messageId date boundary : Text) : Text :=
  dotStuff (buildMime m messageId date boundary) ++ "\r\n.\r\n".toList

/-! What the other side makes of it -/

def unstuff (line : Text) : Text := if line.head? = some '.' then line.drop 1 else line

/-- The lines of the data up to the period that ends them, and what comes after it. -/
def receive (received : List Text) (line : Text) : Text → Option (List Text × Text)
  | [] => none
  | '\r' :: '\n' :: cs => if line = ['.'] then some (received, cs) else receive (received ++ [unstuff line]) [] cs
  | c :: cs => receive received (line ++ [c]) cs

/-- The lines between the ones that begin with the delimiter. -/
def sections (delimiter : Text) : List Text → List (List Text)
  | [] => [[]]
  | l :: ls =>
      if delimiter.isPrefixOf l then [] :: sections delimiter ls
      else match sections delimiter ls with
        | s :: ss => (l :: s) :: ss
        | [] => [[l]]

structure Part where
  headers : List Text
  content : Text
deriving DecidableEq

structure Mail where
  headers : List Text
  parts : List Part
deriving DecidableEq

def unbase64 (t : Text) : Text := Utf8Text.decode ((Jwt.unb64u (t.map Char.toNat)).map UInt8.ofNat)

def beforeBlank (ls : List Text) : List Text := ls.takeWhile (· ≠ [])

def afterBlank (ls : List Text) : List Text := (ls.dropWhile (· ≠ [])).drop 1

def readPart (ls : List Text) : Part := ⟨beforeBlank ls, unbase64 (afterBlank ls).flatten⟩

def boundaryOf (header : Text) : Option Text :=
  if opening.isPrefixOf header then some ((header.drop opening.length).takeWhile (· ≠ '"')) else none

def readMail (ls : List Text) : Option Mail :=
  ((beforeBlank ls).findSome? boundaryOf).map fun boundary =>
    ⟨beforeBlank ls, ((sections ("--".toList ++ boundary) (afterBlank ls)).drop 1).dropLast.map readPart⟩

/-! Lines -/

theorem lines_break (cs : Text) : lines ('\r' :: '\n' :: cs) = [] :: lines cs := rfl

theorem lines_ne_nil (t : Text) : lines t ≠ [] := by
  fun_cases lines t <;> simp

theorem lines_cons {c : Char} {cs l : Text} {ls : List Text} (h : ¬ (c = '\r' ∧ cs.head? = some '\n'))
    (hcs : lines cs = l :: ls) : lines (c :: cs) = (c :: l) :: ls := by
  rw [lines, hcs]
  rintro ds rfl rfl
  exact h ⟨rfl, rfl⟩

/-- A line break ends a line wherever it stands. -/
theorem lines_append (s t : Text) : lines (s ++ CRLF ++ t) = lines s ++ lines t := by
  fun_induction lines s with
  | case1 => rfl
  | case2 cs ih =>
      rw [List.cons_append, List.cons_append, List.cons_append, List.cons_append, lines_break, ih]
      rfl
  | case3 c cs hc l ls heq ih =>
      have hne : ¬ (c = '\r' ∧ (cs ++ CRLF ++ t).head? = some '\n') := by
        rintro ⟨rfl, hhead⟩
        cases cs with
        | nil => cases hhead
        | cons d ds =>
            obtain rfl : d = '\n' := Option.some.inj hhead
            exact hc ds rfl rfl
      rw [heq] at ih
      exact lines_cons hne ih
  | case4 c cs hc heq ih => exact absurd heq (lines_ne_nil cs)

example : lines "a\r\n.b".toList = ["a".toList, ".b".toList] := by decide

theorem lines_join {ls : List Text} (h : ls ≠ []) : lines (join CRLF ls) = ls.flatMap lines := by
  induction ls with
  | nil => exact absurd rfl h
  | cons l ls ih =>
      cases ls with
      | nil => simp [join]
      | cons k ks =>
          have hjoin : join CRLF (l :: k :: ks) = l ++ CRLF ++ join CRLF (k :: ks) := rfl
          rw [hjoin, lines_append, ih (List.cons_ne_nil k ks)]
          rfl

/-- A line that no line break is in. -/
def Unbroken (l : Text) : Prop := lines l = [l]

theorem Unbroken.tail {c : Char} {l : Text} (h : Unbroken (c :: l)) : Unbroken l := by
  rw [Unbroken] at h ⊢
  cases hl : lines l with
  | nil => exact absurd hl (lines_ne_nil l)
  | cons k ks =>
      by_cases hc : c = '\r' ∧ l.head? = some '\n'
      · obtain ⟨rfl, hhead⟩ := hc
        obtain ⟨cs, rfl⟩ := cons_of_head hhead
        cases (lines_break cs).symm.trans h
      · rw [lines_cons hc hl] at h
        obtain ⟨hk, rfl⟩ := List.cons.inj h
        rw [(List.cons.inj hk).2]

theorem Unbroken.head {c : Char} {l : Text} (h : Unbroken (c :: l)) : ¬ (c = '\r' ∧ l.head? = some '\n') := by
  rintro ⟨rfl, hhead⟩
  obtain ⟨cs, rfl⟩ := cons_of_head hhead
  cases (lines_break cs).symm.trans h

theorem Unbroken.cons {c : Char} {l : Text} (h : Unbroken l) (hc : c ≠ '\r') : Unbroken (c :: l) :=
  lines_cons (fun h => hc h.1) h

theorem unbroken_plain {l : Text} (h : ∀ c ∈ l, isBreak c = false) : Unbroken l := by
  induction l with
  | nil => rfl
  | cons c l ih =>
      have hc := h c List.mem_cons_self
      refine (ih fun d hd => h d (List.mem_cons_of_mem c hd)).cons ?_
      rintro rfl
      cases hc

theorem lines_head {cs l : Text} {d : Char} {ls : List Text} (h : lines cs = (d :: l) :: ls) : cs.head? = some d := by
  fun_cases lines cs with
  | case1 => cases h
  | case2 cs => cases h
  | case3 c cs hc k ks heq =>
      rw [lines, heq] at h
      · obtain ⟨hk, -⟩ := List.cons.inj h
        rw [List.head?_cons, (List.cons.inj hk).1]
      · exact hc
  | case4 c cs hc heq => exact absurd heq (lines_ne_nil cs)

theorem unbroken_lines (t : Text) : ∀ l ∈ lines t, Unbroken l := by
  fun_induction lines t with
  | case1 => exact List.forall_mem_singleton.mpr rfl
  | case2 cs ih => exact List.forall_mem_cons.mpr ⟨rfl, ih⟩
  | case3 c cs hc l ls heq ih =>
      rw [heq] at ih
      obtain ⟨hl, hls⟩ := List.forall_mem_cons.mp ih
      refine List.forall_mem_cons.mpr ⟨lines_cons ?_ hl, hls⟩
      rintro ⟨rfl, hhead⟩
      obtain ⟨k, rfl⟩ := cons_of_head hhead
      obtain ⟨ds, rfl⟩ := cons_of_head (lines_head heq)
      exact hc ds rfl rfl
  | case4 c cs hc heq ih => exact absurd heq (lines_ne_nil cs)

/-! The period -/

theorem receive_other {c : Char} {cs : Text} (h : ∀ ds, c = '\r' → cs = '\n' :: ds → False) (received : List Text)
    (line : Text) : receive received line (c :: cs) = receive received (line ++ [c]) cs := by
  rw [receive]
  exact h

theorem receive_line {l : Text} (h : Unbroken l) (received : List Text) (line rest : Text) :
    receive received line (l ++ '\r' :: '\n' :: rest) = receive received (line ++ l) ('\r' :: '\n' :: rest) := by
  induction l generalizing line with
  | nil => rw [List.nil_append, List.append_nil]
  | cons c l ih =>
      have hne : ∀ cs, c = '\r' → l ++ '\r' :: '\n' :: rest = '\n' :: cs → False := by
        rintro cs rfl hcs
        cases l with
        | nil => cases hcs
        | cons d ds =>
            obtain rfl : d = '\n' := (List.cons.inj hcs).1
            exact h.head ⟨rfl, rfl⟩
      rw [List.cons_append, receive_other hne, ih h.tail, List.append_assoc, List.singleton_append]

theorem stuff_line {l : Text} (h : Unbroken l) : Unbroken (stuff l) ∧ stuff l ≠ ['.'] ∧ unstuff (stuff l) = l := by
  rw [stuff]
  split
  · rename_i hhead
    obtain ⟨cs, rfl⟩ := cons_of_head hhead
    exact ⟨h.cons (by decide), by simp, rfl⟩
  · rename_i hhead
    refine ⟨h, ?_, if_neg hhead⟩
    rintro rfl
    exact hhead rfl

theorem receive_stuffed {ls : List Text} (hne : ls ≠ []) (h : ∀ l ∈ ls, Unbroken l) (received : List Text) (rest : Text) :
    receive received [] (join CRLF (ls.map stuff) ++ "\r\n.\r\n".toList ++ rest) = some (received ++ ls, rest) := by
  induction ls generalizing received with
  | nil => exact absurd rfl hne
  | cons l ls ih =>
      obtain ⟨hl, hls⟩ := List.forall_mem_cons.mp h
      obtain ⟨hstuff, hdot, hback⟩ := stuff_line hl
      cases ls with
      | nil =>
          have htext : join CRLF ([l].map stuff) ++ "\r\n.\r\n".toList ++ rest =
              stuff l ++ '\r' :: '\n' :: '.' :: '\r' :: '\n' :: rest := by simp [join]
          rw [htext, receive_line hstuff, List.nil_append, receive, if_neg hdot, receive, receive, hback]
          · rfl
          · simp
      | cons k ks =>
          have htext : join CRLF ((l :: k :: ks).map stuff) ++ "\r\n.\r\n".toList ++ rest =
              stuff l ++ '\r' :: '\n' :: (join CRLF ((k :: ks).map stuff) ++ "\r\n.\r\n".toList ++ rest) := by
            simp [join, CRLF]
          rw [htext, receive_line hstuff, List.nil_append, receive, if_neg hdot, hback,
            ih (List.cons_ne_nil k ks) hls, List.append_assoc, List.singleton_append]

/-! Headers -/

def plain (t : Text) : Bool := t.all fun c => !isBreak c

theorem plain_append (s t : Text) : plain (s ++ t) = (plain s && plain t) := List.all_append

theorem plain_unbroken {t : Text} (h : plain t = true) : Unbroken t :=
  unbroken_plain fun c hc => by simpa using List.all_eq_true.mp h c hc

theorem plain_collapse (t : Text) : plain (collapse t) = true := by
  fun_induction collapse t with
  | case1 => rfl
  | case2 c cs hc hcs ih => exact ih
  | case3 c cs hc hcs ih => exact ih
  | case4 c cs hc ih => rw [plain, List.all_cons, ← plain, ih]; simp [hc]

theorem plain_trim {t : Text} (h : plain t = true) : plain (trim t) = true := by
  refine List.all_eq_true.mpr fun c hc => List.all_eq_true.mp h c ?_
  have hstart := (List.dropWhile_sublist isSpace).subset (List.mem_reverse.mp hc)
  exact (List.dropWhile_sublist isSpace).subset (List.mem_reverse.mp hstart)

theorem plain_headerSafe (v : Text) : plain (headerSafe v) = true := plain_trim (plain_collapse v)

theorem letter_standard : ∀ n < 64, isBreak (standard (Jwt.letter n)) = false ∧ standard (Jwt.letter n) ≠ '-' ∧
    Jwt.sextet (standard (Jwt.letter n)).toNat = Jwt.sextet (Jwt.letter n) := by
  decide

theorem utf8_lt (t : Text) : ∀ b ∈ utf8 t, b < 256 := by
  intro b hb
  obtain ⟨u, -, rfl⟩ := List.mem_map.mp hb
  exact u.toNat_lt

theorem mem_base64 {bytes : List Nat} (h : ∀ b ∈ bytes, b < 256) {c : Char} (hc : c ∈ base64 bytes) :
    isBreak c = false ∧ c ≠ '-' := by
  have hletters := Jwt.forall_b64url (P := fun u => isBreak (standard u) = false ∧ standard u ≠ '-')
    (fun n hn => ⟨(letter_standard n hn).1, (letter_standard n hn).2.1⟩) h
  rcases List.mem_append.mp hc with hc | hc
  · obtain ⟨u, hu, rfl⟩ := List.mem_map.mp hc
    exact hletters u hu
  · obtain rfl := List.eq_of_mem_replicate hc
    decide

theorem plain_base64 (t : Text) : plain (base64 (utf8 t)) = true :=
  List.all_eq_true.mpr fun c hc => by rw [(mem_base64 (utf8_lt t) hc).1]; rfl

theorem printable_plain {t : Text} (h : t.all isPrintable = true) : plain t = true := by
  refine List.all_eq_true.mpr fun c hc => ?_
  have hprint := List.all_eq_true.mp h c hc
  rw [Bool.not_eq_true', isBreak, Bool.or_eq_false_iff, decide_eq_false_iff_not, decide_eq_false_iff_not]
  constructor <;>
  · rintro rfl
    cases hprint

theorem plain_encodeHeader (value : Text) : plain (encodeHeader value) = true := by
  rw [encodeHeader]
  split
  · rename_i h
    exact printable_plain h
  · rw [plain_append, plain_append, plain_base64]
    rfl

theorem plain_displayName (value : Text) : plain (displayName value) = true := by
  simp only [displayName]
  split
  · rename_i h
    rw [plain, List.all_cons, List.all_append, ← plain, printable_plain h]
    rfl
  · exact plain_encodeHeader _

variable (m : OutgoingMessage) {messageId date boundary : Text}

theorem plain_fromValue : plain (fromValue m) = true := by
  rw [fromValue]
  split
  · rw [plain_append, plain_append, plain_append, plain_displayName, plain_headerSafe]
    rfl
  · exact plain_headerSafe m.sender

theorem plain_opening : plain opening = true ∧ opening ≠ [] := ⟨rfl, by decide⟩

theorem plain_headers (hid : plain messageId = true) (hdate : plain date = true) (hboundary : plain boundary = true) :
    ∀ h ∈ headers m messageId date boundary, plain h = true ∧ h ≠ [] := by
  have hfield : ∀ {name v : Text}, plain name = true ∧ name ≠ [] → plain v = true →
      plain (name ++ v) = true ∧ name ++ v ≠ [] := by
    intro name v hname hv
    exact ⟨by rw [plain_append, hname.1, hv]; rfl, by simp [hname.2]⟩
  have hid : plain (messageId ++ ['>']) = true := by rw [plain_append, hid]; rfl
  have hboundary : plain (boundary ++ ['"']) = true := by rw [plain_append, hboundary]; rfl
  intro h hh
  simp only [headers, List.mem_append, List.mem_cons, List.not_mem_nil, or_false, Option.mem_toList,
    Option.map_eq_some_iff, contentType, List.append_assoc] at hh
  rcases hh with (rfl | rfl | rfl | rfl | rfl | rfl) | ⟨r, -, rfl⟩ | (rfl | rfl) | ⟨t, -, rfl⟩ | rfl
  · exact hfield (by simp [plain, isBreak]) (plain_fromValue m)
  · exact hfield (by simp [plain, isBreak]) (plain_headerSafe _)
  · exact hfield (by simp [plain, isBreak]) (plain_encodeHeader _)
  · exact hfield (by simp [plain, isBreak]) hid
  · exact hfield (by simp [plain, isBreak]) hdate
  · simp [plain, isBreak]
  · exact hfield (by simp [plain, isBreak]) (plain_headerSafe _)
  · simp [plain, isBreak]
  · simp [plain, isBreak]
  · exact hfield (by simp [plain, isBreak]) (plain_headerSafe _)
  · exact hfield plain_opening hboundary

theorem boundaryOf_other {c : Char} (hc : c ≠ 'C') (cs : Text) : boundaryOf (c :: cs) = none := by
  refine if_neg fun hprefix => ?_
  obtain ⟨rest, hrest⟩ := List.isPrefixOf_iff_prefix.mp hprefix
  have hopening : opening.head? = some 'C' := rfl
  have hhead := congrArg List.head? hrest
  rw [List.head?_append, hopening, Option.some_or, List.head?_cons] at hhead
  exact hc (Option.some.inj hhead).symm

theorem boundaryOf_contentType (hquote : '"' ∉ boundary) : boundaryOf (contentType boundary) = some boundary := by
  have hopening : opening.isPrefixOf (contentType boundary) = true := by
    rw [contentType, List.append_assoc, List.isPrefixOf_iff_prefix]
    exact List.prefix_append ..
  have htake : (boundary ++ ['"']).takeWhile (· ≠ '"') = boundary := by
    refine (takeWhile_stop (b := ['"']) (fun c hc => ?_) fun c hc => ?_).1
    · rw [decide_eq_true_eq]
      rintro rfl
      exact hquote hc
    · obtain rfl : '"' = c := Option.some.inj hc
      rfl
  rw [boundaryOf, if_pos hopening, contentType, List.append_assoc, List.drop_left, htake]

/-- The boundary is found in the last header, which is the only one of its name. -/
theorem find_boundary (hquote : '"' ∉ boundary) :
    (headers m messageId date boundary).findSome? boundaryOf = some boundary := by
  have hfront : ∀ h ∈ (headers m messageId date boundary).dropLast, boundaryOf h = none := by
    intro h hh
    rw [headers, List.dropLast_concat] at hh
    simp only [List.mem_append, List.mem_cons, List.not_mem_nil, or_false, Option.mem_toList,
      Option.map_eq_some_iff, List.append_assoc] at hh
    rcases hh with (rfl | rfl | rfl | rfl | rfl | rfl) | ⟨r, -, rfl⟩ | (rfl | rfl) | ⟨t, -, rfl⟩ <;>
    exact boundaryOf_other (by decide) _
  have hsplit : headers m messageId date boundary = (headers m messageId date boundary).dropLast ++ [contentType boundary] := by
    simp only [headers, List.dropLast_concat]
  rw [hsplit, List.findSome?_append, List.findSome?_eq_none_iff.mpr hfront, Option.none_or, List.findSome?_cons,
    boundaryOf_contentType hquote]

/-! Contents -/

/-- What a reader of base64 sees of a text. -/
def sextets (t : Text) : List Nat := (t.map Char.toNat).filterMap Jwt.sextet

theorem sextets_append (s t : Text) : sextets (s ++ t) = sextets s ++ sextets t := by
  rw [sextets, List.map_append, List.filterMap_append]
  rfl

theorem sextets_cons {c : Char} {s t : Text} (h : sextets s = sextets t) : sextets (c :: s) = sextets (c :: t) := by
  rw [← List.singleton_append, sextets_append, h, ← sextets_append, List.singleton_append]

theorem sextets_lines (t : Text) : sextets (lines t).flatten = sextets t := by
  fun_induction lines t with
  | case1 => rfl
  | case2 cs ih => exact ih
  | case3 c cs hc l ls heq ih =>
      rw [heq] at ih
      exact sextets_cons ih
  | case4 c cs hc heq ih => exact absurd heq (lines_ne_nil cs)

theorem sextets_fold (column : Nat) (t : Text) : sextets (foldFrom column t) = sextets t := by
  fun_induction foldFrom column t with
  | case1 => rfl
  | case2 cs c ih =>
      rw [List.cons_append]
      exact sextets_cons ih
  | case3 column c cs hc ih => exact sextets_cons ih

theorem sextets_base64 {bytes : List Nat} (h : ∀ b ∈ bytes, b < 256) :
    sextets (base64 bytes) = (Jwt.b64url bytes).filterMap Jwt.sextet := by
  have hletters := Jwt.forall_b64url (P := fun u => Jwt.sextet (standard u).toNat = Jwt.sextet u)
    (fun n hn => (letter_standard n hn).2.2) h
  have hpadding : ∀ n, sextets (List.replicate n '=') = [] := by
    intro n
    induction n with
    | zero => rfl
    | succ n ih => exact ih
  rw [base64, sextets_append, hpadding, List.append_nil, sextets, List.map_map, List.filterMap_map]
  exact List.filterMap_congr fun u hu => hletters u hu

/-- The text comes out of its letters, wherever they are broken into lines. -/
theorem unbase64_lines (t : Text) : unbase64 (lines (foldFrom 0 (base64 (utf8 t)))).flatten = t := by
  have hsextets : ((lines (foldFrom 0 (base64 (utf8 t)))).flatten.map Char.toNat).filterMap Jwt.sextet =
      (Jwt.b64url (utf8 t)).filterMap Jwt.sextet := by
    change sextets _ = _
    rw [sextets_lines, sextets_fold, sextets_base64 (utf8_lt t)]
  have hbytes := Jwt.unb64u_b64url (utf8_lt t)
  rw [Jwt.unb64u] at hbytes
  have hback : (utf8 t).map UInt8.ofNat = Utf8Text.encode t := by
    rw [utf8, List.map_map]
    exact List.map_id'' (fun u => UInt8.ofNat_toNat) _
  rw [unbase64, Jwt.unb64u, hsextets, hbytes, hback, Utf8Text.decode_encode]

/-! Parts -/

theorem beforeBlank_headers {hs rest : List Text} (h : ∀ l ∈ hs, l ≠ []) : beforeBlank (hs ++ [] :: rest) = hs := by
  rw [beforeBlank, List.takeWhile_append_of_pos fun l hl => decide_eq_true (h l hl)]
  simp

theorem afterBlank_headers {hs rest : List Text} (h : ∀ l ∈ hs, l ≠ []) : afterBlank (hs ++ [] :: rest) = rest := by
  rw [afterBlank, List.dropWhile_append_of_pos fun l hl => decide_eq_true (h l hl)]
  simp

theorem sections_until {delimiter d : Text} {ls rest : List Text} (h : ∀ l ∈ ls, delimiter.isPrefixOf l = false)
    (hd : delimiter.isPrefixOf d = true) : sections delimiter (ls ++ d :: rest) = ls :: sections delimiter rest := by
  induction ls with
  | nil => rw [List.nil_append, sections, if_pos hd]
  | cons l ls ih =>
      obtain ⟨hl, hls⟩ := List.forall_mem_cons.mp h
      rw [List.cons_append, sections, hl, if_neg Bool.false_ne_true, ih hls]

theorem mem_lines {t l : Text} {c : Char} (hl : l ∈ lines t) (hc : c ∈ l) : c ∈ t := by
  fun_induction lines t generalizing l with
  | case1 =>
      obtain rfl := List.mem_singleton.mp hl
      exact hc
  | case2 cs ih =>
      rcases List.mem_cons.mp hl with rfl | hl
      · cases hc
      · exact List.mem_cons_of_mem _ (List.mem_cons_of_mem _ (ih hl hc))
  | case3 d cs hd k ks heq ih =>
      rw [heq] at ih
      rcases List.mem_cons.mp hl with rfl | hl
      · rcases List.mem_cons.mp hc with rfl | hc
        · exact List.mem_cons_self
        · exact List.mem_cons_of_mem d (ih List.mem_cons_self hc)
      · exact List.mem_cons_of_mem d (ih (List.mem_cons_of_mem k hl) hc)
  | case4 c cs hc heq ih => exact absurd heq (lines_ne_nil cs)

theorem mem_fold {t : Text} {c : Char} {column : Nat} (hc : c ∈ foldFrom column t) : c ∈ t ∨ isBreak c = true := by
  fun_induction foldFrom column t with
  | case1 => cases hc
  | case2 cs d ih =>
      simp only [CRLF, List.cons_append, List.nil_append, List.mem_cons] at hc ⊢
      rcases hc with rfl | rfl | rfl | hc
      · exact .inl (.inl rfl)
      · exact .inr rfl
      · exact .inr rfl
      · exact (ih hc).imp_left .inr
  | case3 column d cs hd ih =>
      rcases List.mem_cons.mp hc with rfl | hc
      · exact .inl List.mem_cons_self
      · exact (ih hc).imp_left (List.mem_cons_of_mem d)

/-- The letters of a content are never taken for a delimiter. -/
theorem content_delimiter (boundary t : Text) :
    ∀ l ∈ lines (foldFrom 0 (base64 (utf8 t))), ("--".toList ++ boundary).isPrefixOf l = false := by
  intro l hl
  rw [Bool.eq_false_iff]
  intro hprefix
  obtain ⟨rest, rfl⟩ := List.isPrefixOf_iff_prefix.mp hprefix
  have hdash : '-' ∈ "--".toList ++ boundary ++ rest := by simp
  rcases mem_fold (mem_lines hl hdash) with h | h
  · exact (mem_base64 (utf8_lt t) h).2 rfl
  · cases h

def partLines (type : String) (t : Text) : List Text :=
  partHeaders type ++ [] :: lines (foldFrom 0 (base64 (utf8 t)))

theorem readPart_lines (type : String) (t : Text) : readPart (partLines type t) = ⟨partHeaders type, t⟩ := by
  have hne : ∀ l ∈ partHeaders type, l ≠ [] := by simp [partHeaders]
  rw [readPart, partLines, beforeBlank_headers hne, afterBlank_headers hne, unbase64_lines]

theorem partLines_delimiter (boundary : Text) (type : String) (t : Text) :
    ∀ l ∈ partLines type t, ("--".toList ++ boundary).isPrefixOf l = false := by
  intro l hl
  rcases List.mem_append.mp hl with hl | hl
  · simp only [partHeaders, List.mem_cons, List.not_mem_nil, or_false, List.append_assoc] at hl
    rcases hl with rfl | rfl <;> rfl
  · rcases List.mem_cons.mp hl with rfl | hl
    · rfl
    · exact content_delimiter boundary t l hl

theorem flatMap_lines {ls : List Text} (h : ∀ l ∈ ls, Unbroken l) : ls.flatMap lines = ls := by
  induction ls with
  | nil => rfl
  | cons l ls ih =>
      obtain ⟨hl, hls⟩ := List.forall_mem_cons.mp h
      have hline : lines l = [l] := hl
      rw [List.flatMap_cons, ih hls, hline, List.singleton_append]

theorem lines_partHeaders (type : String) (h : plain type.toList = true) :
    (partHeaders type).flatMap lines = partHeaders type := by
  apply flatMap_lines
  intro l hl
  simp only [partHeaders, List.mem_cons, List.not_mem_nil, or_false] at hl
  rcases hl with rfl | rfl
  · apply plain_unbroken
    rw [plain_append, plain_append, h]
    rfl
  · exact plain_unbroken rfl

theorem lines_mime (hid : plain messageId = true) (hdate : plain date = true) (hboundary : plain boundary = true) :
    lines (buildMime m messageId date boundary) = headers m messageId date boundary ++ [] ::
      ("--".toList ++ boundary) :: (partLines "text/plain" m.text ++ ("--".toList ++ boundary) ::
        (partLines "text/html" m.html ++ [("--".toList ++ boundary ++ "--".toList), []])) := by
  have hheaders := flatMap_lines fun h hh => plain_unbroken (plain_headers m hid hdate hboundary h hh).1
  have hdelimiter : lines ("--".toList ++ boundary) = ["--".toList ++ boundary] := by
    apply plain_unbroken
    rw [plain_append, hboundary]
    rfl
  have hclose : lines ("--".toList ++ boundary ++ "--".toList) = ["--".toList ++ boundary ++ "--".toList] := by
    apply plain_unbroken
    rw [plain_append, plain_append, hboundary]
    rfl
  have hplain := lines_partHeaders "text/plain" rfl
  have hhtml := lines_partHeaders "text/html" rfl
  have hempty : lines [] = [[]] := rfl
  rw [List.append_assoc] at hclose
  rw [buildMime, lines_join (by simp)]
  simp only [List.flatMap_append, List.flatMap_cons, List.flatMap_nil, List.append_nil, hheaders, hdelimiter, hclose,
    hplain, hhtml, hempty, partLines, List.append_assoc, List.cons_append, List.nil_append]

/-- The server takes exactly the message from the wire and the recipient reads exactly the two texts, under the headers
that were written; whatever the texts are, and whatever is sent after them. -/
theorem mail_read (hid : plain messageId = true) (hdate : plain date = true) (hboundary : plain boundary = true)
    (hquote : '"' ∉ boundary) (rest : Text) :
    ∃ received, receive [] [] (transmitted m messageId date boundary ++ rest) = some (received, rest) ∧
      readMail received = some ⟨headers m messageId date boundary,
        [⟨partHeaders "text/plain", m.text⟩, ⟨partHeaders "text/html", m.html⟩]⟩ := by
  refine ⟨lines (buildMime m messageId date boundary), ?_, ?_⟩
  · exact receive_stuffed (lines_ne_nil _) (unbroken_lines _) [] rest
  · have hne : ∀ h ∈ headers m messageId date boundary, h ≠ [] := fun h hh => (plain_headers m hid hdate hboundary h hh).2
    have hself : ("--".toList ++ boundary).isPrefixOf ("--".toList ++ boundary) = true :=
      List.isPrefixOf_iff_prefix.mpr (List.prefix_refl _)
    have hclose : ("--".toList ++ boundary).isPrefixOf ("--".toList ++ boundary ++ "--".toList) = true :=
      List.isPrefixOf_iff_prefix.mpr (List.prefix_append ..)
    have hlast : sections ("--".toList ++ boundary) [[]] = [[[]]] := rfl
    have hsections : sections ("--".toList ++ boundary) (("--".toList ++ boundary) :: (partLines "text/plain" m.text ++
        ("--".toList ++ boundary) :: (partLines "text/html" m.html ++ [("--".toList ++ boundary ++ "--".toList), []]))) =
        [[], partLines "text/plain" m.text, partLines "text/html" m.html, [[]]] := by
      have hplain := partLines_delimiter boundary "text/plain" m.text
      have hhtml := partLines_delimiter boundary "text/html" m.html
      rw [sections, if_pos hself, sections_until hplain hself, sections_until hhtml hclose, hlast]
    rw [readMail, lines_mime m hid hdate hboundary, beforeBlank_headers hne, afterBlank_headers hne, find_boundary m hquote,
      Option.map_some, hsections]
    simp only [List.drop_one, List.tail_cons, List.dropLast_cons_cons, List.dropLast_singleton, List.map_cons, List.map_nil,
      readPart_lines]

theorem mail_read_dots : ∃ received,
    receive [] [] (transmitted ⟨"a@b".toList, some "A\r\nBcc: c@d".toList, "e@f".toList, [], "<p>".toList, ".\r\n.".toList,
      none, none⟩ "1@steadhold".toList [] "sh_0".toList ++ "QUIT\r\n".toList) = some (received, "QUIT\r\n".toList) ∧
    readMail received = some ⟨headers ⟨"a@b".toList, some "A\r\nBcc: c@d".toList, "e@f".toList, [], "<p>".toList,
      ".\r\n.".toList, none, none⟩ "1@steadhold".toList [] "sh_0".toList,
      [⟨partHeaders "text/plain", ".\r\n.".toList⟩, ⟨partHeaders "text/html", "<p>".toList⟩]⟩ :=
  mail_read _ rfl rfl rfl (by decide) _

end Corebase.SmtpMessages
