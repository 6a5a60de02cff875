import Corebase.JsText
import Mathlib.Data.List.Infix
import Mathlib.Data.List.Induction
import Mathlib.Logic.Function.Basic

namespace Corebase.SmtpReplies

open JsText

structure Reply where
  code : Option Nat
  text : Text
deriving DecidableEq

def CRLF : Text := ['\r', '\n']

/-- A hyphen in the fourth position continues a reply. -/
def continues (line : Text) : Bool := 4 ≤ line.length && (line)[3]? = some '-'

/-- The lines of the first complete reply, after the part of a line and the lines that are already read. -/
def takeLines : Text → Text → List Text → Option (List Text × Text)
  | [], _, _ => none
  | '\r' :: '\n' :: rest, line, lines =>
    if continues line then takeLines rest [] (lines ++ [line]) else some (lines ++ [line], rest)
  | c :: rest, line, lines => takeLines rest (line ++ [c]) lines

/-- The conversion of three characters. Other than digits do not begin a reply. -/
def Number (s : Text) : Option Nat := if s.all isDigit then some (Nat.ofDigitChars 10 s 0) else none

def takeReply (buffer : Text) : Option (Reply × Text) :=
  (takeLines buffer [] []).map fun (lines, rest) =>
    (⟨Number (slice (lines.headD []) 0 3), join ['\n'] (lines.map (·.drop 4))⟩, rest)

inductive Outcome
  | resolved (r : Reply)
  | timedOut
deriving DecidableEq

/-- The reads are numbered in the order of their calls. -/
structure Conversation where
  buffer : Text
  waiters : List Nat
  reads : Nat
  results : Nat → Option Outcome

inductive Event
  | data (chunk : Text)
  | read
  /-- The timer of a read, which is cleared when the read is settled. -/
  | timeout (k : Nat)
deriving DecidableEq

/-- A promise is settled once. -/
def Conversation.settle (s : Conversation) (k : Nat) (o : Outcome) : Conversation :=
  if s.results k = none then { s with results := Function.update s.results k (some o) } else s

def Conversation.deliver (s : Conversation) (r : Reply) : Conversation :=
  match s.waiters with
  | [] => s
  | k :: waiters => { s with waiters := waiters }.settle k (.resolved r)

/-- The replies that a buffer is taken apart into, and what is left of it. -/
def takeReplies : Nat → Text → List Reply × Text
  | 0, buffer => ([], buffer)
  | n + 1, buffer => match takeReply buffer with
    | none => ([], buffer)
    | some (r, rest) => (r :: (takeReplies n rest).1, (takeReplies n rest).2)

def Conversation.step (s : Conversation) : Event → Conversation
  | .data chunk =>
    let (replies, buffer) := takeReplies (s.buffer ++ chunk).length (s.buffer ++ chunk)
    replies.foldl Conversation.deliver { s with buffer := buffer }
  | .read => { s with waiters := s.waiters ++ [s.reads], reads := s.reads + 1 }
  | .timeout k => if k < s.reads then s.settle k .timedOut else s

def fresh : Conversation := ⟨[], [], 0, fun _ => none⟩

def run (es : List Event) : Conversation := es.foldl Conversation.step fresh

/-- A well-formed reply of the server. -/
structure Answer where
  code : Text
  digits : code.length = 3 ∧ code.all isDigit = true
  continued : List Text
  /-- The last line may be the code alone. -/
  last : Option Text
  clean : (∀ t ∈ continued, '\n' ∉ t) ∧ ∀ t ∈ last, '\n' ∉ t

namespace Answer

variable (a : Answer)

def lastLine : Text := a.code ++ (match a.last with | none => [] | some t => ' ' :: t)

def lines : List Text := a.continued.map (a.code ++ '-' :: ·) ++ [a.lastLine]

def document : Text := a.lines.flatMap (· ++ CRLF)

def reply : Reply := ⟨some (Nat.ofDigitChars 10 a.code 0), join ['\n'] (a.continued ++ [a.last.getD []])⟩

end Answer

def stream (as : List Answer) : Text := as.flatMap Answer.document

/-- How many of the replies have arrived whole. -/
def completed : List Answer → Text → Nat
  | [], _ => 0
  | a :: as, t => if a.document.isPrefixOf t then completed as (t.drop a.document.length) + 1 else 0

def received (es : List Event) : Text := es.flatMap fun
  | .data chunk => chunk
  | _ => []

def readCalls (es : List Event) : Nat := es.countP (· = .read)

/-- A read has been given nothing but its own reply, and has been given it or timed out once the reply is there. -/
def Settles (as : List Answer) (es : List Event) : Prop :=
  ∀ k, k < readCalls es →
    (∀ r, (run es).results k = some (.resolved r) → k < completed as (received es) ∧ as[k]?.map Answer.reply = some r) ∧
    (k < completed as (received es) → (run es).results k ≠ none)

/-- It is so at every time. -/
def InStep (as : List Answer) (es : List Event) : Prop := ∀ before, before <+: es → Settles as before

/-- No read is called when its reply has already arrived. -/
def Awaited (as : List Answer) (es : List Event) : Prop :=
  ∀ before, before ++ [.read] <+: es → completed as (received before) ≤ readCalls before

theorem takeLines_char {c : Char} {cs : Text} (h : cs.head? ≠ some '\n') (line : Text) (lines : List Text) :
    takeLines (c :: cs) line lines = takeLines cs (line ++ [c]) lines := by
  rw [takeLines]
  rintro rest rfl rfl
  exact h rfl

theorem takeLines_nothing {p : Text} (h : '\n' ∉ p) (line : Text) (lines : List Text) : takeLines p line lines = none := by
  induction p generalizing line with
  | nil => rfl
  | cons c p ih =>
      rw [List.mem_cons, not_or] at h
      rw [takeLines_char fun hhead => h.2 (List.mem_of_head? hhead)]
      exact ih h.2 _

theorem takeLines_line {l : Text} (h : '\n' ∉ l) (rest line : Text) (lines : List Text) :
    takeLines (l ++ (CRLF ++ rest)) line lines =
      if continues (line ++ l) then takeLines rest [] (lines ++ [line ++ l]) else some (lines ++ [line ++ l], rest) := by
  induction l generalizing line with
  | nil =>
      rw [List.append_nil]
      rfl
  | cons c l ih =>
      rw [List.mem_cons, not_or] at h
      have hhead : (l ++ (CRLF ++ rest)).head? ≠ some '\n' := by
        cases l with
        | nil => exact fun hbreak => absurd (Option.some.inj hbreak) (by decide)
        | cons d l => exact fun hd => h.2 (List.mem_of_head? hd)
      rw [List.cons_append, takeLines_char hhead, ih h.2]
      simp only [List.append_assoc, List.singleton_append]

/-- A beginning of a line and more is within the line, or has the line. -/
theorem prefix_line {p l more : Text} (h : '\n' ∉ l) (hp : p <+: l ++ (CRLF ++ more)) :
    '\n' ∉ p ∨ ∃ q, p = l ++ (CRLF ++ q) ∧ q <+: more := by
  rw [← List.append_assoc] at hp
  rcases List.prefix_or_prefix_of_prefix hp (List.prefix_append (l ++ CRLF) more) with hin | ⟨q, rfl⟩
  · have hcut : l ++ CRLF = (l ++ ['\r']) ++ ['\n'] := by simp [CRLF]
    rw [hcut, List.prefix_concat_iff] at hin
    rcases hin with rfl | hin
    · exact .inr ⟨[], by simp [CRLF], List.nil_prefix⟩
    · refine .inl fun hmem => ?_
      have hline := hin.subset hmem
      simp [h] at hline
  · exact .inr ⟨q, by rw [List.append_assoc], (List.prefix_append_right_inj _).mp hp⟩

section Documents

variable {ls : List Text} {last : Text} (hls : ∀ l ∈ ls, '\n' ∉ l ∧ continues l = true)
  (hlast : '\n' ∉ last ∧ continues last = false)

include hls hlast

theorem takeLines_whole (rest : Text) (lines : List Text) :
    takeLines (ls.flatMap (· ++ CRLF) ++ (last ++ (CRLF ++ rest))) [] lines = some (lines ++ (ls ++ [last]), rest) := by
  induction ls generalizing lines with
  | nil => simp [takeLines_line hlast.1, hlast.2]
  | cons l ls ih =>
      obtain ⟨hl, hls⟩ := List.forall_mem_cons.mp hls
      rw [List.flatMap_cons, List.append_assoc, List.append_assoc, takeLines_line hl.1, List.nil_append, if_pos hl.2,
        ih hls, List.append_assoc]
      rfl

theorem takeLines_part {p : Text} (hp : p <+: ls.flatMap (· ++ CRLF) ++ (last ++ CRLF))
    (hne : p ≠ ls.flatMap (· ++ CRLF) ++ (last ++ CRLF)) (lines : List Text) : takeLines p [] lines = none := by
  induction ls generalizing p lines with
  | nil =>
      rw [List.flatMap_nil, List.nil_append] at hp hne
      have hp' : p <+: last ++ (CRLF ++ []) := by rwa [List.append_nil]
      rcases prefix_line hlast.1 hp' with hin | ⟨q, rfl, hq⟩
      · exact takeLines_nothing hin [] lines
      · rw [List.prefix_nil] at hq
        subst hq
        exact absurd (by rw [List.append_nil]) hne
  | cons l ls ih =>
      obtain ⟨hl, hls⟩ := List.forall_mem_cons.mp hls
      rw [List.flatMap_cons, List.append_assoc, List.append_assoc] at hp hne
      rcases prefix_line hl.1 hp with hin | ⟨q, rfl, hq⟩
      · exact takeLines_nothing hin [] lines
      · rw [takeLines_line hl.1, List.nil_append, if_pos hl.2]
        exact ih hls hq (fun heq => hne (by rw [heq])) _

end Documents

namespace Answer

variable (a : Answer)

theorem code_clean : '\n' ∉ a.code := fun h => absurd (List.all_eq_true.mp a.digits.2 _ h) (by decide)

theorem continued_lines : ∀ l ∈ a.continued.map (a.code ++ '-' :: ·), '\n' ∉ l ∧ continues l = true := by
  intro l hl
  obtain ⟨t, ht, rfl⟩ := List.mem_map.mp hl
  obtain ⟨c₁, c₂, c₃, hcode⟩ := List.length_eq_three.mp a.digits.1
  refine ⟨?_, by simp [continues, hcode]⟩
  rw [List.mem_append, List.mem_cons, not_or, not_or]
  exact ⟨a.code_clean, by decide, a.clean.1 t ht⟩

theorem last_line : '\n' ∉ a.lastLine ∧ continues a.lastLine = false := by
  obtain ⟨c₁, c₂, c₃, hcode⟩ := List.length_eq_three.mp a.digits.1
  have hclean := a.code_clean
  unfold lastLine
  cases hlast : a.last with
  | none => exact ⟨by simpa using hclean, by simp [continues, hcode]⟩
  | some t => exact ⟨by simpa [hclean] using a.clean.2 t hlast, by simp [continues, hcode]⟩

theorem document_eq : a.document = (a.continued.map (a.code ++ '-' :: ·)).flatMap (· ++ CRLF) ++ (a.lastLine ++ CRLF) := by
  simp [document, lines]

theorem head_line : ∃ rest, a.lines.headD [] = a.code ++ rest := by
  unfold lines lastLine
  cases a.continued with
  | nil => exact ⟨_, rfl⟩
  | cons t ts => exact ⟨_, rfl⟩

theorem texts : a.lines.map (·.drop 4) = a.continued ++ [a.last.getD []] := by
  obtain ⟨c₁, c₂, c₃, hcode⟩ := List.length_eq_three.mp a.digits.1
  have hlast : a.lastLine.drop 4 = a.last.getD [] := by
    unfold lastLine
    cases a.last <;> simp [hcode]
  simp [lines, hlast, hcode, Function.comp_def]

theorem takeReply_whole (rest : Text) : takeReply (a.document ++ rest) = some (a.reply, rest) := by
  obtain ⟨tail, htail⟩ := a.head_line
  have hcode : slice (a.lines.headD []) 0 3 = a.code := by
    rw [htail, slice, List.drop_zero, ← a.digits.1, List.take_left]
  have hlines := takeLines_whole a.continued_lines a.last_line rest []
  rw [← List.append_assoc a.lastLine, ← List.append_assoc, ← document_eq, List.nil_append] at hlines
  rw [takeReply, hlines]
  change some ((⟨Number (slice (a.lines.headD []) 0 3), join ['\n'] (a.lines.map (·.drop 4))⟩ : Reply), rest) = _
  rw [hcode, texts, Number, if_pos a.digits.2]
  rfl

theorem takeReply_part {p : Text} (hp : p <+: a.document) (hne : p ≠ a.document) : takeReply p = none := by
  rw [document_eq] at hp hne
  rw [takeReply, takeLines_part a.continued_lines a.last_line hp hne]
  rfl

theorem document_pos : 0 < a.document.length := by
  rw [document_eq, List.length_append, List.length_append]
  exact Nat.add_pos_right _ (Nat.add_pos_right _ (by decide))

end Answer

theorem stream_cons (a : Answer) (as : List Answer) : stream (a :: as) = a.document ++ stream as := List.flatMap_cons

/-- A beginning of the stream has the first reply, or is a part of it. -/
theorem prefix_stream {a : Answer} {as : List Answer} {t : Text} (ht : t <+: stream (a :: as)) :
    (∃ rest, t = a.document ++ rest ∧ rest <+: stream as) ∨ ¬a.document <+: t ∧ t <+: a.document ∧ t ≠ a.document := by
  rw [stream_cons] at ht
  by_cases hin : a.document <+: t
  · obtain ⟨rest, rfl⟩ := hin
    exact .inl ⟨rest, rfl, (List.prefix_append_right_inj _).mp ht⟩
  · refine .inr ⟨hin, ?_, fun heq => hin (heq ▸ List.prefix_refl _)⟩
    exact (List.prefix_or_prefix_of_prefix ht (List.prefix_append _ _)).resolve_right hin

theorem completed_whole (a : Answer) (as : List Answer) (rest : Text) :
    completed (a :: as) (a.document ++ rest) = completed as rest + 1 := by
  rw [completed, if_pos (List.isPrefixOf_iff_prefix.mpr (List.prefix_append _ _)), List.drop_left]

theorem completed_part {a : Answer} {t : Text} (as : List Answer) (h : ¬a.document <+: t) : completed (a :: as) t = 0 := by
  rw [completed, if_neg (mt List.isPrefixOf_iff_prefix.mp h)]

theorem completed_le (as : List Answer) (t : Text) : completed as t ≤ as.length := by
  induction as generalizing t with
  | nil => rfl
  | cons a as ih =>
      rw [completed]
      split
      · exact Nat.succ_le_succ (ih _)
      · exact Nat.zero_le _

/-- The replies that have arrived begin what has arrived. -/
theorem stream_completed (as : List Answer) (t : Text) : stream (as.take (completed as t)) <+: t := by
  induction as generalizing t with
  | nil => exact List.nil_prefix
  | cons a as ih =>
      by_cases hin : a.document <+: t
      · obtain ⟨rest, rfl⟩ := hin
        rw [completed_whole, List.take_succ_cons, stream_cons, List.prefix_append_right_inj]
        exact ih rest
      · rw [completed_part as hin]
        exact List.nil_prefix

/-- The replies are taken out of any beginning of the stream, however it came. -/
theorem takeReplies_stream {as : List Answer} {t : Text} (ht : t <+: stream as) {fuel : Nat} (hfuel : t.length ≤ fuel) :
    takeReplies fuel t = ((as.take (completed as t)).map Answer.reply, t.drop (stream (as.take (completed as t))).length) := by
  induction as generalizing t fuel with
  | nil =>
      rw [stream, List.flatMap_nil, List.prefix_nil] at ht
      subst ht
      cases fuel <;> rfl
  | cons a as ih =>
      rcases prefix_stream ht with ⟨rest, rfl, hrest⟩ | ⟨hin, hpart, hne⟩
      · have hpos := a.document_pos
        rw [List.length_append] at hfuel
        obtain ⟨fuel, rfl⟩ : ∃ n, fuel = n + 1 := ⟨fuel - 1, by omega⟩
        rw [completed_whole, List.take_succ_cons, stream_cons, List.length_append, ← List.drop_drop, List.drop_left,
          takeReplies, a.takeReply_whole]
        have hrestfuel : rest.length ≤ fuel := by omega
        change (a.reply :: (takeReplies fuel rest).1, (takeReplies fuel rest).2) = _
        rw [ih hrest hrestfuel]
        rfl
      · rw [completed_part as hin]
        cases fuel with
        | zero => rfl
        | succ fuel => rw [takeReplies, a.takeReply_part hpart hne]; rfl

/-- What arrives later is counted from what is left. -/
theorem completed_later {as : List Answer} {t t' : Text} (h : t <+: t') :
    completed as t' = completed as t +
      completed (as.drop (completed as t)) (t'.drop (stream (as.take (completed as t))).length) := by
  induction as generalizing t t' with
  | nil => rfl
  | cons a as ih =>
      by_cases hin : a.document <+: t
      · obtain ⟨rest, rfl⟩ := hin
        obtain ⟨more, rfl⟩ := h
        have hmore := ih (List.prefix_append rest more)
        rw [List.append_assoc, completed_whole, completed_whole, List.take_succ_cons, List.drop_succ_cons, stream_cons,
          List.length_append, ← List.drop_drop, List.drop_left, hmore]
        omega
      · simp [completed_part as hin, stream]

/-- A number of replies have been handed out, and the reads after them wait. -/
structure Ready (as : List Answer) (n : Nat) (s : Conversation) : Prop where
  waiters : s.waiters = List.range' n (s.reads - n)
  own : ∀ k r, s.results k = some (.resolved r) → k < n ∧ as[k]?.map Answer.reply = some r
  settled : ∀ k, k < n → k < s.reads → s.results k ≠ none

variable {as : List Answer} {n : Nat} {s : Conversation}

theorem settle_reads (k : Nat) (o : Outcome) : (s.settle k o).reads = s.reads ∧ (s.settle k o).waiters = s.waiters ∧
    (s.settle k o).buffer = s.buffer := by
  unfold Conversation.settle
  split <;> exact ⟨rfl, rfl, rfl⟩

theorem settle_results (k : Nat) (o : Outcome) (j : Nat) : (s.settle k o).results j =
    if j = k ∧ s.results k = none then some o else s.results j := by
  unfold Conversation.settle
  by_cases hk : s.results k = none
  · by_cases hj : j = k
    · subst hj
      simp [hk]
    · simp [hk, hj]
  · simp [hk]

theorem settle_settled (k : Nat) (o : Outcome) {j : Nat} (h : s.results j ≠ none) : (s.settle k o).results j ≠ none := by
  rw [settle_results]
  split
  · exact Option.some_ne_none o
  · exact h

theorem deliver_same (r : Reply) : (s.deliver r).reads = s.reads ∧ (s.deliver r).buffer = s.buffer := by
  unfold Conversation.deliver
  split
  · exact ⟨rfl, rfl⟩
  · exact ⟨(settle_reads _ _).1, (settle_reads _ _).2.2⟩

theorem Ready.deliver (h : Ready as n s) {r : Reply} (hr : as[n]?.map Answer.reply = some r) :
    Ready as (n + 1) (s.deliver r) := by
  unfold Conversation.deliver
  by_cases hn : n < s.reads
  · obtain ⟨w, hw⟩ : ∃ w, s.reads - n = w + 1 := ⟨s.reads - n - 1, by omega⟩
    have hwaiters := h.waiters
    rw [hw, List.range'_succ] at hwaiters
    rw [hwaiters]
    dsimp only
    refine ⟨?_, fun k r' hk => ?_, fun k hk hread => ?_⟩
    · rw [(settle_reads _ _).2.1, (settle_reads _ _).1]
      exact congrArg (List.range' (n + 1)) (by dsimp only; omega)
    · rw [settle_results] at hk
      split at hk
      next hself =>
        obtain rfl := Outcome.resolved.inj (Option.some.inj hk)
        rw [hself.1]
        exact ⟨Nat.lt_succ_self n, hr⟩
      next => exact ⟨Nat.lt_succ_of_lt (h.own k r' hk).1, (h.own k r' hk).2⟩
    · rw [(settle_reads _ _).1] at hread
      by_cases hkn : k = n
      · subst hkn
        rw [settle_results]
        by_cases hnone : s.results k = none
        · simp [hnone]
        · simp [hnone]
      · exact settle_settled _ _ (h.settled k (by omega) hread)
  · have hwaiters := h.waiters
    rw [Nat.sub_eq_zero_of_le (Nat.le_of_not_lt hn), List.range'_zero] at hwaiters
    rw [hwaiters]
    dsimp only
    refine ⟨?_, fun k r' hk => ?_, fun k hk hread => h.settled k (by omega) hread⟩
    · rw [hwaiters, Nat.sub_eq_zero_of_le (by omega), List.range'_zero]
    · exact ⟨Nat.lt_succ_of_lt (h.own k r' hk).1, (h.own k r' hk).2⟩

theorem Ready.deliverAll (h : Ready as n s) (m : Nat) (hm : m ≤ as.length - n) :
    Ready as (n + m) ((((as.drop n).take m).map Answer.reply).foldl Conversation.deliver s) := by
  induction m generalizing n s with
  | zero => exact h
  | succ m ih =>
      obtain ⟨a, rest, hdrop⟩ := List.exists_cons_of_ne_nil (List.ne_nil_of_length_pos
        (show 0 < (as.drop n).length by rw [List.length_drop]; omega))
      have hrest : as.drop (n + 1) = rest := by rw [← List.drop_drop, hdrop]; rfl
      have hhead : as[n]?.map Answer.reply = some a.reply := by
        have hget := congrArg List.head? hdrop
        rw [List.head?_drop] at hget
        rw [hget]
        rfl
      have hnext := ih (h.deliver hhead) (by omega)
      rw [hrest, Nat.add_assoc, Nat.add_comm 1 m] at hnext
      rw [hdrop, List.take_succ_cons, List.map_cons, List.foldl_cons]
      exact hnext

theorem deliverAll_same (rs : List Reply) : (rs.foldl Conversation.deliver s).reads = s.reads ∧
    (rs.foldl Conversation.deliver s).buffer = s.buffer := by
  induction rs generalizing s with
  | nil => exact ⟨rfl, rfl⟩
  | cons r rs ih =>
      rw [List.foldl_cons, ih.1, ih.2]
      exact deliver_same r

theorem run_snoc (es : List Event) (e : Event) : run (es ++ [e]) = (run es).step e := by
  simp [run]

theorem readCalls_snoc (es : List Event) (e : Event) : readCalls (es ++ [e]) = readCalls es + if e = .read then 1 else 0 := by
  simp [readCalls, List.countP_append, List.countP_cons]

theorem run_reads (es : List Event) : (run es).reads = readCalls es := by
  induction es using List.reverseRecOn with
  | nil => rfl
  | append_singleton es e ih =>
      rw [run_snoc, readCalls_snoc]
      cases e with
      | data chunk => exact (deliverAll_same _).1.trans ih
      | read => exact congrArg (· + 1) ih
      | timeout k =>
          rw [Conversation.step]
          split
          · exact (settle_reads _ _).1.trans ih
          · exact ih

/-- A read that is not called yet has no result. -/
structure Fresh (s : Conversation) : Prop where
  waiting : ∀ k ∈ s.waiters, k < s.reads
  results : ∀ k, s.reads ≤ k → s.results k = none

theorem Fresh.settle (h : Fresh s) {k : Nat} (hk : k < s.reads) (o : Outcome) : Fresh (s.settle k o) := by
  obtain ⟨hreads, hwaiters, -⟩ := settle_reads (s := s) k o
  refine ⟨fun j hj => ?_, fun j hj => ?_⟩
  · rw [hreads]
    exact h.waiting j (hwaiters ▸ hj)
  · rw [hreads] at hj
    rw [settle_results, if_neg (by omega)]
    exact h.results j hj

theorem Fresh.deliver (h : Fresh s) (r : Reply) : Fresh (s.deliver r) := by
  unfold Conversation.deliver
  split
  · exact h
  next k waiters hw =>
    have hk := h.waiting k (by rw [hw]; exact List.mem_cons_self)
    exact Fresh.settle (s := { s with waiters := waiters })
      ⟨fun j hj => h.waiting j (by rw [hw]; exact List.mem_cons_of_mem _ hj), h.results⟩ hk _

theorem Fresh.deliverAll (h : Fresh s) (rs : List Reply) : Fresh (rs.foldl Conversation.deliver s) := by
  induction rs generalizing s with
  | nil => exact h
  | cons r rs ih => exact ih (h.deliver r)

theorem fresh_run (es : List Event) : Fresh (run es) := by
  induction es using List.reverseRecOn with
  | nil => exact ⟨List.forall_mem_nil _, fun _ _ => rfl⟩
  | append_singleton es e ih =>
      rw [run_snoc]
      cases e with
      | data chunk =>
          exact Fresh.deliverAll (s := { run es with buffer := (takeReplies _ ((run es).buffer ++ chunk)).2 })
            ⟨ih.waiting, ih.results⟩ _
      | read =>
          refine ⟨fun k hk => ?_, fun k hk => ih.results k (Nat.le_of_succ_le hk)⟩
          rcases List.mem_append.mp hk with hk | hk
          · exact Nat.lt_succ_of_lt (ih.waiting k hk)
          · rw [List.mem_singleton.mp hk]
            exact Nat.lt_succ_self _
      | timeout k =>
          rw [Conversation.step]
          split
          next hk => exact ih.settle hk _
          next => exact ih

theorem completed_nil (as : List Answer) : completed as [] = 0 := by
  cases as with
  | nil => rfl
  | cons a as =>
      refine completed_part as fun h => ?_
      have hpos := a.document_pos
      rw [List.prefix_nil.mp h] at hpos
      exact absurd hpos (by decide)

theorem stream_take_add (as : List Answer) (n m : Nat) : (stream (as.take (n + m))).length =
    (stream (as.take n)).length + (stream ((as.drop n).take m)).length := by
  rw [List.take_add, stream, List.flatMap_append, List.length_append]
  rfl

theorem Ready.data {t chunk : Text} (h : Ready as (completed as t) s) (ht : t ++ chunk <+: stream as)
    (hbuffer : s.buffer = t.drop (stream (as.take (completed as t))).length) :
    Ready as (completed as (t ++ chunk)) (s.step (.data chunk)) ∧
      (s.step (.data chunk)).buffer = (t ++ chunk).drop (stream (as.take (completed as (t ++ chunk)))).length := by
  have hcut : s.buffer ++ chunk = (t ++ chunk).drop (stream (as.take (completed as t))).length := by
    rw [hbuffer, List.drop_append_of_le_length (stream_completed as t).length_le]
  have hlater := @completed_later as _ _ (List.prefix_append t chunk)
  rw [← hcut] at hlater
  have hrest : s.buffer ++ chunk <+: stream (as.drop (completed as t)) := by
    obtain ⟨more, hmore⟩ := ht
    refine ⟨more, ?_⟩
    have hstream : stream as = stream (as.take (completed as t)) ++ stream (as.drop (completed as t)) := by
      rw [stream, stream, stream, ← List.flatMap_append, List.take_append_drop]
    have hle : (stream (as.take (completed as t))).length ≤ (t ++ chunk).length :=
      ((stream_completed as t).trans (List.prefix_append t chunk)).length_le
    rw [hcut, ← List.drop_append_of_le_length hle, hmore, hstream, List.drop_left]
  have htaken := takeReplies_stream hrest (Nat.le_refl _)
  have hm := completed_le (as.drop (completed as t)) (s.buffer ++ chunk)
  rw [List.length_drop] at hm
  rw [Conversation.step, htaken, hlater]
  generalize completed (as.drop (completed as t)) (s.buffer ++ chunk) = m at hm
  dsimp only
  have hready : Ready as (completed as t) { s with
      buffer := (s.buffer ++ chunk).drop (stream ((as.drop (completed as t)).take m)).length } :=
    ⟨h.waiters, h.own, h.settled⟩
  refine ⟨hready.deliverAll m hm, ?_⟩
  rw [(deliverAll_same _).2, stream_take_add, ← List.drop_drop, ← hcut]

theorem Ready.read (h : Ready as n s) (hn : n ≤ s.reads) : Ready as n (s.step .read) := by
  refine ⟨?_, h.own, fun k hk _ => h.settled k hk (by omega)⟩
  change s.waiters ++ [s.reads] = List.range' n (s.reads + 1 - n)
  rw [h.waiters, Nat.succ_sub hn, List.range'_concat, Nat.one_mul, Nat.add_sub_cancel' hn]

theorem Ready.timeout (h : Ready as n s) (k : Nat) : Ready as n (s.step (.timeout k)) := by
  rw [Conversation.step]
  split
  next hk =>
    obtain ⟨hreads, hwaiters, -⟩ := settle_reads (s := s) k .timedOut
    refine ⟨?_, fun j r hj => ?_, fun j hj hread => settle_settled k _ (h.settled j hj (hreads ▸ hread))⟩
    · rw [hwaiters, hreads]
      exact h.waiters
    · rw [settle_results] at hj
      split at hj
      · cases hj
      · exact h.own j r hj
  next => exact h

/-- What has arrived is handed out to the reads in order, whatever the cuts. -/
theorem ready_run {es : List Event} (hes : received es <+: stream as) (h : Awaited as es) :
    Ready as (completed as (received es)) (run es) ∧
      (run es).buffer = (received es).drop (stream (as.take (completed as (received es)))).length := by
  induction es using List.reverseRecOn with
  | nil =>
      change Ready as (completed as []) fresh ∧ [] = List.drop _ []
      rw [completed_nil, List.drop_nil]
      exact ⟨⟨rfl, by rintro k r ⟨⟩, by rintro k ⟨⟩⟩, rfl⟩
  | append_singleton es e ih =>
      have hreceived : received (es ++ [e]) = received es ++ received [e] := by simp [received]
      have hbefore : received es <+: stream as := (List.prefix_append _ _).trans (hreceived ▸ hes)
      obtain ⟨hready, hbuffer⟩ := ih hbefore fun before hpre => h before (hpre.trans (List.prefix_append _ _))
      rw [run_snoc]
      cases e with
      | data chunk =>
          have hchunk : received (es ++ [.data chunk]) = received es ++ chunk := by simp [received]
          rw [hchunk] at hes ⊢
          exact hready.data hes hbuffer
      | read =>
          have hsame : received (es ++ [.read]) = received es := by simp [received]
          rw [hsame]
          exact ⟨hready.read (by rw [run_reads]; exact h es (List.prefix_refl _)), hbuffer⟩
      | timeout k =>
          have hsame : received (es ++ [.timeout k]) = received es := by simp [received]
          rw [hsame]
          refine ⟨hready.timeout k, ?_⟩
          rw [Conversation.step]
          split
          · exact (settle_reads _ _).2.2.trans hbuffer
          · exact hbuffer

theorem replies_in_step (as : List Answer) (es : List Event) (h : received es <+: stream as) :
    InStep as es ↔ Awaited as es := by
  constructor
  · intro hstep before hpre
    -- a read that is called too late has no result
    by_contra hlate
    have hsettles := hstep _ hpre (readCalls before) (by rw [readCalls_snoc]; simp)
    have hsame : received (before ++ [.read]) = received before := by simp [received]
    rw [hsame] at hsettles
    refine hsettles.2 (Nat.lt_of_not_le hlate) ?_
    rw [run_snoc]
    exact (fresh_run before).results _ (Nat.le_of_eq (run_reads before))
  · intro hawaited before hpre k hk
    have hreceived : received before <+: stream as := by
      obtain ⟨after, rfl⟩ := hpre
      refine (List.prefix_append _ (received after)).trans ?_
      simpa [received] using h
    obtain ⟨hready, -⟩ := ready_run hreceived fun b hb => hawaited b (hb.trans hpre)
    exact ⟨hready.own k, fun hcompleted => hready.settled k hcompleted (by rw [run_reads]; exact hk)⟩

def greeting : Answer := ⟨['2', '2', '0'], by decide, [], some ['x'], by simp⟩

def rejection : Answer := ⟨['5', '5', '0'], by decide, [['a']], some ['b'], by simp⟩

/-- The first read times out, and its reply arrives afterwards. -/
def late : List Event :=
  [.read, .data ['2', '2', '0', ' '], .timeout 0, .data ['x', '\r', '\n', '5', '5', '0', '-', 'a', '\r'], .read,
    .data ['\n', '5', '5', '0', ' ', 'b', '\r', '\n']]

theorem late_in_step : received late <+: stream [greeting, rejection] ∧ Awaited [greeting, rejection] late ∧
    InStep [greeting, rejection] late := by
  have hstream : received late <+: stream [greeting, rejection] := by decide
  have hawaited : Awaited [greeting, rejection] late := by
    have hall : ∀ before ∈ late.inits, before ++ [.read] ∈ late.inits →
        completed [greeting, rejection] (received before) ≤ readCalls before := by decide
    intro before hpre
    exact hall before ((List.mem_inits _ _).mpr ((List.prefix_append _ _).trans hpre)) ((List.mem_inits _ _).mpr hpre)
  exact ⟨hstream, hawaited, (replies_in_step [greeting, rejection] late hstream).2 hawaited⟩

/-- The greeting arrives before it is awaited, and the read takes the rejection for it. -/
theorem out_of_step : ¬ ∀ as es, received es <+: stream as → InStep as es := by
  intro h
  have hstep := h [greeting, rejection] [.data greeting.document, .read, .data rejection.document] (by decide) _
    (List.prefix_refl _) 0 (by decide)
  have hown := hstep.1 rejection.reply (by decide)
  exact absurd hown.2 (by decide)

end Corebase.SmtpReplies
