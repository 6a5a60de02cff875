import Corebase.Splitting

namespace Corebase.ErrorReports

open JsText SqlLex SqlGuard Console Confirm Splitting

def isSqlstate (code : Text) : Bool :=
  code.length = 5 && code.all fun c => isDigit c || ('A' ≤ c && c ≤ 'Z')

/-- An error response of PostgreSQL. Its code is a SQLSTATE. -/
structure Rejection where
  sqlstate : Text
  five : isSqlstate sqlstate = true
  message : Text
  /-- Code points from 1 in the text of the query. -/
  position : Option Nat
  detail : Option Text
  hint : Option Text
deriving DecidableEq

inductive Fault
  | rejected (r : Rejection)
  /-- A socket, the operating system or the driver, with whatever code. -/
  | system (code : Option Text) (message : Text)
deriving DecidableEq

def Fault.code : Fault → Option Text
  | .rejected r => some r.sqlstate
  | .system code _ => code

def Fault.message : Fault → Text
  | .rejected r => r.message
  | .system _ message => message

def Fault.position : Fault → Option Nat
  | .rejected r => r.position
  | .system _ _ => none

def Fault.detail : Fault → Option Text
  | .rejected r => r.detail
  | .system _ _ => none

def Fault.hint : Fault → Option Text
  | .rejected r => r.hint
  | .system _ _ => none

structure PgDetail where
  sqlstate : Text
  position : Option Nat
  detail : Option Text
  hint : Option Text

def pgDetail (e : Fault) : Option PgDetail :=
  match e.code with
  | some code => if isSqlstate code then some ⟨code, e.position, e.detail, e.hint⟩ else none
  | none => none

/-- How the connection, each query on it and the two audit rows of one request go. -/
structure World where
  connect : Option Fault
  answer : Nat → Text → Option Fault
  succeeded : Option Fault
  failed : Option Fault

/-- What the platform was doing when an error came. -/
inductive Place
  | connect
  | setting
  | statement (s : Statement)
  | audit
deriving DecidableEq

def Place.isQuery : Place → Bool
  | .setting => true
  | .statement _ => true
  | _ => false

variable {Param Claims : Type}

/-- The queries of a run, in the order in which they are sent. -/
def queries (req : RunRequest Param Claims) : List (Place × Text) :=
  let sent := (split req.sql).map fun s => (Place.statement s, executedSql (classify req.sql) s)
  if wraps req then
    [(.setting, lit "BEGIN"), (.setting, lit "SET LOCAL statement_timeout = " ++ (toString (timeout req)).toList)]
      ++ (if req.readOnly then [(.setting, lit "SET TRANSACTION READ ONLY")] else [])
      ++ [(.setting, lit "SET LOCAL ROLE \"" ++ DB_ROLE (requestRole req) ++ ['"'])]
      ++ (if (requestClaims req).isSome then
          [(.setting, lit "SELECT set_config('request.jwt.claims', $1, true)")] else [])
      ++ sent ++ [(.setting, lit "COMMIT")]
  else sent

def firstFault (answer : Nat → Text → Option Fault) : Nat → List (Place × Text) → Option (Place × Fault)
  | _, [] => none
  | i, (place, text) :: rest =>
      match answer i text with
      | some e => some (place, e)
      | none => firstFault answer (i + 1) rest

/-- The first error of a request that was let through. The row that records a success is part of it. -/
def thrown (world : World) (req : RunRequest Param Claims) : Option (Place × Fault) :=
  match world.connect with
  | some e => some (.connect, e)
  | none =>
      match firstFault world.answer 0 (queries req) with
      | some x => some x
      | none => world.succeeded.map fun e => (.audit, e)

inductive Reply
  | results
  | refused (status : Nat)
  | unreachable
  | sqlError (message : Text) (pg : PgDetail)
  | internal

def UNREACHABLE : List String := ["ECONNREFUSED", "ETIMEDOUT", "ENOTFOUND", "EHOSTUNREACH", "ENETUNREACH"]

/-- The catch of the route. Its own audit row may fail too. -/
def caught (world : World) (e : Fault) : Reply :=
  if world.failed.isSome then .internal
  else if e.code.any fun code => UNREACHABLE.any fun c => code = lit c then .unreachable
  else
    match pgDetail e with
    | some pg => .sqlError e.message pg
    | none => .internal

/-- The status of a refusal before any connection is opened. -/
def refusal (body : RunBody Param Claims) : Option Nat :=
  if body.accepted = false then some 400
  else if body.claims.isSome ∧ body.role ≠ some .authenticated then some 400
  else
    match checkRequest (classify body.sql) body.request with
    | .error e => some e.status
    | .ok () => none

def failure (world : World) (body : RunBody Param Claims) : Option (Place × Fault) :=
  if (refusal body).isSome then none else thrown world body.request

def query (world : World) (body : RunBody Param Claims) : Reply :=
  match refusal body with
  | some status => .refused status
  | none =>
      match thrown world body.request with
      | none => .results
      | some (_, e) => caught world e

/-- A range of the editor's text. -/
structure Selection where
  start : Nat
  stop : Nat

inductive Mode
  | run | explain | analyze

def Mode.lead : Mode → Text
  | .run => []
  | .explain => lit "explain (format text) "
  | .analyze => lit "explain (analyze, buffers, format text) "

def Mode.text : Mode → Text → Text
  | .run, raw => raw
  | mode, raw => mode.lead ++ stripSemicolon raw

def selected (buffer : Text) : Option Selection → Text
  | some sel => slice buffer sel.start sel.stop
  | none => buffer

/-- The text that the page sends, unless it is blank. -/
def asked (buffer : Text) (sel : Option Selection) (mode : Mode) : Option Text :=
  let raw := trim (selected buffer sel)
  if raw = [] then none else some (mode.text raw)

/-- Where the editor's underline begins, in UTF-16 units of the buffer. -/
def underline (buffer : Text) : Reply → Option Nat
  | .sqlError _ pg => pg.position.map fun p => min (p - 1) (length buffer)
  | _ => none

/-- The part of the text sent for a statement that is the statement's own. -/
def own (script : Script) (s : Statement) : Text :=
  match script.limitable with
  | some l => if l.sql = s.sql then stripSemicolon s.sql else s.sql
  | none => s.sql

def leadingBlanks (cs : Text) : Nat := (cs.takeWhile isSpace).length

/-- Where the buffer has the first character of the text that is sent, its lead aside. -/
def base (buffer : Text) (sel : Option Selection) : Nat :=
  (sel.map Selection.start).getD 0 + leadingBlanks (selected buffer sel)

/-- The index in the buffer of the character at an index of the text sent for a statement. -/
def source (buffer : Text) (sel : Option Selection) (mode : Mode) (sql : Text) (s : Statement) (k : Nat) : Option Nat :=
  if k < (own (classify sql) s).length ∧ mode.lead.length ≤ s.start + k then
    some (base buffer sel + (s.start + k - mode.lead.length))
  else none

theorem prefix_get {a b : Text} (h : a <+: b) {k : Nat} (hk : k < a.length) : b[k]? = a[k]? := by
  obtain ⟨t, rfl⟩ := h
  exact List.getElem?_append_left hk

theorem stripSemicolon_le (sql : Text) : stripSemicolon sql <+: sql := by
  unfold stripSemicolon
  split
  next cs h =>
    rw [← List.reverse_suffix, List.reverse_reverse]
    exact ((List.suffix_cons ';' cs).trans (h ▸ List.dropWhile_suffix isSpace))
  · exact List.prefix_rfl

theorem trim_le (cs : Text) : trim cs <+: cs.drop (leadingBlanks cs) := by
  rw [leadingBlanks, drop_takeWhile, ← List.reverse_suffix, trim, List.reverse_reverse]
  exact List.dropWhile_suffix isSpace

theorem own_le (script : Script) (s : Statement) :
    own script s <+: executedSql script s ∧ own script s <+: s.sql := by
  unfold own executedSql
  cases script.limitable with
  | none => exact ⟨List.prefix_rfl, List.prefix_rfl⟩
  | some l =>
      simp only
      split
      · exact ⟨by rw [withLimit, List.append_assoc]; exact List.prefix_append _ _, stripSemicolon_le s.sql⟩
      · exact ⟨List.prefix_rfl, List.prefix_rfl⟩

/-- The selection is a stretch of the buffer. -/
theorem selected_get {buffer : Text} {sel : Option Selection} {k : Nat} (h : k < (selected buffer sel).length) :
    buffer[(sel.map Selection.start).getD 0 + k]? = (selected buffer sel)[k]? := by
  cases sel with
  | none => simp [selected]
  | some sel =>
      simp only [selected, slice, List.length_drop, List.length_take, Option.map_some, Option.getD_some] at h ⊢
      rw [List.getElem?_drop, List.getElem?_take_of_lt (by omega)]

theorem asked_lead {buffer sql : Text} {sel : Option Selection} {mode : Mode} (h : asked buffer sel mode = some sql) :
    ∃ own, sql = mode.lead ++ own ∧ own <+: trim (selected buffer sel) := by
  simp only [asked] at h
  split at h
  · cases h
  · obtain rfl := Option.some.inj h
    cases mode with
    | run => exact ⟨_, rfl, List.prefix_rfl⟩
    | explain => exact ⟨_, rfl, stripSemicolon_le _⟩
    | analyze => exact ⟨_, rfl, stripSemicolon_le _⟩

/-- A character that the buffer has where it is traced to. -/
theorem source_char {buffer sql : Text} {sel : Option Selection} {mode : Mode} {s : Statement} {k j : Nat}
    (h : asked buffer sel mode = some sql) (hs : s ∈ split sql) (hj : source buffer sel mode sql s k = some j) :
    (executedSql (classify sql) s)[k]? = buffer[j]? ∧ j < buffer.length := by
  obtain ⟨pre, t, ts, rest, blanks, hplaced⟩ := split_placed hs
  obtain ⟨v, rfl, hv⟩ := asked_lead h
  unfold source at hj
  split at hj
  next hk =>
    obtain rfl := Option.some.inj hj
    obtain ⟨hsent, hown⟩ := own_le (classify (mode.lead ++ v)) s
    have hin : k < s.sql.length := Nat.lt_of_lt_of_le hk.1 hown.length_le
    have hscript : (mode.lead ++ v)[s.start + k]? = s.sql[k]? := by
      rw [← List.getElem?_drop, hplaced.text, List.getElem?_append_left hin]
    rw [List.getElem?_append_right hk.2] at hscript
    have hm : s.start + k - mode.lead.length < v.length := by
      by_contra hm
      rw [List.getElem?_eq_none (by omega), List.getElem?_eq_getElem hin] at hscript
      cases hscript
    generalize s.start + k - mode.lead.length = m at hscript hm ⊢
    have hlong := Nat.lt_of_lt_of_le hm (hv.trans (trim_le _)).length_le
    rw [List.length_drop] at hlong
    have hbuffer : buffer[base buffer sel + m]? = s.sql[k]? := by
      rw [base, Nat.add_assoc, selected_get (by omega), ← List.getElem?_drop,
        prefix_get (hv.trans (trim_le _)) hm, hscript]
    refine ⟨by rw [prefix_get hsent hk.1, ← prefix_get hown hk.1, hbuffer], ?_⟩
    by_contra hlen
    rw [List.getElem?_eq_none (by omega), List.getElem?_eq_getElem hin] at hbuffer
    cases hbuffer
  · cases hj

/-- The characters outside the basic plane. -/
def astral (cs : Text) : Nat := (cs.filter fun c => 0x10000 ≤ c.toNat).length

theorem length_astral (cs : Text) : length cs = cs.length + astral cs := by
  induction cs with
  | nil => rfl
  | cons c cs ih =>
      simp only [astral] at ih ⊢
      rw [length, List.map_cons, List.sum_cons, ← length, ih, List.length_cons, List.filter_cons]
      by_cases hc : c.toNat < 0x10000
      · rw [if_pos hc, if_neg (by simpa using hc)]
        omega
      · rw [if_neg hc, if_pos (by simpa using hc), List.length_cons]
        omega

theorem length_append (a b : Text) : length (a ++ b) = length a + length b := by
  simp [length]

section Reports

variable (buffer : Text) (sel : Option Selection) (mode : Mode) (world : World) (body : RunBody Param Claims)

/-- A report of SQL that the database rejected, and of nothing else, at the character that it names. -/
structure Faithful : Prop where
  status : (∃ message pg, query world body = .sqlError message pg) ↔
    ∃ place r, failure world body = some (place, .rejected r) ∧ place.isQuery = true
  place : ∀ s r p j, failure world body = some (.statement s, .rejected r) → r.position = some p →
    source buffer sel mode body.sql s (p - 1) = some j → underline buffer (query world body) = some (length (buffer.take j))

/-- When the reports are faithful. -/
structure Exact : Prop where
  written : ∀ place r, failure world body = some (place, .rejected r) → place.isQuery = true → world.failed = none
  foreign : ∀ place e, failure world body = some (place, e) → (place.isQuery = true → ∃ code m, e = .system code m) →
    e.code.any isSqlstate = true → world.failed ≠ none
  aligned : ∀ s r p j, failure world body = some (.statement s, .rejected r) → r.position = some p →
    source buffer sel mode body.sql s (p - 1) = some j → base buffer sel + s.start + astral (buffer.take j) = mode.lead.length

end Reports

theorem firstFault_mem {answer : Nat → Text → Option Fault} {i : Nat} {qs : List (Place × Text)} {place : Place}
    {e : Fault} (h : firstFault answer i qs = some (place, e)) : ∃ text, (place, text) ∈ qs := by
  induction qs generalizing i with
  | nil => cases h
  | cons q qs ih =>
      obtain ⟨here, text⟩ := q
      rw [firstFault] at h
      split at h
      · obtain ⟨rfl, -⟩ := Prod.mk.inj (Option.some.inj h)
        exact ⟨text, List.mem_cons_self⟩
      · obtain ⟨text', hmem⟩ := ih h
        exact ⟨text', List.mem_cons_of_mem _ hmem⟩

theorem statement_mem {req : RunRequest Param Claims} {s : Statement} {text : Text}
    (h : (Place.statement s, text) ∈ queries req) : s ∈ split req.sql := by
  have hsent : ∀ {t : Text}, (Place.statement s, t) ∈
      (split req.sql).map (fun s => (Place.statement s, executedSql (classify req.sql) s)) → s ∈ split req.sql := by
    intro t ht
    obtain ⟨s', hs', heq⟩ := List.mem_map.mp ht
    cases heq
    exact hs'
  simp only [queries] at h
  split at h
  · simp only [List.mem_append, List.mem_cons, List.not_mem_nil, Prod.mk.injEq, reduceCtorEq, false_and, or_false,
      false_or] at h
    rcases h with (h | h) | h
    · split at h <;> simp at h
    · split at h <;> simp at h
    · exact hsent h
  · exact hsent h

section Reply

variable {world : World} {body : RunBody Param Claims} {place : Place} {e : Fault}

theorem failure_query (h : failure world body = some (place, e)) : query world body = caught world e := by
  rw [failure] at h
  split at h
  · cases h
  next hr =>
    rw [query, Option.not_isSome_iff_eq_none.mp hr]
    simp only [h]

theorem failure_none (h : failure world body = none) (message : Text) (pg : PgDetail) :
    query world body ≠ .sqlError message pg := by
  rw [failure] at h
  rw [query]
  cases hr : refusal body with
  | some status => simp
  | none =>
      rw [hr, if_neg (by simp)] at h
      simp [h]

theorem failure_statement {s : Statement} (h : failure world body = some (.statement s, e)) : s ∈ split body.sql := by
  rw [failure] at h
  split at h
  · cases h
  · rw [thrown] at h
    split at h
    · cases h
    split at h
    next hf =>
      obtain rfl := Option.some.inj h
      obtain ⟨text, hmem⟩ := firstFault_mem hf
      exact statement_mem hmem
    · obtain ⟨f, -, heq⟩ := Option.map_eq_some_iff.mp h
      cases heq

theorem unreachable_long {code : Text} (h : isSqlstate code = true) : (UNREACHABLE.any fun c => code = lit c) = false := by
  rw [Bool.eq_false_iff]
  intro hany
  obtain ⟨c, hc, heq⟩ := List.any_eq_true.mp hany
  have hno : (UNREACHABLE.any fun c => isSqlstate (lit c)) = false := by decide
  obtain rfl := of_decide_eq_true heq
  rw [List.any_eq_true.mpr ⟨c, hc, h⟩] at hno
  cases hno

/-- The reply to an error is a report of SQL for a code of the right shape, whoever set it. -/
theorem caught_sql : (∃ message pg, caught world e = .sqlError message pg) ↔
    world.failed = none ∧ e.code.any isSqlstate = true := by
  rw [caught]
  cases hf : world.failed with
  | some f => simp
  | none =>
      simp only [Option.isSome_none, Bool.false_eq_true, if_false, true_and]
      cases hc : e.code with
      | none => simp [pgDetail, hc]
      | some code =>
          by_cases hs : isSqlstate code = true
          · simp [pgDetail, hc, hs, unreachable_long hs]
          · simp only [Option.any_some, pgDetail, hc, hs, Bool.false_eq_true, if_false, iff_false]
            split <;> simp

theorem caught_rejected {r : Rejection} (h : world.failed = none) :
    caught world (.rejected r) = .sqlError r.message ⟨r.sqlstate, r.position, r.detail, r.hint⟩ := by
  have hno := unreachable_long r.five
  simp [caught, h, Fault.code, hno, pgDetail, r.five, Fault.position, Fault.detail, Fault.hint, Fault.message]

end Reply

theorem status_iff (world : World) (body : RunBody Param Claims) :
    ((∃ message pg, query world body = .sqlError message pg) ↔
      ∃ place r, failure world body = some (place, .rejected r) ∧ place.isQuery = true) ↔
    (∀ place r, failure world body = some (place, .rejected r) → place.isQuery = true → world.failed = none) ∧
      ∀ place e, failure world body = some (place, e) → (place.isQuery = true → ∃ code m, e = .system code m) →
        e.code.any isSqlstate = true → world.failed ≠ none := by
  cases hf : failure world body with
  | none =>
      have hno := failure_none hf
      simp [hno]
  | some x =>
      obtain ⟨place, e⟩ := x
      rw [failure_query hf, caught_sql]
      cases e with
      | rejected r =>
          have hfive : (Fault.rejected r).code.any isSqlstate = true := r.five
          cases hq : place.isQuery with
          | true => simp [hfive, hq]
          | false => simp [hfive, hq]
      | system code m =>
          simp only [Option.some.injEq, Prod.mk.injEq, reduceCtorEq, and_false, false_and, exists_false, iff_false,
            not_and, false_implies, implies_true, true_and, and_imp]
          constructor
          · rintro hno place' e rfl rfl - hcode hnone
            exact hno hnone hcode
          · intro hno hnone hcode
            exact hno place _ rfl rfl (fun _ => ⟨code, m, rfl⟩) hcode hnone

theorem underline_iff {buffer sql : Text} {sel : Option Selection} {mode : Mode} {s : Statement} {p j : Nat}
    (h : asked buffer sel mode = some sql) (hs : s ∈ split sql) (hj : source buffer sel mode sql s (p - 1) = some j) :
    min (p - 1) (length buffer) = length (buffer.take j) ↔
      base buffer sel + s.start + astral (buffer.take j) = mode.lead.length := by
  have hin := (source_char h hs hj).2
  have hlen : length buffer = length (buffer.take j) + length (buffer.drop j) := by
    rw [← length_append, List.take_append_drop]
  have htail := length_astral (buffer.drop j)
  have htake := length_astral (buffer.take j)
  rw [List.length_drop] at htail
  rw [List.length_take] at htake
  unfold source at hj
  split at hj
  next hk =>
    have hsum := Option.some.inj hj
    omega
  · cases hj

/-- The reports are faithful exactly when nothing else fails with a code of that shape and the statement stands where
its first character is the buffer's first. -/
theorem reports_faithful {buffer : Text} {sel : Option Selection} {mode : Mode} {body : RunBody Param Claims}
    (world : World) (h : asked buffer sel mode = some body.sql) :
    Faithful buffer sel mode world body ↔ Exact buffer sel mode world body := by
  have hplace : ∀ s r p j, world.failed = none → failure world body = some (.statement s, .rejected r) →
      r.position = some p → source buffer sel mode body.sql s (p - 1) = some j →
      (underline buffer (query world body) = some (length (buffer.take j)) ↔
        base buffer sel + s.start + astral (buffer.take j) = mode.lead.length) := by
    intro s r p j hnone hf hp hj
    rw [failure_query hf, caught_rejected hnone, ← underline_iff h (failure_statement hf) hj]
    simp [underline, hp]
  constructor
  · intro hfaith
    obtain ⟨hwritten, hforeign⟩ := (status_iff world body).mp hfaith.status
    exact ⟨hwritten, hforeign, fun s r p j hf hp hj =>
      (hplace s r p j (hwritten _ r hf rfl) hf hp hj).mp (hfaith.place s r p j hf hp hj)⟩
  · intro hexact
    exact ⟨(status_iff world body).mpr ⟨hexact.written, hexact.foreign⟩, fun s r p j hf hp hj =>
      (hplace s r p j (hexact.written _ r hf rfl) hf hp hj).mpr (hexact.aligned s r p j hf hp hj)⟩

def bodyOf (sql : Text) : RunBody Unit Unit := ⟨sql, none, none, none, none, none, none, none⟩

def typo : Rejection := ⟨lit "42601", by decide, lit "syntax error at or near \"SELEC\"", some 1, none, none⟩

/-- The first statement after the three settings is rejected. -/
def mistyped : World := ⟨none, fun i _ => if i = 3 then some (.rejected typo) else none, none, none⟩

/-- The connection breaks under the first statement. -/
def broken : World := ⟨none, fun i _ => if i = 3 then some (.system (some (lit "EPIPE")) (lit "write EPIPE")) else none, none, none⟩

def typoStatement : Statement := ⟨lit "SELEC 1", lex (lit "SELEC 1"), 0, 7⟩

theorem typo_failure : failure mistyped (bodyOf (lit "SELEC 1")) = some (.statement typoStatement, .rejected typo) := by
  decide

theorem faithful_plain : Faithful (lit "SELEC 1") none .run mistyped (bodyOf (lit "SELEC 1")) := by
  refine (reports_faithful mistyped (by decide)).mpr ⟨fun _ _ _ _ => rfl, ?_, ?_⟩
  · intro place e hf hq
    rw [typo_failure] at hf
    cases hf
    obtain ⟨code, m, heq⟩ := hq rfl
    cases heq
  · intro s r p j hf hp hj
    rw [typo_failure] at hf
    cases hf
    obtain rfl : 1 = p := Option.some.inj hp
    have hzero : source (lit "SELEC 1") none .run (bodyOf (lit "SELEC 1")).sql typoStatement 0 = some 0 := by decide
    obtain rfl : 0 = j := Option.some.inj (hzero.symm.trans hj)
    decide

/-- A line break before the statement moves the underline, and a broken pipe passes for an error of the SQL. -/
theorem report_unfaithful :
    (asked (lit "\nSELEC 1") none .run = some (bodyOf (lit "SELEC 1")).sql ∧
      ¬ Faithful (lit "\nSELEC 1") none .run mistyped (bodyOf (lit "SELEC 1"))) ∧
    asked (lit "SELECT 1") none .run = some (bodyOf (lit "SELECT 1")).sql ∧
      ¬ Faithful (lit "SELECT 1") none .run broken (bodyOf (lit "SELECT 1")) := by
  refine ⟨⟨by decide, ?_⟩, by decide, ?_⟩
  · intro h
    have hj : source (lit "\nSELEC 1") none .run (bodyOf (lit "SELEC 1")).sql typoStatement 0 = some 1 := by decide
    have hplace := h.place typoStatement typo 1 1 typo_failure rfl hj
    rw [failure_query typo_failure] at hplace
    exact absurd hplace (by decide)
  · intro h
    have hf : failure broken (bodyOf (lit "SELECT 1")) =
        some (.statement ⟨lit "SELECT 1", lex (lit "SELECT 1"), 0, 8⟩, .system (some (lit "EPIPE")) (lit "write EPIPE")) := by
      decide
    have hsql : ∃ message pg, query broken (bodyOf (lit "SELECT 1")) = .sqlError message pg := by
      rw [failure_query hf, caught_sql]
      exact ⟨rfl, by decide⟩
    obtain ⟨place, r, hr, -⟩ := h.status.mp hsql
    rw [hf] at hr
    cases hr

end Corebase.ErrorReports
