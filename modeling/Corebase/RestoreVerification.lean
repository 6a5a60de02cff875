import Mathlib.Data.Bool.AllAny
import Corebase.JsText
import Mathlib.Data.List.Sort

namespace Corebase.RestoreVerification

open JsText

/-- A row of the live catalogue. -/
structure PgClass where
  nspname : Text
  relname : Text
  relkind : Char
  reltuples : Int
deriving DecidableEq

def pg_catalog : Text := "pg_catalog".toList

def information_schema : Text := "information_schema".toList

def isSeen (c : PgClass) : Bool :=
  c.relkind = 'r' && c.nspname ∉ [pg_catalog, information_schema] && 0 < c.reltuples

/-- What the query of `expectationFrom` gives. The order of the catalogue decides between equals. -/
def seen (live : List PgClass) : List PgClass :=
  ((live.filter isSeen).mergeSort fun a b => b.reltuples ≤ a.reltuples).take 5

/-- There is no reply when the live project cannot be asked. -/
def expectationFrom (reply : Option (List PgClass)) : Option (List Text) :=
  reply.map fun live => (seen live).map (·.relname)

structure Exec where
  stdout : Text
  stderr : Text
  exitCode : Nat

inductive Kind
  | table
  /-- A view or anything else that is not a table and can be counted. -/
  | countable
  /-- An index, or a view that fails. -/
  | uncountable
deriving DecidableEq

/-- The database `postgres` of the restored cluster: what there is, and how many rows it has. -/
structure Copy where
  kind : Text → Text → Option Kind
  rows : Text → Text → Nat

/-- The default search path of the user `postgres`. -/
def searchPath : List Text := [pg_catalog, "postgres".toList, "public".toList]

/-- The schema in which an unqualified name is found. -/
def Copy.resolve (copy : Copy) (name : Text) : Option Text :=
  searchPath.find? fun schema => (copy.kind schema name).isSome

/-- What counting the rows of an unqualified name gives, or none for an error. -/
def Copy.count (copy : Copy) (name : Text) : Option Nat :=
  (copy.resolve name).bind fun schema =>
    if copy.kind schema name = some .uncountable then none else some (copy.rows schema name)

/-- The rest of a quoted identifier that ends the text. -/
def unquote : Text → Option Text
  | [] => none
  | ['"'] => some []
  | '"' :: '"' :: cs => (unquote cs).map ('"' :: ·)
  | c :: cs => if c = '"' then none else (unquote cs).map (c :: ·)

def countFrom : Text := "select count(*) from \"".toList

/-- What psql makes of a count over one quoted name. -/
def Copy.psql (copy : Copy) (sql : Text) : Exec :=
  let answer := if countFrom.isPrefixOf sql then (unquote (sql.drop countFrom.length)).bind copy.count else none
  match answer with
  | some n => ⟨Nat.toDigits 10 n ++ ['\n'], [], 0⟩
  | none => ⟨[], "ERROR".toList, 1⟩

def escape (name : Text) : Text := name.flatMap fun c => if c = '"' then ['"', '"'] else [c]

def countQuery (name : Text) : Text := countFrom ++ (escape name ++ ['"'])

/-- The conversion of what psql prints for a count, which is nothing or digits. -/
def Number (s : Text) : Option Nat := if s.all isDigit then some (Nat.ofDigitChars 10 s 0) else none

inductive FailedCheck
  | restore
  | recovery
  | checksums
  | amcheck
  | sanity
deriving DecidableEq

structure VerifyOutcome where
  passed : Bool
  backupLabel : Option Text
  failedCheck : Option FailedCheck
  reason : Option Text
deriving DecidableEq

/-- What the scratch container answers besides counting. An error is what the call throws. -/
structure Scratch where
  repo : Bool
  /-- The labels of the backups, once the container runs and has its configuration. -/
  labels : Except Text (List Text)
  restored : Except Text Unit
  started : Except Text Exec
  /-- The answers to `select pg_is_in_recovery()` until the deadline. -/
  polled : List (Except Text Exec)
  checksums : Except Text Exec
  amcheck : Except Text Exec
  /-- What is thrown instead of running a count. -/
  broken : Text → Option Text
  sized : Except Text Exec

def lastN (n : Nat) {α : Type} (l : List α) : List α := l.drop (l.length - n)

def pgbackrestFailure (output : Text) (limit : Nat) : Text :=
  let lines := ((output.splitOn '\n').map trim).filter (· ≠ [])
  let errors := lines.filter fun l => ["ERROR".toList, "WARN".toList, "HINT".toList].any fun w => (indexOf w l).isSome
  lastN limit (join " | ".toList (if errors ≠ [] then errors else lastN 4 lines))

/-- Whether an answer was `f`, and the last one. -/
def recovery (lastState : Text) : List (Except Text Exec) → Except Text (Bool × Text)
  | [] => .ok (false, lastState)
  | .error e :: _ => .error e
  | .ok r :: rs =>
    let lastState := trim (r.stdout ++ r.stderr)
    if lastState = ['f'] then .ok (true, lastState) else recovery lastState rs

/-- The tables that count nothing, in their order. -/
def emptiesOf (x : Scratch) (copy : Copy) : List Text → Except Text (List Text)
  | [] => .ok []
  | table :: tables =>
    match x.broken (countQuery table) with
    | some e => .error e
    | none => (emptiesOf x copy tables).map fun rest =>
      match Number (trim (copy.psql (countQuery table)).stdout) with
      | none => table :: rest
      | some n => if n = 0 then table :: rest else rest

def failed (label : Option Text) (check : FailedCheck) (reason : Text) : VerifyOutcome :=
  ⟨false, label, some check, some reason⟩

def orElse (a b : Text) : Text := if a = [] then b else a

/-- No label counts as none. -/
def latest (labels : List Text) : Option Text := labels.getLast?.filter (· ≠ [])

/-- The checks. An error is caught by `verify`. -/
def checks (x : Scratch) (copy : Copy) (expect : Option (List Text)) : Except Text VerifyOutcome := do
  let labels ← x.labels
  match latest labels with
  | none => return failed none .restore "the repo holds no backups at all".toList
  | some label =>
  match x.restored with
  | .error e => return failed (some label) .restore e
  | .ok () =>
  let startPg ← x.started
  let (recovered, lastState) ← recovery [] x.polled
  if !recovered then
    return failed (some label) .recovery ("the restored cluster never left recovery (last answer: ".toList ++
      orElse (slice lastState 0 200) "none".toList ++ "; start output: ".toList ++
      slice (join " | ".toList (lastN 3 (startPg.stdout.splitOn '\n'))) 0 300 ++ [')'])
  let checksums ← x.checksums
  if trim checksums.stdout ≠ "on".toList then
    return failed (some label) .checksums ("the restored cluster has data checksums ".toList ++
      orElse (trim checksums.stdout) "unknown".toList ++ ", so corruption in it cannot be detected at all".toList)
  let amcheck ← x.amcheck
  if amcheck.exitCode ≠ 0 then
    return failed (some label) .amcheck ("pg_amcheck reported corruption: ".toList ++
      slice (join " | ".toList (lastN 4 (((orElse amcheck.stdout amcheck.stderr).splitOn '\n').filter (· ≠ [])))) 0 500)
  let empties ← emptiesOf x copy (expect.getD [])
  if empties ≠ [] then
    return failed (some label) .sanity
      ("tables the live project reports as non-empty came back empty in the restore: ".toList ++
        join ", ".toList empties)
  let _ ← x.sized
  return ⟨true, some label, none, none⟩

def verify (x : Scratch) (copy : Copy) (expect : Option (List Text)) : VerifyOutcome :=
  if !x.repo then failed none .restore "no backup repo configured, so nothing can be verified".toList
  else match checks x copy expect with
    | .ok outcome => outcome
    | .error e => failed none .restore (pgbackrestFailure e 500)

/-- The backup restores to a consistent cluster with checksums, `pg_amcheck` is clean, and the container answers. -/
structure Sound (x : Scratch) (label : Text) : Prop where
  repo : x.repo = true
  labels : ∃ labels, x.labels = .ok labels ∧ latest labels = some label
  restored : x.restored = .ok ()
  started : ∃ r, x.started = .ok r
  recovered : ∃ lastState, recovery [] x.polled = .ok (true, lastState)
  checksums : ∃ r, x.checksums = .ok r ∧ trim r.stdout = "on".toList
  amcheck : ∃ r, x.amcheck = .ok r ∧ r.exitCode = 0
  broken : ∀ sql, x.broken sql = none
  sized : ∃ r, x.sized = .ok r

/-- The table is in the copy. -/
def Copy.Has (copy : Copy) (c : PgClass) : Prop := copy.kind c.nspname c.relname = some .table

/-- It holds rows there. -/
def Copy.Holds (copy : Copy) (c : PgClass) : Prop := copy.Has c ∧ 0 < copy.rows c.nspname c.relname

/-- The verdict is the one that the tables seen with rows call for. -/
def Right (x : Scratch) (reply : Option (List PgClass)) (copy : Copy) : Prop :=
  ((∀ c ∈ seen (reply.getD []), copy.Holds c) → (verify x copy (expectationFrom reply)).passed = true) ∧
  ((∃ c ∈ seen (reply.getD []), ¬copy.Holds c) → (verify x copy (expectationFrom reply)).passed = false ∧
    (verify x copy (expectationFrom reply)).failedCheck = some .sanity)

/-- The name finds the table itself. -/
def Copy.Finds (copy : Copy) (c : PgClass) : Prop := copy.resolve c.relname = some c.nspname

theorem unquote_escape (name : Text) : unquote (escape name ++ ['"']) = some name := by
  induction name with
  | nil => rfl
  | cons c cs ih =>
      by_cases hc : c = '"'
      · subst hc
        have h := congrArg (Option.map ('"' :: ·)) ih
        simpa [escape, unquote] using h
      · have h := congrArg (Option.map (c :: ·)) ih
        simp only [escape, List.flatMap_cons, hc, if_false] at h ⊢
        rw [List.singleton_append, List.cons_append, unquote]
        · rw [if_neg hc]; exact h
        · rintro rfl; exact absurd rfl hc
        · intro d hd _; exact absurd hd hc

theorem psql_count (copy : Copy) (name : Text) : copy.psql (countQuery name) =
    match copy.count name with
    | some n => ⟨Nat.toDigits 10 n ++ ['\n'], [], 0⟩
    | none => ⟨[], "ERROR".toList, 1⟩ := by
  have hpre : countFrom.isPrefixOf (countQuery name) = true :=
    List.isPrefixOf_iff_prefix.mpr (List.prefix_append _ _)
  have hdrop : (countQuery name).drop countFrom.length = escape name ++ ['"'] := List.drop_left
  simp only [Copy.psql, hpre, if_true, hdrop, unquote_escape, Option.bind_some]

theorem digit_solid {c : Char} (h : isDigit c = true) : isSpace c = false := by
  rw [Bool.eq_false_iff]
  intro hs
  simp only [isDigit, Bool.and_eq_true, decide_eq_true_eq] at h
  simp only [isSpace, Bool.or_eq_true, Bool.and_eq_true, decide_eq_true_eq] at hs
  rcases hs with hs | hs
  · have hall : ∀ d ∈ ['\t', '\n', '\x0b', '\x0c', '\r', ' ', '\u00a0', '\u1680', '\u2028', '\u2029', '\u202f',
        '\u205f', '\u3000', '\ufeff'], ¬('0' ≤ d ∧ d ≤ '9') := List.all_iff_forall_prop.mp (by decide)
    exact hall c hs h
  · have hlow : '\u2000'.toNat ≤ c.toNat := hs.1
    have hhigh : c.toNat ≤ '9'.toNat := h.2
    exact absurd (le_trans hlow hhigh) (by decide)

theorem trim_digits (n : Nat) : trim (Nat.toDigits 10 n ++ ['\n']) = Nat.toDigits 10 n := by
  have hall : ∀ c ∈ Nat.toDigits 10 n, isSpace c = false := fun c hc => digit_solid (digit_plain hc)
  have hstart : ∀ {ds rest : Text}, ds ≠ [] → (∀ c ∈ ds, isSpace c = false) →
      (ds ++ rest).dropWhile isSpace = ds ++ rest := by
    intro ds rest hne hds
    obtain ⟨d, ds', rfl⟩ := List.exists_cons_of_ne_nil hne
    simp [hds d (by simp)]
  have hne : (Nat.toDigits 10 n).reverse ≠ [] := by simp
  have hback : (Nat.toDigits 10 n).reverse.dropWhile isSpace = (Nat.toDigits 10 n).reverse := by
    simpa using @hstart _ [] hne fun c hc => hall c (List.mem_reverse.mp hc)
  rw [trim, trimStart, trimStart, hstart Nat.toDigits_ne_nil hall, List.reverse_append]
  have hline : ['\n'].reverse ++ (Nat.toDigits 10 n).reverse = '\n' :: (Nat.toDigits 10 n).reverse := rfl
  rw [hline, List.dropWhile_cons_of_pos (by decide), hback, List.reverse_reverse]

theorem number_count (n : Nat) : Number (trim (Nat.toDigits 10 n ++ ['\n'])) = some n := by
  have hall : (Nat.toDigits 10 n).all isDigit = true := List.all_eq_true.mpr fun c hc => digit_plain hc
  rw [trim_digits, Number, if_pos hall, Nat.ofDigitChars_ten_toDigits]

def emptyTables (copy : Copy) (names : List Text) : List Text := names.filter fun t => (copy.count t).all (· = 0)

theorem emptiesOf_answered {x : Scratch} (h : ∀ sql, x.broken sql = none) (copy : Copy) (names : List Text) :
    emptiesOf x copy names = .ok (emptyTables copy names) := by
  induction names with
  | nil => rfl
  | cons t ts ih =>
      simp only [emptiesOf, h, ih, Except.map, psql_count, emptyTables, List.filter_cons]
      cases copy.count t with
      | none => rfl
      | some n =>
          simp only [number_count, Option.all_some, decide_eq_true_eq]

theorem verify_sound {x : Scratch} {label : Text} (h : Sound x label) (copy : Copy) (expect : Option (List Text)) :
    verify x copy expect = if emptyTables copy (expect.getD []) = [] then ⟨true, some label, none, none⟩
      else failed (some label) .sanity
        ("tables the live project reports as non-empty came back empty in the restore: ".toList ++
          join ", ".toList (emptyTables copy (expect.getD []))) := by
  obtain ⟨labels, hlabels, hlabel⟩ := h.labels
  obtain ⟨startPg, hstart⟩ := h.started
  obtain ⟨lastState, hrecovered⟩ := h.recovered
  obtain ⟨sums, hsums, hon⟩ := h.checksums
  obtain ⟨amcheck, hamcheck, hclean⟩ := h.amcheck
  obtain ⟨size, hsize⟩ := h.sized
  have hcounts := emptiesOf_answered h.broken copy (expect.getD [])
  have hchecks : checks x copy expect = .ok (if emptyTables copy (expect.getD []) = [] then ⟨true, some label, none, none⟩
      else failed (some label) .sanity
        ("tables the live project reports as non-empty came back empty in the restore: ".toList ++
          join ", ".toList (emptyTables copy (expect.getD [])))) := by
    simp only [checks, hlabels, hlabel, h.restored, hstart, hrecovered, hsums, hon, hamcheck, hclean, hcounts, hsize,
      bind, Except.bind, pure, Except.pure, -String.reduceToList]
    split_ifs <;> simp_all [-String.reduceToList]
  simp only [verify, h.repo, hchecks, Bool.not_true, Bool.false_eq_true, if_false]

/-- Some rows are counted under the name. -/
def Copy.Counts (copy : Copy) (c : PgClass) : Prop := ∃ n, copy.count c.relname = some n ∧ 0 < n

theorem emptyTables_nil (copy : Copy) (cs : List PgClass) :
    emptyTables copy (cs.map (·.relname)) = [] ↔ ∀ c ∈ cs, copy.Counts c := by
  simp only [emptyTables, List.filter_eq_nil_iff, List.forall_mem_map]
  refine forall₂_congr fun c _ => ?_
  cases h : copy.count c.relname <;> simp [Copy.Counts, h, Nat.pos_iff_ne_zero]

theorem right_iff {x : Scratch} {label : Text} (h : Sound x label) (reply : Option (List PgClass)) (copy : Copy) :
    Right x reply copy ↔
      ((∀ c ∈ seen (reply.getD []), copy.Holds c) ↔ ∀ c ∈ seen (reply.getD []), copy.Counts c) := by
  have hnames : (expectationFrom reply).getD [] = (seen (reply.getD [])).map (·.relname) := by
    cases reply with
    | none => simp [expectationFrom, seen]
    | some live => rfl
  have hverdict := verify_sound h copy (expectationFrom reply)
  rw [hnames] at hverdict
  have hcounts := emptyTables_nil copy (seen (reply.getD []))
  have hsome : (∃ c ∈ seen (reply.getD []), ¬copy.Holds c) ↔ ¬∀ c ∈ seen (reply.getD []), copy.Holds c := by
    simp only [not_forall, exists_prop]
  unfold Right
  rw [hverdict, hsome]
  generalize (∀ c ∈ seen (reply.getD []), copy.Holds c) = holds
  by_cases hempty : emptyTables copy ((seen (reply.getD [])).map (·.relname)) = []
  · rw [if_pos hempty, iff_true_intro (hcounts.1 hempty)]
    simp
  · rw [if_neg hempty, iff_false_intro (mt hcounts.2 hempty)]
    simp [failed]

/-- The name finds something whose rows can be counted. -/
def Copy.Countable (copy : Copy) (c : PgClass) : Prop :=
  ∃ schema, copy.resolve c.relname = some schema ∧ copy.kind schema c.relname ≠ some .uncountable

theorem counts_iff {copy : Copy} {c : PgClass} : copy.Counts c ↔
    ∃ schema, copy.resolve c.relname = some schema ∧ copy.kind schema c.relname ≠ some .uncountable ∧
      0 < copy.rows schema c.relname := by
  unfold Copy.Counts Copy.count
  cases copy.resolve c.relname with
  | none => simp
  | some schema => by_cases h : copy.kind schema c.relname = some .uncountable <;> simp [h]

theorem counts_found (copy : Copy) {c : PgClass} (hhas : copy.Has c) (hfinds : copy.Finds c) :
    copy.Counts c ↔ copy.Holds c := by
  rw [counts_iff]
  constructor
  · rintro ⟨schema, hschema, -, hrows⟩
    obtain rfl : schema = c.nspname := Option.some.inj (hschema.symm.trans hfinds)
    exact ⟨hhas, hrows⟩
  · rintro ⟨-, hrows⟩
    refine ⟨c.nspname, hfinds, ?_, hrows⟩
    rw [hhas]
    decide

/-- All tables are in the copy and found by their names, or else one is not in the copy and one is not counted. -/
def Faithful (cs : List PgClass) (copy : Copy) : Prop :=
  (∀ c ∈ cs, copy.Has c ∧ copy.Finds c) ∨ (∃ c ∈ cs, ¬copy.Has c) ∧ ∃ c ∈ cs, ¬copy.Countable c

theorem faithful_of_right {cs : List PgClass} {copy : Copy}
    (h : ∀ rows, (∀ c ∈ cs, Copy.Holds { copy with rows := rows } c) ↔
      ∀ c ∈ cs, Copy.Counts { copy with rows := rows } c) : Faithful cs copy := by
  -- one row everywhere: the tables that hold rows are those in the copy
  have hone : (∀ c ∈ cs, copy.Has c) ↔ ∀ c ∈ cs, copy.Countable c := by
    have hrows := h fun _ _ => 1
    simp only [counts_iff, Copy.Holds, Nat.one_pos, and_true] at hrows
    exact hrows
  by_cases hall : ∀ c ∈ cs, copy.Has c
  · refine .inl fun c hc => ⟨hall c hc, ?_⟩
    -- no row in this table alone
    have hrows := h fun schema name => if schema = c.nspname ∧ name = c.relname then 0 else 1
    have hempty : ¬∀ d ∈ cs, Copy.Holds
        { copy with rows := fun schema name => if schema = c.nspname ∧ name = c.relname then 0 else 1 } d := by
      intro hd
      have hpos := (hd c hc).2
      simp at hpos
    rw [hrows] at hempty
    simp only [not_forall, exists_prop] at hempty
    obtain ⟨d, hd, hnone⟩ := hempty
    obtain ⟨schema, hschema, hkind⟩ := hone.1 hall d hd
    by_cases hsame : schema = c.nspname ∧ d.relname = c.relname
    · rw [Copy.Finds, ← hsame.1, ← hsame.2]
      exact hschema
    · rw [counts_iff] at hnone
      exact absurd ⟨schema, hschema, hkind, by simp [hsame]⟩ hnone
  · refine .inr ⟨by simpa using hall, ?_⟩
    rw [hone] at hall
    simpa using hall

theorem verdict_right (x : Scratch) (label : Text) (h : Sound x label) (reply : Option (List PgClass)) (copy : Copy) :
    (Right x reply copy ↔
      ((∀ c ∈ seen (reply.getD []), copy.Holds c) ↔ ∀ c ∈ seen (reply.getD []), copy.Counts c)) ∧
    ((∀ rows, Right x reply { copy with rows := rows }) ↔ Faithful (seen (reply.getD [])) copy) := by
  refine ⟨right_iff h reply copy, ?_⟩
  simp only [right_iff h]
  refine ⟨faithful_of_right, ?_⟩
  rintro (hall | ⟨⟨c, hc, hmissing⟩, d, hd, hlost⟩) rows
  · refine forall₂_congr fun c hc => ?_
    obtain ⟨hhas, hfinds⟩ := hall c hc
    exact (counts_found { copy with rows := rows } hhas hfinds).symm
  · refine iff_of_false (fun hholds => hmissing (hholds c hc).1) fun hcounts => hlost ?_
    obtain ⟨schema, hschema, hkind, -⟩ := counts_iff.1 (hcounts d hd)
    exact ⟨schema, hschema, hkind⟩

/-- A container in which everything up to the counts is well. -/
def healthy : Scratch where
  repo := true
  labels := .ok [['b']]
  restored := .ok ()
  started := .ok ⟨[], [], 0⟩
  polled := [.ok ⟨['t'], [], 0⟩, .ok ⟨['f', '\n'], [], 0⟩]
  checksums := .ok ⟨"on\n".toList, [], 0⟩
  amcheck := .ok ⟨[], [], 0⟩
  broken := fun _ => none
  sized := .ok ⟨['9', '\n'], [], 0⟩

theorem healthy_sound : Sound healthy ['b'] where
  repo := rfl
  labels := ⟨[['b']], rfl, by decide⟩
  restored := rfl
  started := ⟨_, rfl⟩
  recovered := ⟨['f'], by rfl⟩
  checksums := ⟨_, rfl, by decide⟩
  amcheck := ⟨_, rfl, rfl⟩
  broken := fun _ => rfl
  sized := ⟨_, rfl⟩

def publicTable : PgClass := ⟨"public".toList, ['t'], 'r', 3⟩

def appTable : PgClass := ⟨['a'], ['t'], 'r', 3⟩

/-- A copy with one table of three rows. -/
def copyOf (c : PgClass) : Copy where
  kind := fun schema name => if schema = c.nspname ∧ name = c.relname then some .table else none
  rows := fun _ _ => 3

theorem public_verdict : Sound healthy ['b'] ∧ Faithful (seen [publicTable]) (copyOf publicTable) ∧
    ∀ rows, Right healthy (some [publicTable]) { copyOf publicTable with rows := rows } := by
  have h : Faithful (seen [publicTable]) (copyOf publicTable) := by
    refine .inl ?_
    have hseen : seen [publicTable] = [publicTable] := by decide +kernel
    rw [hseen, List.forall_mem_singleton]
    exact ⟨by unfold Copy.Has; decide, by unfold Copy.Finds; decide⟩
  exact ⟨healthy_sound, h, (verdict_right healthy ['b'] healthy_sound (some [publicTable]) (copyOf publicTable)).2.2 h⟩

/-- The copy has all that the live project has, in a schema off the search path. -/
theorem verdict_wrong : ¬ ∀ x label reply copy, Sound x label → Right x reply copy := by
  intro h
  have hright := (h healthy ['b'] (some [appTable]) (copyOf appTable) healthy_sound).1
  have hseen : seen [appTable] = [appTable] := by decide +kernel
  have hholds : ∀ c ∈ seen [appTable], (copyOf appTable).Holds c := by
    rw [hseen, List.forall_mem_singleton]
    exact ⟨by unfold Copy.Has; decide, by decide⟩
  exact absurd (hright hholds) (by decide +kernel)

end Corebase.RestoreVerification
