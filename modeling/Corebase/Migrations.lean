import Corebase.Json
import Mathlib.Data.List.Sort

namespace Corebase.Migrations

open Json

structure MigrationFile where
  filename : Str
  version : Str
  name : Str
  sql : Str
  checksum : Str
deriving DecidableEq

inductive MigrationError
  | misnamed (filename : Str)
  | sharedTimestamp (version : Str)
  | changed (filename recorded checksum : Str)
  | missing (versions : List Str)
  | failed (filename cause : Str)
deriving DecidableEq

def MigrationError.message : MigrationError → Str
  | .misnamed filename => str "Migration \"".toList ++ filename
      ++ str "\" is not named <14-digit-timestamp>_<snake_case>.sql — rename it so ordering stays unambiguous.".toList
  | .sharedTimestamp version => str "Two migrations share the timestamp ".toList ++ version ++ str ".".toList
  | .changed filename recorded checksum => str "Migration ".toList ++ filename
      ++ str " was already applied but its contents changed (recorded ".toList ++ recorded.take 12
      ++ str "…, file ".toList ++ checksum.take 12
      ++ str "…). Applied migrations are immutable — add a new migration instead.".toList
  | .missing versions => str "The database has migrations this checkout does not: ".toList
      ++ (versions.intersperse (str ", ".toList)).flatten
      ++ str ". You are probably pointed at a newer environment than your code.".toList
  | .failed filename cause =>
      str "Migration ".toList ++ filename ++ str " failed and was rolled back: ".toList ++ cause

def isDigit (u : Nat) : Bool := 48 ≤ u && u ≤ 57

def isNameUnit (u : Nat) : Bool := (97 ≤ u && u ≤ 122) || isDigit u || u = '_'.toNat

def suffix : Str := str ".sql".toList

/-- A name of fourteen digits, an underscore and a name in snake case, and its version and that name. -/
def parseFilename (filename : Str) : Option (Str × Str) :=
  let version := filename.take 14
  let rest := filename.drop 14
  let name := (rest.drop 1).take (rest.length - 1 - suffix.length)
  if version.length = 14 ∧ version.all isDigit ∧ rest = '_'.toNat :: name ++ suffix ∧ name ≠ [] ∧ name.all isNameUnit then
    some (version, name)
  else none

def normalise : Str → Str
  | 13 :: 10 :: units => 10 :: normalise units
  | u :: units => u :: normalise units
  | [] => []

/-- A file of the directory. -/
structure Entry where
  filename : Str
  sql : Str
deriving DecidableEq

section Load

variable (sha256 : Str → Str)

def checksum (sql : Str) : Str := sha256 (normalise sql)

def migrationOf (entry : Entry) : Except MigrationError MigrationFile :=
  match parseFilename entry.filename with
  | none => .error (.misnamed entry.filename)
  | some (version, name) => .ok ⟨entry.filename, version, name, entry.sql, checksum sha256 entry.sql⟩

/-- The first version that has come before. -/
def shared : List Str → List Str → Option Str
  | _, [] => none
  | seen, v :: vs => if v ∈ seen then some v else shared (v :: seen) vs

def loadMigrations (dir : List Entry) : Except MigrationError (List MigrationFile) := do
  let entries := (dir.filter fun e => suffix.isSuffixOf e.filename).insertionSort fun a b => a.filename ≤ b.filename
  let out ← entries.mapM (migrationOf sha256)
  match shared [] (out.map (·.version)) with
  | some v => throw (.sharedTimestamp v)
  | none => return out

end Load

/-! The database -/

/-- A statement of a script: what ends or begins a transaction, or any other one. -/
inductive Statement (S : Type)
  | begin
  | commit
  | rollback
  | other (statement : S)

structure Row where
  version : Str
  name : Str
  checksum : Str
deriving DecidableEq

/-- What is in the database, with the rows of schema_migrations in the order of their insertion. -/
structure Database (D : Type) where
  schema : D
  rows : List Row

/-- The connection: what is committed, what its transaction sees, and whether a BEGIN has opened that. -/
structure Session (D : Type) where
  committed : Database D
  working : Database D
  explicit : Bool

/-- What becomes of the row and of the COMMIT of a migration. -/
inductive Fate
  | usual
  | refused (cause : Str)
  /-- The commit takes place, and its answer is lost. -/
  | lost (cause : Str)
deriving DecidableEq

structure MigrationResult where
  applied : List Str
  skipped : List Str
deriving DecidableEq

section Run

variable {S D : Type} (sha256 : Str → Str) (parse : Str → Except Str (List (Statement S)))
  (exec : S → D → Except Str D)

/-- The statements of one query, one after the other. What a COMMIT has left to be run after it is a transaction
of its own, up to the end of the query. -/
def query : List (Statement S) → Session D → Session D × Option Str
  | [], s => (if s.explicit then s else { s with committed := s.working }, none)
  | .begin :: rest, s => query rest { s with explicit := true }
  | .commit :: rest, s => query rest ⟨s.working, s.working, false⟩
  | .rollback :: rest, s => query rest ⟨s.committed, s.committed, false⟩
  | .other statement :: rest, s =>
      match exec statement s.working.schema with
      | .ok schema => query rest { s with working := { s.working with schema } }
      | .error cause => (s, some cause)

def rowOf (file : MigrationFile) : Row := ⟨file.version, file.name, file.checksum⟩

/-- From BEGIN to COMMIT, or to ROLLBACK with the cause. -/
def applyFile (file : MigrationFile) (fate : Fate) (db : Database D) : Database D × Option Str :=
  match parse file.sql with
  | .error cause => (db, some cause)
  | .ok statements =>
      match query exec statements ⟨db, db, true⟩ with
      | (s, some cause) => (s.committed, some cause)
      | (s, none) =>
          let recorded : Database D := { s.working with rows := s.working.rows ++ [rowOf file] }
          match fate with
          | .usual => (recorded, none)
          | .refused cause => (s.committed, some cause)
          | .lost cause => (recorded, some cause)

def applyPending (applied : List Str) (fate : MigrationFile → Fate) : List MigrationFile → Database D →
    MigrationResult → Database D × Except MigrationError MigrationResult
  | [], db, result => (db, .ok result)
  | file :: files, db, result =>
      if file.version ∈ applied then
        applyPending applied fate files db { result with skipped := result.skipped ++ [file.filename] }
      else
        match applyFile parse exec file (fate file) db with
        | (db, some cause) => (db, .error (.failed file.filename cause))
        | (db, none) =>
            applyPending applied fate files db { result with applied := result.applied ++ [file.filename] }

/-- The error for a file whose migration is recorded with another checksum. -/
def changed (rows : List Row) (file : MigrationFile) : Option MigrationError :=
  (rows.find? fun row => row.version = file.version).bind fun seen =>
    if seen.checksum ≠ file.checksum then some (.changed file.filename seen.checksum file.checksum) else none

def missing (rows : List Row) (files : List MigrationFile) : List Str :=
  (rows.map (·.version)).filter fun v => !files.any fun f => f.version = v

/-- A version of the directory, and what the server does with each of its migrations. -/
structure Run where
  dir : List Entry
  fate : MigrationFile → Fate

def runMigrations (run : Run) (db : Database D) : Database D × Except MigrationError MigrationResult :=
  match loadMigrations sha256 run.dir with
  | .error e => (db, .error e)
  | .ok files =>
      match files.findSome? (changed db.rows) with
      | some e => (db, .error e)
      | none =>
          if missing db.rows files ≠ [] then (db, .error (.missing (missing db.rows files)))
          else applyPending parse exec (db.rows.map (·.version)) run.fate files db ⟨[], []⟩

/-- The database after the runs. -/
def runAll (db : Database D) : List Run → Database D
  | [] => db
  | run :: runs => runAll (runMigrations sha256 parse exec run db).1 runs

/-! What a run has to keep to, and what it then does -/

def Statement.ends : Statement S → Bool
  | .commit | .rollback => true
  | _ => false

/-- The migration leaves the transaction that it runs in alone. -/
def Contained (file : MigrationFile) : Prop :=
  ∀ statements, parse file.sql = .ok statements → ∀ statement ∈ statements, statement.ends = false

def pending (run : Run) (db : Database D) : List MigrationFile :=
  match loadMigrations sha256 run.dir with
  | .ok files => files.filter fun file => file.version ∉ db.rows.map (·.version)
  | .error _ => []

structure Orderly (run : Run) (db : Database D) : Prop where
  late : ∀ file ∈ pending sha256 run db, ∀ row ∈ db.rows, row.version < file.version
  contained : ∀ file ∈ pending sha256 run db, Contained parse file
  answered : ∀ file ∈ pending sha256 run db, ∀ cause, run.fate file ≠ .lost cause

def perform : List (Statement S) → D → Option D
  | [], schema => some schema
  | .other statement :: rest, schema =>
      match exec statement schema with
      | .ok schema => perform rest schema
      | .error _ => none
  | _ :: rest, schema => perform rest schema

/-- The migration as a whole, with its row. -/
def applied (db : Database D) (file : MigrationFile) : Option (Database D) :=
  match parse file.sql with
  | .ok statements => (perform exec statements db.schema).map fun schema => ⟨schema, db.rows ++ [rowOf file]⟩
  | .error _ => none

/-- A run applies all that is pending, or what comes before the migration that it fails at, or nothing. -/
def Exact (run : Run) (db : Database D) : Prop :=
  match runMigrations sha256 parse exec run db with
  | (db', .ok _) => (pending sha256 run db).foldlM (applied parse exec) db = some db'
  | (db', .error (.failed filename _)) => ∃ before file rest, pending sha256 run db = before ++ file :: rest ∧
      file.filename = filename ∧ before.foldlM (applied parse exec) db = some db'
  | (db', .error _) => db' = db

def Changed (files : List MigrationFile) (rows : List Row) (e : MigrationError) : Prop :=
  ∃ file ∈ files, ∃ row ∈ rows, row.version = file.version ∧ row.checksum ≠ file.checksum ∧
    e = .changed file.filename row.checksum file.checksum

def Removed (files : List MigrationFile) (row : Row) : Prop := ∀ file ∈ files, file.version ≠ row.version

/-- A change to what has been applied is reported and nothing applied, and so is a removal if there is no change. -/
def Reported (run : Run) (db : Database D) : Prop :=
  ∀ files, loadMigrations sha256 run.dir = .ok files →
    ((∃ e, Changed files db.rows e) → ∃ e, Changed files db.rows e ∧ runMigrations sha256 parse exec run db = (db, .error e)) ∧
      ((∃ row ∈ db.rows, Removed files row) → (¬ ∃ e, Changed files db.rows e) →
        ∃ versions, runMigrations sha256 parse exec run db = (db, .error (.missing versions)) ∧
          ∀ v, v ∈ versions ↔ ∃ row ∈ db.rows, row.version = v ∧ Removed files row)

/-- Each run has the property in the database that it finds. -/
def Along (property : Run → Database D → Prop) (db : Database D) : List Run → Prop
  | [] => True
  | run :: runs => property run db ∧ Along property (runMigrations sha256 parse exec run db).1 runs

def InOrder (rows : List Row) : Prop := rows.Pairwise fun a b => a.version < b.version

variable {sha256 parse exec}

theorem append_lt {as bs : Str} (x y : Str) (hlength : as.length = bs.length) (h : as < bs) : as ++ x < bs ++ y := by
  induction as generalizing bs with
  | nil =>
      cases bs with
      | nil => exact absurd h (lt_irrefl _)
      | cons b bs => cases hlength
  | cons a as ih =>
      cases bs with
      | nil => cases hlength
      | cons b bs =>
          rw [List.cons_lt_cons_iff] at h
          rw [List.cons_append, List.cons_append, List.cons_lt_cons_iff]
          exact h.imp_right fun h => ⟨h.1, ih (Nat.succ.inj hlength) h.2⟩

theorem take_le {as bs : Str} (n : Nat) (hlength : (as.take n).length = (bs.take n).length) (h : as ≤ bs) :
    as.take n ≤ bs.take n := by
  by_contra hnot
  have hlt := append_lt (bs.drop n) (as.drop n) hlength.symm (not_le.mp hnot)
  rw [List.take_append_drop, List.take_append_drop] at hlt
  exact absurd h (not_le.mpr hlt)

theorem parseFilename_some {filename version name : Str} (h : parseFilename filename = some (version, name)) :
    version = filename.take 14 ∧ version.length = 14 := by
  simp only [parseFilename] at h
  split_ifs at h with hshape
  cases h
  exact ⟨rfl, hshape.1⟩

theorem migrationOf_ok {entry : Entry} {file : MigrationFile} (h : migrationOf sha256 entry = .ok file) :
    file.filename = entry.filename ∧ file.version = entry.filename.take 14 ∧ file.version.length = 14 := by
  unfold migrationOf at h
  split at h
  next => cases h
  next version name hparse =>
    cases h
    exact ⟨rfl, parseFilename_some hparse⟩

theorem mapM_versions {entries : List Entry} {files : List MigrationFile}
    (h : entries.mapM (migrationOf sha256) = .ok files) :
    files.map (·.version) = entries.map (fun e => e.filename.take 14) ∧ ∀ e ∈ entries, (e.filename.take 14).length = 14 := by
  induction entries generalizing files with
  | nil =>
      cases h
      exact ⟨rfl, List.forall_mem_nil _⟩
  | cons entry entries ih =>
      rw [List.mapM_cons] at h
      cases hentry : migrationOf sha256 entry with
      | error e =>
          rw [hentry] at h
          cases h
      | ok file =>
          rw [hentry] at h
          cases hrest : entries.mapM (migrationOf sha256) with
          | error e =>
              simp only [hrest] at h
              cases h
          | ok rest =>
              simp only [hrest] at h
              cases h
              obtain ⟨hversions, hlengths⟩ := ih hrest
              obtain ⟨-, hversion, hlength⟩ := migrationOf_ok hentry
              rw [List.map_cons, List.map_cons, hversions, hversion]
              exact ⟨rfl, List.forall_mem_cons.mpr ⟨hversion ▸ hlength, hlengths⟩⟩

theorem shared_none {seen vs : List Str} (h : shared seen vs = none) : vs.Nodup ∧ ∀ v ∈ vs, v ∉ seen := by
  induction vs generalizing seen with
  | nil => exact ⟨List.nodup_nil, List.forall_mem_nil _⟩
  | cons v vs ih =>
      rw [shared] at h
      split_ifs at h with hseen
      obtain ⟨hnodup, hfresh⟩ := ih h
      refine ⟨List.nodup_cons.mpr ⟨fun hmem => hfresh v hmem List.mem_cons_self, hnodup⟩, ?_⟩
      intro w hw
      cases hw with
      | head => exact hseen
      | tail _ hw => exact fun hmem => hfresh w hw (List.mem_cons_of_mem _ hmem)

theorem loadMigrations_ok {dir : List Entry} {files : List MigrationFile} (h : loadMigrations sha256 dir = .ok files) :
    files.Pairwise fun a b => a.version < b.version := by
  unfold loadMigrations at h
  cases hout : ((dir.filter fun e => suffix.isSuffixOf e.filename).insertionSort fun a b =>
      a.filename ≤ b.filename).mapM (migrationOf sha256) with
  | error e =>
      simp only [hout] at h
      cases h
  | ok out =>
      simp only [hout, bind, Except.bind] at h
      split at h
      next => cases h
      next hshared =>
        cases h
        obtain ⟨hversions, hlengths⟩ := mapM_versions hout
        have hsorted := List.pairwise_insertionSort (fun a b : Entry => a.filename ≤ b.filename)
          (dir.filter fun e => suffix.isSuffixOf e.filename)
        have hle : (files.map (·.version)).Pairwise (· ≤ ·) := by
          rw [hversions, List.pairwise_map]
          exact hsorted.imp_of_mem fun ha hb h => take_le 14 ((hlengths _ ha).trans (hlengths _ hb).symm) h
        exact (List.pairwise_map.mp hle).imp₂ (fun a b hle hne => lt_of_le_of_ne hle hne)
          (List.pairwise_map.mp (shared_none hshared).1)

theorem mapM_error {entries : List Entry} {e : MigrationError} (h : entries.mapM (migrationOf sha256) = .error e) :
    ∃ filename, e = .misnamed filename := by
  induction entries with
  | nil => cases h
  | cons entry entries ih =>
      rw [List.mapM_cons] at h
      cases hentry : migrationOf sha256 entry with
      | error e' =>
          rw [hentry] at h
          cases h
          unfold migrationOf at hentry
          split at hentry
          next =>
            cases hentry
            exact ⟨_, rfl⟩
          next => cases hentry
      | ok file =>
          rw [hentry] at h
          cases hrest : entries.mapM (migrationOf sha256) with
          | error e' =>
              simp only [hrest] at h
              cases h
              exact ih hrest
          | ok rest =>
              simp only [hrest] at h
              cases h

theorem loadMigrations_error {dir : List Entry} {e : MigrationError} (h : loadMigrations sha256 dir = .error e) :
    (∃ filename, e = .misnamed filename) ∨ ∃ version, e = .sharedTimestamp version := by
  unfold loadMigrations at h
  cases hout : ((dir.filter fun e => suffix.isSuffixOf e.filename).insertionSort fun a b =>
      a.filename ≤ b.filename).mapM (migrationOf sha256) with
  | error e' =>
      simp only [hout] at h
      cases h
      exact .inl (mapM_error hout)
  | ok out =>
      simp only [hout, bind, Except.bind] at h
      split at h
      next v _ =>
        cases h
        exact .inr ⟨v, rfl⟩
      next => cases h

theorem query_contained {statements : List (Statement S)} (h : ∀ statement ∈ statements, statement.ends = false)
    (db working : Database D) :
    (∃ s cause, query exec statements ⟨db, working, true⟩ = (s, some cause) ∧ s.committed = db) ∨
      ∃ schema, perform exec statements working.schema = some schema ∧
        query exec statements ⟨db, working, true⟩ = (⟨db, { working with schema }, true⟩, none) := by
  induction statements generalizing working with
  | nil => exact .inr ⟨working.schema, rfl, rfl⟩
  | cons statement statements ih =>
      obtain ⟨hfirst, hrest⟩ := List.forall_mem_cons.mp h
      cases statement with
      | begin => exact ih hrest working
      | commit => cases hfirst
      | rollback => cases hfirst
      | other statement =>
          rw [query, perform]
          cases hexec : exec statement working.schema with
          | error cause => exact .inl ⟨_, cause, rfl, rfl⟩
          | ok schema => exact ih hrest { working with schema }

/-- A migration that keeps to its transaction, and whose commit is answered, is applied or leaves no trace. -/
theorem applyFile_cases {file : MigrationFile} {fate : Fate} {db : Database D} (hcontained : Contained parse file)
    (hanswered : ∀ cause, fate ≠ .lost cause) :
    (∃ cause, applyFile parse exec file fate db = (db, some cause)) ∨
      ∃ db', applied parse exec db file = some db' ∧ applyFile parse exec file fate db = (db', none) := by
  unfold applyFile applied
  cases hparse : parse file.sql with
  | error cause => exact .inl ⟨cause, rfl⟩
  | ok statements =>
      dsimp only
      rcases query_contained (hcontained statements hparse) db db with
        ⟨s, cause, hquery, hcommitted⟩ | ⟨schema, hperform, hquery⟩
      · rw [hquery, ← hcommitted]
        exact .inl ⟨cause, rfl⟩
      · rw [hquery, hperform]
        cases fate with
        | usual => exact .inr ⟨_, rfl, rfl⟩
        | refused cause => exact .inl ⟨cause, rfl⟩
        | lost cause => exact absurd rfl (hanswered cause)

/-- The files that are not yet recorded are applied one after the other, up to one that fails. -/
theorem applyPending_cases {recorded : List Str} {fate : MigrationFile → Fate} {files todo : List MigrationFile}
    (htodo : files.filter (fun file => file.version ∉ recorded) = todo) (db : Database D) (result : MigrationResult)
    (hcontained : ∀ file ∈ todo, Contained parse file) (hanswered : ∀ file ∈ todo, ∀ cause, fate file ≠ .lost cause) :
    (∃ db' done, applyPending parse exec recorded fate files db result = (db', .ok done) ∧
        todo.foldlM (applied parse exec) db = some db') ∨
      ∃ db' before file rest cause, applyPending parse exec recorded fate files db result =
        (db', .error (.failed file.filename cause)) ∧ todo = before ++ file :: rest ∧
          before.foldlM (applied parse exec) db = some db' := by
  induction files generalizing todo db result with
  | nil =>
      subst htodo
      exact .inl ⟨db, result, rfl, rfl⟩
  | cons file files ih =>
      rw [applyPending]
      by_cases hrecorded : file.version ∈ recorded
      · rw [if_pos hrecorded]
        rw [List.filter_cons_of_neg (by simpa using hrecorded)] at htodo
        exact ih htodo db _ hcontained hanswered
      · rw [if_neg hrecorded]
        rw [List.filter_cons_of_pos (by simpa using hrecorded)] at htodo
        subst htodo
        obtain ⟨hfirst, hrest⟩ := List.forall_mem_cons.mp hcontained
        obtain ⟨hreply, hreplies⟩ := List.forall_mem_cons.mp hanswered
        rcases applyFile_cases hfirst hreply with ⟨cause, hfailed⟩ | ⟨db', hstep, hdone⟩
        · rw [hfailed]
          exact .inr ⟨db, [], file, _, cause, rfl, rfl, rfl⟩
        · rw [hdone]
          rcases ih rfl db' { result with applied := result.applied ++ [file.filename] } hrest hreplies with
            ⟨db'', done, hrun, hfold⟩ | ⟨db'', before, failing, rest, cause, hrun, hsplit, hfold⟩
          · exact .inl ⟨db'', done, hrun, by rw [List.foldlM_cons, hstep]; exact hfold⟩
          · refine .inr ⟨db'', file :: before, failing, rest, cause, hrun, ?_, ?_⟩
            · rw [hsplit, List.cons_append]
            · rw [List.foldlM_cons, hstep]
              exact hfold

theorem applied_rows {db db' : Database D} {file : MigrationFile} (h : applied parse exec db file = some db') :
    db'.rows = db.rows ++ [rowOf file] := by
  unfold applied at h
  split at h
  next =>
    obtain ⟨schema, -, rfl⟩ := Option.map_eq_some_iff.mp h
    rfl
  next => cases h

theorem foldlM_rows {files : List MigrationFile} {db db' : Database D}
    (h : files.foldlM (applied parse exec) db = some db') : db'.rows = db.rows ++ files.map rowOf := by
  induction files generalizing db with
  | nil =>
      cases h
      exact (List.append_nil _).symm
  | cons file files ih =>
      rw [List.foldlM_cons] at h
      obtain ⟨between, hfirst, hrest⟩ := Option.bind_eq_some_iff.mp h
      rw [ih hrest, applied_rows hfirst, List.append_assoc]
      rfl

theorem changed_some {rows : List Row} {file : MigrationFile} {e : MigrationError} (h : changed rows file = some e) :
    ∃ row ∈ rows, row.version = file.version ∧ row.checksum ≠ file.checksum ∧
      e = .changed file.filename row.checksum file.checksum := by
  obtain ⟨row, hfound, hdiffers⟩ := Option.bind_eq_some_iff.mp h
  have hversion : row.version = file.version := by simpa using List.find?_some hfound
  split_ifs at hdiffers with hchecksum
  cases hdiffers
  exact ⟨row, List.mem_of_find?_eq_some hfound, hversion, hchecksum, rfl⟩

theorem changed_of {rows : List Row} {file : MigrationFile} {row : Row} (horder : InOrder rows) (hrow : row ∈ rows)
    (hversion : row.version = file.version) (hchecksum : row.checksum ≠ file.checksum) : changed rows file ≠ none := by
  unfold changed
  cases hfound : rows.find? fun row => row.version = file.version with
  | none => exact absurd hversion (by simpa using List.find?_eq_none.mp hfound row hrow)
  | some seen =>
      have hseen : seen.version = file.version := by simpa using List.find?_some hfound
      have hnodup : (rows.map (·.version)).Nodup := List.pairwise_map.mpr (horder.imp ne_of_lt)
      have hsame : seen = row :=
        List.inj_on_of_nodup_map hnodup (List.mem_of_find?_eq_some hfound) hrow (hseen.trans hversion.symm)
      rw [Option.bind_some, if_pos (hsame ▸ hchecksum)]
      exact nofun

theorem mem_missing {rows : List Row} {files : List MigrationFile} {v : Str} :
    v ∈ missing rows files ↔ ∃ row ∈ rows, row.version = v ∧ Removed files row := by
  rw [missing, List.mem_filter, List.mem_map]
  constructor
  · rintro ⟨⟨row, hrow, rfl⟩, hnone⟩
    exact ⟨row, hrow, rfl, by simpa [Removed] using hnone⟩
  · rintro ⟨row, hrow, rfl, hremoved⟩
    exact ⟨⟨row, hrow, rfl⟩, by simpa [Removed] using hremoved⟩

theorem exact_of_orderly {run : Run} {db : Database D} (h : Orderly sha256 parse run db) : Exact sha256 parse exec run db := by
  have hcontained := h.contained
  have hanswered := h.answered
  unfold Exact runMigrations
  unfold pending at hcontained hanswered ⊢
  cases hload : loadMigrations sha256 run.dir with
  | error e =>
      rcases loadMigrations_error hload with ⟨filename, rfl⟩ | ⟨version, rfl⟩
      · rfl
      · rfl
  | ok files =>
      simp only [hload] at hcontained hanswered ⊢
      cases hchanged : files.findSome? (changed db.rows) with
      | some e =>
          obtain ⟨file, -, hfile⟩ := List.exists_of_findSome?_eq_some hchanged
          obtain ⟨row, -, -, -, rfl⟩ := changed_some hfile
          rfl
      | none =>
          dsimp only
          by_cases hmissing : missing db.rows files ≠ []
          · rw [if_pos hmissing]
          · rw [if_neg hmissing]
            rcases applyPending_cases rfl db ⟨[], []⟩ hcontained hanswered with
              ⟨db', done, hrun, hfold⟩ | ⟨db', before, file, rest, cause, hrun, hsplit, hfold⟩
            · rw [hrun]
              exact hfold
            · rw [hrun]
              exact ⟨before, file, rest, hsplit, rfl, hfold⟩

theorem reported_of_inOrder {run : Run} {db : Database D} (horder : InOrder db.rows) :
    Reported sha256 parse exec run db := by
  intro files hload
  have hrun : runMigrations sha256 parse exec run db =
      match files.findSome? (changed db.rows) with
      | some e => (db, .error e)
      | none =>
          if missing db.rows files ≠ [] then (db, .error (.missing (missing db.rows files)))
          else applyPending parse exec (db.rows.map (·.version)) run.fate files db ⟨[], []⟩ := by
    rw [runMigrations, hload]
  rw [hrun]
  constructor
  · rintro ⟨_, file, hfile, row, hrow, hversion, hchecksum, rfl⟩
    cases hfound : files.findSome? (changed db.rows) with
    | none => exact absurd (List.findSome?_eq_none_iff.mp hfound file hfile) (changed_of horder hrow hversion hchecksum)
    | some e =>
        obtain ⟨file', hfile', he⟩ := List.exists_of_findSome?_eq_some hfound
        obtain ⟨row', hrow', hversion', hchecksum', heq⟩ := changed_some he
        exact ⟨e, ⟨file', hfile', row', hrow', hversion', hchecksum', heq⟩, rfl⟩
  · rintro ⟨row, hrow, hremoved⟩ hnone
    cases hfound : files.findSome? (changed db.rows) with
    | some e =>
        obtain ⟨file', hfile', he⟩ := List.exists_of_findSome?_eq_some hfound
        obtain ⟨row', hrow', hversion', hchecksum', heq⟩ := changed_some he
        exact absurd ⟨e, file', hfile', row', hrow', hversion', hchecksum', heq⟩ hnone
    | none =>
        have hmissing : missing db.rows files ≠ [] :=
          List.ne_nil_of_mem (mem_missing.mpr ⟨row, hrow, rfl, hremoved⟩)
        exact ⟨missing db.rows files, if_pos hmissing, fun v => mem_missing⟩

theorem inOrder_append {rows : List Row} {files : List MigrationFile} (horder : InOrder rows)
    (hfiles : files.Pairwise fun a b => a.version < b.version)
    (hlate : ∀ file ∈ files, ∀ row ∈ rows, row.version < file.version) : InOrder (rows ++ files.map rowOf) := by
  refine List.pairwise_append.mpr ⟨horder, List.pairwise_map.mpr hfiles, ?_⟩
  intro row hrow recorded hrecorded
  obtain ⟨file, hfile, rfl⟩ := List.mem_map.mp hrecorded
  exact hlate file hfile row hrow

theorem pending_sorted (run : Run) (db : Database D) :
    (pending sha256 run db).Pairwise fun a b => a.version < b.version := by
  unfold pending
  split
  next files hload => exact (loadMigrations_ok hload).filter _
  next => exact List.Pairwise.nil

/-- An orderly run leaves the migrations in the order of their versions. -/
theorem inOrder_step {run : Run} {db : Database D} (horder : InOrder db.rows) (h : Orderly sha256 parse run db) :
    InOrder (runMigrations sha256 parse exec run db).1.rows := by
  have hexact : Exact sha256 parse exec run db := exact_of_orderly h
  have hsorted : (pending sha256 run db).Pairwise fun a b => a.version < b.version := pending_sorted run db
  unfold Exact at hexact
  split at hexact
  next db' _ hrun =>
    rw [hrun, foldlM_rows hexact]
    exact inOrder_append horder hsorted h.late
  next db' filename cause hrun =>
    obtain ⟨before, file, rest, hsplit, -, hfold⟩ := hexact
    rw [hrun, foldlM_rows hfold]
    rw [hsplit] at hsorted
    refine inOrder_append horder (List.pairwise_append.mp hsorted).1 fun file hfile => h.late file ?_
    rw [hsplit]
    exact List.mem_append_left _ hfile
  next db' e _ hrun =>
    rw [hrun, hexact]
    exact horder

theorem inOrder_runAll {runs : List Run} {db : Database D} (horder : InOrder db.rows)
    (h : Along sha256 parse exec (Orderly sha256 parse) db runs) :
    InOrder (runAll sha256 parse exec db runs).rows ∧
      Along sha256 parse exec (fun run db => Exact sha256 parse exec run db ∧ Reported sha256 parse exec run db) db runs := by
  induction runs generalizing db with
  | nil => exact ⟨horder, trivial⟩
  | cons run runs ih =>
      obtain ⟨hrun, hruns⟩ := h
      obtain ⟨hend, hmeets⟩ := ih (inOrder_step horder hrun) hruns
      exact ⟨hend, ⟨exact_of_orderly hrun, reported_of_inOrder horder⟩, hmeets⟩

/-- Orderly histories that end with the same migrations have applied them in the same order, that of the versions. -/
theorem runs_converge {runs runs' : List Run} {schema schema' : D}
    (h : Along sha256 parse exec (Orderly sha256 parse) ⟨schema, []⟩ runs)
    (h' : Along sha256 parse exec (Orderly sha256 parse) ⟨schema', []⟩ runs') :
    ((∀ row, row ∈ (runAll sha256 parse exec ⟨schema, []⟩ runs).rows ↔
          row ∈ (runAll sha256 parse exec ⟨schema', []⟩ runs').rows) →
        (runAll sha256 parse exec ⟨schema, []⟩ runs).rows = (runAll sha256 parse exec ⟨schema', []⟩ runs').rows ∧
          InOrder (runAll sha256 parse exec ⟨schema, []⟩ runs).rows) ∧
      Along sha256 parse exec (fun run db => Exact sha256 parse exec run db ∧ Reported sha256 parse exec run db)
        ⟨schema, []⟩ runs := by
  have hstart (schema : D) : InOrder (Database.mk schema []).rows := List.Pairwise.nil
  obtain ⟨horder, hmeets⟩ := inOrder_runAll (hstart schema) h
  obtain ⟨horder', -⟩ := inOrder_runAll (hstart schema') h'
  refine ⟨fun hsame => ⟨?_, horder⟩, hmeets⟩
  have hirrefl : Std.Irrefl fun a b : Row => a.version < b.version := ⟨fun a => lt_irrefl a.version⟩
  have hantisymm : Std.Antisymm fun a b : Row => a.version < b.version := ⟨fun a b hab hba => absurd hba (lt_asymm hab)⟩
  exact horder.eq_of_mem_iff horder' hsame

end Run

/-! A migration that is merged after a later one has been applied -/

def first : Entry := ⟨str "20260101000000_a.sql".toList, []⟩

def second : Entry := ⟨str "20260102000000_b.sql".toList, []⟩

def third : Entry := ⟨str "20260103000000_c.sql".toList, []⟩

def usually (dir : List Entry) : Run := ⟨dir, fun _ => .usual⟩

def empty (_ : Str) : Except Str (List (Statement Empty)) := .ok []

def unchanged (statement : Empty) (_ : Unit) : Except Str Unit := nomatch statement

/-- The versions of a directory that two histories have run, each a part of the later ones. -/
def Growing (runs runs' : List Run) : Prop :=
  (runs.map (·.dir)).Pairwise (· ⊆ ·) ∧ (runs'.map (·.dir)).Pairwise (· ⊆ ·) ∧
    ∀ run ∈ runs, ∀ run' ∈ runs', run.dir ⊆ run'.dir ∨ run'.dir ⊆ run.dir

theorem orderly_usually {dir : List Entry} {db : Database Unit}
    (h : ∀ file ∈ pending id (usually dir) db, ∀ row ∈ db.rows, row.version < file.version) :
    Orderly id empty (usually dir) db :=
  ⟨h, fun _ _ statements hparse => by cases hparse; exact List.forall_mem_nil _, fun _ _ _ => nofun⟩

theorem runs_converge_sample :
    Along id empty unchanged (Orderly id empty) ⟨(), []⟩ [usually [first], usually [second, first]] ∧
      Along id empty unchanged (Orderly id empty) ⟨(), []⟩ [usually [first, second]] ∧
      (runAll id empty unchanged ⟨(), []⟩ [usually [first], usually [second, first]]).rows =
        (runAll id empty unchanged ⟨(), []⟩ [usually [first, second]]).rows := by
  have h : Along id empty unchanged (Orderly id empty) ⟨(), []⟩ [usually [first], usually [second, first]] :=
    ⟨orderly_usually (by decide), orderly_usually (by decide), trivial⟩
  have h' : Along id empty unchanged (Orderly id empty) ⟨(), []⟩ [usually [first, second]] :=
    ⟨orderly_usually (by decide), trivial⟩
  have hrows : (runAll id empty unchanged ⟨(), []⟩ [usually [first], usually [second, first]]).rows =
      (runAll id empty unchanged ⟨(), []⟩ [usually [first, second]]).rows := by decide
  have hconverge := runs_converge h h'
  generalize (runAll id empty unchanged ⟨(), []⟩ [usually [first], usually [second, first]]).rows = rows at hrows hconverge ⊢
  generalize (runAll id empty unchanged ⟨(), []⟩ [usually [first, second]]).rows = rows' at hrows hconverge ⊢
  exact ⟨h, h', (hconverge.1 fun row => hrows ▸ Iff.rfl).1⟩

/-- A database that has had the third migration before the second has the same ones in another order. -/
theorem not_runs_converge : ¬ ∀ runs runs' : List Run, Growing runs runs' →
    (∀ row, row ∈ (runAll id empty unchanged ⟨(), []⟩ runs).rows ↔ row ∈ (runAll id empty unchanged ⟨(), []⟩ runs').rows) →
      (runAll id empty unchanged ⟨(), []⟩ runs).rows = (runAll id empty unchanged ⟨(), []⟩ runs').rows := by
  intro h
  have hrows : (runAll id empty unchanged ⟨(), []⟩ [usually [first, third], usually [first, second, third]]).rows.Perm
      (runAll id empty unchanged ⟨(), []⟩ [usually [first, second, third]]).rows := by decide
  have hequal := h [usually [first, third], usually [first, second, third]] [usually [first, second, third]]
    ⟨by decide, by decide, by decide⟩ fun row => hrows.mem_iff
  exact absurd hequal (by decide)

end Corebase.Migrations
