import Corebase.SqlGuard
import Corebase.TransactionBlock

namespace Corebase.Console

open JsText SqlLex SqlGuard TransactionBlock

inductive ConsoleRole
  | admin | anon | authenticated
deriving DecidableEq

/-- The database role each wire value maps to. -/
def DB_ROLE : ConsoleRole → Text
  | .admin => lit "developer"
  | .anon => lit "anon"
  | .authenticated => lit "authenticated"

def DEFAULT_TIMEOUT_MS : Nat := 60000

def MAX_TIMEOUT_MS : Nat := 600000

def ROW_LIMIT : Nat := 501

structure RunRequest (Param Claims : Type) where
  sql : Text
  params : List Param
  role : Option ConsoleRole
  claims : Option Claims
  readOnly : Bool
  confirmDestructive : Bool
  confirmNames : List Text
  timeoutMs : Option Nat

structure ApiError where
  status : Nat
  message : Text
deriving DecidableEq

variable {Param Claims Db : Type}

/-- The names to type that the request does not carry. -/
def missingNames (script : Script) (req : RunRequest Param Claims) : List Text :=
  script.namesToType.filter fun n => n ∉ req.confirmNames.map trim

/-- Every reason to refuse a run, before any connection is opened. -/
def checkRequest (script : Script) (req : RunRequest Param Claims) : Except ApiError Unit :=
  if script.statements = [] then .error ⟨400, lit "There is no statement to run."⟩
  else if req.params ≠ [] ∧ script.statements.length > 1 then
    .error ⟨400, lit "Bound parameters apply to a single statement. Send one statement per run, "
      ++ lit "or inline the values."⟩
  else if script.danger = .safe then .ok ()
  else if !req.confirmDestructive then
    .error ⟨409, join [' '] (script.dangerous.map fun s => s.reason)
      ++ lit " Re-send with confirm_destructive to run it."⟩
  else
    let missing := missingNames script req
    if missing = [] then .ok ()
    else
      .error ⟨409, lit "Type " ++ join (lit " and ") (missing.map fun m => '"' :: (m ++ ['"']))
        ++ lit " to confirm dropping it. This cannot be undone from here."⟩

structure Settings (Claims : Type) where
  statementTimeout : Option Nat
  readOnly : Bool
  role : Option Text
  claims : Option Claims
deriving DecidableEq

inductive Opener
  | runner | script
deriving DecidableEq

structure Query (Param : Type) where
  text : Text
  values : List Param

abbrev Sent (Param Claims : Type) := Command (Settings Claims) Opener (Query Param)

def requestRole (req : RunRequest Param Claims) : ConsoleRole := req.role.getD .admin

def timeout (req : RunRequest Param Claims) : Nat :=
  min (req.timeoutMs.getD DEFAULT_TIMEOUT_MS) MAX_TIMEOUT_MS

/-- The claims are only set for the role authenticated. -/
def requestClaims (req : RunRequest Param Claims) : Option Claims :=
  if requestRole req = .authenticated then req.claims else none

/-- What the runner sends before the statements; grants says which roles the session may take. -/
def prologue (grants : Text → Bool) (req : RunRequest Param Claims) : List (Sent Param Claims) :=
  [.begin .runner id, .setLocal fun s => some { s with statementTimeout := some (timeout req) }]
    ++ (if req.readOnly then [.setLocal fun s => some { s with readOnly := true }] else [])
    ++ [.setLocal fun s =>
        if grants (DB_ROLE (requestRole req)) then some { s with role := some (DB_ROLE (requestRole req)) }
        else none]
    ++ match requestClaims req with
      | some claims => [.setLocal fun s => some { s with claims := some claims }]
      | none => []

def hasWords (v w : String) : List Token → Bool
  | t :: u :: ts => (t.isWord v && u.isWord w) || hasWords v w (u :: ts)
  | _ => false

/-- AND CHAIN at the end of a COMMIT or ROLLBACK. -/
def chainOf (ts : List Token) : Option Opener := if hasWords "AND" "CHAIN" ts then some .script else none

def modesOf (ts : List Token) (s : Settings Claims) : Settings Claims :=
  if hasWords "READ" "ONLY" ts then { s with readOnly := true }
  else if hasWords "READ" "WRITE" ts then { s with readOnly := false }
  else s

def lastValue (ts : List Token) : Text := (ts.getLast?.map Token.value).getD []

def secondIs (w : String) (ts : List Token) : Bool := ts.head?.any (·.isWord w)

/-- The transaction control that the server finds in a statement by its words. -/
def controlOf : List Token → Option (Sent Param Claims)
  | [] => none
  | t :: ts =>
      if t.isWord "BEGIN" || (t.isWord "START" && secondIs "TRANSACTION" ts) then some (.begin .script (modesOf ts))
      else if isOneOf ["COMMIT", "END"] t && !secondIs "PREPARED" ts then some (.commit (chainOf ts))
      else if isOneOf ["ROLLBACK", "ABORT"] t && !secondIs "PREPARED" ts then
        if ts.any (·.isWord "TO") then some (.rollbackTo (lastValue ts)) else some (.rollback (chainOf ts))
      else if t.isWord "SAVEPOINT" then some (.savepoint (lastValue ts))
      else if t.isWord "RELEASE" then some (.release (lastValue ts))
      else if t.isWord "PREPARE" && secondIs "TRANSACTION" ts then some .prepare
      else none

/-- The text that is sent for a statement, with any appended limit. -/
def executedSql (script : Script) (s : Statement) : Text :=
  match script.limitable with
  | some l => if l.sql = s.sql then withLimit s.sql ROW_LIMIT else s.sql
  | none => s.sql

def commandOf (script : Script) (req : RunRequest Param Claims) (s : Statement) : Sent Param Claims :=
  (controlOf s.tokens).getD (.run ⟨executedSql script s, req.params⟩)

def statements (req : RunRequest Param Claims) : List (Sent Param Claims) :=
  (split req.sql).map (commandOf (classify req.sql) req)

def wraps (req : RunRequest Param Claims) : Bool := !(classify req.sql).ownsTransaction

/-- Everything that is sent, if nothing fails. -/
def script (grants : Text → Bool) (req : RunRequest Param Claims) : List (Sent Param Claims) :=
  if wraps req then prologue grants req ++ (statements req ++ [.commit none]) else statements req

structure Outcome (Param Claims Db : Type) where
  session : Session Db (Settings Claims) Opener
  ok : Bool
  /-- Each command that was started, with the session it met. -/
  log : List (Session Db (Settings Claims) Opener × Sent Param Claims)

/-- One run on a connection of its own. -/
def runScript (server : Server Db (Settings Claims) (Query Param)) (grants : Text → Bool)
    (req : RunRequest Param Claims) (stored : Db) (login : Settings Claims) :
    Except ApiError (Outcome Param Claims Db) :=
  match checkRequest (classify req.sql) req with
  | .error e => .error e
  | .ok () =>
      let (session, ok, log) := serveAll server ⟨stored, login, none⟩ (script grants req)
      if ok then .ok ⟨session, true, log⟩
      else if wraps req then .ok ⟨(serve server session (.rollback none : Sent Param Claims)).1, false, log⟩
      else .ok ⟨session, false, log⟩

end Corebase.Console
