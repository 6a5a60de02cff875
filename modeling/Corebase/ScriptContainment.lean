import Corebase.Console
import Corebase.TokenTests

namespace Corebase.ScriptContainment

open JsText SqlLex SqlGuard TokenTests TransactionBlock Console

variable {Param Claims Db : Type}

/-- The settings of a wrapped run: the role, the timeout and the mode that the request asks for. -/
def mapped (req : RunRequest Param Claims) (login : Settings Claims) : Settings Claims where
  statementTimeout := some (timeout req)
  readOnly := req.readOnly || login.readOnly
  role := some (DB_ROLE (requestRole req))
  claims := (requestClaims req).or login.claims

/-- The part of the log that the script's own statements make up. -/
def scriptLog (grants : Text → Bool) (req : RunRequest Param Claims) (o : Outcome Param Claims Db) :
    List (Session Db (Settings Claims) Opener × Sent Param Claims) :=
  if wraps req then o.log.drop (prologue grants req).length else o.log

/-- Every statement that the server started was in the runner's block, under the request's settings. -/
def Sheltered (grants : Text → Bool) (req : RunRequest Param Claims) (stored : Db) (login : Settings Claims)
    (o : Outcome Param Claims Db) : Prop :=
  ∀ entry ∈ scriptLog grants req o, ∃ b, Within .runner (mapped req login) stored entry.1 b

/-- A run that succeeds stores what its statements did one after another; any other stores nothing. -/
def AllOrNothing (server : Server Db (Settings Claims) (Query Param)) (req : RunRequest Param Claims)
    (stored : Db) (login : Settings Claims) (o : Outcome Param Claims Db) : Prop :=
  (o.ok = true → ∃ lasting, Runs server (mapped req login) (statements req) stored login o.session.stored lasting) ∧
    (o.ok = false → o.session.stored = stored)

/-- Statements that end a block by a word that the guard does not report. -/
def endsUnreported : List Token → Bool
  | t :: ts => t.isWord "ABORT" || (t.isWord "PREPARE" && secondIs "TRANSACTION" ts)
  | [] => false

/-- The statement leaves the settings under which it runs as they are. -/
def KeepsSettings (server : Server Db (Settings Claims) (Query Param)) (settings : Settings Claims)
    (q : Query Param) : Prop :=
  ∀ lasting db db' settings' lasting',
    server.exec settings lasting q db = some (db', settings', lasting') → settings' = settings

variable (server : Server Db (Settings Claims) (Query Param)) (grants : Text → Bool)

/-- The settings part of the prologue, inside the block that its BEGIN opens. -/
theorem prologue_within (req : RunRequest Param Claims) (stored : Db) (login : Settings Claims) :
    (∃ s b log, serveAll server ⟨stored, login, none⟩ (prologue grants req) = (s, true, log) ∧
      Within .runner (mapped req login) stored s b ∧ b.work = stored ∧ b.lasting = login) ∨
    ∃ s b log, serveAll server ⟨stored, login, none⟩ (prologue grants req) = (s, false, log) ∧
      s.block = some b ∧ s.stored = stored := by
  by_cases hg : grants (DB_ROLE (requestRole req)) = true
  · left
    cases hr : req.readOnly <;> cases hc : requestClaims req
    all_goals
      simp only [prologue, hr, hc, hg, if_true, Bool.false_eq_true, if_false, List.append_nil, List.cons_append,
        List.nil_append, serveAll, serve, serveOut, serveIn, Session.enter]
      refine ⟨_, _, _, rfl, ⟨rfl, rfl, ?_, rfl, rfl, rfl⟩, rfl, rfl⟩
      simp [mapped, hr, hc]
  · right
    cases hr : req.readOnly
    all_goals
      simp only [prologue, hr, hg, if_true, Bool.false_eq_true, if_false, List.append_nil, List.cons_append,
        List.nil_append, serveAll, serve, serveOut, serveIn, Session.enter, Session.fail]
      exact ⟨_, _, _, rfl, rfl, rfl⟩

variable {server grants}

/-- A script without reported transaction control has no statement that begins with such a word. -/
theorem not_control {sql : Text} (h : (classify sql).ownsTransaction = false) {s : Statement} {t : Token}
    {ts : List Token} {w : String} (hs : s ∈ split sql) (ht : s.tokens = t :: ts) (hw : w ∈ TX) :
    t.isWord w = false := by
  rw [Bool.eq_false_iff]
  intro hword
  have hall : ∀ c ∈ (split sql).map classifyOne, c.transactionControl = false := by
    simpa [classify] using h
  have hs := hall _ (List.mem_map_of_mem hs)
  simp only [classifyOne, List.any_eq_false, decide_eq_true_eq] at hs
  exact hs w hw (lead_of_isWord ht hword)

theorem command_quiet {req : RunRequest Param Claims} {settings : Settings Claims} {s : Statement}
    (hown : (classify req.sql).ownsTransaction = false) (hs : s ∈ split req.sql)
    (hend : endsUnreported s.tokens = false)
    (hkeep : KeepsSettings server settings ⟨executedSql (classify req.sql) s, req.params⟩) :
    Quiet server settings (commandOf (classify req.sql) req s) := by
  cases hts : s.tokens with
  | nil =>
      rw [commandOf, hts]
      exact .run hkeep
  | cons t ts =>
      have hno : ∀ w ∈ TX, t.isWord w = false := fun w hw => not_control hown hs hts hw
      rw [hts] at hend
      simp only [endsUnreported, Bool.or_eq_false_iff] at hend
      have hbegin := hno "BEGIN" (by decide)
      have hstart := hno "START" (by decide)
      have hcommit := hno "COMMIT" (by decide)
      have hendw := hno "END" (by decide)
      have hrollback := hno "ROLLBACK" (by decide)
      have hsave := hno "SAVEPOINT" (by decide)
      simp only [commandOf, hts, controlOf, isOneOf, List.any_cons, List.any_nil, hbegin, hstart, hcommit, hendw,
        hrollback, hsave, hend.1, hend.2, Bool.false_and, Bool.or_false, Bool.and_false, Bool.false_eq_true,
        if_false]
      split
      · exact .release
      · exact .run hkeep

/-- A wrapped run whose statements are all quiet. -/
theorem wrapped_run {req : RunRequest Param Claims} {stored : Db} {login : Settings Claims}
    {final : Session Db (Settings Claims) Opener} {ok : Bool}
    {log : List (Session Db (Settings Claims) Opener × Sent Param Claims)}
    (hquiet : ∀ c ∈ statements req, Quiet server (mapped req login) c)
    (hrun : serveAll server ⟨stored, login, none⟩ (prologue grants req ++ (statements req ++ [.commit none])) =
      (final, ok, log)) :
    (∀ entry ∈ log.drop (prologue grants req).length, ∃ b, Within .runner (mapped req login) stored entry.1 b) ∧
      (ok = true → final.block = none ∧
        ∃ lasting, Runs server (mapped req login) (statements req) stored login final.stored lasting) ∧
      (ok = false → final.stored = stored) := by
  rw [serveAll_append] at hrun
  rcases prologue_within server grants req stored login with
    ⟨s, b, plog, hp, hw, hwork, hlasting⟩ | ⟨s, b, plog, hp, -, hst⟩
  · have hlen : plog.length = (prologue grants req).length := by
      have hl := (serveAll_log server ⟨stored, login, none⟩ (prologue grants req)).2
      rw [hp] at hl
      rw [← hl rfl, List.length_map]
    obtain ⟨hlog, hok, hfail⟩ := serveAll_commit hw hquiet
    rw [hp] at hrun
    simp only [if_true, Prod.mk.injEq] at hrun
    obtain ⟨rfl, rfl, rfl⟩ := hrun
    rw [hwork, hlasting] at hok
    refine ⟨?_, hok, hfail⟩
    rw [← hlen, List.drop_left]
    exact hlog
  · rw [hp] at hrun
    simp only [Bool.false_eq_true, if_false, Prod.mk.injEq] at hrun
    obtain ⟨rfl, rfl, rfl⟩ := hrun
    have hlen : plog.length ≤ (prologue grants req).length := by
      have hl := (serveAll_log server ⟨stored, login, none⟩ (prologue grants req)).1
      rw [hp] at hl
      simpa using hl.length_le
    rw [List.drop_of_length_le hlen]
    exact ⟨by simp, nofun, fun _ => hst⟩

theorem rollback_stored (server : Server Db (Settings Claims) (Query Param))
    (s : Session Db (Settings Claims) Opener) :
    (serve server s (.rollback none)).1.stored = s.stored ∧ (serve server s (.rollback none)).1.block = none := by
  unfold serve
  split
  · exact ⟨rfl, rfl⟩
  next hb => exact ⟨rfl, hb⟩

/-- A server on which every statement succeeds and changes nothing. -/
def echo : Server Unit (Settings Unit) (Query Unit) where
  exec := fun settings lasting _ db => some (db, settings, lasting)
  commits := fun _ => true
  prepares := false

def readOnlyRun (sql : String) : RunRequest Unit Unit where
  sql := lit sql
  params := []
  role := some .anon
  claims := none
  readOnly := true
  confirmDestructive := false
  confirmNames := []
  timeoutMs := none

def loginSettings : Settings Unit := ⟨none, false, none, none⟩

end Corebase.ScriptContainment
