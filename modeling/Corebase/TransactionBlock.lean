import Mathlib.Data.List.Basic

namespace Corebase.TransactionBlock

variable {Db Settings Tag Stmt : Type}

structure Save (Db Settings : Type) where
  name : List Char
  work : Db
  settings : Settings
  lasting : Settings

/-- An open transaction block. -/
structure Block (Db Settings Tag : Type) where
  /-- Who opened it. -/
  opener : Tag
  work : Db
  /-- The settings in force, those of SET LOCAL included. -/
  settings : Settings
  /-- The settings that a commit leaves to the session. -/
  lasting : Settings
  failed : Bool
  saves : List (Save Db Settings)

structure Session (Db Settings Tag : Type) where
  stored : Db
  settings : Settings
  block : Option (Block Db Settings Tag)

inductive Command (Settings Tag Stmt : Type)
  | begin (opener : Tag) (modes : Settings → Settings)
  | commit (chain : Option Tag)
  | rollback (chain : Option Tag)
  /-- PREPARE TRANSACTION: the block leaves the session without its effects. -/
  | prepare
  | savepoint (name : List Char)
  | release (name : List Char)
  | rollbackTo (name : List Char)
  /-- SET LOCAL or SET TRANSACTION; nothing when the server refuses the change. -/
  | setLocal (change : Settings → Option Settings)
  | run (stmt : Stmt)

/-- What the server does that does not depend on transaction blocks. -/
structure Server (Db Settings Stmt : Type) where
  /-- From the settings in force, the lasting ones and the data: what a statement leaves
  of the three, unless it fails. -/
  exec : Settings → Settings → Stmt → Db → Option (Db × Settings × Settings)
  /-- Do the checks put off to the commit succeed? -/
  commits : Db → Bool
  prepares : Bool

def Session.close (s : Session Db Settings Tag) : Session Db Settings Tag := { s with block := none }

def Session.enter (s : Session Db Settings Tag) (b : Block Db Settings Tag) : Session Db Settings Tag :=
  { s with block := some b }

def Session.chain (s : Session Db Settings Tag) : Option Tag → Session Db Settings Tag
  | none => s
  | some tag => s.enter ⟨tag, s.stored, s.settings, s.settings, false, []⟩

def Session.fail (s : Session Db Settings Tag) (b : Block Db Settings Tag) : Session Db Settings Tag :=
  s.enter { b with failed := true }

def dropSaves (name : List Char) : List (Save Db Settings) → Option (Save Db Settings × List (Save Db Settings))
  | [] => none
  | v :: vs => if v.name = name then some (v, vs) else dropSaves name vs

/-- A command inside an open block, with whether it succeeds. -/
def serveIn (server : Server Db Settings Stmt) (s : Session Db Settings Tag) (b : Block Db Settings Tag) :
    Command Settings Tag Stmt → Session Db Settings Tag × Bool
  | .rollback chain => (s.close.chain chain, true)
  | .commit chain =>
      if b.failed then (s.close.chain chain, true)
      else if server.commits b.work then
        (({ s with stored := b.work, settings := b.lasting, block := none } : Session Db Settings Tag).chain chain,
          true)
      else (s.close, false)
  | .prepare => if b.failed then (s.close, true) else if server.prepares then (s.close, true) else (s.fail b, false)
  | .rollbackTo name =>
      match dropSaves name b.saves with
      | none => (s.fail b, false)
      | some (v, vs) =>
          (s.enter ⟨b.opener, v.work, v.settings, v.lasting, false, v :: vs⟩, true)
  | .begin _ _ => (s, !b.failed)
  | .savepoint name =>
      if b.failed then (s, false)
      else (s.enter { b with saves := ⟨name, b.work, b.settings, b.lasting⟩ :: b.saves }, true)
  | .release name =>
      if b.failed then (s, false)
      else match dropSaves name b.saves with
        | none => (s.fail b, false)
        | some (_, vs) => (s.enter { b with saves := vs }, true)
  | .setLocal change =>
      if b.failed then (s, false)
      else match change b.settings with
        | none => (s.fail b, false)
        | some settings => (s.enter { b with settings }, true)
  | .run stmt =>
      if b.failed then (s, false)
      else match server.exec b.settings b.lasting stmt b.work with
        | none => (s.fail b, false)
        | some (work, settings, lasting) => (s.enter { b with work, settings, lasting }, true)

/-- A command outside every block; a statement is a transaction of its own. -/
def serveOut (server : Server Db Settings Stmt) (s : Session Db Settings Tag) :
    Command Settings Tag Stmt → Session Db Settings Tag × Bool
  | .begin opener modes =>
      (s.enter ⟨opener, s.stored, modes s.settings, s.settings, false, []⟩, true)
  | .commit chain | .rollback chain => (s, chain.isNone)
  | .prepare | .setLocal _ => (s, true)
  | .savepoint _ | .release _ | .rollbackTo _ => (s, false)
  | .run stmt =>
      match server.exec s.settings s.settings stmt s.stored with
      | none => (s, false)
      | some (stored, _, settings) =>
          if server.commits stored then ({ s with stored, settings }, true) else (s, false)

def serve (server : Server Db Settings Stmt) (s : Session Db Settings Tag) (c : Command Settings Tag Stmt) :
    Session Db Settings Tag × Bool :=
  match s.block with
  | some b => serveIn server s b c
  | none => serveOut server s c

/-- The commands up to the first that fails: the session they leave, whether all succeeded,
and each command that was started with the session it met. -/
def serveAll (server : Server Db Settings Stmt) (s : Session Db Settings Tag) :
    List (Command Settings Tag Stmt) →
      Session Db Settings Tag × Bool × List (Session Db Settings Tag × Command Settings Tag Stmt)
  | [] => (s, true, [])
  | c :: cs =>
      let (s', ok) := serve server s c
      if ok then
        let (s'', ok', log) := serveAll server s' cs
        (s'', ok', (s, c) :: log)
      else (s', false, [(s, c)])

/-- A session inside a sound block of this opener, with these settings in force, over this
stored state. -/
structure Within (opener : Tag) (settings : Settings) (stored : Db) (s : Session Db Settings Tag)
    (b : Block Db Settings Tag) : Prop where
  block : s.block = some b
  opener : b.opener = opener
  settings : b.settings = settings
  sound : b.failed = false
  saves : b.saves = []
  stored : s.stored = stored

/-- A command that neither ends the block nor changes the settings in force. -/
inductive Quiet (server : Server Db Settings Stmt) (settings : Settings) : Command Settings Tag Stmt → Prop
  | run {stmt : Stmt} : (∀ lasting db db' settings' lasting',
      server.exec settings lasting stmt db = some (db', settings', lasting') → settings' = settings) →
      Quiet server settings (.run stmt)
  | release {name : List Char} : Quiet server settings (.release name)

/-- The data after statements that all succeed under the same settings. -/
inductive Runs (server : Server Db Settings Stmt) (settings : Settings) :
    List (Command Settings Tag Stmt) → Db → Settings → Db → Settings → Prop
  | nil {db : Db} {lasting : Settings} : Runs server settings [] db lasting db lasting
  | run {stmt : Stmt} {cs : List (Command Settings Tag Stmt)} {db db' db'' : Db}
      {lasting lasting' lasting'' settings' : Settings} :
      server.exec settings lasting stmt db = some (db', settings', lasting') →
      Runs server settings cs db' lasting' db'' lasting'' →
      Runs server settings (.run stmt :: cs) db lasting db'' lasting''

variable {server : Server Db Settings Stmt} {opener : Tag} {settings : Settings} {stored : Db}
variable {s : Session Db Settings Tag} {b : Block Db Settings Tag}

/-- A quiet command stays in the block, or fails and leaves the stored state alone. -/
theorem serve_quiet {c : Command Settings Tag Stmt} (hw : Within opener settings stored s b)
    (hc : Quiet server settings c) :
    (∃ s' b', serve server s c = (s', true) ∧ Within opener settings stored s' b' ∧
      Runs server settings [c] b.work b.lasting b'.work b'.lasting) ∨
    ∃ s' b', serve server s c = (s', false) ∧ s'.block = some b' ∧ s'.stored = stored := by
  obtain ⟨hb, ho, hset, hf, hsv, hst⟩ := hw
  cases hc with
  | @run stmt hkeep =>
      simp only [serve, hb, serveIn, hf, Bool.false_eq_true, if_false, hset]
      cases he : server.exec settings b.lasting stmt b.work with
      | none => exact .inr ⟨_, _, rfl, rfl, hst⟩
      | some out =>
          obtain ⟨work, settings', lasting⟩ := out
          obtain rfl := hkeep _ _ _ _ _ he
          exact .inl ⟨_, _, rfl, ⟨rfl, ho, rfl, rfl, hsv, hst⟩, .run he .nil⟩
  | release =>
      simp only [serve, hb, serveIn, hf, Bool.false_eq_true, if_false, hsv, dropSaves]
      exact .inr ⟨_, _, rfl, rfl, hst⟩

theorem runs_cons {c : Command Settings Tag Stmt} {cs : List (Command Settings Tag Stmt)} {db db' db'' : Db}
    {lasting lasting' lasting'' : Settings} (h : Runs server settings [c] db lasting db' lasting')
    (ht : Runs server settings cs db' lasting' db'' lasting'') :
    Runs server settings (c :: cs) db lasting db'' lasting'' := by
  cases h with
  | run he hn =>
      cases hn
      exact .run he ht

/-- Quiet commands all start within the block; if one fails, nothing is stored. -/
theorem serveAll_quiet {cs : List (Command Settings Tag Stmt)} (hw : Within opener settings stored s b)
    (hcs : ∀ c ∈ cs, Quiet server settings c) :
    (∀ entry ∈ (serveAll server s cs).2.2, ∃ b', Within opener settings stored entry.1 b') ∧
      ((∃ s' b' log, serveAll server s cs = (s', true, log) ∧ Within opener settings stored s' b' ∧
        Runs server settings cs b.work b.lasting b'.work b'.lasting) ∨
      ∃ s' b' log, serveAll server s cs = (s', false, log) ∧ s'.block = some b' ∧ s'.stored = stored) := by
  induction cs generalizing s b with
  | nil => exact ⟨by simp [serveAll], .inl ⟨s, b, [], rfl, hw, .nil⟩⟩
  | cons c cs ih =>
      rcases serve_quiet hw (hcs c (by simp)) with ⟨s', b', hs, hw', hrun⟩ | ⟨s', b', hs, hb', hst⟩
      · obtain ⟨hlog, hend⟩ := ih hw' fun d hd => hcs d (by simp [hd])
        simp only [serveAll, hs, if_true]
        refine ⟨?_, ?_⟩
        · intro entry he
          rcases List.mem_cons.mp he with rfl | he
          · exact ⟨b, hw⟩
          · exact hlog entry he
        · rcases hend with ⟨t, b'', log, ht, hw'', hruns⟩ | ⟨t, b'', log, ht, hb'', hst⟩
          · exact .inl ⟨t, b'', _, by rw [ht], hw'', runs_cons hrun hruns⟩
          · exact .inr ⟨t, b'', _, by rw [ht], hb'', hst⟩
      · simp only [serveAll, hs, Bool.false_eq_true, if_false]
        exact ⟨fun entry he => ⟨b, by rwa [List.mem_singleton.mp he]⟩, .inr ⟨s', b', _, rfl, hb', hst⟩⟩

theorem serveAll_append (server : Server Db Settings Stmt) (s : Session Db Settings Tag)
    (cs ds : List (Command Settings Tag Stmt)) :
    serveAll server s (cs ++ ds) =
      if (serveAll server s cs).2.1 then
        let rest := serveAll server (serveAll server s cs).1 ds
        (rest.1, rest.2.1, (serveAll server s cs).2.2 ++ rest.2.2)
      else serveAll server s cs := by
  induction cs generalizing s with
  | nil => rfl
  | cons c cs ih =>
      simp only [List.cons_append, serveAll]
      by_cases hok : (serve server s c).2 = true
      · simp only [hok, if_true, ih]
        by_cases hrest : (serveAll server (serve server s c).1 cs).2.1 = true <;> simp [hrest]
      · simp [hok]

theorem serveAll_log (server : Server Db Settings Stmt) (s : Session Db Settings Tag)
    (cs : List (Command Settings Tag Stmt)) :
    (serveAll server s cs).2.2.map Prod.snd <+: cs ∧
      ((serveAll server s cs).2.1 = true → (serveAll server s cs).2.2.map Prod.snd = cs) := by
  induction cs generalizing s with
  | nil => simp [serveAll]
  | cons c cs ih =>
      simp only [serveAll]
      by_cases hok : (serve server s c).2 = true
      · simp only [hok, if_true, List.map_cons, List.cons_prefix_cons, true_and, List.cons.injEq]
        exact ih _
      · simp [hok]

/-- Quiet commands followed by the commit of their block. -/
theorem serveAll_commit {cs : List (Command Settings Tag Stmt)} (hw : Within opener settings stored s b)
    (hcs : ∀ c ∈ cs, Quiet server settings c) :
    (∀ entry ∈ (serveAll server s (cs ++ [.commit none])).2.2, ∃ b', Within opener settings stored entry.1 b') ∧
      ((serveAll server s (cs ++ [.commit none])).2.1 = true →
        (serveAll server s (cs ++ [.commit none])).1.block = none ∧ ∃ lasting, Runs server settings cs b.work b.lasting
          (serveAll server s (cs ++ [.commit none])).1.stored lasting) ∧
      ((serveAll server s (cs ++ [.commit none])).2.1 = false →
        (serveAll server s (cs ++ [.commit none])).1.stored = stored) := by
  obtain ⟨hlog, ⟨s', b', log, hrun, hw', hruns⟩ | ⟨s', b', log, hrun, -, hst⟩⟩ := serveAll_quiet hw hcs
  · rw [serveAll_append]
    rw [hrun] at hlog ⊢
    have hblock := hw'.block
    have hsound := hw'.sound
    simp only [if_true, serveAll, serve, hblock, serveIn, hsound, Bool.false_eq_true, if_false, Session.close,
      Session.chain]
    refine ⟨?_, ?_, ?_⟩
    · intro entry he
      have hlast : ∀ entry ∈ log ++ [(s', (.commit none : Command Settings Tag Stmt))],
          ∃ b'', Within opener settings stored entry.1 b'' := by
        intro entry he
        rcases List.mem_append.mp he with he | he
        · exact hlog entry he
        · rw [List.mem_singleton.mp he]
          exact ⟨b', hw'⟩
      split at he
      · exact hlast entry he
      · exact hlast entry he
    · by_cases hcm : server.commits b'.work = true
      · simp only [hcm, if_true, true_and]
        exact fun _ => ⟨_, hruns⟩
      · simp [hcm]
    · by_cases hcm : server.commits b'.work = true
      · simp [hcm]
      · simp [hcm, hw'.stored]
  · rw [serveAll_append]
    rw [hrun] at hlog ⊢
    simp only [Bool.false_eq_true, if_false]
    exact ⟨hlog, False.elim, fun _ => hst⟩

end Corebase.TransactionBlock
