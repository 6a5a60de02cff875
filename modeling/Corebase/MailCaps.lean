import Corebase.Interleaving
import Mathlib.Logic.Function.Basic

namespace Corebase.MailCaps

open Interleaving

/-- A check under way. -/
abbrev Client := Nat
abbrev ProjectId := Nat
/-- The hash of an address without its surrounding space, in lower case. -/
abbrev Recipient := Nat
/-- Hours since the epoch, in UTC. -/
abbrev Hour := Nat
abbrev Day := Nat

structure EmailCaps where
  perHour : Nat
  perDay : Nat
  distinctRecipientsPerDay : Nat
  perRecipientPerHour : Nat
  perRecipientPerDay : Nat
deriving DecidableEq

inductive Plan
  | free | pro | team | other
deriving DecidableEq

/-- An unknown plan has the caps of the free one. -/
def Plan.caps : Plan → EmailCaps
  | .free | .other => ⟨30, 200, 100, 4, 10⟩
  | .pro => ⟨200, 2000, 1000, 8, 40⟩
  | .team => ⟨500, 10000, 5000, 8, 40⟩

def young (plan : Plan) (projectAgeMs : Option Int) : Bool :=
  plan = .free && projectAgeMs.any fun age => age < 24 * 3600 * 1000

def half (n : Nat) : Nat := (n + 1) / 2

def capsFor (plan : Plan) (projectAgeMs : Option Int) : EmailCaps :=
  let base := plan.caps
  if young plan projectAgeMs then
    ⟨half base.perHour, half base.perDay, half base.distinctRecipientsPerDay, base.perRecipientPerHour, base.perRecipientPerDay⟩
  else base

inductive Cap
  | perHour | perDay | distinctRecipientsPerDay | perRecipientPerHour | perRecipientPerDay
deriving DecidableEq

inductive Scope
  | global | project
deriving DecidableEq

inductive Verdict
  | allowed
  | suppressed (scope : Scope)
  | rateLimited (cap : Cap)
deriving DecidableEq

structure Send where
  project : ProjectId
  recipient : Recipient
  hour : Hour
deriving DecidableEq

def Send.day (send : Send) : Day := send.hour / 24

inductive Key
  | recipientHour (p : ProjectId) (r : Recipient) (hour : Hour)
  | recipientDay (p : ProjectId) (r : Recipient) (day : Day)
  | hour (p : ProjectId) (hour : Hour)
  | day (p : ProjectId) (day : Day)
deriving DecidableEq

/-- The counters that a send is counted in. -/
def Send.keys (send : Send) : List Key :=
  [.recipientHour send.project send.recipient send.hour, .recipientDay send.project send.recipient send.day,
    .hour send.project send.hour, .day send.project send.day]

/-- A check that has come to its verdict. -/
structure Checked where
  send : Send
  verdict : Verdict
  /-- It has found its recipient new. -/
  added : Bool
deriving DecidableEq

structure Store where
  counters : Key → Nat
  /-- The distinct recipients of a project on a day, in the order in which they came. -/
  sets : ProjectId × Day → List Recipient
  /-- The increments that the checks under way have made and not taken back. -/
  reserved : List (Client × Key)
  /-- Those of them that were within the cap. -/
  passed : List (Client × Key)
  /-- The increments that a check has left behind. -/
  lost : List Key
  added : Client → Bool
  log : List Checked

inductive Op
  | incr (k : Key)
  | expire
  | decr (k : Key)
  | pfadd (p : ProjectId) (day : Day) (r : Recipient)
  | pfcount (p : ProjectId) (day : Day)
  | verdict (send : Send) (v : Verdict)
deriving DecidableEq

@[reducible] def Reply : Op → Type
  | .incr _ | .pfcount .. => Nat
  | .pfadd .. => Bool
  | .expire | .decr _ | .verdict .. => Unit

section Checks

variable (caps : ProjectId → EmailCaps)

def limit : Key → Nat
  | .recipientHour p .. => (caps p).perRecipientPerHour
  | .recipientDay p .. => (caps p).perRecipientPerDay
  | .hour p _ => (caps p).perHour
  | .day p _ => (caps p).perDay

def others (c : Client) (l : List (Client × Key)) : List (Client × Key) := l.filter fun r => r.1 ≠ c

/-- A DECR may fail, which is not noticed. No key expires in its own window. -/
def exec (c : Client) (fails : Bool) : (op : Op) → Store → Option (Reply op × Store)
  | .incr k, s =>
      let n := s.counters k + 1
      some (n, { s with
        counters := Function.update s.counters k n
        reserved := (c, k) :: s.reserved
        passed := if n ≤ limit caps k then (c, k) :: s.passed else s.passed })
  | .expire, s => some ((), s)
  | .decr k, s =>
      let s := { s with reserved := s.reserved.erase (c, k), passed := s.passed.erase (c, k) }
      if fails then some ((), { s with lost := k :: s.lost })
      else some ((), { s with counters := Function.update s.counters k (s.counters k - 1) })
  | .pfadd p day r, s =>
      if r ∈ s.sets (p, day) then some (false, s)
      else some (true, { s with
        sets := Function.update s.sets (p, day) (s.sets (p, day) ++ [r])
        added := Function.update s.added c true })
  | .pfcount p day, s => some ((s.sets (p, day)).length, s)
  | .verdict send v, s => some ((), { s with
      reserved := others c s.reserved
      passed := others c s.passed
      added := Function.update s.added c false
      log := ⟨send, v, s.added c⟩ :: s.log })

def abort (c : Client) (s : Store) : Store :=
  { s with
    lost := (s.reserved.filter fun r => r.1 = c).map Prod.snd ++ s.lost
    reserved := others c s.reserved
    passed := others c s.passed
    added := Function.update s.added c false }

def answer (send : Send) (v : Verdict) : Program Op Reply := .step (.verdict send v) fun _ => .done

def rollback (next : Program Op Reply) : List Key → Program Op Reply
  | [] => next
  | k :: spent => .step (.decr k) fun _ => rollback next spent

def refuse (send : Send) (cap : Cap) (spent : List Key) : Program Op Reply := rollback (answer send (.rateLimited cap)) spent

def bump (k : Key) (exceeded within : Program Op Reply) : Program Op Reply :=
  .step (.incr k) fun n =>
    let next := if limit caps k < n then exceeded else within
    if n = 1 then .step .expire fun _ => next else next

/-- A recipient that is already in the set is free. -/
def distinct (send : Send) (spent : List Key) : Program Op Reply :=
  .step (.pfadd send.project send.day send.recipient) fun added =>
    if added then .step .expire fun _ => .step (.pfcount send.project send.day) fun n =>
      if (caps send.project).distinctRecipientsPerDay < n then refuse send .distinctRecipientsPerDay spent
      else answer send .allowed
    else answer send .allowed

/-- The tightest caps first. -/
def spend (send : Send) : Program Op Reply :=
  let rh := .recipientHour send.project send.recipient send.hour
  let rd := .recipientDay send.project send.recipient send.day
  let h := .hour send.project send.hour
  let d := .day send.project send.day
  bump caps rh (refuse send .perRecipientPerHour [rh]) <|
    bump caps rd (refuse send .perRecipientPerDay [rh, rd]) <|
      bump caps h (refuse send .perHour [rh, rd, h]) <|
        bump caps d (refuse send .perDay [rh, rd, h, d]) <|
          distinct caps send [rh, rd, h, d]

structure Suppression where
  global : Bool
  project : Bool
deriving DecidableEq

def checkAndConsume (send : Send) (suppression : Suppression) : Program Op Reply :=
  if suppression.global then answer send (.suppressed .global)
  else if suppression.project then answer send (.suppressed .project)
  else spend caps send

structure Request where
  send : Send
  suppression : Suppression

def checks : Protocol Client Store Op Bool Request Reply where
  exec := exec caps
  abort := abort
  program q := checkAndConsume caps q.send q.suppression

end Checks

end Corebase.MailCaps
