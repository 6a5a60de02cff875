import Corebase.TokenLedger

namespace Corebase.MailQueue

open Interleaving AccountStore AccountFlows TokenLedger

/-- The id <template>_<user id> of a mail with a link, whose template is that of the token's type. -/
abbrev DeliveryId := TokenType × UserId

inductive MailState
  | waiting | active | completed | failed
deriving DecidableEq

def MailState.finished : MailState → Bool
  | .completed | .failed => true
  | _ => false

inductive SendStatus
  | queued | suppressed | rateLimited
deriving DecidableEq

/-- What the suppression lists and the caps say of an address, or that asking them fails. -/
inductive Verdict
  | allowed | suppressed | rateLimited | error
deriving DecidableEq

/-- The accounts of a project, and the mails that it owes and has sent. -/
structure World where
  accounts : AccountStore.Store
  verdict : Address → Verdict
  sends : DeliveryId → Option SendStatus
  /-- The jobs that the queue has or still remembers. -/
  queue : List (DeliveryId × MailState)
  /-- The token that a request has issued and not yet handed over to the mailer. -/
  drafting : Client → Option Secret

inductive Op
  | account (op : AccountStore.Op)
  /-- The suppression lists or the counters of the caps change. -/
  | rule (recipient : Address) (verdict : Verdict)
  | settle (id : DeliveryId) (state : MailState)
  | evict (id : DeliveryId)
deriving DecidableEq

@[reducible] def Reply : Op → Type
  | .account op => AccountStore.Reply op
  | .rule .. | .settle .. | .evict _ => Unit

namespace World

variable (w : World)

def knows (id : DeliveryId) : Bool := w.queue.any fun job => job.1 = id

def record (id : DeliveryId) (status : SendStatus) : World :=
  { w with sends := Function.update w.sends id (some status) }

/-- Whether a job has been added. -/
def enqueueAuthEmail (id : DeliveryId) : Bool × World :=
  if w.knows id then (false, w) else (true, { w with queue := (id, .waiting) :: w.queue })

def handle (id : DeliveryId) (recipient : Address) : Bool × World :=
  match w.verdict recipient with
  | .suppressed => (false, w.record id .suppressed)
  | .rateLimited => (false, w.record id .rateLimited)
  | .allowed => (w.record id .queued).enqueueAuthEmail id
  | .error => (false, w)

def deliveryId (u : UserId) (x : Secret) : Option DeliveryId := (origin x w.accounts.history).map fun o => (o.type, u)

def draft (c : Client) (x : Option Secret) : World := { w with drafting := Function.update w.drafting c x }

/-- The mailer, as it is called with the link of a token. -/
def mail (u : UserId) (x : Secret) (recipient : Address) : Bool × World :=
  match w.deliveryId u x with
  | none => (false, w)
  | some id => w.handle id recipient

end World

/-- A statement on the accounts alone. -/
def execAccount (c : Client) (chance : Chance) (op : AccountStore.Op) (w : World) : Option (AccountStore.Reply op × World) :=
  (AccountStore.exec c chance op w.accounts).map fun (r, s) => (r, { w with accounts := s })

def exec (c : Client) (chance : Chance) : (op : Op) → World → Option (Reply op × World)
  | .account (.mail u x recipient), w =>
      let (added, w') := w.mail u x recipient
      (execAccount c (if added then .usual else .other) (.mail u x recipient) w').map fun (r, w'') => (r, w''.draft c none)
  | .account (.issueOneTimeToken u type relatesTo partner), w =>
      (execAccount c chance (.issueOneTimeToken u type relatesTo partner) w).map fun (x, w') => (x, w'.draft c (some x))
  | .account op, w => execAccount c chance op w
  | .rule recipient verdict, w => some ((), { w with verdict := Function.update w.verdict recipient verdict })
  | .settle id state, w => some ((), { w with queue := w.queue.map fun job => if job.1 = id then (id, state) else job })
  | .evict id, w => some ((), { w with queue := w.queue.filter fun job => !(job.1 = id && job.2.finished) })

def lift : Program AccountStore.Op AccountStore.Reply → Program Op Reply
  | .done => .done
  | .step op next => .step (.account op) fun r => lift (next r)

inductive Request
  | account (q : AccountFlows.Request)
  | rule (recipient : Address) (verdict : Verdict)
  | settle (id : DeliveryId) (state : MailState)
  | evict (id : DeliveryId)
deriving DecidableEq

def program (config : AccountFlows.Config) : Request → Program Op Reply
  | .account q => lift (AccountFlows.program config q)
  | .rule recipient verdict => .step (.rule recipient verdict) fun _ => .done
  | .settle id state => .step (.settle id state) fun _ => .done
  | .evict id => .step (.evict id) fun _ => .done

def mailing (config : AccountFlows.Config) : Protocol Client World Op Chance Request Reply where
  exec := exec
  abort c w := w.draft c none
  program := program config

end Corebase.MailQueue
