import Corebase.Interleaving
import Corebase.JsText
import Mathlib.Data.List.AList

namespace Corebase.Sessions

open Interleaving
open JsText (Text)

/-- A call under way. -/
abbrev Client := Nat
abbrev UserId := Nat
/-- Seconds. -/
abbrev Time := Nat
/-- A key under the prefix of the sessions. -/
abbrev Key := Text

def idleTtlSeconds : Time := 7 * 24 * 60 * 60

def absoluteTtlSeconds : Time := 30 * 24 * 60 * 60

structure SessionRecord where
  userId : UserId
  csrf : Text
  createdAt : Time
  lastSeenAt : Time
deriving DecidableEq

structure Session where
  id : Text
  record : SessionRecord
deriving DecidableEq

def SessionRecord.expired (record : SessionRecord) (now : Time) : Bool := absoluteTtlSeconds < now - record.createdAt

/-- An id that names no session. -/
def unusable (id : Text) : Bool := id = [] || 128 < JsText.length id

/-- The text under a key, none where it does not parse. -/
structure Entry where
  raw : Option SessionRecord
  deadline : Time
deriving DecidableEq

inductive Answer
  | created (session : Session)
  | touched (session : Option Session)
  | destroyed (id : Text)
  | destroyedAll (user : UserId) (removed : Nat)
deriving DecidableEq

structure Answered where
  answer : Answer
  /-- The session had been ended before the call. -/
  late : Bool
deriving DecidableEq

structure Store where
  data : AList fun _ : Key => Entry
  now : Time
  /-- The keys that an iteration of the keyspace has still to come to, if they stay. -/
  pending : Client → List Key
  /-- The keys of the sessions that have been created, and their users. -/
  issued : List (Key × UserId)
  /-- Those there were when the call or its iteration began. -/
  covered : Client → List (Key × UserId)
  /-- The keys of the sessions that have been ended. -/
  ended : List Key
  late : Client → Bool
  /-- The newest first. -/
  answers : List Answered

inductive Op
  /-- A call about one session begins. -/
  | begin (id : Text)
  | random
  | clock
  | get (k : Key)
  | set (k : Key) (record : SessionRecord)
  /-- The SET of a session that is created. -/
  | add (k : Key) (record : SessionRecord)
  | del (k : Key)
  | scan (cursor : Nat)
  | answer (a : Answer)
  | pass (d : Time)
deriving DecidableEq

@[reducible] def Reply : Op → Type
  | .random => Text × Text
  | .clock => Time
  | .get _ => Option (Option SessionRecord)
  | .scan _ => Nat × List Key
  | .begin _ | .set .. | .add .. | .del _ | .answer _ | .pass _ => Unit

/-- What the store does not decide: what is drawn, what the clock of the process shows, and how far an iteration gets. -/
structure Chance where
  id : Text
  csrf : Text
  clock : Time
  cursor : Nat
  batch : List Key
deriving Inhabited

namespace Store

def get (s : Store) (k : Key) : Option (Option SessionRecord) :=
  (s.data.lookup k).bind fun e => if s.now ≤ e.deadline then some e.raw else none

/-- An iteration must only come to the keys that are there from its beginning to its end. -/
def set (s : Store) (k : Key) (record : SessionRecord) : Store :=
  { s with
    data := s.data.insert k ⟨some record, s.now + idleTtlSeconds⟩
    pending := if (s.get k).isSome then s.pending else fun d => (s.pending d).filter (· ≠ k) }

def del (s : Store) (k : Key) : Store := { s with data := s.data.erase k }

def started (s : Store) (c : Client) : Store :=
  { s with
    pending := Function.update s.pending c s.data.keys
    covered := Function.update s.covered c s.issued }

end Store

section Redis

variable (key : Text → Key)

/-- The sessions that an answer tells to be over. -/
def closed (c : Client) (s : Store) : Answer → List Key
  | .destroyed id => if id = [] then [] else ((s.covered c).map Prod.fst).filter (· = key id)
  | .destroyedAll user _ => ((s.covered c).filter fun issue => issue.2 = user).map Prod.fst
  | .created _ | .touched _ => []

def exec (c : Client) (chance : Chance) : (op : Op) → Store → Option (Reply op × Store)
  | .begin id, s => some ((), { s with
      late := Function.update s.late c (key id ∈ s.ended)
      covered := Function.update s.covered c s.issued })
  | .random, s => if key chance.id = key [] then none else some ((chance.id, chance.csrf), s)
  | .clock, s => some (chance.clock, s)
  | .get k, s => some (s.get k, s)
  | .set k record, s => some ((), s.set k record)
  | .add k record, s =>
      -- no two sessions are drawn the same id
      if k ∈ s.issued.map Prod.fst then none
      else some ((), { s.set k record with issued := (k, record.userId) :: s.issued })
  | .del k, s => some ((), s.del k)
  | .scan cursor, s =>
      let s := if cursor = 0 then s.started c else s
      let rest := (s.pending c).filter (· ∉ chance.batch)
      if chance.cursor = 0 && rest.any fun k => (s.get k).isSome then none
      else some ((chance.cursor, chance.batch), { s with pending := Function.update s.pending c rest })
  | .answer a, s => some ((), { s with
      ended := closed key c s a ++ s.ended
      answers := ⟨a, s.late c⟩ :: s.answers })
  | .pass d, s => some ((), { s with now := s.now + d })

def answer (a : Answer) : Program Op Reply := .step (.answer a) fun _ => .done

def create (user : UserId) : Program Op Reply :=
  .step .random fun (id, csrf) => .step .clock fun now =>
    let record : SessionRecord := ⟨user, csrf, now, now⟩
    .step (.add (key id) record) fun _ => answer (.created ⟨id, record⟩)

def touch (id : Text) : Program Op Reply :=
  .step (.begin id) fun _ =>
    if unusable id then answer (.touched none)
    else .step (.get (key id)) fun
      | none | some none => answer (.touched none)
      | some (some record) => .step .clock fun now =>
          if record.expired now then .step (.del (key id)) fun _ => answer (.touched none)
          else
            let record := { record with lastSeenAt := now }
            .step (.set (key id) record) fun _ => answer (.touched (some ⟨id, record⟩))

def destroy (id : Text) : Program Op Reply :=
  .step (.begin id) fun _ =>
    if id = [] then answer (.destroyed id) else .step (.del (key id)) fun _ => answer (.destroyed id)

def removeTheirs (user : UserId) (next : Nat → Program Op Reply) : List Key → Nat → Program Op Reply
  | [], removed => next removed
  | k :: ks, removed => .step (.get k) fun
      | none | some none => removeTheirs user next ks removed
      | some (some record) =>
          if record.userId = user then .step (.del k) fun _ => removeTheirs user next ks (removed + 1)
          else removeTheirs user next ks removed

/-- The loop over the keyspace, for as many rounds as it is given. -/
def sweep (user : UserId) : Nat → Nat → Nat → Program Op Reply
  | 0, _, _ => .done
  | rounds + 1, cursor, removed => .step (.scan cursor) fun (next, keys) =>
      removeTheirs user (fun removed => if next = 0 then answer (.destroyedAll user removed) else sweep user rounds next removed)
        keys removed

def destroyAllFor (user : UserId) (rounds : Nat) : Program Op Reply := sweep user rounds 0 0

inductive Call
  | create (user : UserId)
  | touch (id : Text)
  | destroy (id : Text)
  | destroyAllFor (user : UserId)
deriving DecidableEq

def Call.program (rounds : Nat) : Call → Program Op Reply
  | .create user => Sessions.create key user
  | .touch id => Sessions.touch key id
  | .destroy id => Sessions.destroy key id
  | .destroyAllFor user => Sessions.destroyAllFor user rounds

inductive Request
  | call (call : Call) (rounds : Nat)
  | pass (d : Time)

def sessions : Protocol Client Store Op Chance Request Reply where
  exec := exec key
  abort _ s := s
  program
    | .call call rounds => call.program key rounds
    | .pass d => .step (.pass d) fun _ => .done

end Redis

section Memory

/-- The sessions in the memory of the process. -/
abbrev Memory := AList fun _ : Key => SessionRecord

variable (key : Text → Key)

namespace Memory

def create (m : Memory) (now : Time) (id csrf : Text) (user : UserId) : Session × Memory :=
  let record : SessionRecord := ⟨user, csrf, now, now⟩
  (⟨id, record⟩, m.insert (key id) record)

def touch (m : Memory) (now : Time) (id : Text) : Option Session × Memory :=
  if unusable id then (none, m)
  else match m.lookup (key id) with
    | none => (none, m)
    | some record =>
        if record.expired now then (none, m.erase (key id))
        else
          let record := { record with lastSeenAt := now }
          (some ⟨id, record⟩, m.insert (key id) record)

def destroy (m : Memory) (id : Text) : Memory := m.erase (key id)

def theirs (m : Memory) (user : UserId) : List Key :=
  (m.entries.filter fun e => e.2.userId = user).map Sigma.fst

def destroyAllFor (m : Memory) (user : UserId) : Nat × Memory :=
  ((m.theirs user).length, (m.theirs user).foldl (fun m k => m.erase k) m)

def serve (m : Memory) (now : Time) (id csrf : Text) : Call → Answer × Memory
  | .create user => let (session, m) := m.create key now id csrf user; (.created session, m)
  | .touch id => let (session, m) := m.touch key now id; (.touched session, m)
  | .destroy id => (.destroyed id, m.destroy key id)
  | .destroyAllFor user => let (removed, m) := m.destroyAllFor user; (.destroyedAll user removed, m)

end Memory

end Memory

end Corebase.Sessions
