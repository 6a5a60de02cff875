import Corebase.Interleaving
import Corebase.RowLocks

namespace Corebase.SecretStore

open Interleaving RowLocks

abbrev Client := Nat
abbrev Version := Nat
abbrev Value := Nat
abbrev Time := Nat

/-- A version of the secret, with the value that its ciphertext decrypts to under its own number. -/
structure Secret where
  value : Value
  active : Bool
  rotatedAt : Option Time
deriving DecidableEq

/-- The versions of one name of one project. -/
structure Store where
  rows : Table Client Version Secret
  /-- The versions that were written with what they hold, the newest first. -/
  written : List (Version × Value)
  /-- The rotations that a constraint has failed. -/
  failed : List Client

inductive Op
  | active
  /-- The locking read of a version that the snapshot of the statement has as the active one. -/
  | lockActive (v : Version)
  | top
  | demote
  | generate
  | insertActive (v : Version) (value : Value)
  | insertFirst (value : Value)
  | purge (age : Time)
  | commit (v : Version) (value : Value)
  | rollback
deriving DecidableEq

@[reducible] def Reply : Op → Type
  | .active => Option (Version × Secret)
  | .lockActive _ => Option Secret
  | .top => Version
  | .generate => Value
  | .insertActive .. | .insertFirst _ => Bool
  | .demote | .purge _ | .commit .. | .rollback => Unit

structure Chance where
  now : Time
  secret : Value

/-- The active version that a statement of the client sees. -/
def activeRow (c : Client) (s : Store) : Option (Version × Secret) := (s.rows.rows c).find? fun row => row.2.active

/-- The highest version that a statement of the client sees, or zero. -/
def maxVersion (c : Client) (s : Store) : Version := ((s.rows.rows c).map Prod.fst).max?.getD 0

/-- Another client is about to make a version active, or the active one inactive. -/
def contended (c : Client) (s : Store) : Bool := s.rows.keys.any fun k => match s.rows.lock k with
  | some (d, v) => d ≠ c && v.any (·.active) != (s.rows.committed k).any (·.active)
  | none => false

def expired (age now : Time) (row : Secret) : Bool := !row.active && row.rotatedAt.any fun t => t + age < now

/-- A version that is written and committed in one statement. -/
def writeFirst (c : Client) (value : Value) (s : Store) : Store :=
  { s with rows := (s.rows.write c 1 (some ⟨value, true, none⟩)).commit c, written := (1, value) :: s.written }

def exec (c : Client) (chance : Chance) : (op : Op) → Store → Option (Reply op × Store)
  | .active, s => some (activeRow c s, s)
  | .lockActive v, s =>
      if s.rows.free c v then
        match s.rows.view c v with
        | some row => if row.active then some (some row, { s with rows := s.rows.write c v (some row) })
            else some (none, s)
        | none => some (none, s)
      else none
  | .top, s => some (maxVersion c s, s)
  | .demote, s =>
      match activeRow c s with
      | some (v, row) => if s.rows.free c v then
            some ((), { s with rows := s.rows.write c v (some ⟨row.value, false, some chance.now⟩) })
          else none
      | none => some ((), s)
  | .generate, s => some (chance.secret, s)
  | .insertActive v value, s =>
      if contended c s then none
      else if (s.rows.view c v).isSome || (activeRow c s).isSome then
        some (false, { s with failed := c :: s.failed })
      else if s.rows.free c v then some (true, { s with rows := s.rows.write c v (some ⟨value, true, none⟩) })
      else none
  | .insertFirst value, s =>
      if (s.rows.view c 1).isSome then some (false, s)
      else if contended c s then none
      -- with another active version ensure does nothing, and put fails
      else if (activeRow c s).isSome then some (false, s)
      else if s.rows.free c 1 then some (true, writeFirst c value s)
      else none
  | .purge age, s =>
      if s.rows.keys.any fun k => (s.rows.committed k).any (expired age chance.now) && (s.rows.lock k).isSome then none
      else some ((), { s with rows := s.rows.sweep (expired age chance.now) })
  | .commit v value, s => some ((), { s with rows := s.rows.commit c, written := (v, value) :: s.written })
  | .rollback, s => some ((), { s with rows := s.rows.rollback c })

def abort (c : Client) (s : Store) : Store := { s with rows := s.rows.rollback c }

def rolledBack : Program Op Reply := .step .rollback fun _ => .done

def get : Program Op Reply := .step .active fun _ => .done

def put (value : Value) : Program Op Reply := .step (.insertFirst value) fun _ => .done

def ensure : Program Op Reply :=
  .step .active fun
    | some _ => .done
    | none => .step .generate fun value => .step (.insertFirst value) fun inserted =>
        if inserted then .done else .step .active fun _ => .done

def purgeRetired (age : Time) : Program Op Reply := .step (.purge age) fun _ => .done

def insertNext (v : Version) (value : Value) : Program Op Reply :=
  .step (.insertActive v value) fun ok => if ok then .step (.commit v value) fun _ => .done else rolledBack

/-- The rest of a rotation from its locking read, which has come back with a row or without one. -/
def storeNext (value : Option Value) (cur : Bool) : Program Op Reply :=
  .step .top fun top =>
    let write := match value with
      | some value => insertNext (top + 1) value
      | none => .step .generate fun value => insertNext (top + 1) value
    if cur then .step .demote fun _ => write else write

/-- The locking read finds the active row in its snapshot, waits for it and looks at it again. -/
def next (value : Option Value) : Program Op Reply :=
  .step .active fun
    | none => storeNext value false
    | some (v, _) => .step (.lockActive v) fun row => storeNext value row.isSome

def replace (value : Value) : Program Op Reply := next (some value)

def rotate : Program Op Reply := next none

inductive Request
  | get
  | put (value : Value)
  | ensure
  | replace (value : Value)
  | rotate
  | purgeRetired (age : Time)

def Request.program : Request → Program Op Reply
  | .get => SecretStore.get
  | .put value => SecretStore.put value
  | .ensure => SecretStore.ensure
  | .replace value => SecretStore.replace value
  | .rotate => SecretStore.rotate
  | .purgeRetired age => SecretStore.purgeRetired age

def secrets : Protocol Client Store Op Chance Request Reply := ⟨exec, abort, Request.program⟩

end Corebase.SecretStore
