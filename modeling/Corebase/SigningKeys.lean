import Corebase.Interleaving
import Mathlib.Data.List.Sort

namespace Corebase.SigningKeys

open Interleaving

abbrev Client := Nat
abbrev Kid := Nat

/-- A keypair, by either of its halves. A signature of the private half verifies under its own public half only. -/
abbrev Key := Nat

abbrev Ref := Nat

inductive SecretName
  | jwtPrivateKey | jwtPublicKey | jwtKid
  /-- The name of a private half that does not sign. -/
  | privateKeyName (kid : Kid)
deriving DecidableEq

inductive KeyStatus
  | next | retiring | retired
deriving DecidableEq

inductive PublishedStatus
  | active
  | row (status : KeyStatus)
deriving DecidableEq

structure SigningKey where
  kid : Kid
  publicKey : Key
  status : KeyStatus
  publishedAt : Nat
  retireAfter : Option Nat
deriving DecidableEq

structure PublishedKey where
  kid : Kid
  publicKey : Key
  status : PublishedStatus
deriving DecidableEq

inductive Role
  | anon | serviceRole | authenticated
deriving DecidableEq

structure Claims where
  ref : Ref
  role : Role
  iat : Nat
  exp : Nat
deriving DecidableEq

/-- A token with the key that has signed it. -/
structure Token where
  key : Key
  kid : Kid
  claims : Claims
deriving DecidableEq

structure Store where
  ref : Option Ref
  secrets : SecretName → Option Nat
  rows : List SigningKey
  /-- The secrets ANON_KEY and SERVICE_ROLE_KEY. -/
  apiSecrets : Role → Option Token
  apiKeys : List (Role × Token)
  /-- The client whose command was started last. -/
  latest : Client
  /-- The private key has been replaced, and the kid not yet. -/
  swapping : Bool
  /-- The keypairs that have been stored. -/
  generated : List (Kid × Key)
  issued : List Token

namespace Store

variable (s : Store)

def active : List PublishedKey := match s.secrets .jwtPublicKey, s.secrets .jwtKid with
  | some publicKey, some kid => [⟨kid, publicKey, .active⟩]
  | _, _ => []

/-- The keys that a verifier should accept, the active one first. -/
def publishedKeys : List PublishedKey :=
  s.active ++ ((s.rows.filter fun row => row.status = .next || row.status = .retiring).insertionSort
    fun row row' => row.publishedAt ≤ row'.publishedAt).map fun row => ⟨row.kid, row.publicKey, .row row.status⟩

def nextKey : Option SigningKey := s.rows.find? fun row => row.status = .next

def setSecret (name : SecretName) (value : Nat) : Store :=
  { s with secrets := Function.update s.secrets name (some value) }

def keepPair (name : SecretName) (value : Nat) : Store := match name with
  | .privateKeyName kid => { s with generated := (kid, value) :: s.generated }
  | _ => s

/-- No other key has been stored under the kid. -/
def named (kid : Kid) (key : Key) : Bool := s.generated.all fun pair => pair.1 ≠ kid || pair.2 = key

end Store

/-- Seconds of tolerance for clock skew. -/
def clockTolerance : Nat := 60

def projectKeyTtl : Nat := 10 * 365 * 24 * 60 * 60

def verify (k : PublishedKey) (now : Nat) (t : Token) : Bool :=
  k.kid = t.kid && t.key = k.publicKey && !decide (t.claims.exp + clockTolerance < now) &&
    !decide (now + clockTolerance < t.claims.iat)

/-- The kid of the token has a published key, and every published key of that kid verifies it. -/
def accepted (s : Store) (now : Nat) (t : Token) : Bool :=
  (s.publishedKeys.any fun k => k.kid = t.kid) && s.publishedKeys.all fun k => k.kid ≠ t.kid || verify k now t

inductive Op
  | next
  | row (kid : Kid)
  | get (name : SecretName)
  | ref
  | clock
  | generate
  | put (name : SecretName) (value : Nat)
  | replace (name : SecretName) (value : Nat)
  | insertNext (kid : Kid) (key : Key)
  | insertRetiring (kid : Kid) (key : Key) (retireAfter : Nat)
  | deleteKey (kid : Kid)
  | setRetired (kid : Kid)
  | replaceApiKey (role : Role) (t : Token)
  | insertApiKey (role : Role) (t : Token)
  | issue (t : Token)
deriving DecidableEq

@[reducible] def Reply : Op → Type
  | .next | .row _ => Option SigningKey
  | .get _ | .ref => Option Nat
  | .clock => Nat
  | .generate => Kid × Key
  | .insertNext .. => Bool
  | _ => Unit

structure Chance where
  now : Nat
  pair : Kid × Key

def exec (c : Client) (chance : Chance) : (op : Op) → Store → Option (Reply op × Store)
  | .next, s => some (s.nextKey, { s with latest := c })
  | .row kid, s => some (s.rows.find? fun row => row.kid = kid, { s with latest := c })
  | .get name, s => some (s.secrets name, s)
  | .ref, s => some (s.ref, s)
  | .clock, s => some (chance.now, s)
  | .generate, s => some (chance.pair, s)
  | .put name value, s =>
      if (s.secrets name).isSome then some ((), s) else some ((), (s.setSecret name value).keepPair name value)
  | .replace name value, s =>
      let s' := s.setSecret name value
      match name with
      | .jwtPrivateKey => some ((), { s' with swapping := true })
      | .jwtKid => some ((), { s' with swapping := false })
      | _ => some ((), s')
  | .insertNext kid key, s =>
      if s.rows.any fun row => row.kid = kid || row.status = .next then some (false, s)
      else some (true, { s with rows := s.rows ++ [⟨kid, key, .next, chance.now, none⟩] })
  | .insertRetiring kid key retireAfter, s =>
      if s.rows.any fun row => row.kid = kid then
        some ((), { s with rows := s.rows.map fun row =>
          if row.kid = kid then { row with status := .retiring, retireAfter := some retireAfter } else row })
      else some ((), { s with rows := s.rows ++ [⟨kid, key, .retiring, chance.now, some retireAfter⟩] })
  | .deleteKey kid, s => some ((), { s with rows := s.rows.filter fun row => row.kid ≠ kid })
  | .setRetired kid, s =>
      some ((), { s with rows := s.rows.map fun row => if row.kid = kid then { row with status := .retired } else row })
  | .replaceApiKey role t, s =>
      some ((), { s with apiSecrets := Function.update s.apiSecrets role (some t), issued := t :: s.issued })
  | .insertApiKey role t, s => some ((), { s with apiKeys := s.apiKeys.insert (role, t) })
  | .issue t, s => some ((), { s with issued := t :: s.issued })

structure Options where
  minAgeMs : Option Nat
  force : Bool

def Options.minAge (opts : Options) : Nat := opts.minAgeMs.getD (10 * 60000)

def signing : List SecretName := [.jwtPrivateKey, .jwtPublicKey, .jwtKid]

/-- The order in which the three reads of a Promise.all are answered. -/
def Order := { names : List SecretName // names.Perm signing }

def getAll (found : SecretName → Option Nat) : List SecretName → ((SecretName → Option Nat) → Program Op Reply) →
    Program Op Reply
  | [], next => next found
  | name :: names, next => .step (.get name) fun value => getAll (Function.update found name value) names next

def beginRotation : Program Op Reply :=
  .step .next fun
    | some _ => .done
    | none => .step .generate fun pair => .step (.put (.privateKeyName pair.1) pair.2) fun _ =>
        .step (.insertNext pair.1 pair.2) fun _ => .done

def remintApiKeys (ref : Ref) (key : Key) (kid : Kid) : List Role → Program Op Reply
  | [] => .done
  | role :: roles => .step .clock fun now =>
      let t : Token := ⟨key, kid, ref, role, now / 1000, now / 1000 + projectKeyTtl⟩
      .step (.replaceApiKey role t) fun _ => .step (.insertApiKey role t) fun _ => remintApiKeys ref key kid roles

def swap (ref : Ref) (incoming : SigningKey) (newPriv : Key) : Program Op Reply :=
  .step (.replace .jwtPrivateKey newPriv) fun _ =>
    .step (.replace .jwtPublicKey incoming.publicKey) fun _ =>
      .step (.replace .jwtKid incoming.kid) fun _ =>
        .step (.deleteKey incoming.kid) fun _ => remintApiKeys ref newPriv incoming.kid [.anon, .serviceRole]

/-- The old key becomes `retiring`, and its private half is kept under its own name. -/
def keepOld (window : Nat) (oldPriv : Option Key) (oldPub : Key) (oldKid : Kid) (next : Program Op Reply) :
    Program Op Reply :=
  .step .clock fun now => .step (.insertRetiring oldKid oldPub (now + window)) fun _ =>
    match oldPriv with
    | some oldPriv => .step (.put (.privateKeyName oldKid) oldPriv) fun _ => next
    | none => next

def cutOver (window : Nat) (order : Order) (opts : Options) : Program Op Reply :=
  .step .next fun
    | none => .done
    | some incoming => .step .clock fun now =>
        if !opts.force && now < incoming.publishedAt + opts.minAge then .done
        else getAll (fun _ => none) order.1 fun old =>
          match old .jwtPublicKey, old .jwtKid with
          | some oldPub, some oldKid => .step (.get (.privateKeyName incoming.kid)) fun
              | none => .done
              | some newPriv => .step .ref fun
                  | none => .done
                  | some ref => keepOld window (old .jwtPrivateKey) oldPub oldKid (swap ref incoming newPriv)
          | _, _ => .done

def retire (kid : Kid) (force : Bool) : Program Op Reply :=
  .step (.row kid) fun
    | none => .done
    | some row =>
        match row.status with
        | .retired => .done
        | .next => .step (.setRetired kid) fun _ => .done
        | _ => .step .clock fun now =>
            if !force && row.retireAfter.any fun t => now < t then .done else .step (.setRetired kid) fun _ => .done

/-- A sign-in: the keys of the project are read, and its access token is signed with them. -/
def sign (order : Order) (ttl : Nat) : Program Op Reply :=
  .step .ref fun
    | none => .done
    | some ref => getAll (fun _ => none) order.1 fun found =>
        match found .jwtPrivateKey, found .jwtPublicKey, found .jwtKid with
        | some key, some _, some kid => .step .clock fun now =>
            .step (.issue ⟨key, kid, ref, .authenticated, now / 1000, now / 1000 + ttl⟩) fun _ => .done
        | _, _, _ => .done

inductive Request
  | beginRotation
  | cutOver (order : Order) (opts : Options)
  | retire (kid : Kid) (force : Bool)
  | sign (order : Order) (ttl : Nat)

def Request.program (window : Nat) : Request → Program Op Reply
  | .beginRotation => SigningKeys.beginRotation
  | .cutOver order opts => SigningKeys.cutOver window order opts
  | .retire kid force => SigningKeys.retire kid force
  | .sign order ttl => SigningKeys.sign order ttl

def rotation (window : Nat) : Protocol Client Store Op Chance Request Reply :=
  ⟨exec, fun _ s => s, Request.program window⟩

end Corebase.SigningKeys
