import Corebase.Jwt
import Corebase.ProjectRoutes
import Corebase.SigningKeys

namespace Corebase.DataPlane

open Json Jwt
open ProvisioningJobs (ProjectStatus)
open ProjectRoutes (statusText)
open SigningKeys (KeyStatus)

/-- A stored secret as it is read; an empty one counts as absent. -/
inductive Secret (α : Type)
  | absent
  | unreadable
  | present (value : α)
deriving DecidableEq

/-- The placement of a project: the address of its node, the port of its database and of its PostgREST. -/
structure Database where
  address : Option Str
  port : Nat
  postgrestPort : Option Nat
deriving DecidableEq

structure SigningKey (Key : Type) where
  kid : Str
  publicKey : Key
  status : KeyStatus
deriving DecidableEq

structure ApiKey (Hash : Type) where
  keyHash : Hash
  revoked : Bool
deriving DecidableEq

structure Project (Key Hash : Type) where
  id : Nat
  ref : Str
  status : ProjectStatus
  database : Option Database
  jwtPrivateKey : Secret Unit
  jwtPublicKey : Secret Key
  jwtKid : Secret Str
  authRole : Secret Unit
  signingKeys : List (SigningKey Key)
  apiKeys : List (ApiKey Hash)
deriving DecidableEq

structure PublishedKey (Key : Type) where
  kid : Str
  publicKey : Key
deriving DecidableEq

structure RouteEntry (Key Hash : Type) where
  projectId : Nat
  ref : Str
  status : ProjectStatus
  nodeAddress : Option Str
  postgrestPort : Option Nat
  jwks : List (PublishedKey Key)
  revoked : List Hash
deriving DecidableEq

section Routing

variable {Key Hash : Type}

def activeKey (project : Project Key Hash) : Option (PublishedKey Key) :=
  match project.jwtPublicKey, project.jwtKid with
  | .present publicKey, .present kid => some ⟨kid, publicKey⟩
  | _, _ => none

/-- The keys that are published and do not sign. -/
def extraKeys (project : Project Key Hash) : List (PublishedKey Key) :=
  (project.signingKeys.filter fun k => k.status = .next || k.status = .retiring).map fun k => ⟨k.kid, k.publicKey⟩

def published (project : Project Key Hash) : List (PublishedKey Key) :=
  (activeKey project).toList ++ extraKeys project

def revokedHashes (project : Project Key Hash) : List Hash :=
  (project.apiKeys.filter (·.revoked)).map (·.keyHash)

def entryOf (project : Project Key Hash) : RouteEntry Key Hash where
  projectId := project.id
  ref := project.ref
  status := project.status
  nodeAddress := project.database.bind (·.address)
  postgrestPort := project.database.bind (·.postgrestPort)
  jwks := published project
  revoked := revokedHashes project

/-- The table that a refresh puts in the place of the last one. -/
def load (projects : List (Project Key Hash)) : List (RouteEntry Key Hash) :=
  (projects.filter fun p => p.status ≠ .deleted).map entryOf

def lookup (table : List (RouteEntry Key Hash)) (ref : Str) : Option (RouteEntry Key Hash) :=
  table.find? fun entry => entry.ref = ref

end Routing

def lowerUnit (u : Nat) : Nat := if 65 ≤ u ∧ u ≤ 90 then u + 32 else u

def isRefUnit (u : Nat) : Bool := (97 ≤ u && u ≤ 122) || (48 ≤ u && u ≤ 57)

def refFromHost (host : Option Str) (domain : Str) : Option Str :=
  host.bind fun host =>
    let bare := (host.takeWhile (· ≠ ':'.toNat)).map lowerUnit
    let tail := '.'.toNat :: domain.map lowerUnit
    if tail.isSuffixOf bare then
      let sub := bare.take (bare.length - tail.length)
      if sub.all isRefUnit && 8 ≤ sub.length && sub.length ≤ 32 then some sub else none
    else none

inductive KeyRole
  | anon | serviceRole
deriving DecidableEq

def KeyRole.text : KeyRole → Str
  | .anon => str "anon".toList
  | .serviceRole => str "service_role".toList

/-- `String(claims[name] ?? '')` -/
def claimText (claims : JsValue) (name : String) : Option Str := orEmpty (property claims name)

/-- The origin of a project, which the provisioning puts into its keys as the issuer. -/
def keyIssuerFor (ref domain : Str) : Str := str "https://".toList ++ ref ++ '.'.toNat :: domain

inductive KeyVerdict
  | ok | mismatch | invalid
deriving DecidableEq

structure Request where
  host : Option Str
  apikey : Option Str
  authorization : Option Str
  /-- Set where a rate limit refuses the request, to the seconds it has to wait. -/
  limited : Option Nat
deriving DecidableEq

structure Refusal where
  status : Nat
  code : String
  message : String
deriving DecidableEq

section Gateway

variable {Key Hash : Type} [DecidableEq Hash] (ecdsa : Key → Str → List Nat → Bool) (hash : Str → Hash)
  (domain : Str) (now : Nat)

def isKeyRole (role : Option (Option JsValue)) : Bool := isString role KeyRole.anon.text || isString role KeyRole.serviceRole.text

/-- The key of the entry that the header names. -/
def namedKey (jwks : List (PublishedKey Key)) (header : JsValue) : Option (PublishedKey Key) :=
  match property header "kid" with
  | some (some (.scalar (.string kid))) => if kid = [] then none else jwks.find? fun k => k.kid = kid
  | _ => none

def verifyApiKey (apikey : Str) (entry : RouteEntry Key Hash) : KeyVerdict :=
  match decodeUnverified apikey with
  | none => .invalid
  | some decoded =>
      match claimText decoded.claims "ref", claimText decoded.claims "iss" with
      | some claimedRef, some claimedIss =>
          if !isKeyRole (property decoded.claims "role") then .invalid
          else
            match namedKey entry.jwks decoded.header with
            | none => .invalid
            | some jwk =>
                if !verify ecdsa jwk.publicKey (some jwk.kid) none now apikey then .invalid
                else if claimedRef ≠ entry.ref then .mismatch
                else if claimedIss ≠ keyIssuerFor entry.ref domain then .mismatch
                else .ok
      | _, _ => .invalid

/-- The refusals by the status of the project. -/
def checkStatus (entry : RouteEntry Key Hash) : Except Refusal (RouteEntry Key Hash) :=
  match entry.status with
  | .ready => .ok entry
  | .paused | .pausing =>
      .error ⟨503, "project_resuming", "Project is resuming; retry after the indicated delay."⟩
  | .softDeleted | .deleting => .error ⟨410, "project_deleted", "This project has been deleted."⟩
  | status => .error ⟨503, "service_unavailable", "This project is " ++ statusText status ++ " and is not serving yet."⟩

def admitRequest (table : List (RouteEntry Key Hash)) (req : Request) : Except Refusal (RouteEntry Key Hash) :=
  match (refFromHost req.host domain).bind (lookup table) with
  | none => .error ⟨404, "project_not_found", "No such project."⟩
  | some entry =>
      let apikey := req.apikey.getD []
      if apikey = [] then
        .error ⟨401, "missing_api_key", "Every data-plane request needs the project's API key in the `apikey` header."⟩
      else if hash apikey ∈ entry.revoked then .error ⟨401, "invalid_api_key", "That API key has been revoked."⟩
      else
        match verifyApiKey ecdsa domain now apikey entry with
        | .invalid => .error ⟨401, "invalid_api_key", "That API key is not valid for this project."⟩
        | .mismatch => .error ⟨403, "project_mismatch", "That API key was issued for a different project."⟩
        | .ok =>
            match req.limited with
            | some seconds => .error ⟨429, "rate_limited", "Too many requests. Retry in " ++ toString seconds ++ "s."⟩
            | none => checkStatus entry

def bearer (token : Str) : Str := str "Bearer ".toList ++ token

/-- PostgREST of the project has an address. -/
def placed (entry : RouteEntry Key Hash) : Bool :=
  entry.nodeAddress.any (· ≠ []) && entry.postgrestPort.any (· ≠ 0)

/-- The project whose PostgREST a request is sent to, with the authorization it is sent with. -/
def proxy (table : List (RouteEntry Key Hash)) (req : Request) : Option (RouteEntry Key Hash × Str) :=
  match admitRequest ecdsa hash domain now table req with
  | .error _ => none
  | .ok entry => if placed entry then some (entry, req.authorization.getD (bearer (req.apikey.getD []))) else none

end Gateway

/-! The entrance of the auth and storage modules -/

structure ProjectContext where
  projectId : Nat
  ref : Str
  keyRole : KeyRole
deriving DecidableEq

structure AuthContextError where
  status : Nat
  message : String
deriving DecidableEq

def keyRole (role : Str) : Option KeyRole :=
  if role = KeyRole.anon.text then some .anon
  else if role = KeyRole.serviceRole.text then some .serviceRole
  else none

section Entrance

variable {Key Hash : Type} (ecdsa : Key → Str → List Nat → Bool) (lower : Str → Str) (domain : Str)
  (keyIssuer : Option Str) (now : Nat)

/-- The row of the project that the ref names, with its placement; `lower` is how `citext` folds case. -/
def projectRow (projects : List (Project Key Hash)) (ref : Str) : Option (Project Key Hash × Database) :=
  (projects.find? fun p => lower p.ref = lower ref && p.database.isSome).bind fun p => p.database.map fun d => (p, d)

def unauthorized (message : String) : Except AuthContextError ProjectContext := .error ⟨401, message⟩

def unavailable (message : String) : Except AuthContextError ProjectContext := .error ⟨503, message⟩

/-- Anything else that is thrown. -/
def unhandled : Except AuthContextError ProjectContext := .error ⟨500, ProjectRoutes.ApiError.unhandled.message⟩

/-- What follows on the verification of the key. -/
def serveProject (project : Project Key Hash) (database : Database) (role : KeyRole) :
    Except AuthContextError ProjectContext :=
  if project.status ≠ .ready then
    unavailable ("This project is " ++ statusText project.status ++ ", so its auth endpoints are not serving.")
  else if !database.address.any (· ≠ []) then unavailable "This project has no reachable database yet."
  else
    match project.authRole with
    | .unreadable => unhandled
    | .absent => unavailable "This project has no auth-role credential. It predates the auth schema."
    | .present _ => .ok ⟨project.id, project.ref, role⟩

def resolveProject (projects : List (Project Key Hash)) (apikey : Option Str) :
    Except AuthContextError ProjectContext :=
  let apikey := apikey.getD []
  if apikey = [] then unauthorized "This endpoint needs your project's anon key in the `apikey` header."
  else
    match (decodeUnverified apikey).bind fun decoded =>
        (claimText decoded.claims "ref").bind fun ref => (claimText decoded.claims "role").map fun role => (ref, role) with
    | none => unauthorized "The `apikey` header is not a Steadhold API key."
    | some (claimedRef, claimedRole) =>
        if claimedRef = [] then unauthorized "That API key names no project."
        else
          match keyRole claimedRole with
          | none => unauthorized "That is not a project API key. Use the project's anon or service_role key."
          | some role =>
              match projectRow lower projects claimedRef with
              | none => unauthorized "That API key is not valid for this deployment."
              | some (project, database) =>
                  match project.jwtPrivateKey, project.jwtPublicKey, project.jwtKid with
                  | .unreadable, _, _ | _, .unreadable, _ | _, _, .unreadable => unhandled
                  | .present _, .present publicKey, .present kid =>
                      if (⟨kid, publicKey⟩ :: extraKeys project).any fun k =>
                          verify ecdsa k.publicKey none (some (keyIssuer.getD (keyIssuerFor project.ref domain))) now apikey
                      then serveProject project database role
                      else unauthorized "That API key is not valid for this deployment."
                  | _, _, _ =>
                      unavailable "This project has no signing key yet. It is probably still being created."

end Entrance

end Corebase.DataPlane
