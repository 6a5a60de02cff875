import Corebase.Memberships
import Corebase.ProvisioningJobs

namespace Corebase.ProjectRoutes

open Organizations (OrgId UserId Role)
open Memberships (Capability can)
open ProvisioningJobs (ProjectStatus)

abbrev ProjectId := Nat

inductive ErrorCode
  | validationFailed | unauthorized | projectNotFound | csrfRequired | internal
deriving DecidableEq

structure ApiError where
  statusCode : Nat
  code : ErrorCode
  message : String
deriving DecidableEq

namespace ApiError

def notFound (what : String) : ApiError := ⟨404, .projectNotFound, what ++ " does not exist."⟩

def validation (message : String) : ApiError := ⟨400, .validationFailed, message⟩

def unauthorized : ApiError := ⟨401, .unauthorized, "Missing or invalid credentials."⟩

/-- What the error handler makes of anything else that is thrown. -/
def unhandled : ApiError :=
  ⟨500, .internal, "Something went wrong on our side. Quote the request id if you contact support."⟩

end ApiError

/-- The row of a project in `project_databases`, with the address of its node. -/
structure Database where
  connectionHost : Option String
  address : Option String
  port : Nat
deriving DecidableEq

structure Project where
  id : ProjectId
  ref : String
  organization : OrgId
  status : ProjectStatus
  database : Option Database
deriving DecidableEq

inductive SecretName
  | adminRole | authRole
deriving DecidableEq

structure State where
  projects : List Project
  roleOf : UserId → OrgId → Option Role
  /-- The secret that is read back, or nothing where its ciphertext does not open. -/
  secret : ProjectId → SecretName → Option (Option String)

inductive Route
  | detail | usage | keys | restore | pause | resume | rotateCredentials | retry | delete
  | query | introspect
  | listUsers | getUser | updateUser | deleteUser
  | buckets | objects | sign | deleteObjects
deriving DecidableEq

def Route.mutating : Route → Bool
  | .restore | .pause | .resume | .rotateCredentials | .retry | .delete => true
  | .query | .updateUser | .deleteUser | .sign | .deleteObjects => true
  | .detail | .usage | .keys | .introspect | .listUsers | .getUser | .buckets | .objects => false

inductive Bearer
  /-- A personal access token, and the user it resolves to. -/
  | token (user : Option UserId)
  | static (user : Option UserId)
deriving DecidableEq

structure Caller where
  /-- The user of the live session of the cookie, and whether the CSRF header matches it. -/
  session : Option (UserId × Bool)
  bearer : Option Bearer
deriving DecidableEq

def csrfHeader : String := "x-csrf-token"

def resolvePrincipal (mutating : Bool) (caller : Caller) : Except ApiError (Option UserId) :=
  match caller.session with
  | some (user, csrfOk) =>
      if mutating && !csrfOk then
        .error ⟨403, .csrfRequired, "This request needs a " ++ csrfHeader ++
          " header matching the session's CSRF token." ++
          " GET /v1/auth/me returns the token for the current session."⟩
      else .ok (some user)
  | none =>
      match caller.bearer with
      | some (.token (some user)) => .ok (some user)
      | some (.token none) => .error .unauthorized
      | some (.static user) => .ok user
      | none => .error .unauthorized

inductive ConsoleRole
  | admin | anon | authenticated
deriving DecidableEq

/-- The body of a run, as far as it is looked at before the project. -/
structure RunBody where
  claims : Bool
  role : Option ConsoleRole
deriving DecidableEq

inductive Terminate
  | absent
  | boolean (value : Bool)
  | other
deriving DecidableEq

structure Request where
  caller : Caller
  ref : String
  terminate : Terminate
  /-- The parsed body, or the message of its first issue. -/
  run : Except (Option String) RunBody

structure Access where
  project : Project
  role : Role
deriving DecidableEq

def statusText : ProjectStatus → String
  | .creating => "creating"
  | .provisioning => "provisioning"
  | .configuring => "configuring"
  | .ready => "ready"
  | .failed => "failed"
  | .pausing => "pausing"
  | .paused => "paused"
  | .resuming => "resuming"
  | .restoring => "restoring"
  | .restored => "restored"
  | .deleting => "deleting"
  | .softDeleted => "soft_deleted"
  | .deleted => "deleted"

def roleText : Role → String
  | .owner => "owner"
  | .admin => "admin"
  | .member => "member"

/-- The capabilities that the routes of a project ask for. -/
inductive Need
  | projectRead | projectLifecycle | secretManage | projectDelete | dbQuery | authuserRead | authuserManage
deriving DecidableEq

def Need.capability : Need → Capability
  | .projectRead => .projectRead
  | .projectLifecycle => .projectLifecycle
  | .secretManage => .secretManage
  | .projectDelete => .projectDelete
  | .dbQuery => .dbQuery
  | .authuserRead => .authuserRead
  | .authuserManage => .authuserManage

def Need.text : Need → String
  | .projectRead => "project.read"
  | .projectLifecycle => "project.lifecycle"
  | .secretManage => "secret.manage"
  | .projectDelete => "project.delete"
  | .dbQuery => "db.query"
  | .authuserRead => "authuser.read"
  | .authuserManage => "authuser.manage"

def require_ (role : Role) (need : Need) : Except ApiError Unit :=
  if can role need.capability then .ok ()
  else .error ⟨403, .unauthorized, "A " ++ roleText role ++ " cannot do this (" ++ need.text ++ ")."⟩

section Handlers

-- `lower` is how the `citext` column of the refs folds their case.
variable (lower : String → String)

def byRef (s : State) (ref : String) : Option Project := s.projects.find? fun p => lower p.ref = lower ref

/-! The control plane -/

def getProject (s : State) (ref : String) : Option Project :=
  (byRef lower s ref).filter fun p => p.status ≠ .deleted

def scope (s : State) (principal : Option UserId) (organization : OrgId) : Except ApiError Role :=
  match principal with
  | none => .error ⟨403, .unauthorized,
      "This endpoint acts within an organization and the static token is not a user."⟩
  | some user =>
      match s.roleOf user organization with
      | none => .error ⟨404, .projectNotFound, "No such organization, or you are not a member of it."⟩
      | some role => .ok role

def inScope (need : Need) (s : State) (ref : String) (principal : Option UserId) : Except ApiError Access :=
  match getProject lower s ref with
  | none => .error (.notFound "Project")
  | some project => do
      let role ← scope s principal project.organization
      require_ role need
      return ⟨project, role⟩

def checkTerminate (terminate : Terminate) : Except ApiError Unit :=
  match terminate with
  | .other => .error (.validation "terminate must be a boolean.")
  | .absent | .boolean _ => .ok ()

/-! The SQL console -/

def requirePerson (mutating : Bool) (caller : Caller) : Except ApiError UserId := do
  match ← resolvePrincipal mutating caller with
  | none => .error ⟨403, .unauthorized, "This endpoint runs SQL as a person and the static token is not a user."⟩
  | some user => .ok user

def checkRun (run : Except (Option String) RunBody) : Except ApiError Unit :=
  match run with
  | .error issue => .error (.validation (issue.getD "Invalid request."))
  | .ok body =>
      if body.claims && body.role ≠ some .authenticated then
        .error (.validation "claims apply only to role \"authenticated\" — the run would ignore them.")
      else .ok ()

def filled (text : Option String) : Bool := text.any fun text => text ≠ ""

def secretFor (s : State) (project : Project) (name : SecretName) : Except ApiError (Option String) :=
  match s.secret project.id name with
  | none => .error .unhandled
  | some value => .ok value

def consoleContext (s : State) (ref : String) : Except ApiError Project :=
  match byRef lower s ref with
  | none => .error (.notFound "Project")
  | some project =>
      if project.status ≠ .ready then
        .error ⟨409, .validationFailed,
          if project.status = .paused then "This project is paused. Resume it to run SQL against it."
          else "This project is " ++ statusText project.status ++ ", so there is nothing to connect to yet."⟩
      else if !filled (project.database.bind (·.connectionHost)) then
        .error ⟨409, .validationFailed, "This project has no database placement recorded."⟩
      else do
        let password ← secretFor s project .adminRole
        if filled password then return project
        else .error ⟨409, .validationFailed,
          "This project was created before the SQL console existed and has no console " ++
          "credential yet. Pausing and resuming it will provision one."⟩

def requireMemberRole (s : State) (user : UserId) (organization : OrgId) : Except ApiError Role :=
  match s.roleOf user organization with
  | none => .error (.notFound "Project")
  | some role => do
      require_ role .dbQuery
      return role

def console (s : State) (ref : String) (user : UserId) : Except ApiError Access := do
  let project ← consoleContext lower s ref
  let role ← requireMemberRole s user project.organization
  return ⟨project, role⟩

/-! The end users and the files of a project -/

def requireOwner (mutating : Bool) (caller : Caller) : Except ApiError UserId := do
  match ← resolvePrincipal mutating caller with
  | none => .error ⟨403, .unauthorized,
      "This endpoint reads a person's own project and the static token is not a user."⟩
  | some user => .ok user

def reachable (project : Project) (what : String) : Except ApiError Unit :=
  if project.status ≠ .ready then
    .error ⟨409, .validationFailed,
      "This project is " ++ statusText project.status ++ ", so its " ++ what ++ " cannot be read yet."⟩
  else if !filled (project.database.bind (·.address)) then
    .error ⟨409, .validationFailed, "This project has no database placement yet."⟩
  else .ok ()

def usersContext (s : State) (ref : String) : Except ApiError Project :=
  match byRef lower s ref with
  | none => .error (.notFound "Project")
  | some project => do
      reachable project "users"
      return project

def users (need : Need) (s : State) (ref : String) (user : UserId) : Except ApiError Access := do
  let project ← usersContext lower s ref
  match s.roleOf user project.organization with
  | none => .error (.notFound "Project")
  | some role =>
      require_ role need
      let password ← secretFor s project .authRole
      if filled password then return ⟨project, role⟩
      else .error ⟨503, .internal, "This project has no auth-role credential, so its users cannot be read. " ++
        "It predates the auth schema."⟩

def storage (s : State) (ref : String) (user : UserId) : Except ApiError Access :=
  match byRef lower s ref with
  | none => .error (.notFound "Project")
  | some project =>
      match s.roleOf user project.organization with
      | none => .error (.notFound "Project")
      | some role => do
          require_ role .dbQuery
          reachable project "files"
          let password ← secretFor s project .adminRole
          if filled password then return ⟨project, role⟩
          else .error ⟨503, .internal, "This project has no console credential, so its files cannot be read."⟩

def authorise (route : Route) (s : State) (req : Request) : Except ApiError Access := do
  let person := requirePerson route.mutating req.caller
  let owner := requireOwner route.mutating req.caller
  match route with
  | .detail | .usage | .keys =>
      inScope lower .projectRead s req.ref (← resolvePrincipal route.mutating req.caller)
  | .restore | .pause | .resume | .retry =>
      inScope lower .projectLifecycle s req.ref (← resolvePrincipal route.mutating req.caller)
  | .rotateCredentials =>
      let principal ← resolvePrincipal route.mutating req.caller
      checkTerminate req.terminate
      inScope lower .secretManage s req.ref principal
  | .delete => inScope lower .projectDelete s req.ref (← resolvePrincipal route.mutating req.caller)
  | .query =>
      let user ← person
      checkRun req.run
      console lower s req.ref user
  | .introspect => console lower s req.ref (← person)
  | .listUsers | .getUser => users lower .authuserRead s req.ref (← owner)
  | .updateUser | .deleteUser => users lower .authuserManage s req.ref (← owner)
  | .buckets | .objects | .sign | .deleteObjects => storage lower s req.ref (← owner)

/-- The status of a response, with the code and the message of an error. -/
structure Answer where
  status : Nat
  error : Option (ErrorCode × String)
deriving DecidableEq

def ApiError.answer (error : ApiError) : Answer := ⟨error.statusCode, some (error.code, error.message)⟩

/-- `serve` is what a route does for a caller it has let through. -/
def handle (serve : Route → Request → Access → State → Answer × State) (route : Route) (s : State)
    (req : Request) : Answer × State :=
  match authorise lower route s req with
  | .error error => (error.answer, s)
  | .ok access => serve route req access s

/-! What a stranger is told -/

/-- The principal has no part in the organization of the project. -/
def Stranger (s : State) (principal : Option UserId) (project : Project) : Prop :=
  ∀ user, principal = some user → s.roleOf user project.organization = none

def Outsider (s : State) (route : Route) (req : Request) : Prop :=
  ∀ project ∈ s.projects, lower project.ref = lower req.ref →
    ∀ principal, resolvePrincipal route.mutating req.caller = .ok principal → Stranger s principal project

def Absent (s : State) (ref : String) : Prop := ∀ project ∈ s.projects, lower project.ref ≠ lower ref

/-- The request is turned down before its project is looked up. -/
def TurnedDown (route : Route) (req : Request) : Prop :=
  match resolvePrincipal route.mutating req.caller with
  | .error _ => True
  | .ok principal =>
      match route with
      | .detail | .usage | .keys | .restore | .pause | .resume | .retry | .delete => False
      | .rotateCredentials => req.terminate = .other
      | .query => principal = none ∨ ∀ body, req.run = .ok body → body.claims ∧ body.role ≠ some .authenticated
      | _ => principal = none

/-- The console opens on the project. -/
def Opens (s : State) (project : Project) : Prop :=
  project.status = .ready ∧ filled (project.database.bind (·.connectionHost)) ∧
    ∃ password, s.secret project.id .adminRole = some password ∧ filled password

def Dialled (project : Project) : Prop :=
  project.status = .ready ∧ filled (project.database.bind (·.address))

/-- A route's checks ahead of the one on the membership let the project pass. -/
def Passes (route : Route) (s : State) (project : Project) : Prop :=
  match route with
  | .query | .introspect => Opens s project
  | .listUsers | .getUser | .updateUser | .deleteUser => Dialled project
  | .buckets | .objects | .sign | .deleteObjects => True
  | _ => project.status = .deleted

def Hidden (route : Route) (s : State) (req : Request) : Prop :=
  TurnedDown route req ∨ ∀ project, byRef lower s req.ref = some project → Passes route s project

/-- The access is refused, in the words for a missing project exactly in the hidden case. -/
def Denies (access : Except ApiError Access) (hidden : Prop) : Prop :=
  ∃ error, access = .error error ∧ (error.answer = (ApiError.notFound "Project").answer ↔ hidden)

variable {lower : String → String} {s s' : State} {ref : String} {project : Project}

theorem denies_notFound {hidden : Prop} (h : hidden) : Denies (.error (.notFound "Project")) hidden :=
  ⟨_, rfl, iff_of_true rfl h⟩

theorem denies_other {error : ApiError} {hidden : Prop} (hcode : error.statusCode ≠ 404) (h : ¬ hidden) :
    Denies (.error error) hidden := by
  refine ⟨error, rfl, iff_of_false ?_ h⟩
  intro heq
  exact hcode (congrArg Answer.status heq)

theorem byRef_absent (h : Absent lower s ref) : byRef lower s ref = none := by
  apply List.find?_eq_none.mpr
  intro project hp
  simpa using h project hp

theorem stranger_of_byRef {route : Route} {req : Request} {principal : Option UserId}
    (hout : Outsider lower s route req) (hp : byRef lower s req.ref = some project)
    (hprin : resolvePrincipal route.mutating req.caller = .ok principal) : Stranger s principal project := by
  have hmem := List.mem_of_find?_eq_some hp
  have href := List.find?_some hp
  exact hout project hmem (by simpa using href) principal hprin

theorem scope_denies {principal : Option UserId} (h : Stranger s principal project) :
    ∃ error, scope s principal project.organization = .error error ∧
      error.answer ≠ (ApiError.notFound "Project").answer := by
  cases principal with
  | none => exact ⟨_, rfl, by simp [ApiError.answer, ApiError.notFound]⟩
  | some user =>
      refine ⟨⟨404, .projectNotFound, "No such organization, or you are not a member of it."⟩, ?_, ?_⟩
      · simp [scope, h user rfl]
      · simp [ApiError.answer, ApiError.notFound]

theorem getProject_deleted (hp : byRef lower s ref = some project) (hd : project.status = .deleted) :
    getProject lower s ref = none := by
  simp [getProject, hp, Option.filter_some, hd]

theorem getProject_shown (hp : byRef lower s ref = some project) (hd : project.status ≠ .deleted) :
    getProject lower s ref = some project := by
  simp [getProject, hp, Option.filter_some, hd]

theorem inScope_absent (need : Need) (principal : Option UserId) (h : byRef lower s ref = none) :
    inScope lower need s ref principal = .error (.notFound "Project") := by
  simp [inScope, getProject, h]

theorem inScope_denies (need : Need) {principal : Option UserId} (hp : byRef lower s ref = some project)
    (h : Stranger s principal project) :
    Denies (inScope lower need s ref principal) (project.status = .deleted) := by
  by_cases hd : project.status = .deleted
  · have hnone : inScope lower need s ref principal = .error (.notFound "Project") := by
      simp only [inScope, getProject_deleted hp hd]
    rw [hnone]
    exact denies_notFound hd
  · obtain ⟨error, herror, hne⟩ := scope_denies h
    refine ⟨error, ?_, iff_of_false hne hd⟩
    simp only [inScope, getProject_shown hp hd, herror]
    rfl

theorem console_absent (user : UserId) (h : byRef lower s ref = none) :
    console lower s ref user = .error (.notFound "Project") := by
  simp only [console, consoleContext, h]
  rfl

theorem consoleContext_opens (hp : byRef lower s ref = some project) (h : Opens s project) :
    consoleContext lower s ref = .ok project := by
  obtain ⟨hready, hhost, password, hsecret, hfilled⟩ := h
  simp [consoleContext, hp, hready, hhost, secretFor, hsecret, hfilled, bind, Except.bind, pure, Except.pure]

theorem consoleContext_closed (hp : byRef lower s ref = some project) (h : ¬ Opens s project) :
    ∃ error, consoleContext lower s ref = .error error ∧ error.statusCode ≠ 404 := by
  simp only [consoleContext, hp, secretFor]
  split
  · exact ⟨_, rfl, by simp⟩
  next hready =>
    split
    · exact ⟨_, rfl, by simp⟩
    next hhost =>
      cases hsecret : s.secret project.id .adminRole with
      | none => exact ⟨_, rfl, by simp [ApiError.unhandled]⟩
      | some password =>
          have hempty : ¬ filled password := by
            intro hfilled
            apply h
            exact ⟨by simpa using hready, by simpa using hhost, password, hsecret, hfilled⟩
          simp only [bind, Except.bind, hempty]
          exact ⟨_, rfl, by simp⟩

theorem console_denies {user : UserId} (hp : byRef lower s ref = some project)
    (h : s.roleOf user project.organization = none) :
    Denies (console lower s ref user) (Opens s project) := by
  by_cases hopens : Opens s project
  · have hnone : console lower s ref user = .error (.notFound "Project") := by
      simp only [console, consoleContext_opens hp hopens, requireMemberRole, h, bind, Except.bind]
    rw [hnone]
    exact denies_notFound hopens
  · obtain ⟨error, herror, hcode⟩ := consoleContext_closed hp hopens
    have hstop : console lower s ref user = .error error := by
      simp only [console, herror, bind, Except.bind]
    rw [hstop]
    exact denies_other hcode hopens

theorem reachable_dialled (what : String) (h : Dialled project) : reachable project what = .ok () := by
  simp [reachable, h.1, h.2]

theorem reachable_lost (what : String) (h : ¬ Dialled project) :
    ∃ error, reachable project what = .error error ∧ error.statusCode ≠ 404 := by
  simp only [reachable]
  split
  · exact ⟨_, rfl, by simp⟩
  next hready =>
    split
    · exact ⟨_, rfl, by simp⟩
    next haddress => exact absurd ⟨by simpa using hready, by simpa using haddress⟩ h

theorem users_absent (need : Need) (user : UserId) (h : byRef lower s ref = none) :
    users lower need s ref user = .error (.notFound "Project") := by
  simp only [users, usersContext, h]
  rfl

theorem users_denies (need : Need) {user : UserId} (hp : byRef lower s ref = some project)
    (h : s.roleOf user project.organization = none) :
    Denies (users lower need s ref user) (Dialled project) := by
  by_cases hdialled : Dialled project
  · have hnone : users lower need s ref user = .error (.notFound "Project") := by
      simp only [users, usersContext, hp, reachable_dialled "users" hdialled, bind, Except.bind, pure, Except.pure, h]
    rw [hnone]
    exact denies_notFound hdialled
  · obtain ⟨error, herror, hcode⟩ := reachable_lost "users" hdialled
    have hstop : users lower need s ref user = .error error := by
      simp only [users, usersContext, hp, herror, bind, Except.bind]
    rw [hstop]
    exact denies_other hcode hdialled

theorem storage_absent (user : UserId) (h : byRef lower s ref = none) :
    storage lower s ref user = .error (.notFound "Project") := by
  simp only [storage, h]

theorem storage_denies {user : UserId} (hp : byRef lower s ref = some project)
    (h : s.roleOf user project.organization = none) : Denies (storage lower s ref user) True := by
  have hnone : storage lower s ref user = .error (.notFound "Project") := by
    simp only [storage, hp, h]
  rw [hnone]
  exact denies_notFound trivial

theorem checkRun_error {run : Except (Option String) RunBody}
    (h : ∀ body, run = .ok body → body.claims ∧ body.role ≠ some .authenticated) :
    ∃ error, checkRun run = .error error := by
  cases run with
  | error issue => exact ⟨_, rfl⟩
  | ok body =>
      obtain ⟨hclaims, hrole⟩ := h body rfl
      refine ⟨.validation "claims apply only to role \"authenticated\" — the run would ignore them.", ?_⟩
      simp [checkRun, hclaims, hrole]

theorem checkRun_ok {run : Except (Option String) RunBody}
    (h : ¬ ∀ body, run = .ok body → body.claims ∧ body.role ≠ some .authenticated) :
    checkRun run = .ok () := by
  cases run with
  | error issue => exact absurd (by nofun) h
  | ok body =>
      simp only [checkRun]
      rw [if_neg]
      intro hbad
      apply h
      rintro _ ⟨⟩
      simpa using hbad

theorem requirePerson_none {mutating : Bool} {caller : Caller} (h : resolvePrincipal mutating caller = .ok none) :
    ∃ error, requirePerson mutating caller = .error error := by
  simp only [requirePerson, h]
  exact ⟨_, rfl⟩

theorem requireOwner_none {mutating : Bool} {caller : Caller} (h : resolvePrincipal mutating caller = .ok none) :
    ∃ error, requireOwner mutating caller = .error error := by
  simp only [requireOwner, h]
  exact ⟨_, rfl⟩

theorem authorise_turnedDown (lower : String → String) {route : Route} {req : Request} (h : TurnedDown route req) :
    ∃ error, ∀ s, authorise lower route s req = .error error := by
  simp only [TurnedDown] at h
  cases hprin : resolvePrincipal route.mutating req.caller with
  | error error =>
      refine ⟨error, fun s => ?_⟩
      cases route <;> simp only [authorise, requirePerson, requireOwner, hprin, bind, Except.bind]
  | ok principal =>
      simp only [hprin] at h
      cases route with
      | detail | usage | keys | restore | pause | resume | retry | delete => exact h.elim
      | rotateCredentials =>
          refine ⟨.validation "terminate must be a boolean.", fun s => ?_⟩
          simp only [authorise, hprin, h, checkTerminate, bind, Except.bind]
      | query =>
          cases principal with
          | none =>
              obtain ⟨error, herror⟩ := requirePerson_none hprin
              exact ⟨error, fun s => by simp only [authorise, herror, bind, Except.bind]⟩
          | some user =>
              obtain ⟨error, herror⟩ := checkRun_error (h.resolve_left nofun)
              refine ⟨error, fun s => ?_⟩
              simp only [authorise, requirePerson, hprin, herror, bind, Except.bind]
      | introspect =>
          obtain ⟨error, herror⟩ := requirePerson_none (h ▸ hprin)
          exact ⟨error, fun s => by simp only [authorise, herror, bind, Except.bind]⟩
      | listUsers | getUser | updateUser | deleteUser | buckets | objects | sign | deleteObjects =>
          obtain ⟨error, herror⟩ := requireOwner_none (h ▸ hprin)
          exact ⟨error, fun s => by simp only [authorise, herror, bind, Except.bind]⟩

/-- The access to a project for a principal, once the request itself is in order. -/
inductive Gate (lower : String → String) (s : State) (ref : String) (principal : Option UserId) :
    Route → Except ApiError Access → Prop
  | scope {route : Route} (need : Need) (hpasses : ∀ p, Passes route s p ↔ p.status = .deleted) :
      Gate lower s ref principal route (inScope lower need s ref principal)
  | console {route : Route} {user : UserId} (huser : principal = some user)
      (hpasses : ∀ p, Passes route s p ↔ Opens s p) : Gate lower s ref principal route (console lower s ref user)
  | users {route : Route} {user : UserId} (need : Need) (huser : principal = some user)
      (hpasses : ∀ p, Passes route s p ↔ Dialled p) :
      Gate lower s ref principal route (users lower need s ref user)
  | storage {route : Route} {user : UserId} (huser : principal = some user)
      (hpasses : ∀ p, Passes route s p ↔ True) : Gate lower s ref principal route (storage lower s ref user)

theorem authorise_gate (lower : String → String) {route : Route} {req : Request} (s : State) (h : ¬ TurnedDown route req) :
    ∃ principal, resolvePrincipal route.mutating req.caller = .ok principal ∧
      Gate lower s req.ref principal route (authorise lower route s req) := by
  simp only [TurnedDown] at h
  cases hprin : resolvePrincipal route.mutating req.caller with
  | error error => simp [hprin] at h
  | ok principal =>
      simp only [hprin] at h
      refine ⟨principal, rfl, ?_⟩
      cases route with
      | detail | usage | keys | restore | pause | resume | retry | delete =>
          simp only [authorise, hprin, bind, Except.bind]
          exact .scope _ fun p => Iff.rfl
      | rotateCredentials =>
          have hbody : checkTerminate req.terminate = .ok () := by
            cases hterminate : req.terminate with
            | other => exact absurd hterminate h
            | absent => rfl
            | boolean value => rfl
          simp only [authorise, hprin, hbody, bind, Except.bind]
          exact .scope _ fun p => Iff.rfl
      | query =>
          obtain ⟨hnone, hrun⟩ := not_or.mp h
          obtain ⟨user, rfl⟩ := Option.ne_none_iff_exists'.mp hnone
          simp only [authorise, requirePerson, hprin, checkRun_ok hrun, bind, Except.bind]
          exact .console rfl fun p => Iff.rfl
      | introspect =>
          obtain ⟨user, rfl⟩ := Option.ne_none_iff_exists'.mp h
          simp only [authorise, requirePerson, hprin, bind, Except.bind]
          exact .console rfl fun p => Iff.rfl
      | listUsers | getUser | updateUser | deleteUser =>
          obtain ⟨user, rfl⟩ := Option.ne_none_iff_exists'.mp h
          simp only [authorise, requireOwner, hprin, bind, Except.bind]
          exact .users _ rfl fun p => Iff.rfl
      | buckets | objects | sign | deleteObjects =>
          obtain ⟨user, rfl⟩ := Option.ne_none_iff_exists'.mp h
          simp only [authorise, requireOwner, hprin, bind, Except.bind]
          exact .storage rfl fun p => Iff.rfl

theorem gate_absent {route : Route} {principal : Option UserId} {access : Except ApiError Access}
    (hgate : Gate lower s ref principal route access) (h : byRef lower s ref = none) :
    access = .error (.notFound "Project") := by
  cases hgate with
  | scope need hpasses => exact inScope_absent need principal h
  | console huser hpasses => exact console_absent _ h
  | users need huser hpasses => exact users_absent need _ h
  | storage huser hpasses => exact storage_absent _ h

theorem gate_denies {route : Route} {principal : Option UserId} {access : Except ApiError Access}
    (hgate : Gate lower s ref principal route access) (hp : byRef lower s ref = some project)
    (h : Stranger s principal project) : Denies access (Passes route s project) := by
  cases hgate with
  | scope need hpasses => simpa only [hpasses] using inScope_denies need hp h
  | console huser hpasses => simpa only [hpasses] using console_denies hp (h _ huser)
  | users need huser hpasses => simpa only [hpasses] using users_denies need hp (h _ huser)
  | storage huser hpasses => simpa only [hpasses] using storage_denies hp (h _ huser)

theorem handle_error {serve : Route → Request → Access → State → Answer × State} {route : Route} {req : Request}
    {error : ApiError} (h : authorise lower route s req = .error error) :
    handle lower serve route s req = (error.answer, s) := by
  simp only [handle, h]

/-- What an outsider is told is what he is told of a missing project exactly where the route is turned down early
or passes the checks that it makes ahead of the one on the membership; nothing changes. -/
theorem outsider_told (lower : String → String) (serve : Route → Request → Access → State → Answer × State)
    (route : Route) (s s' : State) (req : Request) (hout : Outsider lower s route req)
    (habsent : Absent lower s' req.ref) :
    ((handle lower serve route s req).1 = (handle lower serve route s' req).1 ↔ Hidden lower route s req) ∧
      (handle lower serve route s req).2 = s := by
  by_cases hdown : TurnedDown route req
  · obtain ⟨error, herror⟩ := authorise_turnedDown lower hdown
    rw [handle_error (herror s), handle_error (herror s')]
    exact ⟨iff_of_true rfl (.inl hdown), rfl⟩
  · obtain ⟨principal, hprin, hgate⟩ := authorise_gate lower s hdown
    obtain ⟨_, _, hgate'⟩ := authorise_gate lower s' hdown
    rw [handle_error (gate_absent hgate' (byRef_absent habsent))]
    cases hp : byRef lower s req.ref with
    | none =>
        rw [handle_error (gate_absent hgate hp)]
        exact ⟨iff_of_true rfl (.inr fun project h => absurd (hp.symm.trans h) nofun), rfl⟩
    | some project =>
        obtain ⟨error, herror, hanswer⟩ := gate_denies hgate hp (stranger_of_byRef hout hp hprin)
        rw [handle_error herror]
        refine ⟨hanswer.trans ⟨fun h => .inr fun p hp' => ?_, fun h => ?_⟩, rfl⟩
        · cases hp.symm.trans hp'
          exact h
        · exact (h.resolve_left hdown) project hp

/-- One project, paused, of an organization without members. -/
def elsewhere : State := ⟨[⟨1, "p000000000000000", 1, .paused, none⟩], fun _ _ => none, fun _ _ => some none⟩

def nowhere : State := { elsewhere with projects := [] }

def guessed : Request := ⟨⟨some (1, true), none⟩, "p000000000000000", .absent, .error none⟩

theorem outsider_elsewhere (route : Route) : Outsider id elsewhere route guessed :=
  fun _ _ _ _ _ _ _ => rfl

theorem absent_nowhere : Absent id nowhere guessed.ref := fun _ h => nomatch h

theorem outsider_told_values :
    Outsider id elsewhere .buckets guessed ∧ Absent id nowhere guessed.ref ∧
      ((handle id (fun _ _ _ s => (⟨200, none⟩, s)) .buckets elsewhere guessed).1 =
          (handle id (fun _ _ _ s => (⟨200, none⟩, s)) .buckets nowhere guessed).1 ↔
        Hidden id .buckets elsewhere guessed) ∧
      (handle id (fun _ _ _ s => (⟨200, none⟩, s)) .buckets elsewhere guessed).2 = elsewhere :=
  ⟨outsider_elsewhere _, absent_nowhere,
    outsider_told id _ .buckets elsewhere nowhere guessed (outsider_elsewhere _) absent_nowhere⟩

/-- The schema of a paused project is refused by its status, that of a missing project as missing. -/
theorem not_outsider_told :
    ¬ ∀ (lower : String → String) (serve : Route → Request → Access → State → Answer × State) (route : Route)
      (s s' : State) (req : Request), Outsider lower s route req → Absent lower s' req.ref →
        (handle lower serve route s req).1 = (handle lower serve route s' req).1 ∧
          (handle lower serve route s req).2 = s := by
  intro h
  have htold := (h id (fun _ _ _ s => (⟨200, none⟩, s)) .introspect elsewhere nowhere guessed
    (outsider_elsewhere _) absent_nowhere).1
  have hstatus := congrArg Answer.status htold
  revert hstatus
  decide

end Handlers

end Corebase.ProjectRoutes
