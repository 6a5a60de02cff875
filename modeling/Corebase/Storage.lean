import Corebase.Interleaving
import Corebase.StorageRules

namespace Corebase.Storage

open Interleaving StorageRules
open JsText (Text)

abbrev Client := Nat
abbrev Id := Nat

inductive Role
  | anon | authenticated | serviceRole
deriving DecidableEq

structure Caller where
  role : Role
  userId : Option Id
  claims : List (Text × Text)
deriving DecidableEq

structure Bucket where
  id : Id
  name : Text
  isPublic : Bool
  fileSizeLimit : Option Nat
  allowedMimeTypes : Option (List Text)
deriving DecidableEq

/-- A row of storage.objects. The etag of the store is the content that it is a digest of. -/
structure Row where
  bucketId : Id
  name : Text
  owner : Option Id
  size : Nat
  mimeType : Text
  etag : Content
deriving DecidableEq

structure Intent where
  id : Id
  bucketId : Id
  name : Text
  owner : Option Id
  declaredSize : Nat
  contentType : Text
  expiresAt : Nat
deriving DecidableEq

/-- The tables of the project's own database. -/
structure Db where
  buckets : List Bucket
  objects : List Row
  intents : List Intent
  totalBytes : Nat
  /-- The next id that the database gives out. -/
  nextId : Id
deriving DecidableEq

/-- The row-level policies of the project, by what they are asked about. -/
structure Policies where
  select : Db → Caller → Row → Bool
  insert : Db → Caller → Row → Bool
  updateUsing : Db → Caller → Row → Bool
  updateCheck : Db → Caller → Row → Bool
  delete : Db → Caller → Row → Bool
  selectBucket : Db → Caller → Bucket → Bool
  insertBucket : Db → Caller → Bucket → Bool
  updateBucket : Db → Caller → Bucket → Bool
  deleteBucket : Db → Caller → Bucket → Bool

/-- An object in the store. -/
structure Blob where
  content : Content
  contentType : Text
  lastModified : Nat
deriving DecidableEq

/-- A presigned URL for an upload, with the headers that are signed into it. -/
structure Url where
  key : Key
  contentLength : Nat
  contentType : Text
  expires : Nat
deriving DecidableEq

inductive Code
  | validationFailed | forbidden | notFound | conflict | bucketNotEmpty | fileSizeLimitExceeded | storageQuotaExceeded
  | mimeTypeNotAllowed | internal
deriving DecidableEq

structure ApiError where
  status : Nat
  code : Code
  message : String
deriving DecidableEq

inductive Response
  | ok (status : Nat)
  | refused (e : ApiError)
  /-- A call to the store or a commit has broken off. -/
  | failed
deriving DecidableEq

structure Store where
  plan : String
  policies : Policies
  db : Db
  bytes : Key → Option Blob
  /-- The keys that have been put. -/
  keys : List Key
  urls : List Url
  /-- The newest first. -/
  responses : List (Client × Response)

inductive SqlError
  | policy | unique | foreignKey | other
deriving DecidableEq

/-- What comes of a transaction that writes. A lost one may have taken effect. -/
inductive Write
  | done
  | refused (e : SqlError)
  | lost
deriving DecidableEq

def internal : ApiError := ⟨500, .internal, "Internal error"⟩

def policyError : SqlError → ApiError
  | .policy => ⟨403, .forbidden, "The project's policies do not allow this operation."⟩
  | .unique => ⟨409, .conflict, "An object already exists at that path."⟩
  | .foreignKey | .other => internal

namespace Db

variable (db : Db)

def bucketNamed (name : Text) : Option Bucket := db.buckets.find? fun b => b.name = name

def bucketWith (id : Id) : Option Bucket := db.buckets.find? fun b => b.id = id

def objectAt (bucketId : Id) (name : Text) : Option Row := db.objects.find? fun row => row.bucketId = bucketId && row.name = name

/-- The row of an object, by its key in the store. -/
def rowAt (k : Key) : Option Row := (db.bucketNamed k.bucket).bind fun b => db.objectAt b.id k.name

def keyOf (bucketId : Id) (name : Text) : Option Key := (db.bucketWith bucketId).map fun b => ⟨b.name, name⟩

/-- INSERT ... ON CONFLICT (bucket_id, name) DO UPDATE, with the trigger that tracks the usage. -/
def upsert (row : Row) : Db := match db.objectAt row.bucketId row.name with
  | none => { db with objects := db.objects ++ [row], totalBytes := db.totalBytes + row.size }
  | some old =>
      { db with
        objects := db.objects.map fun r => if r.bucketId = row.bucketId && r.name = row.name then
          { r with size := row.size, mimeType := row.mimeType, etag := row.etag } else r
        totalBytes := db.totalBytes + row.size - old.size }

def deleteRows (p : Row → Bool) : Db :=
  { db with
    objects := db.objects.filter fun row => !p row
    totalBytes := db.totalBytes - ((db.objects.filter p).map Row.size).sum }

end Db

namespace Store

variable (s : Store)

def visible (caller : Caller) (row : Row) : Bool := caller.role = .serviceRole || s.policies.select s.db caller row

/-- The database's verdict on an upsert of the caller. -/
def writeCheck (caller : Caller) (row : Row) : Option SqlError :=
  let foreign := if (s.db.bucketWith row.bucketId).isSome then none else some .foreignKey
  if caller.role = .serviceRole then foreign
  else if !s.policies.insert s.db caller row then some .policy
  else match s.db.objectAt row.bucketId row.name with
    | none => if s.policies.select s.db caller row then foreign else some .policy
    | some old =>
        let new := { old with size := row.size, mimeType := row.mimeType, etag := row.etag }
        if s.policies.select s.db caller old && s.policies.updateUsing s.db caller old &&
          s.policies.updateCheck s.db caller new && s.policies.select s.db caller new then foreign else some .policy

/-- The verdict on the insert by which the caller's policies are probed. -/
def probeCheck (caller : Caller) (row : Row) : Option SqlError :=
  if caller.role ≠ .serviceRole && !s.policies.insert s.db caller row then some .policy
  else if (s.db.objectAt row.bucketId row.name).isSome then some .unique
  else if (s.db.bucketWith row.bucketId).isSome then none else some .foreignKey

def deletable (caller : Caller) (bucketId : Id) (names : List Text) (row : Row) : Bool :=
  row.bucketId = bucketId && row.name ∈ names && s.visible caller row &&
    (caller.role = .serviceRole || s.policies.delete s.db caller row)

def put (k : Key) (blob : Blob) : Store :=
  { s with bytes := Function.update s.bytes k (some blob), keys := s.keys.insert k }

def remove (k : Key) : Store := { s with bytes := Function.update s.bytes k none }

end Store

/-- A change of the fields of a bucket that are present in the request. -/
structure Patch where
  isPublic : Option Bool
  fileSizeLimit : Option (Option Nat)
  allowedMimeTypes : Option (Option (List Text))
deriving DecidableEq

def Patch.apply (p : Patch) (b : Bucket) : Bucket :=
  { b with
    isPublic := p.isPublic.getD b.isPublic
    fileSizeLimit := p.fileSizeLimit.getD b.fileSizeLimit
    allowedMimeTypes := p.allowedMimeTypes.getD b.allowedMimeTypes }

/-- The fate of a transaction. -/
inductive SqlFate
  | ok | error | lost (effect : Bool)
deriving DecidableEq

/-- The fate of a call to the object store. -/
inductive CallFate
  | ok | failed (effect : Bool)
deriving DecidableEq

structure Chance where
  sql : SqlFate
  call : CallFate
  now : Nat
  /-- What the store sends for an object that is not there. -/
  errorBody : Content

inductive Op
  | bucketConfig (name : Text)
  | plan
  | usage
  | existing (caller : Caller) (bucketId : Id) (name : Text)
  | putObject (k : Key) (content : Content) (contentType : Text)
  | writeRow (caller : Caller) (row : Row)
  | deleteObject (k : Key)
  | deleteRows (caller : Caller) (bucketId : Id) (names : List Text)
  | probe (caller : Caller) (row : Row)
  | insertIntent (bucketId : Id) (name : Text) (owner : Option Id) (size : Nat) (contentType : Text)
  | presign (k : Key) (size : Nat) (contentType : Text)
  | readIntent (id : Id)
  | headObject (k : Key)
  | getRange (k : Key)
  | finalise (intent : Intent) (size : Nat) (etag : Content)
  | clientPut (url : Url) (content : Content)
  | insertBucket (caller : Caller) (name : Text) (isPublic : Bool) (limit : Option Nat) (mimes : Option (List Text))
  | patchBucket (caller : Caller) (name : Text) (p : Patch)
  | selectBucket (caller : Caller) (name : Text)
  | anyObject (caller : Caller) (bucketId : Id)
  | deleteBucket (caller : Caller) (bucketId : Id)
  | listDetailed
  | inventory
  | liveIntents
  | expiredIntents
  | deleteIntent (id : Id)
  | clock
  | setPolicies (policies : Policies)
  | setPlan (plan : String)
  /-- The quota true-up of the sweep. -/
  | trueUp (totalBytes : Nat)
  | respond (r : Response)

structure Stored where
  key : Key
  size : Nat
  lastModified : Nat
deriving DecidableEq

@[reducible] def Reply : Op → Type
  | .bucketConfig _ => Option (Option Bucket)
  | .plan => Option String
  | .usage => Option Nat
  | .existing .. => Option (Option Row)
  | .putObject .. => Option Content
  | .writeRow .. | .probe .. | .finalise .. | .insertBucket .. | .deleteBucket .. => Write
  | .deleteObject _ | .deleteIntent _ => Bool
  | .deleteRows .. => Option (List Text)
  | .insertIntent .. => Option Id
  | .readIntent _ => Option (Option (Intent × Key × Bool))
  | .headObject _ => Option (Option (Nat × Content))
  | .getRange _ => Option Content
  | .patchBucket .. => Option Bool
  | .selectBucket .. => Option (Option Id)
  | .anyObject .. => Option Bool
  | .listDetailed => Option (List Stored)
  | .inventory | .liveIntents => Option (List Key)
  | .expiredIntents => Option (List (Id × Key))
  | .clock => Nat
  | .presign .. | .clientPut .. | .setPolicies _ | .setPlan _ | .trueUp _ | .respond _ => Unit

/-- A read by its fate. -/
def Chance.reads {α : Type} (chance : Chance) (value : α) : Option α := match chance.sql with
  | .ok => some value
  | .error | .lost _ => none

/-- A transaction by its verdict and its fate. -/
def Chance.writes (chance : Chance) (verdict : Option SqlError) (s s' : Store) : Write × Store :=
  match verdict, chance.sql with
  | some e, .ok => (.refused e, s)
  | none, .ok => (.done, s')
  | _, .error => (.refused .other, s)
  | none, .lost true => (.lost, s')
  | _, .lost _ => (.lost, s)

/-- A call to the store by its fate. -/
def Chance.calls (chance : Chance) (s s' : Store) : Bool × Store := match chance.call with
  | .ok => (true, s')
  | .failed effect => (false, if effect then s' else s)

def exec (c : Client) (chance : Chance) : (op : Op) → Store → Option (Reply op × Store)
  | .bucketConfig name, s => some (chance.reads (s.db.bucketNamed name), s)
  | .plan, s => some (chance.reads s.plan, s)
  | .usage, s => some (chance.reads s.db.totalBytes, s)
  | .existing caller bucketId name, s =>
      some (chance.reads ((s.db.objectAt bucketId name).filter (s.visible caller)), s)
  | .putObject k content contentType, s =>
      let (ok, s') := chance.calls s (s.put k ⟨content, contentType, chance.now⟩)
      some (if ok then some content else none, s')
  | .writeRow caller row, s =>
      some (chance.writes (s.writeCheck caller row) s { s with db := s.db.upsert row })
  | .deleteObject k, s => some (chance.calls s (s.remove k))
  | .deleteRows caller bucketId names, s =>
      let gone := s.db.objects.filter (s.deletable caller bucketId names)
      let (result, s') := chance.writes none s { s with db := s.db.deleteRows (s.deletable caller bucketId names) }
      some (if result = .done then some (gone.map Row.name) else none, s')
  | .probe caller row, s => some (chance.writes (s.probeCheck caller row) s s)
  | .insertIntent bucketId name owner size contentType, s =>
      let intent := ⟨s.db.nextId, bucketId, name, owner, size, contentType, chance.now + uploadUrlSeconds * 1000⟩
      let verdict := if (s.db.bucketWith bucketId).isSome then none else some .foreignKey
      let (result, s') := chance.writes verdict s
        { s with db := { s.db with intents := intent :: s.db.intents, nextId := s.db.nextId + 1 } }
      some (if result = .done then some intent.id else none, s')
  | .presign k size contentType, s =>
      some ((), { s with urls := ⟨k, size, contentType, chance.now + uploadUrlSeconds * 1000⟩ :: s.urls })
  | .readIntent id, s =>
      let found := (s.db.intents.find? fun i => i.id = id).bind fun i =>
        (s.db.keyOf i.bucketId i.name).map fun k => (i, k, decide (i.expiresAt < chance.now))
      some (chance.reads found, s)
  | .headObject k, s => match chance.call with
      | .ok => some (some ((s.bytes k).map fun blob => (blob.content.length, blob.content)), s)
      | .failed _ => some (none, s)
  | .getRange k, s => match chance.call with
      | .ok => some (some (((s.bytes k).map Blob.content).getD chance.errorBody |>.take sniffBytes), s)
      | .failed _ => some (none, s)
  | .finalise intent size etag, s =>
      let row := ⟨intent.bucketId, intent.name, intent.owner, size, intent.contentType, etag⟩
      let verdict := if (s.db.bucketWith intent.bucketId).isSome then none else some .foreignKey
      some (chance.writes verdict s
        { s with db := { s.db.upsert row with intents := s.db.intents.filter fun i => i.id ≠ intent.id } })
  | .clientPut url content, s =>
      if url ∈ s.urls ∧ content.length = url.contentLength ∧ chance.now ≤ url.expires then
        some ((), (chance.calls s (s.put url.key ⟨content, url.contentType, chance.now⟩)).2)
      else some ((), s)
  | .insertBucket caller name isPublic limit mimes, s =>
      let bucket := ⟨s.db.nextId, name, isPublic, limit, mimes⟩
      let verdict :=
        if caller.role ≠ .serviceRole && !(s.policies.insertBucket s.db caller bucket && s.policies.selectBucket s.db caller bucket)
        then some .policy
        else if (s.db.bucketNamed name).isSome then some .unique
        else none
      some (chance.writes verdict s
        { s with db := { s.db with buckets := bucket :: s.db.buckets, nextId := s.db.nextId + 1 } })
  | .patchBucket caller name p, s =>
      let allowed := fun b => caller.role = .serviceRole ||
        s.policies.selectBucket s.db caller b && s.policies.updateBucket s.db caller b
      let verdict := if (s.db.bucketNamed name).any fun b => allowed b && !allowed (p.apply b) then some .policy else none
      let (result, s') := chance.writes verdict s
        { s with db := { s.db with buckets := s.db.buckets.map fun b => if b.name = name && allowed b then p.apply b else b } }
      some (if result = .done then some ((s.db.bucketNamed name).any allowed) else none, s')
  | .selectBucket caller name, s =>
      let seen := (s.db.bucketNamed name).filter fun b => caller.role = .serviceRole || s.policies.selectBucket s.db caller b
      some (chance.reads (seen.map Bucket.id), s)
  | .anyObject caller bucketId, s =>
      some (chance.reads (s.db.objects.any fun row => row.bucketId = bucketId && s.visible caller row), s)
  | .deleteBucket caller bucketId, s =>
      let allowed := (s.db.bucketWith bucketId).any fun b => caller.role = .serviceRole ||
        s.policies.selectBucket s.db caller b && s.policies.deleteBucket s.db caller b
      let referenced := (s.db.objects.any fun row => row.bucketId = bucketId) || s.db.intents.any fun i => i.bucketId = bucketId
      -- a bucket that the caller may not delete is not found
      let verdict := if !allowed then some .policy else if referenced then some .foreignKey else none
      some (chance.writes verdict s { s with db := { s.db with buckets := s.db.buckets.filter fun b => b.id ≠ bucketId } })
  | .listDetailed, s => match chance.call with
      | .ok => some (some (s.keys.filterMap fun k => (s.bytes k).map fun blob =>
          ⟨k, blob.content.length, blob.lastModified⟩), s)
      | .failed _ => some (none, s)
  | .inventory, s => some (chance.reads (s.db.objects.filterMap fun row => s.db.keyOf row.bucketId row.name), s)
  | .liveIntents, s =>
      some (chance.reads ((s.db.intents.filter fun i => chance.now < i.expiresAt).filterMap fun i =>
        s.db.keyOf i.bucketId i.name), s)
  | .expiredIntents, s =>
      some (chance.reads ((s.db.intents.filter fun i => i.expiresAt ≤ chance.now).filterMap fun i =>
        (s.db.keyOf i.bucketId i.name).map (i.id, ·)), s)
  | .deleteIntent id, s =>
      let (result, s') := chance.writes none s
        { s with db := { s.db with intents := s.db.intents.filter fun i => i.id ≠ id } }
      some (result = .done, s')
  | .clock, s => some (chance.now, s)
  | .setPolicies policies, s => some ((), { s with policies := policies })
  | .setPlan plan, s => some ((), { s with plan := plan })
  | .trueUp totalBytes, s => some ((), { s with db := { s.db with totalBytes := totalBytes } })
  | .respond r, s => some ((), { s with responses := (c, r) :: s.responses })

def respond (r : Response) : Program Op Reply := .step (.respond r) fun _ => .done

def refuse (status : Nat) (code : Code) (message : String) : Program Op Reply := respond (.refused ⟨status, code, message⟩)

/-- The answer to a transaction that has not been done. -/
def unwritten : Write → Response
  | .refused e => .refused (policyError e)
  | .done | .lost => .failed

/-- A read that has to be answered. -/
def must {α : Type} (next : α → Program Op Reply) : Option α → Program Op Reply
  | none => respond (.refused internal)
  | some a => next a

structure Upload where
  bucket : Text
  name : Text
  body : Option Content
  contentType : Option Text
  upsert : Bool

def Upload.declared (req : Upload) : Text := req.contentType.getD "application/octet-stream".toList

/-- The checks of the content against the bucket. -/
def contentError (lower : Text → Text) (cfg : Bucket) (body : Content) (declared : Text) : Option ApiError :=
  if cfg.fileSizeLimit.any fun limit => limit < body.length then
    some ⟨413, .fileSizeLimitExceeded, s!"This bucket accepts objects up to {cfg.fileSizeLimit.getD 0} bytes."⟩
  else if !mimeAllowed lower declared cfg.allowedMimeTypes then
    some ⟨415, .mimeTypeNotAllowed, "This bucket does not accept " ++ String.ofList declared ++ "."⟩
  else (sniff (body.take sniffBytes) declared).map fun reason => ⟨415, .mimeTypeNotAllowed, "Upload refused: " ++ reason ++ "."⟩

/-- The checks against the quota and the object that the caller can see. -/
def placeError (plan : String) (used : Nat) (existing : Option Row) (size : Nat) (upsert : Bool) : Option ApiError :=
  if planStorageBytes plan + (existing.map Row.size).getD 0 < used + size then
    some ⟨413, .storageQuotaExceeded, "This project has no storage left. Delete something, or move to a larger plan."⟩
  else if existing.isSome && !upsert then
    some ⟨409, .conflict, "An object already exists at that path. Send `x-upsert: true` to replace it."⟩
  else none

/-- The object store, second, and the row, third. -/
def place (caller : Caller) (k : Key) (bucketId : Id) (body : Content) (declared : Text) (status : Nat) : Program Op Reply :=
  .step (.putObject k body declared) fun
    | none => respond .failed
    | some etag => .step (.writeRow caller ⟨bucketId, k.name, caller.userId, body.length, declared, etag⟩) fun result =>
        if result = .done then respond (.ok status)
        else .step (.deleteObject k) fun _ => respond (unwritten result)

/-- An upload whose content is as the bucket wants it. -/
def admitted (caller : Caller) (k : Key) (bucketId : Id) (body : Content) (declared : Text) (upsert : Bool) :
    Program Op Reply :=
  .step .plan (must fun plan => .step .usage (must fun used => .step (.existing caller bucketId k.name) (must fun existing =>
    match placeError plan used existing body.length upsert with
    | some e => respond (.refused e)
    | none => place caller k bucketId body declared (if existing.isSome then 200 else 201))))

def upload (lower : Text → Text) (caller : Caller) (req : Upload) : Program Op Reply :=
  match normalizeBucket req.bucket, normalizePath req.name, req.body with
  | .error message, _, _ | .ok _, .error message, _ => refuse 400 .validationFailed message
  | .ok _, .ok _, none => refuse 400 .validationFailed "Send the object bytes as the request body."
  | .ok bucket, .ok name, some body =>
      if proxyMaxBytes < body.length then
        refuse 413 .fileSizeLimitExceeded
          s!"This path proxies objects up to {proxyMaxBytes} bytes. Use a signed upload URL for anything larger."
      else .step (.bucketConfig bucket) (must fun
        | none => refuse 404 .notFound "No such bucket."
        | some cfg => match contentError lower cfg body req.declared with
          | some e => respond (.refused e)
          | none => admitted caller ⟨bucket, name⟩ cfg.id body req.declared req.upsert)

def batchDelete (caller : Caller) (rawBucket : Text) (paths : List Text) : Program Op Reply :=
  match normalizeBucket rawBucket with
  | .error message => refuse 400 .validationFailed message
  | .ok bucket =>
      if paths = [] ∨ 1000 < paths.length then
        refuse 400 .validationFailed "`paths` is an array of 1 to 1000 object paths."
      else match paths.findSome? pathError with
        | some message => refuse 400 .validationFailed message
        | none => .step (.bucketConfig bucket) (must fun
            | none => refuse 404 .notFound "No such bucket."
            | some cfg => .step (.deleteRows caller cfg.id paths) (must fun names =>
                names.foldr (fun name next => .step (.deleteObject ⟨bucket, name⟩) fun _ => next) (respond (.ok 200))))

def delete (caller : Caller) (rawBucket rawName : Text) : Program Op Reply :=
  match normalizeBucket rawBucket, normalizePath rawName with
  | .error message, _ | .ok _, .error message => refuse 400 .validationFailed message
  | .ok bucket, .ok name => .step (.bucketConfig bucket) (must fun
      | none => refuse 404 .notFound "No such bucket."
      | some cfg => .step (.deleteRows caller cfg.id [name]) (must fun
          | [] => refuse 404 .notFound "No such object."
          | _ :: _ => .step (.deleteObject ⟨bucket, name⟩) fun _ => respond (.ok 204)))

structure Signing where
  bucket : Text
  name : Text
  size : Nat
  contentType : Option Text

/-- The URL of an upload is signed after the caller's policies have been probed. -/
def signUpload (lower : Text → Text) (caller : Caller) (req : Signing) : Program Op Reply :=
  match normalizeBucket req.bucket, normalizePath req.name with
  | .error message, _ | .ok _, .error message => refuse 400 .validationFailed message
  | .ok bucket, .ok name =>
      let declared := req.contentType.getD "application/octet-stream".toList
      if req.size = 0 then
        refuse 400 .validationFailed ("`size` is the exact byte count you will upload. It is signed into the URL, " ++
          "so the upload must match it.")
      else .step (.bucketConfig bucket) (must fun
        | none => refuse 404 .notFound "No such bucket."
        | some cfg =>
            if cfg.fileSizeLimit.any fun limit => limit < req.size then
              refuse 413 .fileSizeLimitExceeded s!"This bucket accepts objects up to {cfg.fileSizeLimit.getD 0} bytes."
            else if !mimeAllowed lower declared cfg.allowedMimeTypes then
              refuse 415 .mimeTypeNotAllowed ("This bucket does not accept " ++ String.ofList declared ++ ".")
            else .step .plan (must fun plan => .step .usage (must fun used =>
              match placeError plan used none req.size true with
              | some e => respond (.refused e)
              | none => .step (.probe caller ⟨cfg.id, name, caller.userId, req.size, declared, []⟩) fun result =>
                  if result = .done then
                    .step (.insertIntent cfg.id name caller.userId req.size declared) (must fun _ =>
                      .step (.presign ⟨bucket, name⟩ req.size declared) fun _ => respond (.ok 200))
                  else respond (unwritten result))))

/-- The bytes that do not pass a check are deleted. -/
def reject (k : Key) (status : Nat) (code : Code) (message : String) : Program Op Reply :=
  .step (.deleteObject k) fun _ => refuse status code message

/-- What is stored under the key of the intent is checked, and becomes the object. -/
def finish (intent : Intent) (k : Key) (size : Nat) (etag : Content) : Program Op Reply :=
  if size ≠ intent.declaredSize then
    reject k 413 .fileSizeLimitExceeded (s!"The uploaded object is {size} bytes, not the {intent.declaredSize} " ++
      "that was authorised. It has been deleted.")
  else .step (.getRange k) fun
    | none => respond .failed
    | some head => match sniff head intent.contentType with
      | some reason => reject k 415 .mimeTypeNotAllowed ("Upload refused: " ++ reason ++ ". It has been deleted.")
      | none => .step (.finalise intent size etag) fun result =>
          if result = .done then respond (.ok 201) else respond (unwritten result)

def complete (id : Id) : Program Op Reply :=
  .step (.readIntent id) (must fun
    | none => refuse 404 .notFound "No such upload."
    | some (intent, k, expired) =>
        if expired then refuse 410 .notFound "That upload expired. Request a new signed upload URL."
        else .step (.headObject k) fun
          | none => respond .failed
          | some none => refuse 409 .conflict "Nothing has been uploaded to that URL yet."
          | some (some (size, etag)) => finish intent k size etag)

def createBucket (caller : Caller) (name : Text) (isPublic : Bool) (limit : Option Nat) (mimes : Option (List Text)) :
    Program Op Reply :=
  match normalizeBucket name with
  | .error _ => refuse 400 .validationFailed ("A bucket name is 2–63 characters of lowercase letters, digits, dot, " ++
      "underscore or hyphen, and must start with a letter or digit.")
  | .ok name => .step (.insertBucket caller name isPublic limit mimes) fun result =>
      if result = .done then respond (.ok 201) else respond (unwritten result)

def patchBucket (caller : Caller) (name : Text) (p : Patch) : Program Op Reply :=
  if p = ⟨none, none, none⟩ then
    refuse 400 .validationFailed "Nothing to update. Send `public`, `file_size_limit` or `allowed_mime_types`."
  else .step (.patchBucket caller name p) (must fun found =>
    if found then respond (.ok 200) else refuse 404 .notFound "No such bucket.")

def deleteBucket (caller : Caller) (name : Text) : Program Op Reply :=
  .step (.selectBucket caller name) (must fun
    | none => refuse 404 .notFound "No such bucket."
    | some id => .step (.anyObject caller id) (must fun occupied =>
        if occupied then refuse 409 .bucketNotEmpty "That bucket still holds objects. Delete them first."
        else .step (.deleteBucket caller id) fun
          | .done => respond (.ok 204)
          | .refused .policy => refuse 404 .notFound "No such bucket."
          | result => respond (unwritten result)))

/-- The first two passes of the sweep: the orphans that are older than the grace window, and the expired intents. -/
def sweepProject (graceMs : Nat) : Program Op Reply :=
  .step .listDetailed fun
    | none => .done
    | some stored => .step .inventory fun
        | none => .done
        | some objects => .step .liveIntents fun
            | none => .done
            | some intents => .step .clock fun now =>
                let orphans := stored.filter fun o => o.key ∉ objects ++ intents && decide (o.lastModified + graceMs < now)
                orphans.foldr (fun o next => .step (.deleteObject o.key) fun ok => if ok then next else .done)
                  (.step .expiredIntents fun
                    | none => .done
                    | some expired => expired.foldr (fun e next => .step (.deleteObject e.2) fun _ =>
                        .step (.deleteIntent e.1) fun ok => if ok then next else .done) .done)

inductive Request
  | upload (caller : Caller) (req : Upload)
  | batchDelete (caller : Caller) (bucket : Text) (paths : List Text)
  | delete (caller : Caller) (bucket name : Text)
  | signUpload (caller : Caller) (req : Signing)
  | complete (id : Id)
  /-- A client uses a URL. -/
  | clientPut (url : Url) (content : Content)
  | createBucket (caller : Caller) (name : Text) (isPublic : Bool) (limit : Option Nat) (mimes : Option (List Text))
  | patchBucket (caller : Caller) (name : Text) (p : Patch)
  | deleteBucket (caller : Caller) (name : Text)
  | sweep (graceMs : Nat)
  | setPolicies (policies : Policies)
  | setPlan (plan : String)
  | trueUp (totalBytes : Nat)

def Request.program (lower : Text → Text) : Request → Program Op Reply
  | .upload caller req => Storage.upload lower caller req
  | .batchDelete caller bucket paths => Storage.batchDelete caller bucket paths
  | .delete caller bucket name => Storage.delete caller bucket name
  | .signUpload caller req => Storage.signUpload lower caller req
  | .complete id => Storage.complete id
  | .clientPut url content => .step (.clientPut url content) fun _ => .done
  | .createBucket caller name isPublic limit mimes => Storage.createBucket caller name isPublic limit mimes
  | .patchBucket caller name p => Storage.patchBucket caller name p
  | .deleteBucket caller name => Storage.deleteBucket caller name
  | .sweep graceMs => sweepProject graceMs
  | .setPolicies policies => .step (.setPolicies policies) fun _ => .done
  | .setPlan plan => .step (.setPlan plan) fun _ => .done
  | .trueUp totalBytes => .step (.trueUp totalBytes) fun _ => .done

def storage (lower : Text → Text) : Protocol Client Store Op Chance Request Reply :=
  ⟨exec, fun _ s => s, Request.program lower⟩

end Corebase.Storage
