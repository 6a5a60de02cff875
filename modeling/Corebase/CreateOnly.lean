import Corebase.Contracts
import Corebase.RefusedWrites
import Mathlib.Data.List.Nodup

namespace Corebase.CreateOnly

open Interleaving StorageRules Storage
open JsText (Text)

/-- What is done with the id of the intent after the URL has been signed. -/
def signThen (lower : Text → Text) (caller : Caller) (req : Signing) (after : Id → Program Op Reply) : Program Op Reply :=
  match normalizeBucket req.bucket, normalizePath req.name with
  | .error message, _ | .ok _, .error message => refuse 400 .validationFailed message
  | .ok bucket, .ok name =>
      let declared := req.contentType.getD "application/octet-stream".toList
      if req.size = 0 then
        refuse 400 .validationFailed ("`size` is the exact byte count you will upload. It is signed into the URL, " ++
          "so the upload must match it.")
      else .step (.bucketConfig bucket) (must fun
        | none => refuse 404 .notFound "No such bucket."
        | some cfg =>
            if cfg.fileSizeLimit.any fun limit => limit < req.size then
              refuse 413 .fileSizeLimitExceeded s!"This bucket accepts objects up to {cfg.fileSizeLimit.getD 0} bytes."
            else if !mimeAllowed lower declared cfg.allowedMimeTypes then
              refuse 415 .mimeTypeNotAllowed ("This bucket does not accept " ++ String.ofList declared ++ ".")
            else .step .plan (must fun plan => .step .usage (must fun used =>
              match placeError plan used none req.size true with
              | some e => respond (.refused e)
              | none => .step (.probe caller ⟨cfg.id, name, caller.userId, req.size, declared, []⟩) fun result =>
                  if result = .done then
                    .step (.insertIntent cfg.id name caller.userId req.size declared) (must fun id =>
                      .step (.presign ⟨bucket, name⟩ req.size declared) fun _ => after id)
                  else respond (unwritten result))))

/-- An upload without upsert. One by a presigned intent is signed, put and completed. -/
inductive Create
  | direct (caller : Caller) (bucket name : Text) (body : Option Content) (contentType : Option Text)
  | presigned (caller : Caller) (req : Signing) (url : Url) (content : Content)

namespace Create

def program (lower : Text → Text) : Create → Program Op Reply
  | direct caller bucket name body contentType => upload lower caller ⟨bucket, name, body, contentType, false⟩
  | presigned caller req url content =>
      signThen lower caller req fun id => .step (.clientPut url content) fun _ => complete id

/-- The bytes that are uploaded. -/
def content : Create → Content
  | direct _ _ _ body _ => body.getD []
  | presigned _ _ _ content => content

/-- The upload is to the name. -/
def Names (k : Key) : Create → Prop
  | direct _ bucket name _ _ => normalizeBucket bucket = .ok k.bucket ∧ normalizePath name = .ok k.name
  | presigned _ req url _ => normalizeBucket req.bucket = .ok k.bucket ∧ normalizePath req.name = .ok k.name ∧ url.key = k

end Create

/-- The upload has passed its check, and has not had its last write. -/
def armed : Program Op Reply → Bool
  | .step (.putObject ..) _ | .step (.writeRow ..) _ | .step (.deleteObject ..) _ | .step (.insertIntent ..) _
  | .step (.presign ..) _ | .step (.clientPut ..) _ | .step (.readIntent ..) _ | .step (.headObject ..) _
  | .step (.getRange ..) _ | .step (.finalise ..) _ => true
  | _ => false

section Conditions

variable (k : Key)

/-- The row of the name is still there, and its bytes. -/
def Kept (s s' : Store) : Prop := ∀ row, s.db.rowAt k = some row → s'.db.rowAt k = some row ∧ s'.bytes k = s.bytes k

/-- The bucket, the row and the bytes of the name are as they were. -/
structure SameSpot (s s' : Store) : Prop where
  bucket : (s'.db.bucketNamed k.bucket).map Bucket.id = (s.db.bucketNamed k.bucket).map Bucket.id
  row : s'.db.rowAt k = s.db.rowAt k
  bytes : s'.bytes k = s.bytes k

/-- The row of the name, and the bytes under its key, are of the content. -/
def Holds (content : Content) (s : Store) : Prop :=
  ∃ row blob, s.db.rowAt k = some row ∧ row.etag = content ∧ s.bytes k = some blob ∧ blob.content = content

/-- The check of an upload sees the row of the name if there is one, in the bucket that it has been found in. The
acknowledgement of the row is not lost, and a URL is not refused while something lies under the key. -/
def Clear (chance : Chance) (op : Op) (s : Store) : Prop := match op with
  | .existing caller bucketId name => (s.db.bucketNamed k.bucket).map Bucket.id = some bucketId ∧
      ∀ row, s.db.objectAt bucketId name = some row → s.visible caller row = true
  | .probe _ row => (s.db.bucketNamed k.bucket).map Bucket.id = some row.bucketId
  | .writeRow .. => chance.sql ≠ .lost true
  | .clientPut url content => s.bytes k = none ∨
      url ∈ s.urls ∧ content.length = url.contentLength ∧ chance.now ≤ url.expires ∧ chance.call ≠ .failed false
  | _ => True

end Conditions

/-- Uploads without upsert to one name, each by a client of its own, among any others. -/
structure Uploads where
  lower : Text → Text
  k : Key
  jobs : Client → Option Create
  names : ∀ c job, jobs c = some job → job.Names k

abbrev Config := Interleaving.Config Client Store Op Reply
abbrev Move := Interleaving.Move Client Chance Request

namespace Uploads

variable (u : Uploads)

def protocol : Protocol Client Store Op Chance Request Reply := storage u.lower

/-- The uploads are about to begin. -/
def Begins (g : Config) : Prop := ∀ c job, u.jobs c = some job → g.running c = job.program u.lower

/-- No client of an upload makes another request. -/
def Single (_ : Config) (m : Move) : Prop := ∀ c q, m = .arrive c q → u.jobs c = none

/-- The upload's checks are not blind, and between its check and its last write no other client changes the bucket, the
row or the bytes of the name. -/
structure Careful (g : Config) (m : Move) : Prop where
  single : u.Single g m
  clear : ∀ c chance op next, (u.jobs c).isSome → m = .run c chance → g.running c = .step op next → Clear u.k chance op g.store
  window : ∀ c g', (u.jobs c).isSome → m.client ≠ c → armed (g.running c) = true → u.protocol.move g m = some g' →
    SameSpot u.k g.store g'.store

/-- Nobody but the uploads changes the bucket, the row or the bytes of the name. -/
def Alone (g : Config) (m : Move) : Prop :=
  u.jobs m.client = none → ∀ g', u.protocol.move g m = some g' → SameSpot u.k g.store g'.store

/-- Reported as created. -/
def Created (g : Config) (c : Client) : Prop := (u.jobs c).isSome ∧ (c, .ok 201) ∈ g.store.responses

/-- Told that the object exists. -/
def Exists (r : Response) : Prop :=
  r = .refused ⟨409, .conflict, "An object already exists at that path. Send `x-upsert: true` to replace it."⟩ ∨
    r = .refused ⟨409, .conflict, "An object already exists at that path."⟩

/-- The statements of the uploads leave the row of the name and its bytes alone. -/
def Spares (ok : Config → Move → Prop) (g : Config) : Prop :=
  ∀ c chance g', (u.jobs c).isSome → ok g (.run c chance) → u.protocol.move g (.run c chance) = some g' →
    Kept u.k g.store g'.store

/-- At most one upload is reported as created, and its bytes are the ones stored; and when all of them have been
answered, and not refused for another reason, one is. -/
structure OneCreated (g : Config) : Prop where
  unique : ∀ c d, u.Created g c → u.Created g d → c = d
  stored : ∀ c job, u.jobs c = some job → u.Created g c → Holds u.k job.content g.store
  any : (∃ c, (u.jobs c).isSome) → (∀ c, (u.jobs c).isSome → ∃ r, (c, r) ∈ g.store.responses ∧
    ∀ r, (c, r) ∈ g.store.responses → r = .ok 201 ∨ Exists r) → ∃ c, u.Created g c

/-- A name that is free, and uploads that have not been answered. -/
structure Free (g : Config) : Prop where
  row : g.store.db.rowAt u.k = none
  answers : ∀ c r, (u.jobs c).isSome → (c, r) ∉ g.store.responses

end Uploads

/-- No upload ever changes a row that is there or its bytes, and of those to a free name one is reported as created. -/
def Uploads.Sound (u : Uploads) (ok : Config → Move → Prop) (g₀ : Config) : Prop :=
  (∀ g, u.protocol.Reaches ok g₀ g → u.Spares ok g) ∧
    (u.Free g₀ → ∀ g, u.protocol.Reaches (fun g m => ok g m ∧ u.Alone g m) g₀ g → u.OneCreated g)

/-- The ids of the database are given out once. -/
structure Ids (db : Db) : Prop where
  unique : (db.buckets.map Bucket.id).Nodup
  buckets : ∀ b ∈ db.buckets, b.id < db.nextId
  intents : ∀ i ∈ db.intents, i.id < db.nextId

/-- An intent that is new has a new id. -/
structure Growing (db db' : Db) : Prop where
  ids : Ids db'
  nextId : db.nextId ≤ db'.nextId
  intents : ∀ i ∈ db'.intents, i ∈ db.intents ∨ db.nextId ≤ i.id

section Frame

variable {c : Client} {chance : Chance} {op : Op} {r : Reply op} {s s' s₁ : Store} {db : Db}

theorem Growing.refl (h : Ids db) : Growing db db := ⟨h, le_rfl, fun _ hi => .inl hi⟩

theorem growing_of_db (hs : Ids s.db) (h : s'.db = s.db) : Growing s.db s'.db := by
  rw [h]
  exact .refl hs

theorem growing_upsert (h : Ids db) (row : Row) : Growing db (db.upsert row) := by
  rw [Db.upsert]
  split <;> exact ⟨⟨h.unique, h.buckets, h.intents⟩, le_rfl, fun _ hi => .inl hi⟩

/-- The statements that change neither the intents nor the buckets. -/
theorem growing_objects (h : Ids db) (objects : List Row) (total : Nat) :
    Growing db { db with objects := objects, totalBytes := total } :=
  ⟨⟨h.unique, h.buckets, h.intents⟩, le_rfl, fun _ hi => .inl hi⟩

theorem growing_filter (h : Ids db) (p : Intent → Bool) : Growing db { db with intents := db.intents.filter p } :=
  ⟨⟨h.unique, h.buckets, fun i hi => h.intents i (List.mem_filter.mp hi).1⟩, le_rfl,
    fun _ hi => .inl (List.mem_filter.mp hi).1⟩

theorem growing_finalise (h : Ids db) (row : Row) (p : Intent → Bool) :
    Growing db { db.upsert row with intents := db.intents.filter p } := by
  rw [Db.upsert]
  split <;> exact ⟨⟨h.unique, h.buckets, fun i hi => h.intents i (List.mem_filter.mp hi).1⟩, le_rfl,
    fun _ hi => .inl (List.mem_filter.mp hi).1⟩

theorem growing_intent (h : Ids db) (i : Intent) (hi : i.id = db.nextId) :
    Growing db { db with intents := i :: db.intents, nextId := db.nextId + 1 } := by
  refine ⟨⟨h.unique, fun b hb => Nat.lt_succ_of_lt (h.buckets b hb), fun j hj => ?_⟩, Nat.le_succ _, fun j hj => ?_⟩
  · rcases List.mem_cons.mp hj with rfl | hj
    · exact hi ▸ Nat.lt_succ_self _
    · exact Nat.lt_succ_of_lt (h.intents j hj)
  · rcases List.mem_cons.mp hj with rfl | hj
    · exact .inr hi.ge
    · exact .inl hj

theorem growing_bucket (h : Ids db) (b : Bucket) (hb : b.id = db.nextId) :
    Growing db { db with buckets := b :: db.buckets, nextId := db.nextId + 1 } := by
  refine ⟨⟨?_, fun d hd => ?_, fun i hi => Nat.lt_succ_of_lt (h.intents i hi)⟩, Nat.le_succ _, fun _ hi => .inl hi⟩
  · refine List.nodup_cons.mpr ⟨fun hmem => ?_, h.unique⟩
    obtain ⟨d, hd, heq⟩ := List.mem_map.mp hmem
    exact absurd (h.buckets d hd) (by rw [heq, hb]; exact lt_irrefl _)
  · rcases List.mem_cons.mp hd with rfl | hd
    · exact hb ▸ Nat.lt_succ_self _
    · exact Nat.lt_succ_of_lt (h.buckets d hd)

theorem growing_patch (h : Ids db) (f : Bucket → Bucket) (hf : ∀ b, (f b).id = b.id) :
    Growing db { db with buckets := db.buckets.map f } := by
  refine ⟨⟨?_, fun d hd => ?_, h.intents⟩, le_rfl, fun _ hi => .inl hi⟩
  · rw [List.map_map, show Bucket.id ∘ f = Bucket.id from funext hf]
    exact h.unique
  · obtain ⟨b, hb, rfl⟩ := List.mem_map.mp hd
    rw [hf]
    exact h.buckets b hb

theorem growing_drop (h : Ids db) (p : Bucket → Bool) : Growing db { db with buckets := db.buckets.filter p } :=
  ⟨⟨h.unique.sublist (List.filter_sublist.map _), fun b hb => h.buckets b (List.mem_filter.mp hb).1, h.intents⟩, le_rfl,
    fun _ hi => .inl hi⟩

theorem growing_writes {verdict : Option SqlError} {result : Write} (hs : Ids s.db)
    (h : chance.writes verdict s s₁ = (result, s')) (h₁ : Growing s.db s₁.db) : Growing s.db s'.db := by
  rcases RefusedWrites.writes_store chance h with rfl | rfl
  · exact .refl hs
  · exact h₁

theorem growing_calls {ok : Bool} (hs : Ids s.db) (h : chance.calls s s₁ = (ok, s')) (h₁ : s₁.db = s.db) :
    Growing s.db s'.db := by
  rcases RefusedWrites.calls_cases chance h with ⟨-, rfl⟩ | ⟨-, rfl | rfl⟩
  · exact growing_of_db hs h₁
  · exact .refl hs
  · exact growing_of_db hs h₁

theorem growing_exec (hs : Ids s.db) (h : exec c chance op s = some (r, s')) : Growing s.db s'.db := by
  cases op with
  | bucketConfig | plan | usage | existing | readIntent | selectBucket | anyObject | inventory | liveIntents | expiredIntents
  | clock | setPolicies | setPlan | respond | presign => exact growing_of_db hs (by cases h; rfl)
  | trueUp total => cases h; exact growing_objects hs _ _
  | headObject | getRange | listDetailed =>
      simp only [exec] at h
      split at h <;> cases h <;> exact .refl hs
  | putObject =>
      simp only [exec] at h
      cases h
      exact growing_calls hs rfl rfl
  | writeRow caller row => exact growing_writes hs (Option.some.inj h) (growing_upsert hs row)
  | deleteObject => exact growing_calls hs (Option.some.inj h) rfl
  | deleteRows =>
      simp only [exec] at h
      cases h
      exact growing_writes hs rfl (growing_objects hs _ _)
  | probe => exact growing_writes hs (Option.some.inj h) (.refl hs)
  | insertIntent =>
      simp only [exec] at h
      cases h
      exact growing_writes hs rfl (growing_intent hs _ rfl)
  | finalise => exact growing_writes hs (Option.some.inj h) (growing_finalise hs _ _)
  | clientPut =>
      simp only [exec] at h
      split at h <;> cases h
      · exact growing_calls hs rfl rfl
      · exact .refl hs
  | insertBucket => exact growing_writes hs (Option.some.inj h) (growing_bucket hs _ rfl)
  | patchBucket =>
      simp only [exec] at h
      cases h
      refine growing_writes hs rfl (growing_patch hs _ fun b => ?_)
      split <;> rfl
  | deleteBucket => exact growing_writes hs (Option.some.inj h) (growing_drop hs _)
  | deleteIntent =>
      simp only [exec] at h
      cases h
      exact growing_writes hs rfl (growing_filter hs _)

/-- Only an answer is recorded as one. -/
theorem responses_exec (h : exec c chance op s = some (r, s')) :
    s'.responses = s.responses ∨ ∃ x, op = .respond x ∧ s'.responses = (c, x) :: s.responses := by
  have hwrites : ∀ {verdict : Option SqlError} {s₁ s' : Store} {result : Write},
      chance.writes verdict s s₁ = (result, s') → s₁.responses = s.responses → s'.responses = s.responses := by
    intro verdict s₁ s' result h h₁
    rcases RefusedWrites.writes_store chance h with rfl | rfl
    · rfl
    · exact h₁
  have hcalls : ∀ {s₁ s' : Store} {ok : Bool},
      chance.calls s s₁ = (ok, s') → s₁.responses = s.responses → s'.responses = s.responses := by
    intro s₁ s' ok h h₁
    rcases RefusedWrites.calls_cases chance h with ⟨-, rfl⟩ | ⟨-, rfl | rfl⟩
    · exact h₁
    · rfl
    · exact h₁
  cases op with
  | respond x =>
      cases h
      exact .inr ⟨x, rfl, rfl⟩
  | bucketConfig | plan | usage | existing | readIntent | selectBucket | anyObject | inventory | liveIntents | expiredIntents
  | clock | setPolicies | setPlan | presign | trueUp => exact .inl (by cases h; rfl)
  | headObject | getRange | listDetailed =>
      simp only [exec] at h
      split at h <;> cases h <;> exact .inl rfl
  | putObject | deleteRows | insertIntent | patchBucket | deleteIntent =>
      simp only [exec] at h
      cases h
      first
        | exact .inl (hcalls rfl rfl)
        | exact .inl (hwrites rfl rfl)
  | deleteObject => exact .inl (hcalls (Option.some.inj h) rfl)
  | writeRow | probe | finalise | insertBucket | deleteBucket => exact .inl (hwrites (Option.some.inj h) rfl)
  | clientPut =>
      simp only [exec] at h
      split at h <;> cases h
      · exact .inl (hcalls rfl rfl)
      · exact .inl rfl

end Frame

/-- The answer comes next. -/
def saying (r : Response) (p : Program Op Reply) : Prop := ∃ next, p = .step (.respond r) next

/-- An answer ends the program. -/
def Final (p : Program Op Reply) : Prop := ∀ r, saying r p → p = respond r

/-- What a statement of an upload does. -/
structure Post (k : Key) (content : Content) (s s' : Store) (p : Program Op Reply) : Prop where
  kept : Kept k s s'
  created : saying (.ok 201) p → s.db.rowAt k = none ∧ Holds k content s'
  present : ∀ r, Uploads.Exists r → saying r p → s'.db.rowAt k ≠ none
  made : s.db.rowAt k = none → s'.db.rowAt k ≠ none → saying (.ok 201) p ∨ saying .failed p
  final : Final p

def contract (k : Key) (content : Content) : Contract Store Op Chance Reply where
  Inv s := Ids s.db
  Rely p s s' := (armed p = true → SameSpot k s s') ∧ Growing s.db s'.db
  Allowed := Clear k
  Post := Post k content

/-- The statement has done as it should, and so does the rest of the program. -/
def Goes (lower : Text → Text) (c : Client) (k : Key) (content : Content) (s s' : Store) (p : Program Op Reply) : Prop :=
  Post k content s s' p ∧ ∃ Q, (contract k content).Stable p Q ∧ Q s' ∧ (contract k content).Follows (storage lower) c p Q

/-- The bucket of the name has the id, and the name is free. -/
def At (k : Key) (b : Id) (s : Store) : Prop := (s.db.bucketNamed k.bucket).map Bucket.id = some b ∧ s.db.rowAt k = none

/-- Neither a creation nor an object that exists is about to be reported. -/
def Quiet (p : Program Op Reply) : Prop := ∀ r, saying r p → p = respond r ∧ r ≠ .ok 201 ∧ ¬ Uploads.Exists r

section Programs

variable {lower : Text → Text} {c : Client} {k : Key} {content : Content} {s s' : Store} {p : Program Op Reply} {b : Id}
  {Q : Store → Prop}

theorem SameSpot.refl : SameSpot k s s := ⟨rfl, rfl, rfl⟩

theorem SameSpot.kept (h : SameSpot k s s') : Kept k s s' := fun _ hrow => ⟨h.row.trans hrow, h.bytes⟩

theorem SameSpot.stays (h : SameSpot k s s') (hat : At k b s) : At k b s' := ⟨h.bucket.trans hat.1, h.row.trans hat.2⟩

theorem kept_of_free (h : s.db.rowAt k = none) : Kept k s s' := by
  intro row hrow
  cases h.symm.trans hrow

theorem rowAt_eq (h : (s.db.bucketNamed k.bucket).map Bucket.id = some b) : s.db.rowAt k = s.db.objectAt b k.name := by
  obtain ⟨cfg, hcfg, rfl⟩ := Option.map_eq_some_iff.mp h
  rw [Db.rowAt, hcfg, Option.bind_some]

theorem saying_respond {r x : Response} (h : saying r (respond x)) : r = x := by
  obtain ⟨next, h⟩ := h
  injection h with hop
  exact (Op.respond.inj hop).symm

theorem quiet_step {op : Op} {next : Reply op → Program Op Reply} (h : ∀ r, op ≠ .respond r) : Quiet (.step op next) := by
  rintro r ⟨next', heq⟩
  injection heq with hop
  exact absurd hop (h r)

theorem final_respond (r : Response) : Final (respond r) := by
  intro x hx
  rw [saying_respond hx]

theorem quiet_respond {r : Response} (hcreated : r ≠ .ok 201) (hexists : ¬ Uploads.Exists r) : Quiet (respond r) := by
  intro x hx
  obtain rfl := saying_respond hx
  exact ⟨rfl, hcreated, hexists⟩

theorem Quiet.final (h : Quiet p) : Final p := fun r hr => (h r hr).1

/-- An error with another status. -/
theorem quiet_refused {e : ApiError} (h : e.status ≠ 409) : Quiet (respond (.refused e)) := by
  refine quiet_respond (fun h => by cases h) ?_
  rintro (heq | heq)
  · cases heq
    exact h rfl
  · cases heq
    exact h rfl

theorem quiet_failed : Quiet (respond .failed) := by
  refine quiet_respond (fun h => by cases h) ?_
  rintro (heq | heq) <;> cases heq

/-- A statement before a quiet program, which does not make the row. -/
theorem post_quiet (hkept : Kept k s s') (hrow : s.db.rowAt k = none → s'.db.rowAt k = none) (hp : Quiet p) :
    Post k content s s' p where
  kept := hkept
  created h := absurd rfl (hp _ h).2.1
  present r hr h := absurd hr (hp r h).2.2
  made h h' := absurd (hrow h) h'
  final := hp.final

theorem follows_step {op : Op} {next : Reply op → Program Op Reply}
    (h : ∀ s chance r s', Ids s.db → Q s → Clear k chance op s → exec c chance op s = some (r, s') →
      Goes lower c k content s s' (next r)) : (contract k content).Follows (storage lower) c (.step op next) Q :=
  h

theorem follows_respond (r : Response) : (contract k content).Follows (storage lower) c (respond r) Q := by
  intro s chance x s' _ _ _ hexec
  cases hexec
  refine ⟨post_quiet SameSpot.refl.kept id ?_, fun _ => True, Contract.stable_true _, trivial, trivial⟩
  rintro r ⟨next, h⟩
  cases h

theorem goes_respond {r : Response} (hkept : Kept k s s') (hrow : s.db.rowAt k = none → s'.db.rowAt k = none)
    (hr : Quiet (respond r)) : Goes lower c k content s s' (respond r) :=
  ⟨post_quiet hkept hrow hr, fun _ => True, Contract.stable_true _, trivial, follows_respond r⟩

/-- A program that assumes nothing comes next. -/
theorem goes_fresh (hkept : Kept k s s') (hrow : s.db.rowAt k = none → s'.db.rowAt k = none) (hp : Quiet p)
    (h : (contract k content).Follows (storage lower) c p fun _ => True) : Goes lower c k content s s' p :=
  ⟨post_quiet hkept hrow hp, fun _ => True, Contract.stable_true _, trivial, h⟩

/-- A program that assumes that the spot stays as it is comes next, in the window of the upload. -/
theorem goes_armed (hfree : s.db.rowAt k = none) (hp : Quiet p) (harmed : armed p = true)
    (hQ : ∀ s s', SameSpot k s s' → Growing s.db s'.db → Q s → Q s') (hat : Q s') (hrow : s'.db.rowAt k = none)
    (h : (contract k content).Follows (storage lower) c p Q) : Goes lower c k content s s' p :=
  ⟨post_quiet (kept_of_free hfree) (fun _ => hrow) hp, Q, fun s s' _ hrely => hQ s s' (hrely.1 harmed) hrely.2, hat, h⟩

theorem goes_must {α : Type} {next : α → Program Op Reply} {value : Option α} (hkept : Kept k s s')
    (hrow : s.db.rowAt k = none → s'.db.rowAt k = none)
    (h : ∀ a, value = some a → Goes lower c k content s s' (next a)) : Goes lower c k content s s' (must next value) := by
  cases value with
  | none => exact goes_respond hkept hrow (quiet_refused (by decide))
  | some a => exact h a rfl

theorem objectAt_upsert {db : Db} {row : Row} (h : db.objectAt row.bucketId row.name = none) :
    (db.upsert row).objectAt row.bucketId row.name = some row := by
  have hnone : db.objects.find? (fun r => r.bucketId = row.bucketId && r.name = row.name) = none := h
  rw [Db.upsert, h]
  simp [Db.objectAt, hnone]

/-- The row of a free name is the one that is written. -/
theorem holds_upsert {row : Row} {blob : Blob} (hat : At k b s) (hb : row.bucketId = b) (hname : row.name = k.name)
    (hetag : row.etag = content) (hblob : s.bytes k = some blob) (hcontent : blob.content = content)
    (hs' : s'.db.buckets = s.db.buckets) (hobjects : s'.db.objects = (s.db.upsert row).objects) (hbytes : s'.bytes = s.bytes) :
    Holds k content s' := by
  subst hb
  have hbucket : (s'.db.bucketNamed k.bucket).map Bucket.id = some row.bucketId := by
    rw [Db.bucketNamed, hs']
    exact hat.1
  refine ⟨row, blob, ?_, hetag, ?_, hcontent⟩
  · rw [rowAt_eq hbucket, ← hname]
    have hfree : s.db.objectAt row.bucketId row.name = none := by
      rw [hname, ← rowAt_eq hat.1]
      exact hat.2
    have h := objectAt_upsert hfree
    rw [Db.objectAt] at h ⊢
    rw [hobjects]
    exact h
  · rw [hbytes]
    exact hblob

theorem Holds.row (h : Holds k content s) : s.db.rowAt k ≠ none := by
  obtain ⟨row, -, hrow, -⟩ := h
  rw [hrow]
  exact Option.some_ne_none row

theorem writeCheck_unique (caller : Caller) (row : Row) : s.writeCheck caller row ≠ some .unique := by
  simp only [Store.writeCheck]
  split_ifs <;> (try split) <;> (try split_ifs) <;> simp

theorem writes_error {chance : Chance} {verdict : Option SqlError} {s₁ : Store} {e : SqlError}
    (h : chance.writes verdict s s₁ = (.refused e, s')) : verdict = some e ∨ e = .other := by
  unfold Chance.writes at h
  split at h <;> cases h
  · exact .inl rfl
  · exact .inr rfl

theorem quiet_unwritten {result : Write} (h : result ≠ .refused .unique) : Quiet (respond (unwritten result)) := by
  cases result with
  | done => exact quiet_failed
  | lost => exact quiet_failed
  | refused e =>
      refine quiet_refused ?_
      cases e with
      | unique => exact absurd rfl h
      | policy | foreignKey | other => decide

variable {caller : Caller} {body : Content} {declared : Text}

/-- The row is written, or the bytes are deleted again. -/
theorem follows_row {row : Row} (hb : row.bucketId = b) (hname : row.name = k.name) (hetag : row.etag = content) :
    (contract k content).Follows (storage lower) c (.step (.writeRow caller row) fun result =>
      if result = .done then respond (.ok 201) else .step (.deleteObject k) fun _ => respond (unwritten result))
      fun s => At k b s ∧ ∃ blob, s.bytes k = some blob ∧ blob.content = content := by
  refine follows_step fun s chance result s' _ hQ hclear hexec => ?_
  obtain ⟨hat, blob, hblob, hcontent⟩ := hQ
  have hwrites : chance.writes (s.writeCheck caller row) s { s with db := s.db.upsert row } = (result, s') := Option.some.inj hexec
  by_cases hdone : result = .done
  · have hs' : s' = { s with db := s.db.upsert row } := by
      unfold Chance.writes at hwrites
      subst hdone
      split at hwrites <;> cases hwrites
      rfl
    rw [if_pos hdone]
    have hbuckets : (s.db.upsert row).buckets = s.db.buckets := by
      rw [Db.upsert]
      split <;> rfl
    have hholds : Holds k content s' :=
      holds_upsert hat hb hname hetag hblob hcontent (by rw [hs']; exact hbuckets) (by rw [hs']) (by rw [hs'])
    exact ⟨⟨kept_of_free hat.2, fun _ => ⟨hat.2, hholds⟩, fun _ _ _ => hholds.row, fun _ _ => .inl ⟨_, rfl⟩, final_respond _⟩,
      fun _ => True, Contract.stable_true _, trivial, follows_respond _⟩
  · have hs' : s' = s := by
      unfold Chance.writes at hwrites
      split at hwrites <;> cases hwrites
      · rfl
      · exact absurd rfl hdone
      · rfl
      · exact absurd (by assumption) hclear
      · rfl
    rw [if_neg hdone, hs']
    have hunique : result ≠ .refused .unique := by
      rintro rfl
      rcases writes_error hwrites with h | h
      · exact writeCheck_unique caller row h
      · cases h
    refine goes_armed hat.2 (quiet_step fun r h => by cases h) rfl (fun _ _ hspot _ h => hspot.stays h) hat hat.2 ?_
    refine follows_step fun s chance ok s' _ hat _ hexec => ?_
    have hrow : s'.db.rowAt k = s.db.rowAt k := by
      rcases RefusedWrites.calls_cases chance (Option.some.inj hexec) with ⟨-, rfl⟩ | ⟨-, rfl | rfl⟩ <;> rfl
    exact goes_respond (kept_of_free hat.2) (fun h => hrow.trans h) (quiet_unwritten hunique)

theorem bytes_put {blob : Blob} : (s.put k blob).bytes k = some blob := Function.update_self ..

theorem follows_place : (contract k body).Follows (storage lower) c (place caller k b body declared 201) (At k b) := by
  refine follows_step fun s chance etag s' _ hat _ hexec => ?_
  have hrow : s'.db = s.db := by
    rcases RefusedWrites.exec_putObject c chance hexec with ⟨-, rfl⟩ | ⟨-, rfl | rfl⟩ <;> rfl
  have hat' : At k b s' := by
    rw [At, hrow]
    exact hat
  rcases RefusedWrites.exec_putObject c chance hexec with ⟨rfl, rfl⟩ | ⟨rfl, -⟩
  · refine goes_armed hat.2 (quiet_step fun r h => by cases h) rfl ?_ ⟨hat', _, bytes_put, rfl⟩ hat'.2
      (follows_row rfl rfl rfl)
    rintro s s' hspot - ⟨h, blob, hblob, hcontent⟩
    exact ⟨hspot.stays h, blob, hspot.bytes.trans hblob, hcontent⟩
  · exact goes_respond (kept_of_free hat.2) (fun _ => hat'.2) quiet_failed

/-- What the check says when it sees the row of the name if there is one. -/
theorem goes_checked {plan : String} {used : Nat} {existing : Option Row}
    (hclear : (s.db.bucketNamed k.bucket).map Bucket.id = some b)
    (hvisible : ∀ row, s.db.objectAt b k.name = some row → s.visible caller row = true)
    (hexisting : existing = (s.db.objectAt b k.name).filter (s.visible caller)) :
    Goes lower c k body s s (match placeError plan used existing body.length false with
      | some e => respond (.refused e)
      | none => place caller k b body declared (if existing.isSome then 200 else 201)) := by
  have hsame : existing = s.db.rowAt k := by
    rw [hexisting, rowAt_eq hclear]
    cases hrow : s.db.objectAt b k.name with
    | none => rfl
    | some row => exact Option.filter_eq_some_iff.mpr ⟨rfl, hvisible row hrow⟩
  cases herror : placeError plan used existing body.length false with
  | some e =>
      dsimp only
      cases hrow : s.db.rowAt k with
      | some row =>
          refine ⟨⟨SameSpot.refl.kept, fun h => ?_, fun r _ _ => ?_, fun h => ?_, final_respond _⟩, fun _ => True,
            Contract.stable_true _, trivial, follows_respond _⟩
          · cases saying_respond h
          · rw [hrow]
            exact Option.some_ne_none row
          · cases hrow.symm.trans h
      | none =>
          refine goes_respond SameSpot.refl.kept id (quiet_refused ?_)
          rw [hsame, hrow] at herror
          simp only [placeError] at herror
          split_ifs at herror with hquota hfound
          · cases herror
            decide
          · simp at hfound
  | none =>
      have hfree : existing = none := by
        simp only [placeError] at herror
        split_ifs at herror with hquota hfound
        simpa using hfound
      have hat : At k b s := ⟨hclear, by rw [← hsame, hfree]⟩
      dsimp only
      rw [hfree]
      exact goes_armed hat.2 (quiet_step fun r h => by cases h) rfl (fun _ _ hspot _ h => hspot.stays h) hat hat.2 follows_place

theorem follows_admitted : (contract k body).Follows (storage lower) c (admitted caller k b body declared false) Q := by
  refine follows_step fun s chance plan s' _ _ _ hexec => ?_
  cases hexec
  refine goes_must SameSpot.refl.kept id fun plan _ => goes_fresh SameSpot.refl.kept id (quiet_step fun r h => by cases h)
    (follows_step fun s chance used s' _ _ _ hexec => ?_)
  cases hexec
  refine goes_must SameSpot.refl.kept id fun used _ => goes_fresh SameSpot.refl.kept id (quiet_step fun r h => by cases h)
    (follows_step fun s chance existing s' _ _ hclear hexec => ?_)
  cases hexec
  refine goes_must SameSpot.refl.kept id fun existing hexisting => ?_
  exact goes_checked hclear.1 hclear.2 (RefusedWrites.reads_eq hexisting)

theorem contentError_status {cfg : Bucket} {e : ApiError} (h : contentError lower cfg body declared = some e) :
    e.status ≠ 409 := by
  simp only [contentError] at h
  split_ifs at h
  · cases h
    exact (by decide : 413 ≠ 409)
  · cases h
    exact (by decide : 415 ≠ 409)
  · obtain ⟨reason, -, rfl⟩ := Option.map_eq_some_iff.mp h
    exact (by decide : 415 ≠ 409)

theorem follows_upload {bucket name : Text} {upload : Option Content} {contentType : Option Text}
    (hbucket : normalizeBucket bucket = .ok k.bucket) (hname : normalizePath name = .ok k.name) :
    (contract k (upload.getD [])).Follows (storage lower) c
      (Storage.upload lower caller ⟨bucket, name, upload, contentType, false⟩) Q := by
  cases upload with
  | none =>
      simp only [Storage.upload, hbucket, hname]
      exact follows_respond _
  | some body =>
      simp only [Storage.upload, hbucket, hname]
      split_ifs
      · exact follows_respond _
      · refine follows_step fun s chance found s' _ _ _ hexec => ?_
        cases hexec
        refine goes_must SameSpot.refl.kept id fun cfg _ => ?_
        cases cfg with
        | none => exact goes_respond SameSpot.refl.kept id (quiet_refused (by decide))
        | some cfg =>
            dsimp only
            cases herror : contentError lower cfg body (Upload.declared ⟨bucket, name, some body, contentType, false⟩) with
            | some e => exact goes_respond SameSpot.refl.kept id (quiet_refused (contentError_status herror))
            | none => exact goes_fresh SameSpot.refl.kept id (quiet_step fun r h => by cases h) follows_admitted

/-- The intents with the id are for the name. -/
def Issued (k : Key) (b id : Id) (s : Store) : Prop :=
  At k b s ∧ id < s.db.nextId ∧ ∀ i ∈ s.db.intents, i.id = id → i.bucketId = b ∧ i.name = k.name

/-- Under the key there is nothing but the content. -/
def Loaded (k : Key) (content : Content) (s : Store) : Prop := ∀ blob, s.bytes k = some blob → blob.content = content

variable {n : Id}

theorem Issued.spot (hspot : SameSpot k s s') (hgrow : Growing s.db s'.db) (h : Issued k b n s) : Issued k b n s' := by
  refine ⟨hspot.stays h.1, h.2.1.trans_le hgrow.nextId, fun i hi hid => ?_⟩
  rcases hgrow.intents i hi with hold | hnew
  · exact h.2.2 i hold hid
  · exact absurd (hid ▸ hnew) (not_le.mpr h.2.1)

theorem Loaded.spot (hspot : SameSpot k s s') (h : Loaded k content s) : Loaded k content s' := by
  intro blob hblob
  exact h blob (hspot.bytes ▸ hblob)

/-- The key of an intent for the name. -/
theorem keyOf_eq (hids : Ids s.db) (hat : At k b s) {k' : Key} (h : s.db.keyOf b k.name = some k') : k' = k := by
  obtain ⟨cfg, hcfg, hb⟩ := Option.map_eq_some_iff.mp hat.1
  obtain ⟨x, hx, rfl⟩ := Option.map_eq_some_iff.mp h
  have hname : cfg.name = k.bucket := by simpa using List.find?_some hcfg
  have hid : x.id = b := by simpa using List.find?_some hx
  have heq : x = cfg := List.inj_on_of_nodup_map hids.unique (List.mem_of_find?_eq_some hx) (List.mem_of_find?_eq_some hcfg)
    (hid.trans hb.symm)
  rw [heq, hname]

theorem writes_done {chance : Chance} {verdict : Option SqlError} {s₁ : Store}
    (h : chance.writes verdict s s₁ = (.done, s')) : verdict = none ∧ s' = s₁ := by
  unfold Chance.writes at h
  split at h <;> cases h
  exact ⟨rfl, rfl⟩

theorem follows_reject {status : Nat} {code : Code} {message : String} (h : status ≠ 409) :
    (contract k content).Follows (storage lower) c (reject k status code message) (At k b) := by
  refine follows_step fun s chance ok s' _ hat _ hexec => ?_
  have hrow : s'.db.rowAt k = s.db.rowAt k := by
    rcases RefusedWrites.calls_cases chance (Option.some.inj hexec) with ⟨-, rfl⟩ | ⟨-, rfl | rfl⟩ <;> rfl
  exact goes_respond (kept_of_free hat.2) (fun h => hrow.trans h) (quiet_refused h)

/-- What has been found under the key becomes the object. -/
theorem follows_finalise {intent : Intent} {size : Nat} (hb : intent.bucketId = b) (hname : intent.name = k.name) :
    (contract k content).Follows (storage lower) c (.step (.finalise intent size content) fun result =>
      if result = .done then respond (.ok 201) else respond (unwritten result))
      fun s => At k b s ∧ ∃ blob, s.bytes k = some blob ∧ blob.content = content := by
  refine follows_step fun s chance result s' _ hQ _ hexec => ?_
  obtain ⟨hat, blob, hblob, hcontent⟩ := hQ
  have hwrites := Option.some.inj hexec
  by_cases hdone : result = .done
  · rw [if_pos hdone]
    subst hdone
    obtain ⟨-, rfl⟩ := writes_done hwrites
    have hbuckets : ∀ row, (s.db.upsert row).buckets = s.db.buckets := by
      intro row
      rw [Db.upsert]
      split <;> rfl
    have hholds : Holds k content { s with db := { s.db.upsert ⟨intent.bucketId, intent.name, intent.owner, size,
        intent.contentType, content⟩ with intents := s.db.intents.filter fun i => i.id ≠ intent.id } } :=
      holds_upsert hat hb hname rfl hblob hcontent (hbuckets _) rfl rfl
    exact ⟨⟨kept_of_free hat.2, fun _ => ⟨hat.2, hholds⟩, fun _ _ _ => hholds.row, fun _ _ => .inl ⟨_, rfl⟩, final_respond _⟩,
      fun _ => True, Contract.stable_true _, trivial, follows_respond _⟩
  · rw [if_neg hdone]
    have hquiet : Quiet (respond (unwritten result)) := by
      refine quiet_unwritten ?_
      rintro rfl
      rcases writes_error hwrites with h | h
      · split at h <;> cases h
      · cases h
    cases result with
    | done => exact absurd rfl hdone
    | refused e =>
        obtain rfl := RefusedWrites.writes_refused chance hwrites
        exact goes_respond SameSpot.refl.kept id hquiet
    | lost =>
        -- the row may have been made by a transaction whose acknowledgement is lost
        exact ⟨⟨kept_of_free hat.2, fun h => absurd rfl (hquiet _ h).2.1, fun r hr h => absurd hr (hquiet r h).2.2,
          fun _ _ => .inr ⟨_, rfl⟩, final_respond _⟩, fun _ => True, Contract.stable_true _, trivial, follows_respond _⟩

theorem follows_finish {intent : Intent} (hb : intent.bucketId = b) (hname : intent.name = k.name) {size : Nat} :
    (contract k content).Follows (storage lower) c (finish intent k size content)
      fun s => At k b s ∧ ∃ blob, s.bytes k = some blob ∧ blob.content = content := by
  unfold finish
  split
  · exact (follows_reject (by decide)).mono fun s _ h => h.1
  · refine follows_step fun s chance head s' _ hQ _ hexec => ?_
    have hs' : s' = s := by
      simp only [exec] at hexec
      split at hexec <;> cases hexec <;> rfl
    rw [hs']
    cases head with
    | none => exact goes_respond SameSpot.refl.kept id quiet_failed
    | some head =>
        dsimp only
        cases sniff head intent.contentType with
        | some reason =>
            exact goes_armed hQ.1.2 (quiet_step fun r h => by cases h) rfl (fun _ _ hspot _ h => hspot.stays h) hQ.1 hQ.1.2
              (follows_reject (by decide))
        | none =>
            refine goes_armed hQ.1.2 (quiet_step fun r h => by cases h) rfl ?_ hQ hQ.1.2 (follows_finalise hb hname)
            rintro s s' hspot - ⟨h, blob, hblob, hcontent⟩
            exact ⟨hspot.stays h, blob, hspot.bytes.trans hblob, hcontent⟩

theorem quiet_finish {intent : Intent} {size : Nat} : Quiet (finish intent k size content) := by
  unfold finish
  split <;> exact quiet_step fun r h => by cases h

theorem armed_finish {intent : Intent} {size : Nat} : armed (finish intent k size content) = true := by
  unfold finish
  split <;> rfl

/-- A completion of an intent for the name, under whose key there is nothing but the content. -/
theorem follows_complete : (contract k content).Follows (storage lower) c (complete n)
    fun s => Issued k b n s ∧ Loaded k content s := by
  refine follows_step fun s chance found s' hids hQ _ hexec => ?_
  obtain ⟨⟨hat, -, hintents⟩, hloaded⟩ := hQ
  cases hexec
  refine goes_must SameSpot.refl.kept id fun found hfound => ?_
  cases found with
  | none => exact goes_respond SameSpot.refl.kept id (quiet_refused (by decide))
  | some found =>
      obtain ⟨intent, k', expired⟩ := found
      obtain ⟨i, hi, hkey⟩ := Option.bind_eq_some_iff.mp (RefusedWrites.reads_eq hfound).symm
      obtain ⟨k₁, hk₁, heq⟩ := Option.map_eq_some_iff.mp hkey
      cases heq
      obtain ⟨hb, hname⟩ := hintents intent (List.mem_of_find?_eq_some hi) (by simpa using List.find?_some hi)
      rw [hb, hname] at hk₁
      obtain rfl := keyOf_eq hids hat hk₁
      dsimp only
      split_ifs
      · exact goes_respond SameSpot.refl.kept id (quiet_refused (by decide))
      · refine goes_armed (Q := fun s => At k' b s ∧ Loaded k' content s) hat.2 (quiet_step fun r h => by cases h) rfl
          (fun _ _ hspot _ h => ⟨hspot.stays h.1, h.2.spot hspot⟩) ⟨hat, hloaded⟩ hat.2
          (follows_step fun s chance head s' _ hQ _ hexec => ?_)
        have hs' : s' = s ∧ (head = none ∨ head = some ((s.bytes k').map fun blob => (blob.content.length, blob.content))) := by
          simp only [exec] at hexec
          split at hexec <;> cases hexec
          · exact ⟨rfl, .inr rfl⟩
          · exact ⟨rfl, .inl rfl⟩
        obtain ⟨rfl, rfl | rfl⟩ := hs'
        · exact goes_respond SameSpot.refl.kept id quiet_failed
        · cases hblob : s'.bytes k' with
          | none =>
              refine goes_respond SameSpot.refl.kept id (quiet_respond (fun h => by cases h) ?_)
              rintro (h | h) <;> simp at h
          | some blob =>
              have hcontent := hQ.2 blob hblob
              dsimp only [Option.map_some]
              rw [hcontent]
              refine goes_armed hQ.1.2 quiet_finish armed_finish ?_ ⟨hQ.1, blob, hblob, hcontent⟩ hQ.1.2 (follows_finish hb hname)
              rintro s s' hspot - ⟨h, blob, hblob, hcontent⟩
              exact ⟨hspot.stays h, blob, hspot.bytes.trans hblob, hcontent⟩

theorem follows_put {url : Url} (hurl : url.key = k) :
    (contract k content).Follows (storage lower) c (.step (.clientPut url content) fun _ => complete n) (Issued k b n) := by
  refine follows_step fun s chance r s' _ hissued hclear hexec => ?_
  have hput : ∀ {blob : Blob}, blob.content = content → Loaded k content (s.put url.key blob) := by
    intro blob hcontent blob' hblob'
    rw [hurl, bytes_put] at hblob'
    cases hblob'
    exact hcontent
  have hnone : s.bytes k = none → Loaded k content s := by
    intro h blob hblob
    cases h.symm.trans hblob
  have hdb : s'.db = s.db ∧ Loaded k content s' := by
    simp only [exec] at hexec
    split at hexec
    next hsigned =>
      cases hexec
      unfold Chance.calls
      cases hcall : chance.call with
      | ok => exact ⟨rfl, hput rfl⟩
      | failed effect =>
          cases effect with
          | true => exact ⟨rfl, hput rfl⟩
          | false => exact ⟨rfl, hnone (hclear.resolve_right fun h => h.2.2.2 hcall)⟩
    next hsigned =>
      cases hexec
      exact ⟨rfl, hnone (hclear.resolve_right fun h => hsigned ⟨h.1, h.2.1, h.2.2.1⟩)⟩
  have hissued' : Issued k b n s' := by
    rw [Issued, At, hdb.1]
    exact hissued
  exact goes_armed hissued.1.2 (quiet_step fun r h => by cases h) rfl
    (fun _ _ hspot hgrow h => ⟨h.1.spot hspot hgrow, h.2.spot hspot⟩) ⟨hissued', hdb.2⟩ hissued'.1.2 follows_complete

/-- The intent is for the name, and its id is new. -/
theorem follows_intent {owner : Option Id} {size : Nat} {after : Id → Program Op Reply}
    (hafter : ∀ n, armed (after n) = true ∧ Quiet (after n) ∧
      (contract k content).Follows (storage lower) c (after n) (Issued k b n)) :
    (contract k content).Follows (storage lower) c (.step (.insertIntent b k.name owner size declared)
      (must fun n => .step (.presign k size declared) fun _ => after n)) (At k b) := by
  refine follows_step fun s chance found s' hids hat _ hexec => ?_
  have hgrow := growing_exec hids hexec
  obtain ⟨result, s₁, hwrites⟩ : ∃ result s₁, chance.writes (if (s.db.bucketWith b).isSome then none else some .foreignKey) s
      { s with db := { s.db with
        intents := ⟨s.db.nextId, b, k.name, owner, size, declared, chance.now + uploadUrlSeconds * 1000⟩ :: s.db.intents
        nextId := s.db.nextId + 1 } } = (result, s₁) := ⟨_, _, rfl⟩
  simp only [exec, hwrites] at hexec
  cases hexec
  have hspot : SameSpot k s s' := by
    rcases RefusedWrites.writes_store chance hwrites with rfl | rfl
    · exact .refl
    · exact ⟨rfl, rfl, rfl⟩
  refine goes_must hspot.kept (fun h => hspot.row.trans h) fun n hn => ?_
  have hdone : result = .done ∧ s.db.nextId = n := by
    split_ifs at hn with hdone
    exact ⟨hdone, Option.some.inj hn⟩
  obtain ⟨rfl, rfl⟩ := hdone
  obtain ⟨-, rfl⟩ := writes_done hwrites
  obtain ⟨harmed, hquiet, hfollows⟩ := hafter s.db.nextId
  refine goes_armed (Q := Issued k b s.db.nextId) hat.2 (quiet_step fun r h => by cases h) rfl
    (fun _ _ hspot hgrow h => h.spot hspot hgrow) ⟨hspot.stays hat, Nat.lt_succ_self _, fun i hi hid => ?_⟩ hat.2
    (follows_step fun s chance r s' _ hissued _ hexec => ?_)
  · rcases List.mem_cons.mp hi with rfl | hi
    · exact ⟨rfl, rfl⟩
    · exact absurd hid (hids.intents i hi).ne
  · cases hexec
    exact goes_armed hissued.1.2 hquiet harmed (fun _ _ hspot hgrow h => h.spot hspot hgrow) hissued hissued.1.2 hfollows

/-- The program from the trial insert on. -/
theorem follows_probe {row : Row} {size : Nat} {after : Id → Program Op Reply} (hb : row.bucketId = b) (hname : row.name = k.name)
    (hafter : ∀ n, armed (after n) = true ∧ Quiet (after n) ∧
      (contract k content).Follows (storage lower) c (after n) (Issued k b n)) :
    (contract k content).Follows (storage lower) c (.step (.probe caller row) fun result =>
      if result = .done then
        .step (.insertIntent b k.name caller.userId size declared) (must fun n => .step (.presign k size declared) fun _ => after n)
      else respond (unwritten result)) Q := by
  refine follows_step fun s chance result s' _ _ hclear hexec => ?_
  have hwrites : chance.writes (s.probeCheck caller row) s s = (result, s') := Option.some.inj hexec
  obtain rfl : s' = s := by rcases RefusedWrites.writes_store chance hwrites with h | h <;> exact h
  have hbucket : (s'.db.bucketNamed k.bucket).map Bucket.id = some b := hb ▸ hclear
  have hrow : s'.db.rowAt k = s'.db.objectAt row.bucketId row.name := by rw [rowAt_eq hbucket, hb, hname]
  by_cases hdone : result = .done
  · rw [if_pos hdone]
    subst hdone
    have hat : At k b s' := by
      refine ⟨hbucket, ?_⟩
      have hverdict := (writes_done hwrites).1
      simp only [Store.probeCheck] at hverdict
      split_ifs at hverdict with _ hsome
      rw [hrow]
      exact Option.not_isSome_iff_eq_none.mp hsome
    exact goes_armed hat.2 (quiet_step fun r h => by cases h) rfl (fun _ _ hspot _ h => hspot.stays h) hat hat.2
      (follows_intent hafter)
  · rw [if_neg hdone]
    by_cases hunique : result = .refused .unique
    · have hpresent : s'.db.rowAt k ≠ none := by
        rw [hunique] at hwrites
        have hverdict := (writes_error hwrites).resolve_right fun h => by cases h
        simp only [Store.probeCheck] at hverdict
        split_ifs at hverdict with hpolicy hsome
        · cases hverdict
        · rw [hrow]
          exact Option.isSome_iff_ne_none.mp hsome
        · cases hverdict
      rw [hunique]
      exact ⟨⟨SameSpot.refl.kept, (fun h => by cases saying_respond h), fun _ _ _ => hpresent, fun h => absurd h hpresent,
        final_respond _⟩, fun _ => True, Contract.stable_true _, trivial, follows_respond _⟩
    · exact goes_respond SameSpot.refl.kept id (quiet_unwritten hunique)

theorem follows_signThen {req : Signing} {after : Id → Program Op Reply} (hbucket : normalizeBucket req.bucket = .ok k.bucket)
    (hname : normalizePath req.name = .ok k.name)
    (hafter : ∀ b n, armed (after n) = true ∧ Quiet (after n) ∧
      (contract k content).Follows (storage lower) c (after n) (Issued k b n)) :
    (contract k content).Follows (storage lower) c (signThen lower caller req after) Q := by
  simp only [signThen, hbucket, hname]
  split_ifs
  · exact follows_respond _
  · refine follows_step fun s chance found s' _ _ _ hexec => ?_
    cases hexec
    refine goes_must SameSpot.refl.kept id fun cfg _ => ?_
    cases cfg with
    | none => exact goes_respond SameSpot.refl.kept id (quiet_refused (by decide))
    | some cfg =>
        dsimp only
        split_ifs
        · exact goes_respond SameSpot.refl.kept id (quiet_refused (by exact (by decide : 413 ≠ 409)))
        · exact goes_respond SameSpot.refl.kept id (quiet_refused (by exact (by decide : 415 ≠ 409)))
        · refine goes_fresh SameSpot.refl.kept id (quiet_step fun r h => by cases h)
            (follows_step fun s chance plan s' _ _ _ hexec => ?_)
          cases hexec
          refine goes_must SameSpot.refl.kept id fun plan _ => goes_fresh SameSpot.refl.kept id
            (quiet_step fun r h => by cases h) (follows_step fun s chance used s' _ _ _ hexec => ?_)
          cases hexec
          refine goes_must SameSpot.refl.kept id fun used _ => ?_
          cases herror : placeError plan used none req.size true with
          | some e =>
              refine goes_respond SameSpot.refl.kept id (quiet_refused ?_)
              simp only [placeError] at herror
              split_ifs at herror with hquota hfound
              · cases herror
                exact (by decide : 413 ≠ 409)
              · simp at hfound
          | none =>
              exact goes_fresh SameSpot.refl.kept id (quiet_step fun r h => by cases h) (follows_probe rfl rfl (hafter cfg.id))

/-- Whichever way the upload takes, it keeps its contract. -/
theorem follows_program {job : Create} (h : job.Names k) :
    (contract k job.content).Follows (storage lower) c (job.program lower) Q := by
  cases job with
  | direct caller bucket name body contentType => exact follows_upload h.1 h.2
  | presigned caller req url content =>
      exact follows_signThen h.1 h.2.1 fun b n => ⟨rfl, quiet_step (fun r h => by cases h), follows_put h.2.2⟩

theorem quiet_program {job : Create} (h : job.Names k) : Quiet (job.program lower) := by
  cases job with
  | direct caller bucket name body contentType =>
      cases body with
      | none =>
          simp only [Create.program, upload, h.1, h.2]
          exact quiet_refused (by decide)
      | some body =>
          simp only [Create.program, upload, h.1, h.2]
          split_ifs
          · exact quiet_refused (by exact (by decide : 413 ≠ 409))
          · exact quiet_step fun r h => by cases h
  | presigned caller req url content =>
      simp only [Create.program, signThen, h.1, h.2.1]
      split_ifs
      · exact quiet_refused (by exact (by decide : 400 ≠ 409))
      · exact quiet_step fun r h => by cases h

end Programs

namespace Uploads

variable {u : Uploads} {g g' g₀ : Config} {m : Move} {ok : Config → Move → Prop} {c d : Client}

/-- Every upload stands on what it has done so far. -/
structure Stand (u : Uploads) (g : Config) : Prop where
  ids : Ids g.store.db
  stands : ∀ c job, u.jobs c = some job → (contract u.k job.content).Stands u.protocol c g

theorem stand_begins (hids : Ids g.store.db) (h : u.Begins g) : u.Stand g :=
  ⟨hids, fun c job hjob => Contract.stands_start (h c job hjob) (follows_program (u.names c job hjob))⟩

theorem move_run {chance : Chance} (hmove : u.protocol.move g (.run c chance) = some g') :
    ∃ op r next, g.running c = .step op next ∧ exec c chance op g.store = some (r, g'.store) ∧ g'.running c = next r := by
  simp only [Protocol.move] at hmove
  split at hmove
  next => cases hmove
  next op next hrun =>
    obtain ⟨⟨r, s⟩, hexec, rfl⟩ := Option.map_eq_some_iff.mp hmove
    exact ⟨op, r, next, hrun, hexec, Function.update_self ..⟩

/-- A move that is no statement leaves the store as it is. -/
theorem move_store (hmove : u.protocol.move g m = some g') : g'.store = g.store ∨ ∃ c chance, m = .run c chance := by
  cases m with
  | arrive c q =>
      simp only [Protocol.move] at hmove
      split at hmove <;> cases hmove
      exact .inl rfl
  | crash c =>
      cases hmove
      exact .inl rfl
  | run c chance => exact .inr ⟨c, chance, rfl⟩

theorem move_growing (hids : Ids g.store.db) (hmove : u.protocol.move g m = some g') : Growing g.store.db g'.store.db := by
  rcases move_store hmove with h | ⟨c, chance, rfl⟩
  · exact growing_of_db hids (congrArg Store.db h)
  · obtain ⟨op, r, next, -, hexec, -⟩ := move_run hmove
    exact growing_exec hids hexec

/-- A careful move keeps what the uploads stand on, and a statement of an upload does as it should. -/
theorem Stand.move (h : u.Stand g) (hm : u.Careful g m) (hmove : u.protocol.move g m = some g') :
    u.Stand g' ∧ ∀ c job chance, u.jobs c = some job → m = .run c chance →
      Post u.k job.content g.store g'.store (g'.running c) := by
  have hgrow := move_growing h.ids hmove
  have hrun : ∀ c job chance, u.jobs c = some job → m = .run c chance →
      Post u.k job.content g.store g'.store (g'.running c) ∧ (contract u.k job.content).Stands u.protocol c g' := by
    rintro c job chance hjob rfl
    obtain ⟨op, r, next, hrunning, -⟩ := move_run hmove
    exact (h.stands c job hjob).own h.ids hrunning (hm.clear c chance op next (by rw [hjob]; rfl) rfl hrunning) hmove
  refine ⟨⟨hgrow.ids, fun c job hjob => ?_⟩, fun c job chance hjob hm => (hrun c job chance hjob hm).1⟩
  by_cases hc : m.client = c
  · cases m with
    | run d chance =>
        obtain rfl : d = c := hc
        exact (hrun d job chance hjob rfl).2
    | arrive d q =>
        obtain rfl : d = c := hc
        cases (hm.single d q rfl).symm.trans hjob
    | crash d =>
        obtain rfl : d = c := hc
        cases hmove
        exact Contract.stands_done (Function.update_self ..)
  · exact (h.stands c job hjob).other h.ids hc hmove
      ⟨fun harmed => hm.window c g' (by rw [hjob]; rfl) hc harmed hmove, hgrow⟩

theorem stand_reaches (hids : Ids g₀.store.db) (hbegin : u.Begins g₀) (hok : ∀ g m, ok g m → u.Careful g m)
    (h : u.protocol.Reaches ok g₀ g) : u.Stand g := by
  induction h with
  | start => exact stand_begins hids hbegin
  | step _ hm hmove ih => exact (ih.move (hok _ _ hm) hmove).1

/-- The answer has been given, or comes next. -/
def Says (g : Config) (c : Client) (r : Response) : Prop := (c, r) ∈ g.store.responses ∨ saying r (g.running c)

/-- The upload may have made the row. -/
def Maker (g : Config) (c : Client) : Prop :=
  Says g c (.ok 201) ∨ Says g c .failed ∨ g.running c = .done ∧ ∀ r, (c, r) ∉ g.store.responses

/-- Who has made the row, once it has been made. -/
structure Tally (u : Uploads) (g : Config) : Prop where
  unique : ∀ c d, (u.jobs c).isSome → (u.jobs d).isSome → Says g c (.ok 201) → Says g d (.ok 201) → c = d
  holds : ∀ c job, u.jobs c = some job → Says g c (.ok 201) → Holds u.k job.content g.store
  present : ∀ c r, (u.jobs c).isSome → Exists r → Says g c r → g.store.db.rowAt u.k ≠ none
  maker : g.store.db.rowAt u.k ≠ none → ∃ c, (u.jobs c).isSome ∧ Maker g c
  final : ∀ c, (u.jobs c).isSome → Final (g.running c)
  busy : ∀ c, (u.jobs c).isSome → g.running c ≠ .done → ∀ r, (c, r) ∉ g.store.responses

/-- A move of another client changes nothing about the answers of a client. -/
theorem says_other (hc : m.client ≠ c) (hmove : u.protocol.move g m = some g') :
    g'.running c = g.running c ∧ ∀ r, (c, r) ∈ g'.store.responses ↔ (c, r) ∈ g.store.responses := by
  refine ⟨Contract.running_other hc hmove, fun r => ?_⟩
  rcases move_store hmove with h | ⟨d, chance, rfl⟩
  · rw [h]
  · obtain ⟨op, x, next, -, hexec, -⟩ := move_run hmove
    rcases responses_exec hexec with h | ⟨y, -, h⟩
    · rw [h]
    · rw [h, List.mem_cons]
      refine or_iff_right fun heq => hc ?_
      exact (Prod.mk.inj heq).1.symm

/-- What a move of an upload's own client is: its death, its answer, or another statement. -/
theorem own_cases {job : Create} (hfinal : Final (g.running c)) (hjob : u.jobs c = some job) (hc : m.client = c)
    (hsingle : u.Single g m) (hmove : u.protocol.move g m = some g') :
    g'.running c = .done ∧ g'.store = g.store ∨
    (∃ r, g.running c = respond r ∧ g'.running c = .done ∧ g'.store = { g.store with responses := (c, r) :: g.store.responses }) ∨
    (∃ chance, m = .run c chance) ∧ g.running c ≠ .done ∧ (∀ r, ¬ saying r (g.running c)) ∧
      g'.store.responses = g.store.responses := by
  cases m with
  | arrive d q =>
      obtain rfl : d = c := hc
      cases (hsingle d q rfl).symm.trans hjob
  | crash d =>
      obtain rfl : d = c := hc
      cases hmove
      exact .inl ⟨Function.update_self .., rfl⟩
  | run d chance =>
      obtain rfl : d = c := hc
      obtain ⟨op, r, next, hrunning, hexec, hnext⟩ := move_run hmove
      rcases responses_exec hexec with h | ⟨x, rfl, h⟩
      · refine .inr (.inr ⟨⟨chance, rfl⟩, ?_, ?_, h⟩)
        · rw [hrunning]
          intro h
          cases h
        · rintro x ⟨next', heq⟩
          rw [hrunning] at heq
          injection heq with hop
          subst hop
          have hresponses := congrArg Store.responses (Prod.mk.inj (Option.some.inj hexec)).2
          exact List.cons_ne_self _ _ (hresponses.trans h)
      · have heq := hfinal x ⟨next, hrunning⟩
        refine .inr (.inl ⟨x, heq, ?_, ?_⟩)
        · rw [hnext]
          rw [heq] at hrunning
          injection hrunning with _ hrest
          rw [← hrest]
        · exact (Prod.mk.inj (Option.some.inj hexec)).2.symm

theorem not_saying_done (r : Response) : ¬ saying r (.done : Program Op Reply) := by
  rintro ⟨next, h⟩
  cases h

/-- What an upload says that it has not said before, its statement has led to. -/
theorem says_move (h : u.Tally g) {job : Create} (hjob : u.jobs c = some job) (hsingle : u.Single g m)
    (hmove : u.protocol.move g m = some g') {r : Response} (htold : Says g' c r) :
    Says g c r ∨ ∃ chance, m = .run c chance ∧ saying r (g'.running c) := by
  by_cases hc : m.client = c
  · rcases own_cases (h.final c (by rw [hjob]; rfl)) hjob hc hsingle hmove with
      ⟨hdone, hstore⟩ | ⟨x, hrunning, hdone, hstore⟩ | ⟨⟨chance, hm⟩, -, -, hresponses⟩
    · rw [Says, hdone, hstore] at htold
      exact .inl (.inl (htold.resolve_right (not_saying_done r)))
    · rw [Says, hdone, hstore] at htold
      rcases List.mem_cons.mp (htold.resolve_right (not_saying_done r)) with heq | hold
      · rw [(Prod.mk.inj heq).2]
        exact .inl (.inr ⟨_, hrunning⟩)
      · exact .inl (.inl hold)
    · rcases htold with hold | hnew
      · rw [hresponses] at hold
        exact .inl (.inl hold)
      · exact .inr ⟨chance, hm, hnew⟩
  · obtain ⟨hrunning, hresponses⟩ := says_other hc hmove
    rw [Says, hrunning, hresponses] at htold
    exact .inl htold

theorem maker_move (h : u.Tally g) {job : Create} (hjob : u.jobs c = some job) (hsingle : u.Single g m)
    (hmove : u.protocol.move g m = some g') (hmaker : Maker g c) : Maker g' c := by
  have hsome : (u.jobs c).isSome = true := by rw [hjob]; rfl
  by_cases hc : m.client = c
  · rcases own_cases (h.final c hsome) hjob hc hsingle hmove with
      ⟨hdone, hstore⟩ | ⟨x, hrunning, hdone, hstore⟩ | ⟨-, hbusy, hquiet, hresponses⟩
    · have hsaid : ∀ r, Says g c r → Says g' c r ∨ g'.running c = .done ∧ ∀ r, (c, r) ∉ g'.store.responses := by
        rintro r (hold | ⟨next, hnew⟩)
        · exact .inl (.inl (hstore ▸ hold))
        · refine .inr ⟨hdone, ?_⟩
          rw [hstore]
          exact h.busy c hsome (by rw [hnew]; intro h; cases h)
      rcases hmaker with htold | htold | ⟨-, hnone⟩
      · exact (hsaid _ htold).elim .inl fun h => .inr (.inr h)
      · exact (hsaid _ htold).elim (fun h => .inr (.inl h)) fun h => .inr (.inr h)
      · exact .inr (.inr ⟨hdone, hstore ▸ hnone⟩)
    · have hsaid : ∀ r, Says g c r → Says g' c r := by
        rintro r (hold | hnew)
        · rw [Says, hstore]
          exact .inl (List.mem_cons_of_mem _ hold)
        · rw [hrunning] at hnew
          rw [Says, hstore, saying_respond hnew]
          exact .inl List.mem_cons_self
      rcases hmaker with htold | htold | ⟨hidle, -⟩
      · exact .inl (hsaid _ htold)
      · exact .inr (.inl (hsaid _ htold))
      · rw [hrunning] at hidle
        cases hidle
    · rcases hmaker with (hold | hnew) | (hold | hnew) | ⟨hidle, -⟩
      · exact .inl (.inl (hresponses ▸ hold))
      · exact absurd hnew (hquiet _)
      · exact .inr (.inl (.inl (hresponses ▸ hold)))
      · exact absurd hnew (hquiet _)
      · exact absurd hidle hbusy
  · obtain ⟨hrunning, hresponses⟩ := says_other hc hmove
    simpa only [Maker, Says, hrunning, hresponses] using hmaker

/-- A move after which the uploads stand keeps the tally, when nobody else changes the name. -/
theorem Tally.move (h : u.Tally g) (hsingle : u.Single g m) (hmove : u.protocol.move g m = some g')
    (hkept : Kept u.k g.store g'.store) (halone : u.jobs m.client = none → SameSpot u.k g.store g'.store)
    (hpost : ∀ c job chance, u.jobs c = some job → m = .run c chance → Post u.k job.content g.store g'.store (g'.running c)) :
    u.Tally g' := by
  have hrow : g.store.db.rowAt u.k ≠ none → g'.store.db.rowAt u.k ≠ none := by
    intro hrow
    obtain ⟨row, hrow⟩ := Option.ne_none_iff_exists'.mp hrow
    rw [(hkept row hrow).1]
    exact Option.some_ne_none row
  have hnew : ∀ c, (u.jobs c).isSome → Says g' c (.ok 201) → Says g c (.ok 201) ∨
      (∃ chance, m = .run c chance) ∧ g.store.db.rowAt u.k = none := by
    intro c hsome htold
    obtain ⟨job, hjob⟩ := Option.isSome_iff_exists.mp hsome
    rcases says_move h hjob hsingle hmove htold with hold | ⟨chance, hm, hsaying⟩
    · exact .inl hold
    · exact .inr ⟨⟨chance, hm⟩, ((hpost c job chance hjob hm).created hsaying).1⟩
  have hheld : ∀ c, (u.jobs c).isSome → Says g c (.ok 201) → g.store.db.rowAt u.k ≠ none := by
    intro c hsome htold
    obtain ⟨job, hjob⟩ := Option.isSome_iff_exists.mp hsome
    exact (h.holds c job hjob htold).row
  constructor
  case unique =>
    intro c d hc hd htoldc htoldd
    rcases hnew c hc htoldc with holdc | ⟨⟨chance, hm⟩, hnone⟩
    · rcases hnew d hd htoldd with holdd | ⟨-, hnone⟩
      · exact h.unique c d hc hd holdc holdd
      · exact absurd hnone (hheld c hc holdc)
    · rcases hnew d hd htoldd with holdd | ⟨⟨chance', hm'⟩, -⟩
      · exact absurd hnone (hheld d hd holdd)
      · cases hm.symm.trans hm'
        rfl
  case holds =>
    intro c job hjob htold
    rcases says_move h hjob hsingle hmove htold with hold | ⟨chance, hm, hsaying⟩
    · obtain ⟨row, blob, hrow, hetag, hblob, hcontent⟩ := h.holds c job hjob hold
      obtain ⟨hrow', hbytes⟩ := hkept row hrow
      exact ⟨row, blob, hrow', hetag, hbytes.trans hblob, hcontent⟩
    · exact ((hpost c job chance hjob hm).created hsaying).2
  case present =>
    intro c r hsome hr htold
    obtain ⟨job, hjob⟩ := Option.isSome_iff_exists.mp hsome
    rcases says_move h hjob hsingle hmove htold with hold | ⟨chance, hm, hsaying⟩
    · exact hrow (h.present c r hsome hr hold)
    · exact (hpost c job chance hjob hm).present r hr hsaying
  case maker =>
    intro hrow'
    by_cases hnone : g.store.db.rowAt u.k = none
    · cases hclient : u.jobs m.client with
      | none => exact absurd ((halone hclient).row.trans hnone) hrow'
      | some job =>
          rcases move_store hmove with hstore | ⟨c, chance, rfl⟩
          · exact absurd (hstore ▸ hnone) hrow'
          · refine ⟨c, by rw [show u.jobs c = some job from hclient]; rfl, ?_⟩
            rcases (hpost c job chance hclient rfl).made hnone hrow' with hsaying | hsaying
            · exact .inl (.inr hsaying)
            · exact .inr (.inl (.inr hsaying))
    · obtain ⟨c, hsome, hmaker⟩ := h.maker hnone
      obtain ⟨job, hjob⟩ := Option.isSome_iff_exists.mp hsome
      exact ⟨c, hsome, maker_move h hjob hsingle hmove hmaker⟩
  case final =>
    intro c hsome
    obtain ⟨job, hjob⟩ := Option.isSome_iff_exists.mp hsome
    by_cases hc : m.client = c
    · rcases own_cases (h.final c hsome) hjob hc hsingle hmove with ⟨hdone, -⟩ | ⟨x, -, hdone, -⟩ | ⟨⟨chance, hm⟩, -⟩
      · rw [hdone]
        exact fun r hr => absurd hr (not_saying_done r)
      · rw [hdone]
        exact fun r hr => absurd hr (not_saying_done r)
      · exact (hpost c job chance hjob hm).final
    · rw [(says_other hc hmove).1]
      exact h.final c hsome
  case busy =>
    intro c hsome hrunning
    obtain ⟨job, hjob⟩ := Option.isSome_iff_exists.mp hsome
    by_cases hc : m.client = c
    · rcases own_cases (h.final c hsome) hjob hc hsingle hmove with ⟨hdone, -⟩ | ⟨x, -, hdone, -⟩ | ⟨-, hbusy, -, hresponses⟩
      · exact absurd hdone hrunning
      · exact absurd hdone hrunning
      · rw [hresponses]
        exact h.busy c hsome hbusy
    · obtain ⟨hsame, hresponses⟩ := says_other hc hmove
      rw [hsame] at hrunning
      exact fun r hr => h.busy c hsome hrunning r ((hresponses r).mp hr)

theorem tally_begins (hfree : u.Free g) (hbegin : u.Begins g) : u.Tally g := by
  have hquiet : ∀ c, (u.jobs c).isSome → Quiet (g.running c) := by
    intro c hsome
    obtain ⟨job, hjob⟩ := Option.isSome_iff_exists.mp hsome
    rw [hbegin c job hjob]
    exact quiet_program (u.names c job hjob)
  have hcreated : ∀ c, (u.jobs c).isSome → ¬ Says g c (.ok 201) := by
    rintro c hsome (hold | hnew)
    · exact hfree.answers c _ hsome hold
    · exact (hquiet c hsome _ hnew).2.1 rfl
  constructor
  case unique => exact fun c d hc _ htold => absurd htold (hcreated c hc)
  case holds => exact fun c job hjob htold => absurd htold (hcreated c (by rw [hjob]; rfl))
  case present =>
    rintro c r hsome hr (hold | hnew)
    · exact absurd hold (hfree.answers c r hsome)
    · exact absurd hr (hquiet c hsome r hnew).2.2
  case maker => exact fun hrow => absurd hfree.row hrow
  case final => exact fun c hsome => (hquiet c hsome).final
  case busy => exact fun c hsome _ r => hfree.answers c r hsome

theorem tally_reaches (hids : Ids g₀.store.db) (hbegin : u.Begins g₀) (hfree : u.Free g₀)
    (h : u.protocol.Reaches (fun g m => u.Careful g m ∧ u.Alone g m) g₀ g) : u.Tally g := by
  induction h with
  | start => exact tally_begins hfree hbegin
  | @step g g' m hreach hm hmove ih =>
      have hstand := stand_reaches hids hbegin (fun _ _ h => h.1) hreach
      have hpost := (hstand.move hm.1 hmove).2
      have halone : u.jobs m.client = none → SameSpot u.k g.store g'.store := fun hclient => hm.2 hclient g' hmove
      refine ih.move hm.1.single hmove ?_ halone hpost
      cases hclient : u.jobs m.client with
      | none => exact (halone hclient).kept
      | some job =>
          rcases move_store hmove with hstore | ⟨c, chance, rfl⟩
          · rw [hstore]
            exact SameSpot.refl.kept
          · exact (hpost c job chance hclient rfl).kept

theorem Tally.oneCreated (h : u.Tally g) : u.OneCreated g where
  unique c d hc hd := h.unique c d hc.1 hd.1 (.inl hc.2) (.inl hd.2)
  stored c job hjob hc := h.holds c job hjob (.inl hc.2)
  any := by
    rintro ⟨c, hc⟩ hall
    obtain ⟨r, hr, honly⟩ := hall c hc
    rcases honly r hr with rfl | hexists
    · exact ⟨c, hc, hr⟩
    · obtain ⟨w, hw, hmaker⟩ := h.maker (h.present c r hc hexists (.inl hr))
      obtain ⟨x, hx, honly⟩ := hall w hw
      have hidle : g.running w = .done := by
        by_contra hbusy
        exact h.busy w hw hbusy x hx
      have hsaid : ∀ r, Says g w r → (w, r) ∈ g.store.responses := by
        rintro r (hold | hnew)
        · exact hold
        · rw [hidle] at hnew
          exact absurd hnew (not_saying_done r)
      rcases hmaker with htold | htold | ⟨-, hnone⟩
      · exact ⟨w, hw, hsaid _ htold⟩
      · rcases honly _ (hsaid _ htold) with h | h | h <;> cases h
      · exact absurd hx (hnone x)

end Uploads

theorem create_only (u : Uploads) (g₀ : Config) (hids : Ids g₀.store.db) (hbegin : u.Begins g₀) :
    u.Sound u.Careful g₀ := by
  constructor
  · intro g hreach c chance g' hsome hm hmove
    obtain ⟨job, hjob⟩ := Option.isSome_iff_exists.mp hsome
    exact (((Uploads.stand_reaches hids hbegin (fun _ _ h => h) hreach).move hm hmove).2 c job chance hjob rfl).kept
  · exact fun hfree g hreach => (Uploads.tally_reaches hids hbegin hfree hreach).oneCreated

/-- One upload to the name of an object that the policies hide from its caller. -/
def hidden : Uploads where
  lower := id
  k := ⟨['v', 'a'], ['x']⟩
  jobs c := if c = 0 then some (.direct ⟨.anon, none, []⟩ ['v', 'a'] ['x'] (some [66]) (some ['t'])) else none
  names c job h := by
    split at h <;> cases h
    exact ⟨rfl, rfl⟩

def hiddenBegun : Config :=
  ⟨RefusedWrites.held, Function.update (fun _ => .done) 0
    ((Create.direct ⟨.anon, none, []⟩ ['v', 'a'] ['x'] (some [66]) (some ['t'])).program id)⟩

theorem hidden_ids : Ids hiddenBegun.store.db := by
  constructor <;> decide

theorem hidden_begins : hidden.Begins hiddenBegun := by
  intro c job h
  simp only [hidden] at h
  split at h
  next hc =>
    cases h
    rw [hc]
    rfl
  next => cases h

/-- The check does not see the object, and its bytes are replaced. -/
theorem hidden_replaced : ¬ ∀ (u : Uploads) (g₀ : Config), Ids g₀.store.db → u.Begins g₀ → u.Sound u.Single g₀ := by
  intro h
  have hsingle : ∀ g chance, hidden.Single g (.run 0 chance) := fun _ _ _ _ h => by cases h
  have hkept := (h hidden hiddenBegun hidden_ids hidden_begins).1 _
    ((((Protocol.Reaches.start.step (hsingle _ RefusedWrites.calm) rfl).step (hsingle _ RefusedWrites.calm) rfl).step
      (hsingle _ RefusedWrites.calm) rfl).step (hsingle _ RefusedWrites.calm) rfl)
    0 RefusedWrites.calm _ rfl (hsingle _ _) rfl
  have hbytes := (hkept ⟨0, ['x'], none, 1, ['t'], [65]⟩ rfl).2
  cases hbytes

theorem create_only_hidden : hidden.Sound hidden.Careful hiddenBegun :=
  create_only hidden hiddenBegun hidden_ids hidden_begins

end Corebase.CreateOnly
