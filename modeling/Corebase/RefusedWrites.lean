import Corebase.Storage

namespace Corebase.RefusedWrites

open Interleaving StorageRules Storage
open JsText (Text)

/-- The rows are still there, and the objects with their bytes and types. -/
structure Unchanged (s s' : Store) : Prop where
  rows : s'.db.objects = s.db.objects
  bytes : ∀ k blob, s.bytes k = some blob → ∃ blob', s'.bytes k = some blob' ∧ blob'.content = blob.content ∧
    blob'.contentType = blob.contentType

def Refused (c : Client) (s s' : Store) : Prop := ∃ e, s'.responses = (c, .refused e) :: s.responses

/-- However it comes out, a request that is refused has changed nothing. -/
def Harmless (lower : Text → Text) (c : Client) (p : Program Op Reply) (s : Store) : Prop :=
  ∀ s', (storage lower).Ends c p s s' → Refused c s s' → Unchanged s s'

/-- The key under which an upload puts its bytes, if the checks before that let it. -/
def target (lower : Text → Text) (s : Store) (caller : Caller) (req : Upload) : Option Key :=
  match normalizeBucket req.bucket, normalizePath req.name, req.body with
  | .ok bucket, .ok name, some body =>
      if proxyMaxBytes < body.length then none
      else (s.db.bucketNamed bucket).bind fun cfg =>
        if contentError lower cfg body req.declared = none ∧
            placeError s.plan s.db.totalBytes ((s.db.objectAt cfg.id name).filter (s.visible caller)) body.length
              req.upsert = none then
          some ⟨bucket, name⟩
        else none
  | _, _, _ => none

/-- An upload by a presigned URL: what the client puts, if anything, and the completion. -/
def presigned (put : Option (Url × Content)) (id : Id) : Program Op Reply := match put with
  | some (url, content) => .step (.clientPut url content) fun _ => complete id
  | none => complete id

def accepts (intent : Intent) (content : Content) : Prop :=
  content.length = intent.declaredSize ∧ sniff (content.take sniffBytes) intent.contentType = none

/-- The URL was signed for what the client puts. -/
def signedFor (s : Store) (put : Option (Url × Content)) (url : Url) (content : Content) : Prop :=
  put = some (url, content) ∧ url ∈ s.urls ∧ content.length = url.contentLength

def intentAt (s : Store) (id : Id) : Option (Intent × Key) :=
  (s.db.intents.find? fun i => i.id = id).bind fun i => (s.db.keyOf i.bucketId i.name).map (i, ·)

variable {lower : Text → Text} {c : Client} {s s' s₁ : Store} {caller : Caller} {k : Key} {op : Op}
  {next : Reply op → Program Op Reply}

section Runs

theorem Unchanged.refl : Unchanged s s := ⟨rfl, fun _ blob h => ⟨blob, h, rfl, rfl⟩⟩

theorem ends_respond {r : Response} : (storage lower).Ends c (respond r) s s' ↔
    s' = { s with responses := (c, r) :: s.responses } := by
  constructor
  · rintro ⟨chance, _, s₁, h, rfl⟩
    cases h
    rfl
  · rintro rfl
    exact ⟨⟨.ok, .ok, 0, []⟩, (), _, rfl, rfl⟩

theorem harmless_respond {r : Response} : Harmless lower c (respond r) s := by
  rintro s' h -
  obtain rfl := ends_respond.mp h
  exact ⟨rfl, fun _ blob h => ⟨blob, h, rfl, rfl⟩⟩

/-- A statement that leaves the store as it is. -/
theorem harmless_step (h : ∀ chance r s₁, exec c chance op s = some (r, s₁) → s₁ = s ∧ Harmless lower c (next r) s) :
    Harmless lower c (.step op next) s := by
  rintro s' ⟨chance, r, s₁, hexec, hends⟩ hrefused
  obtain ⟨rfl, hnext⟩ := h chance r s₁ hexec
  exact hnext s' hends hrefused

theorem harmless_must {α : Type} {next : α → Program Op Reply} {value : Option α}
    (h : ∀ a, value = some a → Harmless lower c (next a) s) : Harmless lower c (must next value) s := by
  cases value with
  | none => exact harmless_respond
  | some a => exact h a rfl

theorem Harmless.after (h : Harmless lower c (.step op next) s) (chance : Chance) {r : Reply op}
    (hexec : exec c chance op s = some (r, s)) : Harmless lower c (next r) s :=
  fun s' hends hrefused => h s' ⟨chance, r, s, hexec, hends⟩ hrefused

def calm : Chance := ⟨.ok, .ok, 0, []⟩

/-- The database fails. -/
def outage : Chance := { calm with sql := .error }

theorem writes_outage (verdict : Option SqlError) : outage.writes verdict s s' = (.refused .other, s) := by
  cases verdict <;> rfl

theorem reads_eq {α : Type} {chance : Chance} {value a : α} (h : chance.reads value = some a) : a = value := by
  unfold Chance.reads at h
  split at h <;> cases h
  rfl

theorem calls_cases (chance : Chance) {ok : Bool} (h : chance.calls s s' = (ok, s₁)) :
    ok = true ∧ s₁ = s' ∨ ok = false ∧ (s₁ = s ∨ s₁ = s') := by
  unfold Chance.calls at h
  split at h
  · cases h
    exact .inl ⟨rfl, rfl⟩
  · obtain ⟨rfl, rfl⟩ := Prod.mk.inj h
    refine .inr ⟨rfl, ?_⟩
    split
    · exact .inr rfl
    · exact .inl rfl

/-- A refusal of the database has rolled back. -/
theorem writes_refused (chance : Chance) {verdict : Option SqlError} {e : SqlError}
    (h : chance.writes verdict s s' = (.refused e, s₁)) : s₁ = s := by
  unfold Chance.writes at h
  split at h <;> cases h <;> rfl

theorem writes_store (chance : Chance) {verdict : Option SqlError} {result : Write}
    (h : chance.writes verdict s s' = (result, s₁)) : s₁ = s ∨ s₁ = s' := by
  unfold Chance.writes at h
  split at h <;> cases h <;> simp

end Runs

section Uploads

variable {bucketId : Id} {body : Content} {declared : Text} {status : Nat} {req : Upload}

theorem not_refused {r : Response} (hr : ∀ e, r ≠ .refused e) (hresponses : s₁.responses = s.responses)
    (hends : (storage lower).Ends c (respond r) s₁ s') : ¬ Refused c s s' := by
  rintro ⟨e, he⟩
  obtain rfl := ends_respond.mp hends
  have hhead := (List.cons.inj (hresponses ▸ he)).1
  exact hr e (Prod.mk.inj hhead).2

theorem exec_putObject (c : Client) (chance : Chance) {content : Content} {contentType : Text} {etag : Option Content}
    (h : exec c chance (.putObject k content contentType) s = some (etag, s₁)) :
    etag = some content ∧ s₁ = s.put k ⟨content, contentType, chance.now⟩ ∨
      etag = none ∧ (s₁ = s ∨ s₁ = s.put k ⟨content, contentType, chance.now⟩) := by
  cases hcall : chance.call with
  | ok =>
      simp only [exec, Chance.calls, hcall] at h
      cases h
      exact .inl ⟨rfl, rfl⟩
  | failed effect =>
      simp only [exec, Chance.calls, hcall] at h
      cases h
      cases effect with
      | false => exact .inr ⟨rfl, .inl rfl⟩
      | true => exact .inr ⟨rfl, .inr rfl⟩

/-- Nothing was stored under the key, so that what is put there and deleted again is missed by nobody. -/
theorem harmless_place (hk : s.bytes k = none) : Harmless lower c (place caller k bucketId body declared status) s := by
  rintro s' ⟨chance, etag, s₁, hput, hends⟩ hrefused
  have hfailed : ∀ s₁ : Store, s₁.responses = s.responses → ¬ (storage lower).Ends c (respond .failed) s₁ s' :=
    fun s₁ hresponses h => not_refused (fun _ h => by cases h) hresponses h hrefused
  rcases exec_putObject c chance hput with ⟨rfl, rfl⟩ | ⟨rfl, rfl | rfl⟩
  · obtain ⟨chance', result, s₂, hwrite, hends⟩ := hends
    cases result with
    | done =>
        refine absurd hrefused (not_refused (fun _ h => by cases h) ?_ hends)
        rcases writes_store chance' (Option.some.inj hwrite) with rfl | rfl <;> rfl
    | lost =>
        obtain ⟨chance'', ok, s₃, hdelete, hends⟩ := hends
        refine absurd hends (hfailed s₃ ?_)
        rcases calls_cases chance'' (Option.some.inj hdelete) with ⟨-, rfl⟩ | ⟨-, rfl | rfl⟩ <;>
          rcases writes_store chance' (Option.some.inj hwrite) with rfl | rfl <;> rfl
    | refused e =>
        obtain rfl := writes_refused chance' (Option.some.inj hwrite)
        obtain ⟨chance'', ok, s₃, hdelete, hends⟩ := hends
        obtain rfl := ends_respond.mp hends
        have hs : s₃.db = s.db ∧ ∀ k', k' ≠ k → s₃.bytes k' = s.bytes k' := by
          rcases calls_cases chance'' (Option.some.inj hdelete) with ⟨-, rfl⟩ | ⟨-, rfl | rfl⟩
          · exact ⟨rfl, fun k' hne => (Function.update_of_ne hne ..).trans (Function.update_of_ne hne ..)⟩
          · exact ⟨rfl, fun k' hne => Function.update_of_ne hne ..⟩
          · exact ⟨rfl, fun k' hne => (Function.update_of_ne hne ..).trans (Function.update_of_ne hne ..)⟩
        refine ⟨congrArg Db.objects hs.1, fun k' blob hblob => ⟨blob, (hs.2 k' ?_).trans hblob, rfl, rfl⟩⟩
        rintro rfl
        cases hk.symm.trans hblob
  · exact absurd hends (hfailed _ rfl)
  · exact absurd hends (hfailed _ rfl)

/-- The database may always refuse the row, and the bytes that were under the key are gone. -/
theorem bytes_of_harmless (h : Harmless lower c (place caller k bucketId body declared status) s) : s.bytes k = none := by
  by_contra hsome
  obtain ⟨blob, hblob⟩ := Option.ne_none_iff_exists'.mp hsome
  have hends : (storage lower).Ends c (place caller k bucketId body declared status) s
      { (s.put k ⟨body, declared, 0⟩).remove k with responses := (c, .refused internal) :: s.responses } :=
    ⟨calm, some body, _, rfl, outage, .refused .other, _, congrArg some (writes_outage _), calm, true, _, rfl,
      calm, (), _, rfl, rfl⟩
  obtain ⟨blob', hblob', -⟩ := (h _ hends ⟨internal, rfl⟩).bytes k blob hblob
  simp [Store.remove] at hblob'

theorem harmless_config_iff {name : Text} {next : Option Bucket → Program Op Reply} :
    Harmless lower c (.step (.bucketConfig name) (must next)) s ↔ Harmless lower c (next (s.db.bucketNamed name)) s := by
  constructor
  · exact fun h => h.after (r := some (s.db.bucketNamed name)) calm rfl
  · intro h
    refine harmless_step fun chance cfg s₁ hexec => ?_
    cases hexec
    refine ⟨rfl, harmless_must fun cfg hcfg => ?_⟩
    obtain rfl := reads_eq hcfg
    exact h

theorem harmless_admitted_iff {upsert : Bool} :
    Harmless lower c (admitted caller k bucketId body declared upsert) s ↔
      (placeError s.plan s.db.totalBytes ((s.db.objectAt bucketId k.name).filter (s.visible caller)) body.length upsert =
        none → s.bytes k = none) := by
  constructor
  · intro h herror
    have hplace := ((h.after (r := some s.plan) calm rfl).after (r := some s.db.totalBytes) calm rfl).after
      (r := some ((s.db.objectAt bucketId k.name).filter (s.visible caller))) calm rfl
    simp only [must, herror] at hplace
    exact bytes_of_harmless hplace
  · intro hk
    refine harmless_step fun chance plan s₁ hexec => ?_
    cases hexec
    refine ⟨rfl, harmless_must fun plan hplan => harmless_step fun chance used s₁ hexec => ?_⟩
    cases hexec
    refine ⟨rfl, harmless_must fun used hused => harmless_step fun chance existing s₁ hexec => ?_⟩
    cases hexec
    refine ⟨rfl, harmless_must fun existing hexisting => ?_⟩
    obtain rfl := reads_eq hplan
    obtain rfl := reads_eq hused
    obtain rfl := reads_eq hexisting
    split
    next => exact harmless_respond
    next herror => exact harmless_place (hk herror)

theorem harmless_upload_iff : Harmless lower c (upload lower caller req) s ↔
    ∀ k, target lower s caller req = some k → s.bytes k = none := by
  unfold upload target
  cases hbucket : normalizeBucket req.bucket with
  | error message => exact ⟨nofun, fun _ => harmless_respond⟩
  | ok bucket =>
      cases hname : normalizePath req.name with
      | error message => exact ⟨nofun, fun _ => harmless_respond⟩
      | ok name =>
          cases hbody : req.body with
          | none => exact ⟨nofun, fun _ => harmless_respond⟩
          | some body =>
              dsimp only
              by_cases hproxy : proxyMaxBytes < body.length
              · rw [if_pos hproxy, if_pos hproxy]
                exact ⟨nofun, fun _ => harmless_respond⟩
              · rw [if_neg hproxy, if_neg hproxy, harmless_config_iff]
                cases hcfg : s.db.bucketNamed bucket with
                | none => exact ⟨nofun, fun _ => harmless_respond⟩
                | some cfg =>
                    rw [Option.bind_some]
                    dsimp only
                    cases herror : contentError lower cfg body req.declared with
                    | some e => simp [harmless_respond]
                    | none => simp [harmless_admitted_iff]

end Uploads

section Completions

variable {id : Id} {intent : Intent}

theorem ends_must {α : Type} {next : α → Program Op Reply} {value : Option α}
    (h : (storage lower).Ends c (must next value) s s') :
    (∃ a, value = some a ∧ (storage lower).Ends c (next a) s s') ∨
      (storage lower).Ends c (respond (.refused internal)) s s' := by
  cases value with
  | none => exact .inr h
  | some a => exact .inl ⟨a, rfl, h⟩

theorem intentAt_of_read {now : Nat} {expired : Bool}
    (h : ((s.db.intents.find? fun i => i.id = id).bind fun i =>
      (s.db.keyOf i.bucketId i.name).map fun k => (i, k, decide (i.expiresAt < now))) = some (intent, k, expired)) :
    intentAt s id = some (intent, k) := by
  obtain ⟨i, hi, hk⟩ := Option.bind_eq_some_iff.mp h
  obtain ⟨k', hk', heq⟩ := Option.map_eq_some_iff.mp hk
  cases heq
  simp [intentAt, hi, hk']

/-- The rows are as they were, and so are the bytes, but for some that the intent does not accept. -/
def Spared (id : Id) (s s' : Store) : Prop :=
  s'.db.objects = s.db.objects ∧ (s'.bytes = s.bytes ∨ ∃ intent k blob, intentAt s id = some (intent, k) ∧
    s.bytes k = some blob ∧ ¬ accepts intent blob.content ∧ ∀ k', k' ≠ k → s'.bytes k' = s.bytes k')

theorem spared_respond {r : Response} (h : (storage lower).Ends c (respond r) s s') : Spared id s s' := by
  obtain rfl := ends_respond.mp h
  exact ⟨rfl, .inl rfl⟩

theorem spared_reject {blob : Blob} {status : Nat} {code : Code} {message : String}
    (hintent : intentAt s id = some (intent, k)) (hblob : s.bytes k = some blob) (hreject : ¬ accepts intent blob.content)
    (h : (storage lower).Ends c (reject k status code message) s s') : Spared id s s' := by
  obtain ⟨chance, ok, s₁, hexec, hends⟩ := h
  obtain rfl := ends_respond.mp hends
  rcases calls_cases chance (Option.some.inj hexec) with ⟨-, rfl⟩ | ⟨-, rfl | rfl⟩
  · exact ⟨rfl, .inr ⟨intent, k, blob, hintent, hblob, hreject, fun _ hne => Function.update_of_ne hne ..⟩⟩
  · exact ⟨rfl, .inl rfl⟩
  · exact ⟨rfl, .inr ⟨intent, k, blob, hintent, hblob, hreject, fun _ hne => Function.update_of_ne hne ..⟩⟩

theorem spared_finish {blob : Blob} (hintent : intentAt s id = some (intent, k)) (hblob : s.bytes k = some blob)
    (h : (storage lower).Ends c (finish intent k blob.content.length blob.content) s s') (hrefused : Refused c s s') :
    Spared id s s' := by
  unfold finish at h
  split at h
  next hsize => exact spared_reject hintent hblob (fun haccepts => hsize haccepts.1) h
  next =>
    obtain ⟨chance, head, s₁, hexec, hends⟩ := h
    have hhead : s₁ = s ∧ (head = none ∨ head = some (blob.content.take sniffBytes)) := by
      simp only [storage, exec, hblob] at hexec
      split at hexec <;> cases hexec
      · exact ⟨rfl, .inr rfl⟩
      · exact ⟨rfl, .inl rfl⟩
    obtain ⟨rfl, rfl | rfl⟩ := hhead
    · exact spared_respond hends
    · dsimp only at hends
      split at hends
      next reason hsniff => exact spared_reject hintent hblob (fun haccepts => by cases haccepts.2.symm.trans hsniff) hends
      next =>
        obtain ⟨chance', result, s₂, hwrite, hends⟩ := hends
        have hresponses : s₂.responses = s₁.responses := by
          rcases writes_store chance' (Option.some.inj hwrite) with rfl | rfl <;> rfl
        cases result with
        | done => exact absurd hrefused (not_refused (fun _ h => by cases h) hresponses hends)
        | lost => exact absurd hrefused (not_refused (fun _ h => by cases h) hresponses hends)
        | refused e =>
            obtain rfl := writes_refused chance' (Option.some.inj hwrite)
            exact spared_respond hends

/-- A completion that is refused has changed nothing, or it has deleted the bytes that it does not accept. -/
theorem spared_complete (h : (storage lower).Ends c (complete id) s s') (hrefused : Refused c s s') : Spared id s s' := by
  obtain ⟨chance, _, s₁, hexec, hends⟩ := h
  cases hexec
  rcases ends_must hends with ⟨found, hfound, hends⟩ | hends
  · cases found with
    | none => exact spared_respond hends
    | some found =>
        obtain ⟨intent, k, expired⟩ := found
        have hintent : intentAt s id = some (intent, k) := intentAt_of_read (reads_eq hfound).symm
        dsimp only at hends
        split at hends
        next => exact spared_respond hends
        next =>
          obtain ⟨chance', head, s₁, hhead, hends⟩ := hends
          cases hcall : chance'.call with
          | failed effect =>
              simp only [storage, exec, hcall] at hhead
              cases hhead
              exact spared_respond hends
          | ok =>
              simp only [storage, exec, hcall] at hhead
              cases hhead
              cases hblob : s.bytes k with
              | none =>
                  rw [hblob] at hends
                  exact spared_respond hends
              | some blob =>
                  rw [hblob] at hends
                  exact spared_finish hintent hblob hends hrefused
  · exact spared_respond hends

theorem Spared.unchanged (h : Spared id s₁ s') (hs : Unchanged s s₁)
    (haccepts : ∀ intent k, intentAt s₁ id = some (intent, k) → ∀ blob, s.bytes k = some blob → accepts intent blob.content) :
    Unchanged s s' := by
  refine ⟨h.1.trans hs.rows, fun k blob hk => ?_⟩
  obtain ⟨blob', hk', hcontent, htype⟩ := hs.bytes k blob hk
  refine ⟨blob', ?_, hcontent, htype⟩
  rcases h.2 with hbytes | ⟨intent, rejected, blob₁, hintent, hblob₁, hreject, hbytes⟩
  · rw [hbytes, hk']
  · rw [hbytes k, hk']
    rintro rfl
    cases hk'.symm.trans hblob₁
    exact hreject (hcontent ▸ haccepts intent k hintent blob hk)

/-- What the client puts, if anything, arrives or does not. -/
theorem exec_clientPut (c : Client) (chance : Chance) {url : Url} {content : Content} {r : Unit}
    (h : exec c chance (.clientPut url content) s = some (r, s₁)) :
    s₁ = s ∨ url ∈ s.urls ∧ content.length = url.contentLength ∧
      s₁ = s.put url.key ⟨content, url.contentType, chance.now⟩ := by
  simp only [exec] at h
  split at h
  next hsigned =>
    cases h
    rcases calls_cases chance rfl with ⟨-, h⟩ | ⟨-, h | h⟩
    · exact .inr ⟨hsigned.1, hsigned.2.1, h⟩
    · exact .inl h
    · exact .inr ⟨hsigned.1, hsigned.2.1, h⟩
  next =>
    cases h
    exact .inl rfl

theorem ends_reject {status : Nat} {code : Code} {message : String} :
    (storage lower).Ends c (reject k status code message) s
      { s.remove k with responses := (c, .refused ⟨status, code, message⟩) :: s.responses } :=
  ⟨calm, true, _, rfl, calm, (), _, rfl, rfl⟩

/-- What is stored under the key of the intent is deleted unless it passes the checks. -/
theorem accepts_of_harmless (lower : Text → Text) (c : Client) (h : Harmless lower c (complete id) s) (hintent : intentAt s id = some (intent, k)) {blob : Blob}
    (hblob : s.bytes k = some blob) : accepts intent blob.content := by
  obtain ⟨i, hi, hk⟩ := Option.bind_eq_some_iff.mp hintent
  obtain ⟨_, hkey, heq⟩ := Option.map_eq_some_iff.mp hk
  cases heq
  have hread : exec c calm (.readIntent id) s = some (some (some (intent, k, false)), s) := by
    simp [exec, Chance.reads, calm, hi, hkey]
  have hfinish : Harmless lower c (finish intent k blob.content.length blob.content) s := by
    have hhead := (h.after calm hread).after (r := some (some (blob.content.length, blob.content))) calm
      (by simp [exec, calm, hblob])
    exact hhead
  have hkept : ∀ status code message, ¬ Harmless lower c (reject k status code message) s := by
    intro status code message hreject
    obtain ⟨_, hgone, -⟩ := (hreject _ ends_reject ⟨_, rfl⟩).bytes k blob hblob
    simp [Store.remove] at hgone
  unfold finish at hfinish
  split at hfinish
  next => exact absurd hfinish (hkept _ _ _)
  next hsize =>
    have hrange := hfinish.after (r := some (blob.content.take sniffBytes)) calm (by simp [exec, calm, hblob])
    dsimp only at hrange
    split at hrange
    next => exact absurd hrange (hkept _ _ _)
    next hsniff => exact ⟨not_not.mp hsize, hsniff⟩

theorem harmless_presigned_iff {put : Option (Url × Content)} : Harmless lower c (presigned put id) s ↔
    (∀ url content, signedFor s put url content → ∀ blob, s.bytes url.key = some blob →
      blob.content = content ∧ blob.contentType = url.contentType) ∧
    ∀ intent k, intentAt s id = some (intent, k) → ∀ blob, s.bytes k = some blob → accepts intent blob.content := by
  constructor
  · intro h
    constructor
    · rintro url content ⟨rfl, hurl, hlength⟩ blob hblob
      -- the bytes arrive, and the database fails
      have hends : (storage lower).Ends c (presigned (some (url, content)) id) s
          { s.put url.key ⟨content, url.contentType, 0⟩ with responses := (c, .refused internal) :: s.responses } :=
        ⟨calm, (), _, by simp [storage, exec, calm, Chance.calls, hurl, hlength], outage, none, _, rfl, calm, (), _, rfl, rfl⟩
      obtain ⟨blob', hblob', hcontent, htype⟩ := (h _ hends ⟨internal, rfl⟩).bytes url.key blob hblob
      simp only [Store.put, Function.update_self] at hblob'
      cases hblob'
      exact ⟨hcontent.symm, htype.symm⟩
    · intro intent k hintent blob hblob
      refine accepts_of_harmless lower c ?_ hintent hblob
      cases put with
      | none => exact h
      | some put =>
          -- the bytes do not arrive
          refine h.after (r := ()) { calm with call := .failed false } ?_
          simp only [exec, Chance.calls]
          split <;> rfl
  · rintro ⟨hput, haccepts⟩ s' hends hrefused
    cases put with
    | none => exact (spared_complete hends hrefused).unchanged .refl haccepts
    | some put =>
        obtain ⟨url, content⟩ := put
        obtain ⟨chance, _, s₁, hexec, hends⟩ := hends
        rcases exec_clientPut c chance hexec with rfl | ⟨hurl, hlength, rfl⟩
        · exact (spared_complete hends hrefused).unchanged .refl haccepts
        · refine (spared_complete hends hrefused).unchanged ⟨rfl, fun k blob hblob => ?_⟩ haccepts
          by_cases hk : k = url.key
          · subst hk
            obtain ⟨rfl, htype⟩ := hput url content ⟨rfl, hurl, hlength⟩ blob hblob
            exact ⟨_, Function.update_self .., rfl, htype.symm⟩
          · exact ⟨blob, (Function.update_of_ne hk ..).trans hblob, rfl, rfl⟩

end Completions

/-- A refused write changes nothing exactly when nothing is stored under the key of an upload that the
checks let through, the client of a presigned one replaces nothing by anything else, and what is stored
under the key of its intent passes the checks. -/
theorem refused_unchanged_iff (lower : Text → Text) (c : Client) (s : Store) :
    (∀ caller req, Harmless lower c (upload lower caller req) s ↔
      ∀ k, target lower s caller req = some k → s.bytes k = none) ∧
    ∀ put id, Harmless lower c (presigned put id) s ↔
      (∀ url content, signedFor s put url content → ∀ blob, s.bytes url.key = some blob →
        blob.content = content ∧ blob.contentType = url.contentType) ∧
      ∀ intent k, intentAt s id = some (intent, k) → ∀ blob, s.bytes k = some blob → accepts intent blob.content :=
  ⟨fun _ _ => harmless_upload_iff, fun _ _ => harmless_presigned_iff⟩

/-- One object, under policies that let everybody write and nobody read. -/
def held : Store where
  plan := "free"
  policies := ⟨fun _ _ _ => false, fun _ _ _ => true, fun _ _ _ => false, fun _ _ _ => false, fun _ _ _ => false,
    fun _ _ _ => false, fun _ _ _ => false, fun _ _ _ => false, fun _ _ _ => false⟩
  db := ⟨[⟨0, ['v', 'a'], false, none, none⟩], [⟨0, ['x'], none, 1, ['t'], [65]⟩], [], 1, 1⟩
  bytes := Function.update (fun _ => none) ⟨['v', 'a'], ['x']⟩ (some ⟨[65], ['t'], 0⟩)
  keys := [⟨['v', 'a'], ['x']⟩]
  urls := []
  responses := []

/-- The policies refuse an upload under the name of an object that they hide, and its bytes are gone. -/
theorem not_refused_unchanged : ¬ ∀ (lower : Text → Text) (c : Client) (s : Store),
    (∀ caller req, Harmless lower c (upload lower caller req) s) ∧ ∀ put id, Harmless lower c (presigned put id) s := by
  intro h
  have hends : (storage id).Ends 0 (upload id ⟨.anon, none, []⟩ ⟨['v', 'a'], ['x'], some [66], some ['t'], false⟩) held
      { (held.put ⟨['v', 'a'], ['x']⟩ ⟨[66], ['t'], 0⟩).remove ⟨['v', 'a'], ['x']⟩ with
        responses := [(0, .refused (policyError .policy))] } :=
    ⟨calm, _, _, rfl, calm, _, _, rfl, calm, _, _, rfl, calm, _, _, rfl, calm, _, _, rfl, calm, _, _, rfl, calm, _, _, rfl,
      calm, _, _, rfl, rfl⟩
  obtain ⟨_, hgone, -⟩ := ((h id 0 held).1 _ _ _ hends ⟨_, rfl⟩).bytes ⟨['v', 'a'], ['x']⟩ ⟨[65], ['t'], 0⟩ rfl
  simp [Store.remove] at hgone

end Corebase.RefusedWrites
