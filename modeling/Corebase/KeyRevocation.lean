import Corebase.DataPlane

namespace Corebase.KeyRevocation

open Json Jwt DataPlane

section Runs

variable {Key Hash : Type}

/-- The projects as they are stored, and the table that the gateway has in memory. -/
structure State (Key Hash : Type) where
  projects : List (Project Key Hash)
  table : List (RouteEntry Key Hash)

inductive Event (Key Hash : Type)
  | change (projects : List (Project Key Hash))
  | refresh
  | request (req : Request) (now : Nat)

def step (s : State Key Hash) : Event Key Hash → State Key Hash
  | .change projects => { s with projects }
  | .refresh => { s with table := load s.projects }
  | .request _ _ => s

def Distinct (projects : List (Project Key Hash)) : Prop := (projects.map (·.ref)).Nodup

/-- Projects stay, and so do the revocations of their keys. -/
def Retains (projects projects' : List (Project Key Hash)) : Prop :=
  Distinct projects' ∧
    ∀ p ∈ projects, ∃ p' ∈ projects', p'.ref = p.ref ∧ revokedHashes p ⊆ revokedHashes p'

def Legal (s : State Key Hash) : List (Event Key Hash) → Prop
  | [] => True
  | event :: events =>
      (∀ projects, event = .change projects → Retains s.projects projects) ∧ Legal (step s event) events

/-- Each request of the run has the property in the state that it meets. -/
def Along (property : State Key Hash → Request → Nat → Prop) (s : State Key Hash) : List (Event Key Hash) → Prop
  | [] => True
  | .request req now :: events => property s req now ∧ Along property s events
  | event :: events => Along property (step s event) events

variable (ecdsa : Key → Str → List Nat → Bool) (hash : Str → Hash) (domain : Str)

/-- The key of the project has been revoked, and the gateway has loaded its revocation. -/
def Loaded (key ref : Str) (s : State Key Hash) : Prop :=
  (∃ p ∈ s.projects, p.ref = ref ∧ hash key ∈ revokedHashes p) ∧
    ∀ entry ∈ s.table, entry.ref = ref → hash key ∈ entry.revoked

/-- PostgREST of the project accepts the token. -/
def Accepts (entry : RouteEntry Key Hash) (now : Nat) (token : Str) : Prop :=
  ∃ k ∈ entry.jwks, verify ecdsa k.publicKey none none now token = true

/-- Where the request reaches PostgREST of the project, it has the authority of the key in neither header. -/
def Effective [DecidableEq Hash] (key ref : Str) (s : State Key Hash) (req : Request) (now : Nat) : Prop :=
  ∀ entry authorization, proxy ecdsa hash domain now s.table req = some (entry, authorization) → entry.ref = ref →
    ¬ Spells key (req.apikey.getD []) ∧
      ∀ token, authorization = bearer token → ¬ (Spells key token ∧ Accepts ecdsa entry now token)

/-- The request is one for the project of the entry, and nothing but its apikey can stop it. -/
def Passes (s : State Key Hash) (req : Request) (entry : RouteEntry Key Hash) : Prop :=
  (refFromHost req.host domain).bind (lookup s.table) = some entry ∧ entry.status = .ready ∧
    placed entry = true ∧ req.limited = none

/-- The apikey is let through. -/
def LetThrough (entry : RouteEntry Key Hash) (now : Nat) (apikey : Str) : Prop :=
  apikey ≠ [] ∧ hash apikey ∉ entry.revoked ∧ verifyApiKey ecdsa domain now apikey entry = .ok

/-- The apikey is not a valid key in a spelling of its own, nor does an apikey that is let through come with
the key, in any spelling, in the other header. -/
def Clean (key ref : Str) (s : State Key Hash) (req : Request) (now : Nat) : Prop :=
  ∀ entry, Passes domain s req entry → entry.ref = ref →
    ¬ (Spells key (req.apikey.getD []) ∧ req.apikey.getD [] ≠ key ∧ hash (req.apikey.getD []) ∉ entry.revoked ∧
        verifyApiKey ecdsa domain now key entry = .ok) ∧
      ∀ token, req.authorization = some (bearer token) → Spells key token → Accepts ecdsa entry now key →
        ¬ LetThrough ecdsa hash domain entry now (req.apikey.getD [])

variable {ecdsa hash domain}

theorem spells_nonempty {key token : Str} (h : Spells key token) : token ≠ [] := by
  obtain ⟨_, _, _, _, -, htoken, -⟩ := h
  rintro rfl
  cases htoken

theorem verifyApiKey_spells {key token : Str} (h : Spells key token) (hecdsa : Symmetric ecdsa)
    (entry : RouteEntry Key Hash) (now : Nat) :
    verifyApiKey ecdsa domain now token entry = verifyApiKey ecdsa domain now key entry := by
  simp only [verifyApiKey, h.decode, h.verify_eq hecdsa]

theorem accepts_spells {key token : Str} (h : Spells key token) (hecdsa : Symmetric ecdsa)
    (entry : RouteEntry Key Hash) (now : Nat) : Accepts ecdsa entry now token ↔ Accepts ecdsa entry now key := by
  simp only [Accepts, h.verify_eq hecdsa]

theorem checkStatus_ok {entry entry' : RouteEntry Key Hash} :
    checkStatus entry = .ok entry' ↔ entry.status = .ready ∧ entry = entry' := by
  unfold checkStatus
  cases hstatus : entry.status <;> simp

variable [DecidableEq Hash]

theorem admitRequest_ok {s : State Key Hash} {req : Request} {now : Nat} {entry : RouteEntry Key Hash} :
    admitRequest ecdsa hash domain now s.table req = .ok entry ↔
      (refFromHost req.host domain).bind (lookup s.table) = some entry ∧
        LetThrough ecdsa hash domain entry now (req.apikey.getD []) ∧ req.limited = none ∧ entry.status = .ready := by
  unfold admitRequest LetThrough
  cases hentry : (refFromHost req.host domain).bind (lookup s.table) with
  | none => simp
  | some found =>
      dsimp only
      by_cases hempty : req.apikey.getD [] = []
      · simp [hempty]
      by_cases hrevoked : hash (req.apikey.getD []) ∈ found.revoked
      · rw [if_neg hempty, if_pos hrevoked]
        refine iff_of_false nofun ?_
        rintro ⟨heq, ⟨-, hfree, -⟩, -⟩
        cases heq
        exact hfree hrevoked
      rw [if_neg hempty, if_neg hrevoked]
      cases hverdict : verifyApiKey ecdsa domain now (req.apikey.getD []) found with
      | invalid | mismatch =>
          refine iff_of_false nofun ?_
          rintro ⟨heq, ⟨-, -, hok⟩, -⟩
          cases heq
          rw [hverdict] at hok
          cases hok
      | ok =>
          cases hlimited : req.limited with
          | some seconds => simp
          | none =>
              dsimp only
              rw [checkStatus_ok]
              constructor
              · rintro ⟨hready, rfl⟩
                exact ⟨rfl, ⟨hempty, hrevoked, hverdict⟩, rfl, hready⟩
              · rintro ⟨heq, -, -, hready⟩
                cases heq
                exact ⟨hready, rfl⟩

theorem proxy_some {s : State Key Hash} {req : Request} {now : Nat} {entry : RouteEntry Key Hash}
    {authorization : Str} :
    proxy ecdsa hash domain now s.table req = some (entry, authorization) ↔
      Passes domain s req entry ∧ LetThrough ecdsa hash domain entry now (req.apikey.getD []) ∧
        authorization = req.authorization.getD (bearer (req.apikey.getD [])) := by
  unfold proxy Passes
  cases hadmitted : admitRequest ecdsa hash domain now s.table req with
  | error refusal =>
      refine iff_of_false nofun ?_
      rintro ⟨⟨hentry, hready, -, hlimited⟩, hthrough, -⟩
      have hok := admitRequest_ok.mpr ⟨hentry, hthrough, hlimited, hready⟩
      rw [hadmitted] at hok
      cases hok
  | ok found =>
      obtain ⟨hentry, hthrough, hlimited, hready⟩ := admitRequest_ok.mp hadmitted
      dsimp only
      constructor
      · intro h
        split at h
        next hplaced =>
          cases h
          exact ⟨⟨hentry, hready, hplaced, hlimited⟩, hthrough, rfl⟩
        next => cases h
      · rintro ⟨⟨hentry', -, hplaced, -⟩, -, rfl⟩
        cases hentry.symm.trans hentry'
        rw [if_pos hplaced]

theorem effective_iff {key ref : Str} {s : State Key Hash} (hecdsa : Symmetric ecdsa)
    (hloaded : Loaded hash key ref s) (req : Request) (now : Nat) :
    Effective ecdsa hash domain key ref s req now ↔ Clean ecdsa hash domain key ref s req now := by
  constructor
  · intro heffective entry hpasses href
    constructor
    · rintro ⟨hspells, -, hfree, hvalid⟩
      have hthrough : LetThrough ecdsa hash domain entry now (req.apikey.getD []) :=
        ⟨spells_nonempty hspells, hfree, by rwa [verifyApiKey_spells hspells hecdsa]⟩
      exact (heffective entry _ (proxy_some.mpr ⟨hpasses, hthrough, rfl⟩) href).1 hspells
    · intro token hauthorization hspells haccepts hthrough
      have hsent := proxy_some.mpr ⟨hpasses, hthrough, rfl⟩
      rw [hauthorization] at hsent
      exact (heffective entry _ hsent href).2 token rfl ⟨hspells, (accepts_spells hspells hecdsa entry now).mpr haccepts⟩
  · intro hclean entry authorization hsent href
    obtain ⟨hpasses, hthrough, rfl⟩ := proxy_some.mp hsent
    obtain ⟨hkey, hother⟩ := hclean entry hpasses href
    have happlied : ¬ Spells key (req.apikey.getD []) := by
      intro hspells
      apply hkey
      refine ⟨hspells, ?_, hthrough.2.1, ?_⟩
      · intro heq
        have hentry := hpasses.1
        obtain ⟨_, -, hfound⟩ := Option.bind_eq_some_iff.mp hentry
        exact hthrough.2.1 (heq ▸ hloaded.2 entry (List.mem_of_find?_eq_some hfound) href)
      · rw [← verifyApiKey_spells hspells hecdsa]
        exact hthrough.2.2
    refine ⟨happlied, ?_⟩
    rintro token htoken ⟨hspells, haccepts⟩
    cases hauthorization : req.authorization with
    | none =>
        rw [hauthorization, Option.getD_none] at htoken
        exact happlied (List.append_cancel_left htoken ▸ hspells)
    | some header =>
        rw [hauthorization, Option.getD_some] at htoken
        subst htoken
        exact hother token hauthorization hspells ((accepts_spells hspells hecdsa entry now).mp haccepts) hthrough

omit [DecidableEq Hash] in
theorem loaded_step {key ref : Str} {s : State Key Hash} {event : Event Key Hash} (hdistinct : Distinct s.projects)
    (hlegal : ∀ projects, event = .change projects → Retains s.projects projects) (h : Loaded hash key ref s) :
    Distinct (step s event).projects ∧ Loaded hash key ref (step s event) := by
  obtain ⟨⟨p, hp, href, hmem⟩, htable⟩ := h
  cases event with
  | change projects =>
      obtain ⟨hdistinct', hretains⟩ := hlegal projects rfl
      obtain ⟨p', hp', href', hsubset⟩ := hretains p hp
      exact ⟨hdistinct', ⟨p', hp', href'.trans href, hsubset hmem⟩, htable⟩
  | refresh =>
      refine ⟨hdistinct, ⟨p, hp, href, hmem⟩, ?_⟩
      intro entry hentry hentryRef
      obtain ⟨q, hq, rfl⟩ := List.mem_map.mp hentry
      have hsame : q = p :=
        List.inj_on_of_nodup_map hdistinct (List.mem_of_mem_filter hq) hp (hentryRef.trans href.symm)
      exact hsame ▸ hmem
  | request req now => exact ⟨hdistinct, ⟨p, hp, href, hmem⟩, htable⟩

end Runs

/-! A key of a project, revoked -/

def sampleHeader : Str := str "eyJhbGciOiJFUzI1NiIsImtpZCI6ImsifQ".toList

def samplePayload : Str :=
  str "eyJpc3MiOiJodHRwczovL3AwMDAwMDAwLmQiLCJyZWYiOiJwMDAwMDAwMCIsInJvbGUiOiJhbm9uIiwiZXhwIjo5OX0".toList

/-- Sixty-four bytes of one -/
def sampleSignature : Str := (List.replicate 21 (str "AQEB".toList)).flatten ++ str "AQ".toList

def sampleInput : Str := sampleHeader ++ '.'.toNat :: samplePayload

def sampleKey : Str := sampleInput ++ '.'.toNat :: sampleSignature

def sampleRef : Str := str "p0000000".toList

def sampleSigned (_ : Unit) (message : Str) (signature : List Nat) : Bool :=
  message = sampleInput && (signature = List.replicate 64 1 || signature = twin (List.replicate 64 1))

def sampleProject : Project Unit Str where
  id := 1
  ref := sampleRef
  status := .ready
  database := some ⟨some (str "node".toList), 5432, some 3000⟩
  jwtPrivateKey := .present ()
  jwtPublicKey := .present ()
  jwtKid := .present (str "k".toList)
  authRole := .present ()
  signingKeys := []
  apiKeys := [⟨sampleKey, true⟩]

def sampleState : State Unit Str := ⟨[sampleProject], load [sampleProject]⟩

/-- The revoked key with a padding character at its end -/
def sampleRequest : Request :=
  ⟨some (sampleRef ++ str ".d".toList), some (sampleKey ++ str "=".toList), none, none⟩

theorem symmetric_sample : Symmetric sampleSigned := by
  intro _ message signature h
  simp only [sampleSigned, Bool.and_eq_true, Bool.or_eq_true, decide_eq_true_eq] at h ⊢
  obtain ⟨hmessage, rfl | rfl⟩ := h
  · exact ⟨hmessage, .inr rfl⟩
  · refine ⟨hmessage, .inl (twin_twin ?_)⟩
    intro b hb
    rw [List.eq_of_mem_replicate hb]
    norm_num

theorem distinct_sample : Distinct sampleState.projects := List.nodup_singleton _

theorem loaded_sample : Loaded id sampleKey sampleRef sampleState := by
  have hrevoked : sampleKey ∈ revokedHashes sampleProject := List.mem_singleton.mpr rfl
  refine ⟨⟨sampleProject, List.mem_singleton.mpr rfl, rfl, hrevoked⟩, ?_⟩
  intro entry hentry _
  obtain rfl := List.mem_singleton.mp hentry
  exact hrevoked

theorem legal_sample : Legal sampleState [.request sampleRequest 50] := ⟨nofun, trivial⟩

theorem spells_sample : Spells sampleKey (sampleKey ++ str "=".toList) :=
  ⟨sampleHeader, samplePayload, sampleSignature, sampleSignature ++ str "=".toList, by decide +kernel,
    by decide +kernel, .inl (by decide +kernel)⟩

theorem valid_sample : verifyApiKey sampleSigned (str "d".toList) 50 sampleKey (entryOf sampleProject) = .ok := by
  decide +kernel

end Corebase.KeyRevocation
