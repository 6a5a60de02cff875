import Corebase.KeyRevocation

namespace Corebase.Entrances

open Json Jwt DataPlane KeyRevocation

section Entrances

variable {Key Hash : Type} (ecdsa : Key → Str → List Nat → Bool) (hash : Str → Hash) (lower : Str → Str)
  (gatewayDomain domain : Str) (keyIssuer : Option Str) (now : Nat)

/-- The gateway lets the request in, for the project and with the role that its key carries. -/
def GatewayAccepts [DecidableEq Hash] (projects : List (Project Key Hash)) (req : Request) (project : Project Key Hash)
    (role : KeyRole) : Prop :=
  admitRequest ecdsa hash gatewayDomain now (load projects) req = .ok (entryOf project) ∧
    ∃ decoded, decodeUnverified (req.apikey.getD []) = some decoded ∧
      isString (property decoded.claims "role") role.text = true

def EntranceAccepts (projects : List (Project Key Hash)) (req : Request) (project : Project Key Hash)
    (role : KeyRole) : Prop :=
  resolveProject ecdsa lower domain keyIssuer now projects req.apikey = .ok ⟨project.id, project.ref, role⟩

/-- A published key of the project has signed the token. -/
def Signed (project : Project Key Hash) (token : Str) : Prop :=
  ∃ k ∈ published project, verify ecdsa k.publicKey none none now token = true

/-- What both entrances ask for: a token of the project in its own words, signed for it, and the project ready. -/
structure Genuine (project : Project Key Hash) (role : KeyRole) (token : Str) (decoded : Decoded) : Prop where
  decodes : decodeUnverified token = some decoded
  ref : ∃ ref, claimText decoded.claims "ref" = some ref ∧ ref ≠ [] ∧ lower ref = lower project.ref
  role : claimText decoded.claims "role" = some role.text
  signed : Signed ecdsa now project token
  ready : project.status = .ready

/-- What the gateway asks for besides. -/
structure Strict (project : Project Key Hash) (role : KeyRole) (token : Str) (decoded : Decoded) : Prop where
  unrevoked : hash token ∉ revokedHashes project
  named : ∃ k, namedKey (published project) decoded.header = some k ∧
    verify ecdsa k.publicKey none none now token = true
  ref : claimText decoded.claims "ref" = some project.ref
  issuer : claimText decoded.claims "iss" = some (keyIssuerFor project.ref gatewayDomain)
  role : isString (property decoded.claims "role") role.text = true

/-- What the entrance of the modules asks for besides. -/
structure Served (project : Project Key Hash) (decoded : Decoded) : Prop where
  reachable : ∃ database, project.database = some database ∧ database.address.any (· ≠ []) = true
  privateKey : project.jwtPrivateKey = .present ()
  publicKey : ∃ publicKey, project.jwtPublicKey = .present publicKey
  kid : ∃ kid, project.jwtKid = .present kid
  authRole : project.authRole = .present ()
  issuer : keyIssuer.getD (keyIssuerFor project.ref domain) = [] ∨
    isString (property decoded.claims "iss") (keyIssuer.getD (keyIssuerFor project.ref domain)) = true

/-- A key that the gateway refuses is good for the modules. -/
def Leaks (project : Project Key Hash) (token : Str) : Prop :=
  ∃ role decoded, Genuine ecdsa lower now project role token decoded ∧ Served domain keyIssuer project decoded ∧
    ¬ Strict ecdsa hash gatewayDomain now project role token decoded

/-- A key that the modules refuse is good for the gateway. -/
def Locks (project : Project Key Hash) (token : Str) : Prop :=
  ∃ role decoded, Genuine ecdsa lower now project role token decoded ∧
    Strict ecdsa hash gatewayDomain now project role token decoded ∧ ¬ Served domain keyIssuer project decoded

variable {ecdsa hash lower gatewayDomain domain keyIssuer now}

theorem decodes_nonempty {token : Str} {decoded : Decoded} (h : decodeUnverified token = some decoded) : token ≠ [] := by
  rintro rfl
  cases h

theorem orEmpty_of_isString {value : Option (Option JsValue)} {s : Str} (h : isString value s = true) :
    orEmpty value = some s := by
  unfold isString at h
  split at h
  next t =>
    rw [decide_eq_true_eq] at h
    rw [← h]
    simp [orEmpty, stringOf]
  next => cases h

theorem text_injective {role role' : KeyRole} (h : role.text = role'.text) : role = role' := by
  cases role <;> cases role' <;> first | rfl | exact absurd h (by decide)

theorem isKeyRole_iff {value : Option (Option JsValue)} :
    isKeyRole value = true ↔ ∃ role : KeyRole, isString value role.text = true := by
  rw [isKeyRole, Bool.or_eq_true]
  constructor
  · rintro (h | h)
    · exact ⟨.anon, h⟩
    · exact ⟨.serviceRole, h⟩
  · rintro ⟨role, h⟩
    cases role with
    | anon => exact .inl h
    | serviceRole => exact .inr h

theorem keyRole_some {s : Str} {role : KeyRole} : keyRole s = some role ↔ s = role.text := by
  unfold keyRole
  constructor
  · intro h
    split_ifs at h with hanon hservice
    · cases h
      exact hanon
    · cases h
      exact hservice
  · rintro rfl
    cases role with
    | anon => rfl
    | serviceRole => decide

/-- The check of the kid and of the issuer stand apart from the rest. -/
theorem verify_iff {key : Key} {kid issuer : Option Str} {token : Str} {decoded : Decoded}
    (h : decodeUnverified token = some decoded) :
    verify ecdsa key kid issuer now token = true ↔
      verify ecdsa key none none now token = true ∧
        kid.all (fun kid => kid = [] || isString (property decoded.header "kid") kid) = true ∧
        (∀ s, issuer = some s → s = [] ∨ isString (property decoded.claims "iss") s = true) := by
  unfold verify
  rw [h]
  cases parts token with
  | none => simp
  | some split =>
      simp only [Bool.and_eq_true, Option.all_none, and_true]
      have hissuer : issuer.all (fun s => s = [] || isString (property decoded.claims "iss") s) = true ↔
          ∀ s, issuer = some s → s = [] ∨ isString (property decoded.claims "iss") s = true := by
        cases issuer <;> simp
      tauto

theorem namedKey_some {jwks : List (PublishedKey Key)} {header : JsValue} {k : PublishedKey Key}
    (h : namedKey jwks header = some k) : k ∈ jwks ∧ isString (property header "kid") k.kid = true := by
  unfold namedKey at h
  split at h
  next kid hkid =>
    split at h
    next => cases h
    next =>
      have hname : k.kid = kid := by simpa using List.find?_some h
      refine ⟨List.mem_of_find?_eq_some h, ?_⟩
      rw [hkid, hname]
      exact decide_eq_true rfl
  next => cases h

theorem verifyApiKey_ok {apikey : Str} {entry : RouteEntry Key Hash} :
    verifyApiKey ecdsa gatewayDomain now apikey entry = .ok ↔
      ∃ decoded k, decodeUnverified apikey = some decoded ∧
        claimText decoded.claims "ref" = some entry.ref ∧
        claimText decoded.claims "iss" = some (keyIssuerFor entry.ref gatewayDomain) ∧
        isKeyRole (property decoded.claims "role") = true ∧
        namedKey entry.jwks decoded.header = some k ∧ verify ecdsa k.publicKey none none now apikey = true := by
  unfold verifyApiKey
  cases hdecode : decodeUnverified apikey with
  | none => simp
  | some decoded =>
      dsimp only
      constructor
      · intro h
        split at h
        next claimedRef claimedIss href hiss =>
          split at h
          next => cases h
          next hrole =>
            split at h
            next => cases h
            next k hk =>
              split_ifs at h with hbad hother hissuer
              obtain rfl := not_not.mp hother
              obtain rfl := not_not.mp hissuer
              have hverify : verify ecdsa k.publicKey (some k.kid) none now apikey = true := by simpa using hbad
              exact ⟨decoded, k, rfl, href, hiss, by simpa using hrole, hk, ((verify_iff hdecode).mp hverify).1⟩
        next => cases h
      · rintro ⟨decoded', k, heq, href, hiss, hrole, hk, hverify⟩
        cases heq
        have hkid := (namedKey_some hk).2
        have hgood : verify ecdsa k.publicKey (some k.kid) none now apikey = true :=
          (verify_iff hdecode).mpr ⟨hverify, by simp [hkid], nofun⟩
        simp [href, hiss, hrole, hk, hgood]

/-- No two refs are the same up to case. -/
def Unique (lower : Str → Str) (projects : List (Project Key Hash)) : Prop :=
  (projects.map fun p => lower p.ref).Nodup

theorem Unique.eq {projects : List (Project Key Hash)} {p q : Project Key Hash} (h : Unique lower projects)
    (hp : p ∈ projects) (hq : q ∈ projects) (hsame : lower p.ref = lower q.ref) : p = q :=
  List.inj_on_of_nodup_map h hp hq hsame

theorem lookup_load {projects : List (Project Key Hash)} {project : Project Key Hash} (hunique : Unique lower projects)
    (hproject : project ∈ projects) (hready : project.status = .ready) :
    lookup (load projects) project.ref = some (entryOf project) := by
  have hmem : entryOf project ∈ load projects :=
    List.mem_map_of_mem (List.mem_filter.mpr ⟨hproject, by simp [hready]⟩)
  cases hfound : lookup (load projects) project.ref with
  | none => exact absurd (decide_eq_true rfl) (List.find?_eq_none.mp hfound _ hmem)
  | some entry =>
      obtain ⟨other, hother, rfl⟩ := List.mem_map.mp (List.mem_of_find?_eq_some hfound)
      have hname := List.find?_some hfound
      have href : other.ref = project.ref := of_decide_eq_true hname
      rw [hunique.eq (List.mem_of_mem_filter hother) hproject (congrArg lower href)]

theorem refFromHost_nonempty {host : Option Str} {ref : Str} (h : refFromHost host gatewayDomain = some ref) :
    ref ≠ [] := by
  obtain ⟨name, -, hname⟩ := Option.bind_eq_some_iff.mp h
  dsimp only at hname
  split_ifs at hname with htail hsub
  cases hname
  rw [Bool.and_eq_true, Bool.and_eq_true, decide_eq_true_eq] at hsub
  apply List.ne_nil_of_length_pos
  omega

theorem gateway_iff [DecidableEq Hash] {projects : List (Project Key Hash)} {req : Request}
    {project : Project Key Hash} {role : KeyRole} (hunique : Unique lower projects) (hproject : project ∈ projects)
    (hhost : refFromHost req.host gatewayDomain = some project.ref) (hnonempty : project.ref ≠ [])
    (hlimited : req.limited = none) :
    GatewayAccepts ecdsa hash gatewayDomain now projects req project role ↔
      ∃ decoded, Genuine ecdsa lower now project role (req.apikey.getD []) decoded ∧
        Strict ecdsa hash gatewayDomain now project role (req.apikey.getD []) decoded := by
  have hadmitted := @admitRequest_ok _ _ ecdsa hash gatewayDomain _ ⟨projects, load projects⟩ req now (entryOf project)
  unfold GatewayAccepts
  rw [hadmitted, LetThrough, verifyApiKey_ok]
  constructor
  · rintro ⟨⟨-, ⟨-, hfree, decoded, k, hdecode, href, hiss, -, hk, hverify⟩, -, hready⟩, decoded', hdecode', hrole⟩
    cases hdecode.symm.trans hdecode'
    exact ⟨decoded, ⟨hdecode, ⟨project.ref, href, hnonempty, rfl⟩, orEmpty_of_isString hrole,
      ⟨k, (namedKey_some hk).1, hverify⟩, hready⟩, ⟨hfree, ⟨k, hk, hverify⟩, href, hiss, hrole⟩⟩
  · rintro ⟨decoded, hgenuine, hstrict⟩
    obtain ⟨k, hk, hverify⟩ := hstrict.named
    have hfound : (refFromHost req.host gatewayDomain).bind (lookup (load projects)) = some (entryOf project) := by
      rw [hhost, Option.bind_some, lookup_load hunique hproject hgenuine.ready]
    refine ⟨⟨hfound, ⟨decodes_nonempty hgenuine.decodes, hstrict.unrevoked, ?_⟩, hlimited, hgenuine.ready⟩,
      decoded, hgenuine.decodes, hstrict.role⟩
    exact ⟨decoded, k, hgenuine.decodes, hstrict.ref, hstrict.issuer, isKeyRole_iff.mpr ⟨role, hstrict.role⟩, hk, hverify⟩

theorem serveProject_ok {project : Project Key Hash} {database : Database} {role : KeyRole} {context : ProjectContext} :
    serveProject project database role = .ok context ↔
      project.status = .ready ∧ database.address.any (· ≠ []) = true ∧ project.authRole = .present () ∧
        context = ⟨project.id, project.ref, role⟩ := by
  unfold serveProject unavailable unhandled
  by_cases hready : project.status = .ready
  · rw [if_neg (not_not.mpr hready)]
    cases haddress : database.address.any (· ≠ []) with
    | false => exact iff_of_false nofun fun h => absurd h.2.1 nofun
    | true =>
        cases hauth : project.authRole with
        | absent | unreadable => exact iff_of_false nofun fun h => absurd h.2.2.1 nofun
        | present _ =>
            constructor
            · intro h
              cases h
              exact ⟨hready, rfl, rfl, rfl⟩
            · rintro ⟨-, -, -, rfl⟩
              rfl
  · rw [if_pos hready]
    exact iff_of_false nofun fun h => hready h.1

theorem projectRow_some {projects : List (Project Key Hash)} {ref : Str} {project : Project Key Hash}
    {database : Database} (h : projectRow lower projects ref = some (project, database)) :
    project ∈ projects ∧ lower project.ref = lower ref ∧ project.database = some database := by
  obtain ⟨found, hfound, hrow⟩ := Option.bind_eq_some_iff.mp h
  obtain ⟨placement, hplacement, heq⟩ := Option.map_eq_some_iff.mp hrow
  cases heq
  have hnames := List.find?_some hfound
  rw [Bool.and_eq_true, decide_eq_true_eq] at hnames
  exact ⟨List.mem_of_find?_eq_some hfound, hnames.1, hplacement⟩

theorem projectRow_of {projects : List (Project Key Hash)} {ref : Str} {project : Project Key Hash}
    {database : Database} (hunique : Unique lower projects) (hproject : project ∈ projects)
    (href : lower ref = lower project.ref) (hdatabase : project.database = some database) :
    projectRow lower projects ref = some (project, database) := by
  unfold projectRow
  cases hfound : projects.find? fun p => lower p.ref = lower ref && p.database.isSome with
  | none =>
      have hnot := List.find?_eq_none.mp hfound project hproject
      simp [href, hdatabase] at hnot
  | some other =>
      have hnames := List.find?_some hfound
      rw [Bool.and_eq_true, decide_eq_true_eq] at hnames
      obtain rfl := hunique.eq (List.mem_of_find?_eq_some hfound) hproject (hnames.1.trans href)
      rw [Option.bind_some, hdatabase]
      rfl

theorem resolveProject_ok {projects : List (Project Key Hash)} {apikey : Option Str} {context : ProjectContext} :
    resolveProject ecdsa lower domain keyIssuer now projects apikey = .ok context ↔
      ∃ decoded ref role project database publicKey kid,
        decodeUnverified (apikey.getD []) = some decoded ∧ claimText decoded.claims "ref" = some ref ∧
        claimText decoded.claims "role" = some (KeyRole.text role) ∧ ref ≠ [] ∧
        projectRow lower projects ref = some (project, database) ∧ project.jwtPrivateKey = .present () ∧
        project.jwtPublicKey = .present publicKey ∧ project.jwtKid = .present kid ∧
        ((⟨kid, publicKey⟩ :: extraKeys project).any fun k => verify ecdsa k.publicKey none
          (some (keyIssuer.getD (keyIssuerFor project.ref domain))) now (apikey.getD [])) = true ∧
        serveProject project database role = .ok context := by
  unfold resolveProject
  dsimp only
  constructor
  · intro h
    split at h
    next => cases h
    next =>
      split at h
      next => cases h
      next ref roleText hclaims =>
        obtain ⟨decoded, hdecode, hrest⟩ := Option.bind_eq_some_iff.mp hclaims
        obtain ⟨ref', href, hroleText⟩ := Option.bind_eq_some_iff.mp hrest
        obtain ⟨roleText', hroleText', heq⟩ := Option.map_eq_some_iff.mp hroleText
        cases heq
        split at h
        next => cases h
        next hnonempty =>
          split at h
          next => cases h
          next role hrole =>
            split at h
            next => cases h
            next project database hrow =>
              split at h
              next => cases h
              next => cases h
              next => cases h
              next publicKey kid hprivate hpublic hkid =>
                split at h
                next hsigned =>
                  obtain rfl := keyRole_some.mp hrole
                  exact ⟨decoded, ref, role, project, database, publicKey, kid, hdecode, href, hroleText', hnonempty,
                    hrow, hprivate, hpublic, hkid, hsigned, h⟩
                next => cases h
              next => cases h
  · rintro ⟨decoded, ref, role, project, database, publicKey, kid, hdecode, href, hrole, hnonempty, hrow, hprivate,
      hpublic, hkid, hsigned, hserved⟩
    have hclaims : ((decodeUnverified (apikey.getD [])).bind fun decoded => (claimText decoded.claims "ref").bind
        fun ref => (claimText decoded.claims "role").map fun role => (ref, role)) = some (ref, role.text) := by
      rw [hdecode, Option.bind_some, href, Option.bind_some, hrole, Option.map_some]
    rw [if_neg (decodes_nonempty hdecode), hclaims]
    dsimp only
    rw [if_neg hnonempty, keyRole_some.mpr rfl, hrow]
    dsimp only
    rw [hprivate, hpublic, hkid]
    dsimp only
    rw [if_pos hsigned, hserved]

theorem published_cons {project : Project Key Hash} {publicKey : Key} {kid : Str}
    (hpublic : project.jwtPublicKey = .present publicKey) (hkid : project.jwtKid = .present kid) :
    published project = ⟨kid, publicKey⟩ :: extraKeys project := by
  rw [published, activeKey, hpublic, hkid]
  rfl

theorem entrance_iff {projects : List (Project Key Hash)} {req : Request} {project : Project Key Hash}
    {role : KeyRole} (hunique : Unique lower projects) (hproject : project ∈ projects) :
    EntranceAccepts ecdsa lower domain keyIssuer now projects req project role ↔
      ∃ decoded, Genuine ecdsa lower now project role (req.apikey.getD []) decoded ∧
        Served domain keyIssuer project decoded := by
  unfold EntranceAccepts
  rw [resolveProject_ok]
  constructor
  · rintro ⟨decoded, ref, role', project', database, publicKey, kid, hdecode, href, hrole, hnonempty, hrow, hprivate,
      hpublic, hkid, hsigned, hserved⟩
    obtain ⟨hready, haddress, hauth, heq⟩ := serveProject_ok.mp hserved
    obtain ⟨hmem, hnames, hdatabase⟩ := projectRow_some hrow
    rw [ProjectContext.mk.injEq] at heq
    obtain ⟨-, hsameRef, rfl⟩ := heq
    obtain rfl := hunique.eq hproject hmem (congrArg lower hsameRef)
    obtain ⟨k, hk, hverify⟩ := List.any_eq_true.mp hsigned
    obtain ⟨hgood, -, hissuer⟩ := (verify_iff hdecode).mp hverify
    rw [← published_cons hpublic hkid] at hk
    exact ⟨decoded, ⟨hdecode, ⟨ref, href, hnonempty, hnames.symm⟩, hrole, ⟨k, hk, hgood⟩, hready⟩,
      ⟨⟨database, hdatabase, haddress⟩, hprivate, ⟨publicKey, hpublic⟩, ⟨kid, hkid⟩, hauth, hissuer _ rfl⟩⟩
  · rintro ⟨decoded, hgenuine, hserved⟩
    obtain ⟨ref, href, hnonempty, hnames⟩ := hgenuine.ref
    obtain ⟨database, hdatabase, haddress⟩ := hserved.reachable
    obtain ⟨publicKey, hpublic⟩ := hserved.publicKey
    obtain ⟨kid, hkid⟩ := hserved.kid
    obtain ⟨k, hk, hgood⟩ := hgenuine.signed
    rw [published_cons hpublic hkid] at hk
    refine ⟨decoded, ref, role, project, database, publicKey, kid, hgenuine.decodes, href, hgenuine.role, hnonempty,
      projectRow_of hunique hproject hnames hdatabase, hserved.privateKey, hpublic, hkid, ?_, ?_⟩
    · refine List.any_eq_true.mpr ⟨k, hk, (verify_iff hgenuine.decodes).mpr ⟨hgood, rfl, ?_⟩⟩
      rintro _ ⟨⟩
      exact hserved.issuer
    · exact serveProject_ok.mpr ⟨hgenuine.ready, haddress, hserved.authRole, rfl⟩

theorem Genuine.unique {project : Project Key Hash} {role role' : KeyRole} {token : Str} {decoded decoded' : Decoded}
    (h : Genuine ecdsa lower now project role token decoded)
    (h' : Genuine ecdsa lower now project role' token decoded') : decoded' = decoded ∧ role' = role := by
  obtain rfl := Option.some.inj (h.decodes.symm.trans h'.decodes)
  exact ⟨rfl, (text_injective (Option.some.inj (h.role.symm.trans h'.role))).symm⟩

variable (ecdsa hash lower gatewayDomain domain keyIssuer now) in
/-- The entrances agree on the key of a request at the host of the project. -/
def Agree [DecidableEq Hash] (projects : List (Project Key Hash)) (req : Request) (project : Project Key Hash) : Prop :=
  ∀ role, GatewayAccepts ecdsa hash gatewayDomain now projects req project role ↔
    EntranceAccepts ecdsa lower domain keyIssuer now projects req project role

end Entrances

/-! A key of a project after its revocation -/

def revokedRequest : Request := ⟨some (sampleRef ++ str ".d".toList), some sampleKey, none, none⟩

theorem host_sample : refFromHost revokedRequest.host (str "d".toList) = some sampleProject.ref := by decide +kernel

end Corebase.Entrances
