import Corebase.KeyRotation
import Corebase.SagaSteps
import Mathlib.Data.List.Perm.Subperm

namespace Corebase.KeyMinting

open Interleaving Sagas SagaRules SagaSteps
open JobRunner (Worker JobState)
open SigningKeys (Client Kid Key Ref SecretName Role Token)

/-- The secrets, the signing keys and the API keys of the project. -/
abbrev World := SigningKeys.Store

inductive Act
  | op (o : SigningKeys.Op)
  | existing
  | generateKeypair
  | putApiKey (role : Role) (t : Token)
  /-- What another step does. -/
  | elsewhere
deriving DecidableEq

@[reducible] def Answer : Act → Type
  | .op o => SigningKeys.Reply o
  | .existing => List Role
  | .generateKeypair => Kid × Key
  | .putApiKey .. | .elsewhere => Unit

/-- A keypair is a fresh one every time. -/
def apply (chance : SigningKeys.Chance) : (a : Act) → World → Option (Answer a × World)
  | .op o, w => SigningKeys.exec 0 chance o w
  | .existing, w => some (w.apiKeys.map Prod.fst, w)
  | .generateKeypair, w =>
      if w.generated.all fun pair => pair.1 ≠ chance.pair.1 then
        some (chance.pair, { w with generated := chance.pair :: w.generated })
      else none
  | .putApiKey role t, w => some ((), if (w.apiSecrets role).isSome then w
      else { w with apiSecrets := Function.update w.apiSecrets role (some t) })
  | .elsewhere, w => some ((), w)

abbrev Steps := Body Act fun a => Option (Answer a)

def mint (ref : Ref) (key : Key) (kid : Kid) (existing : List Role) : List Role → Steps
  | [] => .ok
  | role :: roles =>
      if role ∈ existing then mint ref key kid existing roles
      else attempt (.op .clock) fun now =>
        let t : Token := ⟨key, kid, ref, role, now / 1000, now / 1000 + SigningKeys.projectKeyTtl⟩
        attempt (.putApiKey role t) fun _ => attempt (.op (.insertApiKey role t)) fun _ => mint ref key kid existing roles

def generateApiKeys : Steps :=
  attempt (.op .ref) fun
    | none => .throw
    | some ref => attempt .existing fun existing =>
      if 2 ≤ existing.length then .ok
      else attempt (.op (.get .jwtPrivateKey)) fun key => attempt (.op (.get .jwtKid)) fun kid =>
        match key, kid with
        | some key, some kid => mint ref key kid existing [.anon, .serviceRole]
        | _, _ => attempt .generateKeypair fun pair =>
            attempt (.op (.put .jwtPrivateKey pair.2)) fun _ => attempt (.op (.put .jwtPublicKey pair.2)) fun _ =>
              attempt (.op (.put .jwtKid pair.1)) fun _ => mint ref pair.2 pair.1 existing [.anon, .serviceRole]

def body : StepName → Steps
  | .generateApiKeys => generateApiKeys
  | _ => attempt .elsewhere fun _ => .ok

def provisioning : Design Unit StepName World Act Empty (Outcome × SigningKeys.Chance) Empty fun a => Option (Answer a) where
  sagas _ := steps .provisionProject
  body _ := body
  onDeadLetter _ := .ok
  others r := nomatch r
  perform := perform apply
  change x := nomatch x

/-- The key text that the keys endpoint shows for a row of the kind. -/
def shown (w : World) (role : Role) : Option Token := w.apiSecrets role

def kinds : List Role := [.anon, .serviceRole]

/-- The three secrets are of one keypair, and the key that is shown for a kind has one row and is good for the gateway. -/
structure Complete (w : World) : Prop where
  pair : ∃ kid key, w.secrets .jwtPrivateKey = some key ∧ w.secrets .jwtPublicKey = some key ∧
    w.secrets .jwtKid = some kid ∧ (kid, key) ∈ w.generated
  keys : ∀ role ∈ kinds, ∃ t, shown w role = some t ∧ w.apiKeys.count (role, t) = 1 ∧ t.claims.role = role ∧
    w.secrets .jwtPublicKey = some t.key ∧ ∀ now, KeyRotation.Alive now t → SigningKeys.accepted w now t = true

/-- The project without signing keys of its own, or with some of them, and with the rows of the tokens that it shows. -/
structure Sane (w : World) : Prop where
  ref : w.ref ≠ none
  rows : w.rows = []
  halves : ∀ kid, w.secrets (.privateKeyName kid) = none
  issued : w.issued = []
  settled : w.swapping = false
  functional : ∀ kid key key', (kid, key) ∈ w.generated → (kid, key') ∈ w.generated → key = key'
  kid : ∀ kid, w.secrets .jwtKid = some kid → ∃ key, w.secrets .jwtPrivateKey = some key ∧
    w.secrets .jwtPublicKey = some key ∧ (kid, key) ∈ w.generated
  keys : ∀ role t, (role, t) ∈ w.apiKeys → role ∈ kinds ∧ w.apiSecrets role = some t ∧ t.claims.role = role ∧
    w.secrets .jwtKid = some t.kid ∧ w.secrets .jwtPrivateKey = some t.key
  nodup : w.apiKeys.Nodup

def minted (w : World) : Prop := ∀ role ∈ kinds, role ∈ w.apiKeys.map Prod.fst

/-- A keypair is generated only while none of its secrets is stored, and a token only while its kind has none. -/
def legal : Act → World → Bool
  | .generateKeypair, w => SigningKeys.signing.all fun name => w.secrets name = none
  | .putApiKey role _, w => w.apiSecrets role = none
  | _, _ => true

def contract : Contract Unit StepName World Act Empty where
  Inv := Sane
  Post _ name w := name = .generateApiKeys → minted w
  Rely w w' := w' = w
  Rest jobs w := jobs.length = 1 → ∀ job ∈ jobs, job.state = .succeeded → minted w
  Legal a w := legal a w = true
  Timely _ _ := True
  Final _ _ _ := True

variable {w : World} {done : List StepName} {keep Q Z : World → Prop} {key : Key} {kid : Kid} {ref : Ref}
  {existing : List Role}

theorem Sane.secret (h : Sane w) {name : SecretName} {value : Nat} (hname : name = .jwtPrivateKey ∨ name = .jwtPublicKey)
    (hkid : w.secrets .jwtKid = none) : Sane (w.setSecret name value) := by
  have hhalves : ∀ kid, (w.setSecret name value).secrets (.privateKeyName kid) = none := by
    intro kid
    refine (KeyRotation.setSecret_of_ne ?_).trans (h.halves kid)
    rcases hname with rfl | rfl <;> nofun
  have hkid' : (w.setSecret name value).secrets .jwtKid = none := by
    refine (KeyRotation.setSecret_of_ne ?_).trans hkid
    rcases hname with rfl | rfl <;> nofun
  refine ⟨h.ref, h.rows, hhalves, h.issued, h.settled, h.functional, fun kid hk => ?_, fun role t ht => ?_, h.nodup⟩
  · cases hkid'.symm.trans hk
  · cases hkid.symm.trans (h.keys role t ht).2.2.2.1

theorem Sane.storeKid (h : Sane w) (hkid : w.secrets .jwtKid = none) (hkey : w.secrets .jwtPrivateKey = some key)
    (hpub : w.secrets .jwtPublicKey = some key) (hpair : (kid, key) ∈ w.generated) : Sane (w.setSecret .jwtKid kid) := by
  refine ⟨h.ref, h.rows, fun kid' => (KeyRotation.setSecret_of_ne (by simp)).trans (h.halves kid'), h.issued, h.settled,
    h.functional, fun kid' hk => ?_, fun role t ht => ?_, h.nodup⟩
  · obtain rfl := Option.some.inj (KeyRotation.setSecret_self.symm.trans hk)
    exact ⟨key, (KeyRotation.setSecret_of_ne (by simp)).trans hkey, (KeyRotation.setSecret_of_ne (by simp)).trans hpub, hpair⟩
  · cases hkid.symm.trans (h.keys role t ht).2.2.2.1

theorem Sane.generated (h : Sane w) {pair : Kid × Key} (hfresh : ∀ pair' ∈ w.generated, pair'.1 ≠ pair.1) :
    Sane { w with generated := pair :: w.generated } := by
  refine ⟨h.ref, h.rows, h.halves, h.issued, h.settled, fun kid key key' hk hk' => ?_, fun kid hk => ?_, h.keys, h.nodup⟩
  · rcases List.mem_cons.mp hk with heq | hk <;> rcases List.mem_cons.mp hk' with heq' | hk'
    · exact (Prod.ext_iff.mp (heq.trans heq'.symm)).2
    · exact absurd (congrArg Prod.fst heq) (hfresh (kid, key') hk')
    · exact absurd (congrArg Prod.fst heq') (hfresh (kid, key) hk)
    · exact h.functional kid key key' hk hk'
  · obtain ⟨key, hkey, hpub, hpair⟩ := h.kid kid hk
    exact ⟨key, hkey, hpub, List.mem_cons_of_mem _ hpair⟩

theorem Sane.put (h : Sane w) {role : Role} {t : Token} (hnone : w.apiSecrets role = none) :
    Sane { w with apiSecrets := Function.update w.apiSecrets role (some t) } := by
  refine ⟨h.ref, h.rows, h.halves, h.issued, h.settled, h.functional, h.kid, fun role' t' ht' => ?_, h.nodup⟩
  obtain ⟨hkind, hsecret, hrest⟩ := h.keys role' t' ht'
  refine ⟨hkind, (Function.update_of_ne ?_ ..).trans hsecret, hrest⟩
  rintro rfl
  cases hnone.symm.trans hsecret

theorem Sane.insert (h : Sane w) {role : Role} {t : Token} (hkind : role ∈ kinds) (hsecret : w.apiSecrets role = some t)
    (hrole : t.claims.role = role) (hkid : w.secrets .jwtKid = some t.kid) (hkey : w.secrets .jwtPrivateKey = some t.key) :
    Sane { w with apiKeys := w.apiKeys.insert (role, t) } := by
  refine ⟨h.ref, h.rows, h.halves, h.issued, h.settled, h.functional, h.kid, fun role' t' ht' => ?_, h.nodup.insert⟩
  rcases List.mem_insert_iff.mp ht' with heq | ht'
  · cases heq
    exact ⟨hkind, hsecret, hrole, hkid, hkey⟩
  · exact h.keys role' t' ht'

theorem stable_eq {Q : World → Prop} : ∀ w w', Sane w → w' = w → Q w → Q w' := fun _ _ _ heq h => heq ▸ h

/-- What the loop over the kinds has when it comes to these. -/
structure Minting (key : Key) (kid : Kid) (existing roles : List Role) (w : World) : Prop where
  key : w.secrets .jwtPrivateKey = some key
  kid : w.secrets .jwtKid = some kid
  existing : ∀ role ∈ existing, role ∈ w.apiKeys.map Prod.fst
  minted : ∀ role ∈ kinds, role ∉ roles → role ∈ w.apiKeys.map Prod.fst

theorem carries_mint {roles : List Role} (hroles : ∀ role ∈ roles, role ∈ kinds) (hnew : StepName.generateApiKeys ∉ done) :
    contract.Carries (perform apply) (contract.Posts () done) (mint ref key kid existing roles)
      (Minting key kid existing roles) (contract.Posts () (done ++ [.generateApiKeys])) := by
  have hkeep : ∀ w, contract.Posts () done w := fun w name hname heq => absurd (heq ▸ hname) hnew
  induction roles with
  | nil => exact fun w _ h name _ _ role hrole => h.minted role hrole List.not_mem_nil
  | cons role roles ih =>
      have hrest := ih fun role' hrole' => hroles role' (List.mem_cons_of_mem _ hrole')
      have hmore : ∀ {w w' : World}, Minting key kid existing (role :: roles) w → w'.secrets = w.secrets →
          (∀ role' ∈ w.apiKeys.map Prod.fst, role' ∈ w'.apiKeys.map Prod.fst) → role ∈ w'.apiKeys.map Prod.fst →
          Minting key kid existing roles w' := by
        intro w w' h hsecrets hkeys hrole
        refine ⟨hsecrets ▸ h.key, hsecrets ▸ h.kid, fun role' hrole' => hkeys _ (h.existing role' hrole'),
          fun role' hkind hrole' => ?_⟩
        by_cases heq : role' = role
        · exact heq ▸ hrole
        · exact hkeys _ (h.minted role' hkind (by simp [heq, hrole']))
      unfold mint
      split
      next hexisting => exact hrest.mono fun w _ h => hmore h rfl (fun _ => id) (h.existing role hexisting)
      next hmissing =>
        refine carries_attempt (fun _ => Minting key kid existing (role :: roles)) (fun w _ => hkeep w)
          (fun chance w r w' hI hQ _ happly => ?_) (fun _ => stable_eq) fun now => ?_
        · cases happly
          exact ⟨hI, hkeep _, hQ⟩
        dsimp only
        refine carries_attempt (fun _ w => Minting key kid existing (role :: roles) w ∧ w.apiSecrets role =
            some ⟨key, kid, ref, role, now / 1000, now / 1000 + SigningKeys.projectKeyTtl⟩) (fun w _ => hkeep w)
          (fun chance w r w' hI hQ hlegal happly => ?_) (fun _ => stable_eq) fun _ => ?_
        · have hnone : w.apiSecrets role = none := by simpa [contract, legal] using hlegal
          simp only [apply, hnone, Option.isSome_none, Bool.false_eq_true, if_false] at happly
          cases happly
          exact ⟨hI.put hnone, hkeep _, ⟨hQ.key, hQ.kid, hQ.existing, hQ.minted⟩, Function.update_self ..⟩
        refine carries_attempt (fun _ => Minting key kid existing roles) (fun w _ => hkeep w)
          (fun chance w r w' hI hQ _ happly => ?_) (fun _ => stable_eq) fun _ => hrest
        cases happly
        refine ⟨hI.insert (hroles role List.mem_cons_self) hQ.2 rfl hQ.1.kid hQ.1.key, hkeep _, hmore hQ.1 rfl ?_ ?_⟩
        · intro role' hrole'
          obtain ⟨row, hrow, rfl⟩ := List.mem_map.mp hrole'
          exact List.mem_map_of_mem (List.mem_insert_of_mem hrow)
        · exact List.mem_map.mpr ⟨_, List.mem_insert_self, rfl⟩

theorem minted_of_length (h : Sane w) (hlength : 2 ≤ (w.apiKeys.map Prod.fst).length) : minted w := by
  have hnodup : (w.apiKeys.map Prod.fst).Nodup := by
    refine List.Nodup.map_on (fun row hrow row' hrow' heq => ?_) h.nodup
    obtain ⟨-, hsecret, -⟩ := h.keys row.1 row.2 hrow
    obtain ⟨-, hsecret', -⟩ := h.keys row'.1 row'.2 hrow'
    rw [heq] at hsecret
    exact Prod.ext heq (Option.some.inj (hsecret.symm.trans hsecret'))
  have hsubset : w.apiKeys.map Prod.fst ⊆ kinds := by
    intro role hrole
    obtain ⟨row, hrow, rfl⟩ := List.mem_map.mp hrole
    exact (h.keys row.1 row.2 hrow).1
  have hperm := (List.subperm_of_subset hnodup hsubset).perm_of_length_le hlength
  exact fun role hrole => hperm.symm.subset hrole

/-- The halves of the new keypair that are stored, before its kid is. -/
def Loose (existing : List Role) (key pub : Option Key) (w : World) : Prop :=
  w.secrets .jwtPrivateKey = key ∧ w.secrets .jwtPublicKey = pub ∧ w.secrets .jwtKid = none ∧
    existing = w.apiKeys.map Prod.fst

theorem carries_generate (hnew : StepName.generateApiKeys ∉ done) :
    contract.Carries (perform apply) (contract.Posts () done) generateApiKeys (contract.Posts () done)
      (contract.Posts () (done ++ [.generateApiKeys])) := by
  have hkeep : ∀ w, contract.Posts () done w := fun w name hname heq => absurd (heq ▸ hname) hnew
  have hkinds : ∀ role ∈ [Role.anon, .serviceRole], role ∈ kinds := fun _ h => h
  refine carries_look (fun _ _ => True) (fun w _ => hkeep w)
    (fun chance w r w' _ _ happly => by cases happly; exact ⟨rfl, trivial⟩) (fun _ => stable_eq) fun found => ?_
  cases found with
  | none => trivial
  | some ref =>
  refine carries_look (fun existing w => existing = w.apiKeys.map Prod.fst) (fun w _ => hkeep w)
    (fun chance w r w' _ _ happly => by cases happly; exact ⟨rfl, rfl⟩) (fun _ => stable_eq) fun existing => ?_
  split
  next hlength =>
    intro w hI hw name _ _
    exact minted_of_length hI (hw.2 ▸ hlength)
  refine carries_look (fun key w => w.secrets .jwtPrivateKey = key) (fun w _ => hkeep w)
    (fun chance w r w' _ _ happly => by cases happly; exact ⟨rfl, rfl⟩) (fun _ => stable_eq) fun key => ?_
  refine carries_look (fun kid w => w.secrets .jwtKid = kid) (fun w _ => hkeep w)
    (fun chance w r w' _ _ happly => by cases happly; exact ⟨rfl, rfl⟩) (fun _ => stable_eq) fun kid => ?_
  split
  next key kid =>
    refine (carries_mint hkinds hnew).mono fun w _ h => ?_
    obtain ⟨⟨⟨-, hexisting⟩, hkey⟩, hkid⟩ := h
    exact ⟨hkey, hkid, fun role hrole => hexisting ▸ hrole, fun role hrole hnot => absurd hrole hnot⟩
  next hpartial =>
    refine carries_attempt (fun pair w => Loose existing none none w ∧ pair ∈ w.generated) (fun w _ => hkeep w)
      (fun chance w pair w' hI hQ hlegal happly => ?_) (fun _ => stable_eq) fun pair => ?_
    · have hnone : ∀ name ∈ SigningKeys.signing, w.secrets name = none := by simpa [contract, legal] using hlegal
      simp only [apply] at happly
      split at happly <;> cases happly
      next hfresh =>
        refine ⟨hI.generated fun pair' hpair' => by simpa using List.all_eq_true.mp hfresh pair' hpair', hkeep _, ?_,
          List.mem_cons_self⟩
        exact ⟨hnone _ (by decide), hnone _ (by decide), hnone _ (by decide), hQ.1.1.2⟩
    refine carries_attempt (fun _ w => Loose existing (some pair.2) none w ∧ pair ∈ w.generated) (fun w _ => hkeep w)
      (fun chance w r w' hI hQ _ happly => ?_) (fun _ => stable_eq) fun _ => ?_
    · obtain ⟨⟨hkey, hpub, hkid, hexisting⟩, hpair⟩ := hQ
      simp only [apply, SigningKeys.exec, hkey, Option.isSome_none, Bool.false_eq_true, if_false] at happly
      cases happly
      refine ⟨hI.secret (.inl rfl) hkid, hkeep _, ⟨KeyRotation.setSecret_self, ?_, ?_, hexisting⟩, hpair⟩
      · exact (KeyRotation.setSecret_of_ne (by simp)).trans hpub
      · exact (KeyRotation.setSecret_of_ne (by simp)).trans hkid
    refine carries_attempt (fun _ w => Loose existing (some pair.2) (some pair.2) w ∧ pair ∈ w.generated) (fun w _ => hkeep w)
      (fun chance w r w' hI hQ _ happly => ?_) (fun _ => stable_eq) fun _ => ?_
    · obtain ⟨⟨hkey, hpub, hkid, hexisting⟩, hpair⟩ := hQ
      simp only [apply, SigningKeys.exec, hpub, Option.isSome_none, Bool.false_eq_true, if_false] at happly
      cases happly
      refine ⟨hI.secret (.inr rfl) hkid, hkeep _, ⟨?_, KeyRotation.setSecret_self, ?_, hexisting⟩, hpair⟩
      · exact (KeyRotation.setSecret_of_ne (by simp)).trans hkey
      · exact (KeyRotation.setSecret_of_ne (by simp)).trans hkid
    refine carries_attempt (fun _ w => Minting pair.2 pair.1 existing [.anon, .serviceRole] w) (fun w _ => hkeep w)
      (fun chance w r w' hI hQ _ happly => ?_) (fun _ => stable_eq) fun _ => carries_mint hkinds hnew
    obtain ⟨⟨hkey, hpub, hkid, hexisting⟩, hpair⟩ := hQ
    simp only [apply, SigningKeys.exec, hkid, Option.isSome_none, Bool.false_eq_true, if_false] at happly
    cases happly
    refine ⟨hI.storeKid hkid hkey hpub hpair, hkeep _, ?_, KeyRotation.setSecret_self, fun role hrole => hexisting ▸ hrole,
      fun role hrole hnot => absurd hrole hnot⟩
    exact (KeyRotation.setSecret_of_ne (by simp)).trans hkey

theorem kept : contract.Kept provisioning where
  refl _ := rfl
  post _ _ _ _ _ heq h := heq ▸ h
  step kind name _ done _ hnew := by
    by_cases hname : name = .generateApiKeys
    · subst hname
      exact carries_generate hnew
    · have hbody : body name = attempt .elsewhere fun _ => .ok := by
        cases name <;> first | rfl | exact absurd rfl hname
      simp only [provisioning, hbody]
      refine carries_look (fun _ _ => True) (fun _ => id) (fun _ w r w' _ _ happly => by cases happly; exact ⟨rfl, trivial⟩)
        (fun _ => stable_eq) fun _ w _ h n hn heq => ?_
      rcases List.mem_append.mp hn with hn | hn
      · exact h.1 n hn heq
      · exact absurd ((List.mem_singleton.mp hn).symm.trans heq) hname
  succeed jobs w j job _ _ hposts _ _ _ _ := hposts .generateApiKeys (by simp [provisioning, steps]) rfl
  fail jobs w j job _ hjob _ _ hlength row hrow hstate := by
    obtain rfl := Contract.eq_of_single hjob hlength hrow
    cases hstate
  other := ⟨fun _ => False, nofun, fun _ => trivial, fun _ _ _ _ _ hforeign => hforeign.elim⟩
  change _ x := nomatch x

/-- A published key of the kid of the token is the one that has signed it. -/
theorem accepted_alive {t : Token} {now : Nat} (hpub : w.secrets .jwtPublicKey = some t.key)
    (hkid : w.secrets .jwtKid = some t.kid) (hrows : ∀ row ∈ w.rows, row.kid ≠ t.kid) (hnow : KeyRotation.Alive now t) :
    SigningKeys.accepted w now t = true := by
  have hactive : w.active = [⟨t.kid, t.key, .active⟩] := by simp only [SigningKeys.Store.active, hpub, hkid]
  simp only [SigningKeys.accepted, Bool.and_eq_true, List.any_eq_true, List.all_eq_true, Bool.or_eq_true, decide_eq_true_eq]
  constructor
  · exact ⟨⟨t.kid, t.key, .active⟩, KeyRotation.mem_publishedKeys.mpr (.inl (by simp [hactive])), rfl⟩
  · intro k hk
    rcases KeyRotation.mem_publishedKeys.mp hk with hk | ⟨row, hrow, -, rfl⟩
    · rw [hactive] at hk
      obtain rfl := List.mem_singleton.mp hk
      exact .inr (KeyRotation.verify_alive rfl rfl hnow)
    · exact .inl (hrows row hrow)

theorem complete_minted (h : Sane w) (hminted : minted w) : Complete w ∧ KeyRotation.Inv w ∧
    ∀ role ∈ kinds, (w.apiKeys.filter fun row => row.1 = role).length = 1 := by
  have htoken : ∀ role ∈ kinds, ∃ t, (role, t) ∈ w.apiKeys := by
    intro role hrole
    obtain ⟨⟨_, t⟩, hrow, rfl⟩ := List.mem_map.mp (hminted role hrole)
    exact ⟨t, hrow⟩
  have hsigned : ∀ role t, (role, t) ∈ w.apiKeys → w.secrets .jwtPublicKey = some t.key := by
    intro role t ht
    obtain ⟨-, -, -, hkid, hkey⟩ := h.keys role t ht
    obtain ⟨key, hkey', hpub, -⟩ := h.kid t.kid hkid
    exact (Option.some.inj (hkey.symm.trans hkey')) ▸ hpub
  obtain ⟨t, ht⟩ := htoken .anon (by decide)
  obtain ⟨-, -, -, hkid, -⟩ := h.keys .anon t ht
  obtain ⟨key, hkey, hpub, hpair⟩ := h.kid t.kid hkid
  refine ⟨⟨⟨t.kid, key, hkey, hpub, hkid, hpair⟩, fun role hrole => ?_⟩, ?_, fun role hrole => ?_⟩
  · obtain ⟨t, ht⟩ := htoken role hrole
    obtain ⟨-, hsecret, hclaim, hkid, -⟩ := h.keys role t ht
    refine ⟨t, hsecret, List.count_eq_one_of_mem h.nodup ht, hclaim, hsigned role t ht, fun now hnow => ?_⟩
    exact accepted_alive (hsigned role t ht) hkid (by simp [h.rows]) hnow
  · refine ⟨h.ref, h.functional, by simp [h.rows], fun kid key hk => ?_, by simp [h.rows],
      ⟨key, key, t.kid, hkey, hpub, hkid, ?_⟩, by simp [h.issued]⟩
    · cases (h.halves kid).symm.trans hk
    · rw [KeyRotation.Signing, if_neg (by simp [h.settled])]
      exact ⟨rfl, hpair⟩
  · obtain ⟨t, ht⟩ := htoken role hrole
    have hall : ∀ row ∈ w.apiKeys.filter (fun row => row.1 = role), row = (role, t) := by
      rintro ⟨role', t'⟩ hrow
      obtain ⟨hmem, heq⟩ := List.mem_filter.mp hrow
      obtain rfl : role' = role := by simpa using heq
      rw [Option.some.inj ((h.keys role' t' hmem).2.1.symm.trans (h.keys role' t ht).2.1)]
    have hmem : (role, t) ∈ w.apiKeys.filter fun row => row.1 = role := List.mem_filter.mpr ⟨ht, by simp⟩
    have hreplicate := List.eq_replicate_of_mem hall
    have hnodup := h.nodup.filter fun row => row.1 = role
    rw [hreplicate, List.nodup_replicate] at hnodup
    exact Nat.le_antisymm hnodup (List.length_pos_of_mem hmem)

/-- The rows of the tokens are kept, each one once. -/
theorem exec_apiKeys {c : Client} {chance : SigningKeys.Chance} {o : SigningKeys.Op} {w' : World} {r : SigningKeys.Reply o}
    {pair : Kid × Key} {rows : List (Role × Token)} (h : w.apiKeys.Nodup ∧ pair ∈ w.generated ∧ rows ⊆ w.apiKeys)
    (hexec : SigningKeys.exec c chance o w = some (r, w')) : w'.apiKeys.Nodup ∧ pair ∈ w'.generated ∧ rows ⊆ w'.apiKeys := by
  obtain ⟨hnodup, hpair, hrows⟩ := h
  cases o with
  | insertApiKey role t =>
      cases hexec
      exact ⟨hnodup.insert, hpair, fun _ hrow => List.mem_insert_of_mem (hrows hrow)⟩
  | put name value =>
      simp only [SigningKeys.exec] at hexec
      split at hexec <;> cases hexec
      · exact ⟨hnodup, hpair, hrows⟩
      · cases name <;> first | exact ⟨hnodup, hpair, hrows⟩ | exact ⟨hnodup, List.mem_cons_of_mem _ hpair, hrows⟩
  | replace name value =>
      cases name <;> cases hexec <;> exact ⟨hnodup, hpair, hrows⟩
  | insertNext | insertRetiring =>
      simp only [SigningKeys.exec] at hexec
      split at hexec <;> cases hexec <;> exact ⟨hnodup, hpair, hrows⟩
  | next | row | get | ref | clock | generate | deleteKey | setRetired | replaceApiKey | issue =>
      cases hexec
      exact ⟨hnodup, hpair, hrows⟩

theorem complete_cutOver {row : SigningKeys.SigningKey} {oldKid : Kid} (h : KeyRotation.CutOver oldKid row w)
    (hnodup : w.apiKeys.Nodup) (hpair : (row.kid, row.publicKey) ∈ w.generated) : Complete w := by
  obtain ⟨hkey, hpub, hkid⟩ := h.keys
  refine ⟨⟨row.kid, row.publicKey, hkey, hpub, hkid, hpair⟩, fun role hrole => ?_⟩
  obtain ⟨t, hsecret, hmem, htkid, htkey, hclaim⟩ := h.minted role hrole
  refine ⟨t, hsecret, List.count_eq_one_of_mem hnodup hmem, hclaim, htkey ▸ hpub, fun now hnow => ?_⟩
  exact accepted_alive (htkey ▸ hpub) (htkid ▸ hkid) (fun row' hrow' => htkid ▸ h.deleted row' hrow') hnow

/-- A cut-over that goes through re-mints the tokens, and keeps the rows of the old ones. -/
theorem finishes_cutOver {window : Nat} {c : Client} {row : SigningKeys.SigningKey} {oldKid : Kid}
    {legal : SigningKeys.Chance → Prop} (hI : KeyRotation.Inv w) (hnodup : w.apiKeys.Nodup) (hrow : w.nextKey = some row)
    (hkid : w.secrets .jwtKid = some oldKid) (names : SigningKeys.Order) (opts : SigningKeys.Options)
    (hlegal : ∀ chance, legal chance → opts.force = true ∨ row.publishedAt + opts.minAge ≤ chance.now) :
    (SigningKeys.rotation window).Finishes c legal
      (fun w' => KeyRotation.CutOver oldKid row w' ∧ Complete w' ∧ w.apiKeys ⊆ w'.apiKeys)
      (SigningKeys.cutOver window names opts) w := by
  have hpair := hI.rows row (List.mem_of_find?_eq_some hrow)
  refine ((KeyRotation.finishes_cutOver hI hrow hkid names opts hlegal).and
    (J := fun w' => w'.apiKeys.Nodup ∧ (row.kid, row.publicKey) ∈ w'.generated ∧ w.apiKeys ⊆ w'.apiKeys)
    ⟨hnodup, hpair, fun _ => id⟩ fun chance o w r w' hJ hexec => exec_apiKeys hJ hexec).mono fun w' hw' => ?_
  obtain ⟨hcut, hnodup', hpair', hrows⟩ := hw'
  exact ⟨hcut, complete_cutOver hcut hnodup' hpair', hrows⟩

/-- A project that is being provisioned and has no keys yet. -/
structure Unprovisioned (s : Store Unit StepName World) (maxAttempts : Nat) : Prop where
  jobs : s.jobs = [⟨(), .pending, 0, maxAttempts, []⟩]
  working : ∀ c, s.working c = none
  ref : s.world.ref ≠ none
  secrets : ∀ name, s.world.secrets name = none
  rest : s.world.rows = [] ∧ s.world.apiKeys = [] ∧ s.world.swapping = false ∧ s.world.generated = [] ∧ s.world.issued = []

variable {s : Store Unit StepName World} {maxAttempts : Nat}
  {g : Config Worker (Store Unit StepName World) (Op StepName Act Empty) (Reply Unit StepName fun a => Option (Answer a))}

theorem Unprovisioned.good (h : Unprovisioned s maxAttempts) : contract.Good s := by
  obtain ⟨hrows, hkeys, hsettled, hgenerated, hissued⟩ := h.rest
  refine ⟨⟨h.ref, hrows, fun kid => h.secrets _, hissued, hsettled, by simp [hgenerated], fun kid hk => ?_, by simp [hkeys],
    by simp [hkeys]⟩, fun j job hj _ => ?_, fun j j' job job' hj hj' _ _ => ?_, by simp [h.working], by simp [h.working],
    fun _ _ job hjob hstate => ?_⟩
  · cases (h.secrets _).symm.trans hk
  · rw [h.jobs, List.getElem?_singleton] at hj
    split at hj <;> cases hj
    exact fun _ hname => absurd hname List.not_mem_nil
  · rw [h.jobs, List.getElem?_singleton] at hj hj'
    split at hj <;> split at hj' <;> simp_all
  · rw [h.jobs] at hjob
    obtain rfl := List.mem_singleton.mp hjob
    cases hstate

/-- A provisioning job that completes without having found a half-stored keypair or a token without its row leaves one
keypair, and one row a kind. A cut-over of the signing key that goes through re-mints the tokens: the keypair is the new
one, the tokens that are shown are signed with it and have a row each, and the rows of the old ones stay. -/
theorem api_keys_minted (hs : Unprovisioned s maxAttempts)
    (h : provisioning.protocol.Reachable (Protocol.Statements contract.Allowed) s g) :
    ((∃ job ∈ g.store.jobs, job.state = .succeeded) → Complete g.store.world ∧ KeyRotation.Inv g.store.world ∧
      ∀ role ∈ kinds, (g.store.world.apiKeys.filter fun row => row.1 = role).length = 1) ∧
    ∀ window c w row oldKid (legal : SigningKeys.Chance → Prop) (names : SigningKeys.Order) (opts : SigningKeys.Options),
      KeyRotation.Inv w → w.apiKeys.Nodup → w.nextKey = some row → w.secrets .jwtKid = some oldKid →
      (∀ chance, legal chance → opts.force = true ∨ row.publishedAt + opts.minAge ≤ chance.now) →
      (SigningKeys.rotation window).Finishes c legal (fun w' => Complete w' ∧ w.apiKeys ⊆ w'.apiKeys)
        (SigningKeys.cutOver window names opts) w := by
  have hgood := Contract.good_of_reachable kept hs.good hs.working h
  refine ⟨fun ⟨job, hjob, hstate⟩ => ?_, fun window c w row oldKid legal names opts hI hnodup hrow hkid hlegal => ?_⟩
  · have hlength : g.store.jobs.length = 1 := length_reachable (fun x => nomatch x) (congrArg List.length hs.jobs) h
    refine complete_minted hgood.world (hgood.rest ?_ hlength job hjob hstate)
    obtain ⟨only, honly⟩ := List.length_eq_one_iff.mp hlength
    rw [honly] at hjob
    obtain rfl := List.mem_singleton.mp hjob
    simp [Sagas.Store.idle, honly, Job.unfinished, hstate]
  · exact (finishes_cutOver hI hnodup hrow hkid names opts hlegal).mono fun w' hw' => hw'.2

section Examples

/-- A project with its first job. -/
def fresh : Store Unit StepName World where
  jobs := [⟨(), .pending, 0, 5, []⟩]
  stale := fun _ => false
  working := fun _ => none
  world := ⟨some 1, fun _ => none, [], fun _ => none, [], 0, false, [], []⟩

theorem unprovisioned_fresh : Unprovisioned fresh 5 :=
  ⟨rfl, fun _ => rfl, by decide, fun _ => rfl, rfl, rfl, rfl, rfl, rfl⟩

abbrev Run := List (Move Worker (Chance (Outcome × SigningKeys.Chance)) (Request Empty Empty))

/-- Moves of a worker at a time, with the keypair that it generates. -/
def run (c : Worker) (pair : Kid × Key) (outcome : Outcome) (n : Nat) : Run :=
  List.replicate n (.run c ⟨(outcome, ⟨5000, pair⟩), false⟩)

def watch : Worker → Op StepName Act Empty → Store Unit StepName World → Bool :=
  Contract.watched legal (fun _ _ => true) fun _ _ _ => true

theorem allowed_watch (g : Config Worker (Store Unit StepName World) (Op StepName Act Empty)
      (Reply Unit StepName fun a => Option (Answer a))) (m : Move Worker (Chance (Outcome × SigningKeys.Chance)) (Request Empty Empty))
    (hm : Protocol.watch watch g m = true) : Protocol.Statements contract.Allowed g m :=
  Protocol.statements_watch (Contract.allowed_watched (fun _ _ h => h) (fun x _ _ => nomatch x) fun _ _ _ _ => trivial) g m hm

/-- The project with a keypair that has been published and does not sign yet, and the tokens of the first one. -/
def rotating : World where
  ref := some 1
  secrets
    | .jwtPrivateKey | .jwtPublicKey | .jwtKid => some 1
    | .privateKeyName kid => if kid = 2 then some 2 else none
  rows := [⟨2, 2, .next, 0, none⟩]
  apiSecrets role := some ⟨1, 1, ⟨1, role, 5, 6⟩⟩
  apiKeys := kinds.map fun role => (role, ⟨1, 1, ⟨1, role, 5, 6⟩⟩)
  latest := 0
  swapping := false
  generated := [(2, 2), (1, 1)]
  issued := []

def inOrder : SigningKeys.Order := ⟨SigningKeys.signing, .refl _⟩

def forced : SigningKeys.Options := ⟨none, true⟩

theorem inv_rotating : KeyRotation.Inv rotating where
  ref := by decide
  functional kid key key' h h' := by
    simp only [rotating, List.mem_cons, Prod.mk.injEq, List.not_mem_nil, or_false] at h h'
    rcases h with ⟨rfl, rfl⟩ | ⟨rfl, rfl⟩
    · exact (h'.resolve_right fun h => absurd h.1 (by decide)).2.symm
    · exact (h'.resolve_left fun h => absurd h.1 (by decide)).2.symm
  rows := by decide
  halves kid key h := by
    simp only [rotating] at h
    split at h <;> cases h
    next heq =>
      rw [heq]
      exact List.mem_cons_self
  next := by decide
  keys := ⟨1, 1, 1, rfl, rfl, rfl, rfl, by decide⟩
  issued := by simp [rotating]

/-- The first attempt fails when it looks for the project, and the second one completes. -/
theorem api_keys_minted_retried :
    (∃ g, provisioning.protocol.Reachable (Protocol.Statements contract.Allowed) fresh g ∧ Complete g.store.world ∧
      ∀ role ∈ kinds, (g.store.world.apiKeys.filter fun row => row.1 = role).length = 1) ∧
    (SigningKeys.rotation 10).Finishes 0 (fun _ => True) (fun w' => Complete w' ∧ rotating.apiKeys ⊆ w'.apiKeys)
      (SigningKeys.cutOver 10 inOrder forced) rotating := by
  have h := Protocol.Reachable.start.replay (P := provisioning.protocol) (s := fresh) allowed_watch
    (.arrive 0 (.execute 0) :: run 0 (1, 1) .done 19 ++ run 0 (1, 1) .failed 1 ++ run 0 (1, 1) .done 1 ++
      .arrive 0 (.execute 0) :: run 0 (1, 1) .done 29) rfl
  obtain ⟨hcomplete, -, hrows⟩ := (api_keys_minted unprovisioned_fresh h).1 ⟨_, List.mem_cons_self, rfl⟩
  exact ⟨⟨_, h, hcomplete, hrows⟩, (api_keys_minted unprovisioned_fresh h).2 10 0 rotating _ 1 _ _ _ inv_rotating (by decide) rfl
    rfl fun _ _ => .inl rfl⟩

/-- A worker dies after it has stored a private key, and the next one stores the public half of another pair beside it.
And a re-mint leaves two rows of a kind. -/
theorem not_api_keys_minted :
    (¬ ∀ g, provisioning.protocol.Reachable (fun _ _ => True) fresh g →
      (∃ job ∈ g.store.jobs, job.state = .succeeded) → Complete g.store.world) ∧
    ¬ ∀ w w', KeyRotation.Inv w → (∀ role ∈ kinds, (w.apiKeys.filter fun row => row.1 = role).length = 1) →
      (SigningKeys.rotation 10).Ends 0 (SigningKeys.cutOver 10 inOrder forced) w w' →
        ∀ role ∈ kinds, (w'.apiKeys.filter fun row => row.1 = role).length = 1 := by
  constructor
  · intro h
    have hrun := Protocol.Reachable.start.free (P := provisioning.protocol) (s := fresh)
      (.arrive 0 (.execute 0) :: run 0 (1, 1) .done 25 ++ .crash 0 :: .arrive 9 (.beat 0 true) :: run 9 (1, 1) .done 1 ++
        .arrive 1 (.execute 0) :: run 1 (2, 2) .done 29) rfl
    obtain ⟨kid, key, hkey, hpub, -⟩ := (h _ hrun ⟨_, List.mem_cons_self, rfl⟩).pair
    cases hkey
    cases hpub
  · intro h
    have hfinishes : (SigningKeys.rotation 10).Finishes 0 (fun _ => True) _
        (SigningKeys.cutOver 10 inOrder forced) rotating :=
      finishes_cutOver inv_rotating (by decide) rfl rfl inOrder forced fun _ _ => .inl rfl
    obtain ⟨w', hends, hcut, -, hrows⟩ := hfinishes.ends ⟨0, (0, 0)⟩ trivial
    obtain ⟨only, honly⟩ := List.length_eq_one_iff.mp (h rotating w' inv_rotating (by decide) hends .anon (by decide))
    obtain ⟨t, -, hnew, -, hkey, -⟩ := hcut.minted .anon (by decide)
    have hsame : ∀ t', (Role.anon, t') ∈ w'.apiKeys → (Role.anon, t') = only := by
      intro t' ht'
      refine List.mem_singleton.mp (honly ▸ List.mem_filter.mpr ⟨ht', by simp⟩)
    have hold := hsame _ (hrows (List.mem_cons_self (a := ((Role.anon, ⟨1, 1, ⟨1, .anon, 5, 6⟩⟩) : Role × Token))))
    obtain rfl : t = ⟨1, 1, ⟨1, .anon, 5, 6⟩⟩ := congrArg Prod.snd ((hsame t hnew).trans hold.symm)
    cases hkey

end Examples

end Corebase.KeyMinting
