import Corebase.JsonRoundTrip
import Corebase.Base64Url
import Corebase.ToNumber
import Mathlib.Logic.Equiv.List

namespace Corebase.Passwords

open JsNumber Json Jwt

structure ScryptOptions where
  N : Nat
  r : Nat
  p : Nat
  maxmem : Nat
  deriving DecidableEq

structure Cost where
  N : Nat
  r : Nat
  p : Nat
  deriving DecidableEq

def SCRYPT_PARAMS : Cost := ⟨65536, 8, 2⟩

def KEY_BYTES : Nat := 32

/-- Headroom over the exact need. -/
def Cost.maxmem (c : Cost) : Nat := 128 * c.N * c.r * 2

def MAXMEM : Nat := SCRYPT_PARAMS.maxmem

def ALGORITHM : Str := str "scrypt".toList

def MAX_PASSWORD_LENGTH : Nat := 1024

def dollar : Nat := '$'.toNat

/-- Made with parameters below the current ones. -/
def Cost.weaker (c : Cost) : Bool :=
  c.N < SCRYPT_PARAMS.N || c.r < SCRYPT_PARAMS.r || c.p < SCRYPT_PARAMS.p

/-- Any other parameters are refused as implausible. -/
def Cost.isPlausible (c : Cost) : Bool := 1024 ≤ c.N && 1 ≤ c.r && 1 ≤ c.p

structure ParsedHash where
  cost : Cost
  salt : List Nat
  key : List Nat
  deriving DecidableEq

/-- Nothing where the format is refused. -/
def parse (stored : Str) : Option ParsedHash :=
  match stored.splitOn dollar with
  | [algorithm, N, r, p, salt, key] =>
      if algorithm ≠ ALGORITHM then none
      else
        match isInteger (toNumber N), isInteger (toNumber r), isInteger (toNumber p) with
        | some N, some r, some p =>
            if N < 1024 ∨ r < 1 ∨ p < 1 then none
            else some ⟨⟨N.toNat, r.toNat, p.toNat⟩, unb64u salt, unb64u key⟩
        | _, _, _ => none
  | _ => none

structure VerifyResult where
  ok : Bool
  needsRehash : Bool
  deriving DecidableEq

def optionsOf (h : ParsedHash) : ScryptOptions :=
  ⟨h.cost.N, h.cost.r, h.cost.p, max MAXMEM h.cost.maxmem⟩

section

variable (scrypt : List Nat → List Nat → Nat → ScryptOptions → Option (List Nat)) (nfkc : Str → Str)

def derived (password : Str) (salt : List Nat) (length : Nat) (o : ScryptOptions) : Option (List Nat) :=
  scrypt (encode (nfkc password)) salt length o

/-- The hash with the cost of some version of the code and the salt that was drawn. -/
def hashWith (c : Cost) (password : Str) (salt : List Nat) (min : Nat) : Option Str :=
  if password.length < min ∨ MAX_PASSWORD_LENGTH < password.length then none
  else
    (derived scrypt nfkc password salt KEY_BYTES ⟨c.N, c.r, c.p, c.maxmem⟩).map fun key =>
      [dollar].intercalate [ALGORITHM, str (Nat.toDigits 10 c.N), str (Nat.toDigits 10 c.r),
        str (Nat.toDigits 10 c.p), b64url salt, b64url key]

def hashPassword (password : Str) (salt : List Nat) (min : Nat) : Option Str :=
  hashWith scrypt nfkc SCRYPT_PARAMS password salt min

def verifyPassword (password stored : Str) : Option VerifyResult := do
  let h ← parse stored
  let key ← derived scrypt nfkc password h.salt h.key.length (optionsOf h)
  let ok := key.length = h.key.length && key = h.key
  return ⟨ok, ok && h.cost.weaker⟩

def Verifies (password stored : Str) : Prop :=
  (verifyPassword scrypt nfkc password stored).any (·.ok) = true

end

/-- What is documented of scrypt: how much it returns, that its parameters alone decide whether it refuses,
and that the memory bound does nothing else. -/
structure Documented (scrypt : List Nat → List Nat → Nat → ScryptOptions → Option (List Nat))
    (accepts : Nat → ScryptOptions → Bool) : Prop where
  length : ∀ password salt n o key, scrypt password salt n o = some key → key.length = n
  refuses : ∀ password salt n o, (scrypt password salt n o).isSome = accepts n o
  memory : ∀ password salt n o m, accepts n o = true → o.maxmem ≤ m →
    scrypt password salt n { o with maxmem := m } = scrypt password salt n o

/-- The output consists of bytes. -/
def Bytes (scrypt : List Nat → List Nat → Nat → ScryptOptions → Option (List Nat)) : Prop :=
  ∀ password salt n o key, scrypt password salt n o = some key → ∀ b ∈ key, b < 256

/-- A non-empty output is that of one password, one salt and one choice of parameters. -/
def Injective (scrypt : List Nat → List Nat → Nat → ScryptOptions → Option (List Nat)) : Prop :=
  ∀ password salt n o password' salt' n' o' key, scrypt password salt n o = some key →
    scrypt password' salt' n' o' = some key → key ≠ [] →
    password = password' ∧ salt = salt' ∧ o.N = o'.N ∧ o.r = o'.r ∧ o.p = o'.p

/-- No surrogate is alone. -/
def Unicode (s : Str) : Prop := IsString s ∧ wellFormed false s = true

instance (s : Str) : Decidable (Unicode s) := inferInstanceAs (Decidable (_ ∧ _))

theorem encode_inj {s t : Str} (hs : Unicode s) (ht : Unicode t) (h : encode s = encode t) : s = t := by
  rw [← text_encode hs.1 hs.2, ← text_encode ht.1 ht.2, h]

theorem unb64u_part {s : Str} {bytes : List Nat} (h : ∀ b ∈ bytes, b < 256) (hs : s = b64url bytes) :
    unb64u s = bytes ∧ dollar ∉ s := by
  subst hs
  refine ⟨unb64u_b64url h, fun hd => ?_⟩
  have hne : ∀ u ∈ b64url bytes, u ≠ dollar := forall_b64url (by decide) h
  exact hne _ hd rfl

theorem digits_part {n : Nat} (h : n < 2 ^ 53) :
    isInteger (toNumber (str (Nat.toDigits 10 n))) = some (n : Int) ∧ dollar ∉ str (Nat.toDigits 10 n) := by
  constructor
  · rw [toNumber_digits h]
    simp [isInteger]
  · intro hd
    have := digit_unit hd
    simp [dollar] at this

/-- A hash that was written is read as it was made, if its parameters are plausible. -/
theorem parse_hash {c : Cost} (hN : c.N < 2 ^ 53) (hr : c.r < 2 ^ 53) (hp : c.p < 2 ^ 53) {salt key : List Nat}
    (hsalt : ∀ b ∈ salt, b < 256) (hkey : ∀ b ∈ key, b < 256) :
    parse ([dollar].intercalate [ALGORITHM, str (Nat.toDigits 10 c.N), str (Nat.toDigits 10 c.r),
      str (Nat.toDigits 10 c.p), b64url salt, b64url key]) =
      if c.isPlausible then some ⟨c, salt, key⟩ else none := by
  obtain ⟨hN, hNd⟩ := digits_part hN
  obtain ⟨hr, hrd⟩ := digits_part hr
  obtain ⟨hp, hpd⟩ := digits_part hp
  obtain ⟨hsalt, hsd⟩ := unb64u_part hsalt rfl
  obtain ⟨hkey, hkd⟩ := unb64u_part hkey rfl
  have hfree : ∀ s ∈ [ALGORITHM, str (Nat.toDigits 10 c.N), str (Nat.toDigits 10 c.r), str (Nat.toDigits 10 c.p),
      b64url salt, b64url key], dollar ∉ s := by
    simp only [List.forall_mem_cons]
    exact ⟨by decide, hNd, hrd, hpd, hsd, hkd, List.forall_mem_nil _⟩
  rw [parse, List.splitOn_intercalate dollar hfree (List.cons_ne_nil _ _)]
  simp only [ne_eq, not_true_eq_false, if_false, hN, hr, hp, hsalt, hkey, Int.toNat_natCast]
  have hiff : ((c.N : Int) < 1024 ∨ (c.r : Int) < 1 ∨ (c.p : Int) < 1) ↔ ¬ c.isPlausible = true := by
    simp only [Cost.isPlausible, Bool.and_eq_true, decide_eq_true_eq]
    omega
  by_cases hc : c.isPlausible = true
  · rw [if_pos hc, if_neg (not_not_intro hc ∘ hiff.mp)]
  · rw [if_neg hc, if_pos (hiff.mpr hc)]

section

variable {scrypt : List Nat → List Nat → Nat → ScryptOptions → Option (List Nat)}
  {accepts : Nat → ScryptOptions → Bool} {nfkc : Str → Str}

theorem verifies_iff (password stored : Str) : Verifies scrypt nfkc password stored ↔
    ∃ h, parse stored = some h ∧ derived scrypt nfkc password h.salt h.key.length (optionsOf h) = some h.key := by
  rw [Verifies, verifyPassword]
  cases parse stored with
  | none => simp
  | some h =>
      cases hd : derived scrypt nfkc password h.salt h.key.length (optionsOf h) with
      | none => simp [hd]
      | some key =>
          simp only [Option.bind_eq_bind, Option.bind_some, hd, Option.pure_def, Option.any_some, Bool.and_eq_true,
            decide_eq_true_eq, Option.some.injEq, exists_eq_left']
          constructor
          · intro hk
            exact hk.2
          · rintro rfl
            exact ⟨rfl, rfl⟩

/-- A hash verifies every password of its normal form, and tells whether its cost was lower. -/
theorem verify_own (hd : Documented scrypt accepts) (hbytes : Bytes scrypt) {c : Cost} (hN : c.N < 2 ^ 53)
    (hr : c.r < 2 ^ 53) (hp : c.p < 2 ^ 53) {password other stored : Str} {salt : List Nat} {min : Nat}
    (hsalt : ∀ b ∈ salt, b < 256) (hmade : hashWith scrypt nfkc c password salt min = some stored)
    (hform : nfkc other = nfkc password) :
    verifyPassword scrypt nfkc other stored = if c.isPlausible then some ⟨true, c.weaker⟩ else none := by
  rw [hashWith] at hmade
  split at hmade
  next => cases hmade
  next =>
    obtain ⟨key, hkey, hstored⟩ := Option.map_eq_some_iff.mp hmade
    subst hstored
    rw [verifyPassword, parse_hash hN hr hp hsalt (hbytes _ _ _ _ _ hkey)]
    by_cases hc : c.isPlausible = true
    · have hlength : key.length = KEY_BYTES := hd.length _ _ _ _ _ hkey
      have haccepts : accepts KEY_BYTES ⟨c.N, c.r, c.p, c.maxmem⟩ = true := by
        rw [← hd.refuses (encode (nfkc password)) salt, show scrypt _ _ _ _ = _ from hkey]
        rfl
      have hagain : derived scrypt nfkc other salt key.length (optionsOf ⟨c, salt, key⟩) = some key := by
        rw [derived, hform, hlength, ← hkey]
        exact hd.memory _ _ _ _ _ haccepts (le_max_right _ _)
      simp [if_pos hc, hagain]
    · rw [if_neg hc, if_neg hc]
      rfl

/-- Two passwords verify against a stored text only if they have one normal form, unless the text has no key. -/
theorem unique_iff (hd : Documented scrypt accepts) (hinj : Injective scrypt)
    (hascii : ∀ s : Str, (∀ u ∈ s, u < 128) → nfkc s = s) (hunicode : ∀ s, Unicode s → Unicode (nfkc s)) (stored : Str) :
    (∀ a b, Unicode a → Unicode b → Verifies scrypt nfkc a stored → Verifies scrypt nfkc b stored →
      nfkc a = nfkc b) ↔
    ∀ h, parse stored = some h → accepts h.key.length (optionsOf h) = true → h.key ≠ [] := by
  constructor
  · intro hunique h hparse haccepts hempty
    have hverify : ∀ a, Verifies scrypt nfkc a stored := by
      intro a
      rw [verifies_iff]
      refine ⟨h, hparse, ?_⟩
      rw [← hd.refuses (encode (nfkc a)) h.salt] at haccepts
      obtain ⟨key, hkey⟩ := Option.isSome_iff_exists.mp haccepts
      have hlength := hd.length _ _ _ _ _ hkey
      rw [hempty, List.length_nil, List.length_eq_zero_iff] at hlength
      rw [derived, hkey, hlength, hempty]
    have hab := hunique ['a'.toNat] ['b'.toNat] (by decide) (by decide) (hverify _) (hverify _)
    rw [hascii _ (by decide), hascii _ (by decide)] at hab
    exact absurd hab (by decide)
  · intro hkey a b ha hb hva hvb
    obtain ⟨h, hparse, hda⟩ := (verifies_iff a stored).mp hva
    obtain ⟨h', hparse', hdb⟩ := (verifies_iff b stored).mp hvb
    obtain rfl : h = h' := Option.some.inj (hparse.symm.trans hparse')
    have haccepts : accepts h.key.length (optionsOf h) = true := by
      rw [← hd.refuses (encode (nfkc a)) h.salt, show scrypt _ _ _ _ = _ from hda]
      rfl
    obtain ⟨hsame, -⟩ := hinj _ _ _ _ _ _ _ _ _ hda hdb (hkey h hparse haccepts)
    exact encode_inj (hunicode a ha) (hunicode b hb) hsame

end

/-- A derivation that keeps all it is given. -/
def telling (password salt : List Nat) (n : Nat) (o : ScryptOptions) : Option (List Nat) :=
  some (List.replicate n (Encodable.encode (password, salt, o.N, o.r, o.p)))

/-- One that consists of bytes. -/
def flat (_ _ : List Nat) (n : Nat) (_ : ScryptOptions) : Option (List Nat) := some (List.replicate n 7)

theorem telling_documented : Documented telling fun _ _ => true := by
  constructor
  · rintro _ _ n _ key ⟨⟩
    exact List.length_replicate
  · intros
    rfl
  · intros
    rfl

theorem telling_injective : Injective telling := by
  intro password salt n o password' salt' n' o' key h h' hne
  obtain rfl := Option.some.inj h
  have hsame := Option.some.inj h'
  cases n with
  | zero => exact absurd rfl hne
  | succ n =>
      cases n' with
      | zero => cases hsame
      | succ n' =>
          have hcode := Encodable.encode_injective (List.cons.inj hsame).1
          simp only [Prod.mk.injEq] at hcode
          obtain ⟨rfl, rfl, hN, hr, hp⟩ := hcode
          exact ⟨rfl, rfl, hN.symm, hr.symm, hp.symm⟩

theorem flat_documented : Documented flat fun _ _ => true := by
  constructor
  · rintro _ _ n _ key ⟨⟩
    exact List.length_replicate
  · intros
    rfl
  · intros
    rfl

theorem flat_bytes : Bytes flat := by
  rintro _ _ n _ key ⟨⟩ b hb
  rw [List.eq_of_mem_replicate hb]
  decide

def horse : Str := str "correct horse battery".toList

/-- A hash that breaks off before its key. -/
def keyless : Str := str "scrypt$65536$8$2$AAAA$".toList

end Corebase.Passwords
