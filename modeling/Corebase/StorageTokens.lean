import Corebase.Base64Url
import Corebase.JsonRoundTrip

namespace Corebase.StorageTokens

open JsNumber Json Jwt

abbrev JsString := {s : Str // IsString s}

/-- The finite numbers of the language. -/
abbrev Double := {q : Rat // JsNumber.round q = .finite q}

structure Target where
  ref : Str
  bucket : Str
  path : Str
deriving DecidableEq

structure SignedPayload where
  ref : JsString
  bucket : JsString
  path : JsString
  /-- In seconds -/
  exp : Double
  kid : JsString
  /-- For an upload -/
  ct : Option JsString := none
  max : Option Double := none

def SignedPayload.target (p : SignedPayload) : Target := ⟨p.ref.1, p.bucket.1, p.path.1⟩

/-- A MAC of SHA-256. -/
structure Digest where
  bytes : List Nat
  length_eq : bytes.length = 32
  byte : ∀ b ∈ bytes, b < 256
deriving DecidableEq

def field (name : String) (value : Scalar Number) : Str × JsValue := (str name.toList, .scalar value)

def members (p : SignedPayload) : List (Str × JsValue) :=
  [field "ref" (.string p.ref.1), field "bucket" (.string p.bucket.1), field "path" (.string p.path.1),
    field "exp" (.number (.finite p.exp.1)), field "kid" (.string p.kid.1)] ++
    ((p.ct.map fun ct => field "ct" (.string ct.1)).toList ++
      (p.max.map fun max => field "max" (.number (.finite max.1))).toList)

/-- The part of a token that is signed. -/
def body (p : SignedPayload) : Str := b64url (encode (print (.object (members p))))

def currentKid : Str := str "v1".toList

def acceptedKids : List Str := [currentKid]

inductive VerifyFailure
  | malformed | unknownKid | badSignature | expired | wrongTarget
deriving DecidableEq

section Code

variable {Master Key : Type} (hkdf : Master → List Nat → Key) (hmac : Key → List Nat → Digest)

def deriveKey (master : Master) (kid : Str) : Key := hkdf master (encode kid)

def signToken (master : Master) (p : SignedPayload) : Str :=
  body p ++ '.'.toNat :: b64url (hmac (deriveKey hkdf master p.kid.1) (encode (body p))).bytes

/-- What stands before the first full stop. -/
def bodyPart (token : Str) : Str := token.takeWhile (· ≠ '.'.toNat)

/-- What stands after it -/
def macPart (token : Str) : Str := (token.dropWhile (· ≠ '.'.toNat)).tail

/-- What is left to check once the signature has been found to be right. -/
def checkClaims (payload : JsValue) (target : Target) (now : Rat) : Except VerifyFailure JsValue :=
  match property payload "exp" with
  | some (some (.scalar (.number exp))) =>
      if !above exp now then .error .expired
      else if isString (property payload "ref") target.ref && isString (property payload "bucket") target.bucket &&
          isString (property payload "path") target.path then .ok payload
      else .error .wrongTarget
  | _ => .error .expired

def verifyToken (master : Master) (token : Str) (target : Target) (now : Rat) : Except VerifyFailure JsValue :=
  if bodyPart token = [] ∨ macPart token = [] then .error .malformed
  else
    match parse (text (unb64u (bodyPart token))) with
    | none => .error .malformed
    | some payload =>
        match property payload "kid" with
        | some (some (.scalar (.string kid))) =>
            if !acceptedKids.contains kid then .error .unknownKid
            -- a buffer is made of any string, and letters of neither alphabet are left out of it
            else if unb64u (macPart token) ≠ (hmac (deriveKey hkdf master kid) (encode (bodyPart token))).bytes then
              .error .badSignature
            else checkClaims payload target now
        | _ => .error .unknownKid

end Code

/-! The payload through its body -/

theorem isString_field {name : String} (hname : IsString (str name.toList)) {value : Scalar Number}
    (h : ∀ s, value = .string s → IsString s) : IsString (field name value).1 ∧ IsString (print (field name value).2) :=
  ⟨hname, isString_scalar h⟩

theorem stringField (s : JsString) : ∀ t, Scalar.string s.1 = (Scalar.string t : Scalar Number) → IsString t := by
  intro t ht
  cases ht
  exact s.2

theorem numberField (q : Rat) : ∀ t, Scalar.number (.finite q) = (Scalar.string t : Scalar Number) → IsString t := by
  intro t ht
  cases ht

theorem isString_body (p : SignedPayload) : IsString (print (.object (members p))) := by
  apply isString_object
  simp only [members, List.forall_mem_append, List.forall_mem_cons]
  refine ⟨⟨isString_field (by decide) (stringField _), isString_field (by decide) (stringField _),
    isString_field (by decide) (stringField _), isString_field (by decide) (numberField _),
    isString_field (by decide) (stringField _), List.forall_mem_nil _⟩, ?_, ?_⟩
  · cases p.ct with
    | none => exact List.forall_mem_nil _
    | some ct => exact List.forall_mem_singleton.mpr (isString_field (by decide) (stringField _))
  · cases p.max with
    | none => exact List.forall_mem_nil _
    | some max => exact List.forall_mem_singleton.mpr (isString_field (by decide) (numberField _))

def names : List Str := ["ref", "bucket", "path", "exp", "kid", "ct", "max"].map fun name => str name.toList

theorem names_members (p : SignedPayload) : ((members p).map Prod.fst).Sublist names := by
  cases hct : p.ct <;> cases hmax : p.max <;>
    simp only [members, field, hct, hmax, Option.map_none, Option.map_some, Option.toList, List.append_nil,
      List.nil_append, List.map_append, List.map_cons, List.map_nil] <;> decide

/-- A payload is read as it is printed. -/
theorem stable_members (p : SignedPayload) : Stable (.object (members p)) := by
  have hindex : ∀ name ∈ names, index name = none := by decide
  apply stable_object
  · exact (names_members p).nodup (by decide)
  · intro m hm
    exact hindex _ ((names_members p).subset (List.mem_map_of_mem hm))
  · simp only [members, List.forall_mem_append, List.forall_mem_cons]
    refine ⟨⟨stable_string _, stable_string _, stable_string _, stable_number p.exp.2, stable_string _,
      List.forall_mem_nil _⟩, ?_, ?_⟩
    · cases p.ct with
      | none => exact List.forall_mem_nil _
      | some ct => exact List.forall_mem_singleton.mpr (stable_string _)
    · cases p.max with
      | none => exact List.forall_mem_nil _
      | some max => exact List.forall_mem_singleton.mpr (stable_number max.2)

theorem encode_body_lt (p : SignedPayload) : ∀ b ∈ encode (print (.object (members p))), b < 256 :=
  encode_lt (isString_body p)

theorem parse_body (p : SignedPayload) : parse (text (unb64u (body p))) = some (.object (members p)) := by
  rw [body, unb64u_b64url (encode_body_lt p), text_encode (isString_body p) (wellFormed_print _)]
  exact (stable_members p).parse_print

theorem body_ascii (p : SignedPayload) : ∀ u ∈ body p, u < 128 ∧ u ≠ '.'.toNat := b64url_ascii (encode_body_lt p)

theorem body_ne (p : SignedPayload) : body p ≠ [] := by
  apply b64url_ne
  intro hempty
  have hprint := text_encode (isString_body p) (wellFormed_print _)
  rw [hempty, print] at hprint
  cases hprint

@[simp] theorem property_ref (p : SignedPayload) :
    property (.object (members p)) "ref" = some (some (.scalar (.string p.ref.1))) := rfl

@[simp] theorem property_bucket (p : SignedPayload) :
    property (.object (members p)) "bucket" = some (some (.scalar (.string p.bucket.1))) := rfl

@[simp] theorem property_path (p : SignedPayload) :
    property (.object (members p)) "path" = some (some (.scalar (.string p.path.1))) := rfl

@[simp] theorem property_exp (p : SignedPayload) :
    property (.object (members p)) "exp" = some (some (.scalar (.number (.finite p.exp.1)))) := rfl

@[simp] theorem property_kid (p : SignedPayload) :
    property (.object (members p)) "kid" = some (some (.scalar (.string p.kid.1))) := rfl

/-! Verification -/

section Verification

variable {Master Key : Type} (hkdf : Master → List Nat → Key) (hmac : Key → List Nat → Digest)

theorem notDot_body (p : SignedPayload) : ∀ u ∈ body p, decide (u ≠ '.'.toNat) = true :=
  fun u hu => decide_eq_true (body_ascii p u hu).2

theorem bodyPart_signToken (master : Master) (p : SignedPayload) : bodyPart (signToken hkdf hmac master p) = body p := by
  rw [bodyPart, signToken, List.takeWhile_append_of_pos (notDot_body p), List.takeWhile_cons_of_neg (by simp)]
  exact List.append_nil _

theorem macPart_signToken (master : Master) (p : SignedPayload) :
    macPart (signToken hkdf hmac master p) = b64url (hmac (deriveKey hkdf master p.kid.1) (encode (body p))).bytes := by
  rw [macPart, signToken, List.dropWhile_append_of_pos (notDot_body p), List.dropWhile_cons_of_neg (by simp)]
  rfl

theorem b64url_digest_ne (d : Digest) : b64url d.bytes ≠ [] := by
  apply b64url_ne
  intro hempty
  have hlength := d.length_eq
  rw [hempty] at hlength
  cases hlength

/-- What the token of a payload is checked for, whatever its MAC is. -/
theorem verifyToken_body {token : Str} {p : SignedPayload} (h : bodyPart token = body p) (hmacPart : macPart token ≠ [])
    (master : Master) (target : Target) (now : Rat) : verifyToken hkdf hmac master token target now =
      if !acceptedKids.contains p.kid.1 then .error .unknownKid
      else if unb64u (macPart token) ≠ (hmac (deriveKey hkdf master p.kid.1) (encode (body p))).bytes then
        .error .badSignature
      else checkClaims (.object (members p)) target now := by
  have hparts : ¬(bodyPart token = [] ∨ macPart token = []) := by
    rw [h]
    exact not_or.mpr ⟨body_ne p, hmacPart⟩
  rw [verifyToken, if_neg hparts, h, parse_body]
  dsimp only
  rw [property_kid]

theorem checkClaims_members (p : SignedPayload) (target : Target) (now : Rat) :
    (∃ value, checkClaims (.object (members p)) target now = .ok value) ↔ p.target = target ∧ now < p.exp.1 := by
  rw [checkClaims, property_exp]
  dsimp only
  rw [property_ref, property_bucket, property_path]
  have htarget : (isString (some (some (.scalar (.string p.ref.1)))) target.ref &&
      isString (some (some (.scalar (.string p.bucket.1)))) target.bucket &&
      isString (some (some (.scalar (.string p.path.1)))) target.path) = decide (p.target = target) := by
    cases target with
    | mk ref bucket path => simp [isString, SignedPayload.target, Bool.decide_and, Bool.and_assoc]
  rw [htarget, above]
  by_cases hexp : now < p.exp.1
  · by_cases heq : p.target = target <;> simp [hexp, heq]
  · simp [hexp]

/-- A token that was made is accepted for its target only, until it expires. -/
theorem verifyToken_signToken (master : Master) (p : SignedPayload) (target : Target) (now : Rat) :
    (∃ value, verifyToken hkdf hmac master (signToken hkdf hmac master p) target now = .ok value) ↔
      p.target = target ∧ now < p.exp.1 ∧ p.kid.1 ∈ acceptedKids := by
  have hmacPart := macPart_signToken hkdf hmac master p
  have hread := unb64u_b64url (hmac (deriveKey hkdf master p.kid.1) (encode (body p))).byte
  rw [verifyToken_body hkdf hmac (bodyPart_signToken hkdf hmac master p) (hmacPart ▸ b64url_digest_ne _), hmacPart, hread]
  by_cases hkid : p.kid.1 ∈ acceptedKids
  · rw [if_neg (by simpa using hkid), if_neg (not_not.mpr rfl), checkClaims_members]
    simp only [hkid, and_true]
  · rw [if_pos (by simpa using hkid)]
    simp only [hkid, and_false, reduceCtorEq, exists_false]

/-- No key is derived from two masters. -/
def CollisionFree : Prop := ∀ {master master' : Master} {salt salt' : List Nat},
  hkdf master salt = hkdf master' salt' → master = master'

/-- Who presents a message with its MAC under a key of the master has it from a call that made it. -/
def Unforgeable (master : Master) (calls : Master → SignedPayload → Prop) (presented : List Nat → List Nat → Prop) :
    Prop :=
  ∀ kid message, presented message (hmac (deriveKey hkdf master kid) message).bytes →
    ∃ master' p, calls master' p ∧ deriveKey hkdf master' p.kid.1 = deriveKey hkdf master kid ∧ encode (body p) = message

/-- The MAC of a token that is accepted -/
theorem mac_of_ok {master : Master} {token : Str} {target : Target} {now : Rat} {value : JsValue}
    (h : verifyToken hkdf hmac master token target now = .ok value) :
    ∃ kid ∈ acceptedKids, unb64u (macPart token) = (hmac (deriveKey hkdf master kid) (encode (bodyPart token))).bytes := by
  unfold verifyToken at h
  split at h
  · cases h
  split at h
  · cases h
  split at h
  · next kid hkid =>
      split at h
      · cases h
      next haccepted =>
        split at h
        · cases h
        next hmac => exact ⟨kid, by simpa using haccepted, not_not.mp hmac⟩
  · cases h

/-- What is accepted was signed under the same master. -/
theorem signed_of_ok {master : Master} {calls : Master → SignedPayload → Prop} {presented : List Nat → List Nat → Prop}
    (hhkdf : CollisionFree hkdf) (hhmac : Unforgeable hkdf hmac master calls presented) {token : Str}
    (hpresented : presented (encode (bodyPart token)) (unb64u (macPart token))) {target : Target} {now : Rat}
    {value : JsValue} (h : verifyToken hkdf hmac master token target now = .ok value) :
    ∃ p, calls master p ∧ bodyPart token = body p := by
  obtain ⟨kid, -, hmac⟩ := mac_of_ok hkdf hmac h
  rw [hmac] at hpresented
  obtain ⟨master', p, hcall, hkey, hbody⟩ := hhmac kid _ hpresented
  obtain rfl := hhkdf hkey
  exact ⟨p, hcall, encode_inj_ascii (fun u hu => (body_ascii p u hu).1) hbody.symm⟩

end Verification

end Corebase.StorageTokens
