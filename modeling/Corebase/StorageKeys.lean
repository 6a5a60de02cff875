import Corebase.ControlPlane
import Corebase.StorageRules
import Corebase.StorageTokens
import Corebase.UrlEscapes

namespace Corebase.StorageKeys

open JsText StorageRules StorageTokens DotSegments
open ControlPlane (validRef)
open UrlReference (bytes bytes_append bytes_ascii not_mem_bytes bytes_splitOn bytes_inj)

/-- The constraint on the name of an object: no segment is two dots, it does not begin with a slash,
and it has at most 1024 characters. -/
def nameHolds (name : Text) : Bool :=
  (name.splitOn '/').all (· ≠ "..".toList) && name.head? ≠ some '/' && name.length ≤ 1024

/-! What the rules promise of a bucket and a path that they accept -/

structure Confined (bucket path : Text) : Prop where
  injective : ∀ ref ref' raw raw' bucket' path', validRef ref = true → validRef ref' = true →
    normalizeBucket raw = .ok bucket' → normalizePath raw' = .ok path' →
    objectKey ref ⟨bucket, path⟩ = objectKey ref' ⟨bucket', path'⟩ → ref = ref' ∧ bucket = bucket' ∧ path = path'
  own : ∀ ref, validRef ref = true → ∀ key, Downstream (bytes (objectKey ref ⟨bucket, path⟩)) key →
    bytes (projectPrefix ref) <+: key
  others : ∀ ref ref', validRef ref = true → validRef ref' = true → ref ≠ ref' →
    ∀ key, Downstream (bytes (objectKey ref ⟨bucket, path⟩)) key → ¬bytes (projectPrefix ref') <+: key
  check : nameHolds path = true

/-- However often the path is decoded, and its dot segments resolved in between, it never goes up more often than down. -/
def Level (bucket path : Text) : Prop :=
  ∀ q, Below (bytes (bucket ++ '/' :: path)) q → climbs 0 (q.splitOn slash) = false

/-! References as bytes -/

def isWord (c : Char) : Bool := isLetter c || isDigit c

theorem isWord_toNat {c : Char} (h : isWord c = true) :
    c.toNat < 128 ∧ c.toNat ≠ slash ∧ c.toNat ≠ 37 ∧ c.toNat ≠ 46 := by
  have hval : c.toNat = c.val.toNat := rfl
  simp only [isWord, isLetter, isDigit, Bool.or_eq_true, Bool.and_eq_true, decide_eq_true_eq, Char.le_def,
    UInt32.le_iff_toNat_le] at h
  simp only [slash]
  have hA : 'A'.val.toNat = 65 := rfl
  have hZ : 'Z'.val.toNat = 90 := rfl
  have ha : 'a'.val.toNat = 97 := rfl
  have hz : 'z'.val.toNat = 122 := rfl
  have h0 : '0'.val.toNat = 48 := rfl
  have h9 : '9'.val.toNat = 57 := rfl
  omega

theorem mem_bytes_word {t : Text} (h : ∀ c ∈ t, isWord c = true) : ∀ b ∈ bytes t, b ≠ slash ∧ b ≠ 37 ∧ b ≠ 46 := by
  rw [bytes_ascii fun c hc => (isWord_toNat (h c hc)).1]
  intro b hb
  obtain ⟨c, hc, rfl⟩ := List.mem_map.mp hb
  exact (isWord_toNat (h c hc)).2

theorem plain_word {t : Text} (h : ∀ c ∈ t, isWord c = true) : Plain (bytes t) where
  noSlash hmem := (mem_bytes_word h _ hmem).1 rfl
  noPercent hmem := (mem_bytes_word h _ hmem).2.1 rfl
  noDot heq := (mem_bytes_word h 46 (heq ▸ List.mem_singleton.mpr rfl)).2.2 rfl
  noDotDot heq := (mem_bytes_word h 46 (heq ▸ List.mem_cons_self)).2.2 rfl

theorem word_of_validRef {ref : Text} (h : validRef ref = true) : ∀ c ∈ ref, isWord c = true := by
  simp only [validRef, Bool.and_eq_true] at h
  exact List.all_eq_true.mp h.2

theorem slash_of_validRef {ref : Text} (h : validRef ref = true) : '/' ∉ ref := by
  intro hmem
  have hword : isWord '/' = true := word_of_validRef h '/' hmem
  exact absurd hword (by decide)

def projects : Bytes := bytes "projects".toList

theorem plain_projects : Plain projects := plain_word (List.all_iff_forall_prop.mp (by decide))

theorem bytes_project (ref : Text) : bytes (projectPrefix ref) = directory ([projects] ++ [bytes ref]) := by
  have hslash : bytes ['/'] = [slash] := by decide
  have hhead : "projects/".toList = "projects".toList ++ ['/'] := by decide
  have hdirectory : ∀ x y, directory ([x] ++ [y]) = x ++ [slash] ++ y ++ [slash] := by
    intro x y
    simp [directory]
  unfold projectPrefix projects
  rw [hhead, bytes_append, bytes_append, bytes_append, hslash, hdirectory]

theorem bytes_objectKey (ref : Text) (k : Key) :
    bytes (objectKey ref k) = directory ([projects] ++ [bytes ref]) ++ bytes (k.bucket ++ '/' :: k.name) := by
  rw [objectKey, bytes_append, bytes_project]

/-! The rules -/

structure PathRules (path : Text) : Prop where
  short : JsText.length path ≤ 1024
  first : path.head? ≠ some '/'
  control : ∀ c ∈ path, 32 ≤ c.toNat
  segments : ∀ segment ∈ path.splitOn '/', segmentError segment = none

theorem pathRules {raw path : Text} (h : normalizePath raw = .ok path) : path = raw ∧ PathRules path := by
  unfold normalizePath at h
  split at h
  · cases h
  next hnone =>
    cases h
    unfold pathError at hnone
    dsimp only at hnone
    split at hnone
    · cases hnone
    split at hnone
    · cases hnone
    next hshort =>
      split at hnone
      · cases hnone
      split at hnone
      · cases hnone
      next hfirst =>
        split at hnone
        · cases hnone
        split at hnone
        · cases hnone
        next hcontrol =>
          refine ⟨rfl, not_lt.mp hshort, hfirst, fun c hc => ?_, List.findSome?_eq_none_iff.mp hnone⟩
          by_contra hlow
          exact hcontrol (List.any_eq_true.mpr ⟨c, hc, by simp; omega⟩)

theorem PathRules.noDots {path : Text} (h : PathRules path) :
    ∀ segment ∈ path.splitOn '/', segment ≠ ['.'] ∧ segment ≠ ['.', '.'] := by
  intro segment hsegment
  have hnone := h.segments segment hsegment
  constructor
  · rintro rfl
    cases hnone
  · rintro rfl
    cases hnone

theorem eq_of_normalizeBucket {raw bucket : Text} (h : normalizeBucket raw = .ok bucket) : bucket = raw := by
  unfold normalizeBucket at h
  split at h
  · cases h
  · split at h <;> cases h
    rfl

theorem length_le (t : Text) : t.length ≤ JsText.length t := by
  induction t with
  | nil => rfl
  | cons c cs ih =>
      simp only [JsText.length, List.map_cons, List.sum_cons, List.length_cons] at ih ⊢
      split <;> omega

/-- What the rules accept the table accepts. -/
theorem nameHolds_of_accepted {raw path : Text} (h : normalizePath raw = .ok path) : nameHolds path = true := by
  obtain ⟨-, hrules⟩ := pathRules h
  have hall : ((path.splitOn '/').all (· ≠ "..".toList)) = true :=
    List.all_eq_true.mpr fun segment hsegment => decide_eq_true (hrules.noDots segment hsegment).2
  have hlength := (length_le path).trans hrules.short
  simp only [nameHolds, hall, Bool.and_eq_true, decide_eq_true_eq, true_and]
  exact ⟨hrules.first, hlength⟩

theorem key_inj {ref ref' : Text} (href : validRef ref = true) (href' : validRef ref' = true) {k k' : Key}
    (hk : '/' ∉ k.bucket) (hk' : '/' ∉ k'.bucket) (h : objectKey ref k = objectKey ref' k') : ref = ref' ∧ k = k' := by
  have hkeys : objectKey ref k = objectKey ref' k' := h
  unfold objectKey projectPrefix at h
  rw [List.append_assoc, List.append_assoc, List.append_assoc, List.append_assoc] at h
  obtain ⟨rfl, -⟩ := append_slash_inj (slash_of_validRef href) (slash_of_validRef href') (List.append_cancel_left h)
  exact ⟨rfl, objectKey_inj hk hk' hkeys⟩

theorem others_of_own {bucket path : Text} (h : ∀ ref, validRef ref = true →
    ∀ key, Downstream (bytes (objectKey ref ⟨bucket, path⟩)) key → bytes (projectPrefix ref) <+: key)
    {ref ref' : Text} (href : validRef ref = true) (href' : validRef ref' = true) (hne : ref ≠ ref') {key : Bytes}
    (hkey : Downstream (bytes (objectKey ref ⟨bucket, path⟩)) key) : ¬bytes (projectPrefix ref') <+: key := by
  intro hother
  have hown := h ref href key hkey
  rw [bytes_project] at hown hother
  have hword : ∀ {r : Text}, validRef r = true → slash ∉ bytes r := fun hr => (plain_word (word_of_validRef hr)).noSlash
  exact hne (bytes_inj (directory_inj (hword href) (hword href') hown hother))

theorem own_iff (bucket path : Text) : (∀ ref, validRef ref = true →
    ∀ key, Downstream (bytes (objectKey ref ⟨bucket, path⟩)) key → bytes (projectPrefix ref) <+: key) ↔
      Level bucket path := by
  have hbase : ∀ s ∈ [projects], Plain s := List.forall_mem_singleton.mpr plain_projects
  have htwo : ∃ x y, (∃ ref, validRef ref = true ∧ x = bytes ref) ∧ (∃ ref, validRef ref = true ∧ y = bytes ref) ∧ x ≠ y :=
    ⟨_, _, ⟨"aaaaaaaaaaaaaaaa".toList, by decide, rfl⟩, ⟨"bbbbbbbbbbbbbbbb".toList, by decide, rfl⟩, by decide⟩
  have hdirs : ∀ x, (∃ ref, validRef ref = true ∧ x = bytes ref) → Plain x := by
    rintro x ⟨ref, href, rfl⟩
    exact plain_word (word_of_validRef href)
  have hstays := stays_iff hbase hdirs htwo (bytes (bucket ++ '/' :: path))
  rw [Level, ← hstays]
  constructor
  · rintro h x ⟨ref, href, rfl⟩ key hkey
    rw [← bytes_project]
    exact h ref href key (by rwa [bytes_objectKey])
  · intro h ref href key hkey
    rw [bytes_objectKey] at hkey
    rw [bytes_project]
    exact h _ ⟨ref, href, rfl⟩ key hkey

/-! Paths without a percent sign -/

theorem noDots_bucket {raw bucket : Text} (h : normalizeBucket raw = .ok bucket) : bucket ≠ ['.'] ∧ bucket ≠ ['.', '.'] := by
  obtain rfl := eq_of_normalizeBucket h
  constructor
  · rintro rfl
    cases h
  · rintro rfl
    cases h

/-- A path without a percent sign is level in every bucket. -/
theorem level_of_plain {rawBucket rawPath bucket path : Text} (hbucket : normalizeBucket rawBucket = .ok bucket)
    (hpath : normalizePath rawPath = .ok path) (hpercent : '%' ∉ path) : Level bucket path := by
  have hsplit : (bucket ++ '/' :: path).splitOn '/' = bucket :: path.splitOn '/' :=
    List.splitOn_append_cons_self_of_not_mem (slash_not_mem hbucket) path
  have hdots : ∀ s ∈ (bytes (bucket ++ '/' :: path)).splitOn slash, s ≠ dot ∧ s ≠ dotDot := by
    rw [bytes_splitOn, hsplit]
    intro s hs
    obtain ⟨segment, hsegment, rfl⟩ := List.mem_map.mp hs
    have hnoDots : segment ≠ ['.'] ∧ segment ≠ ['.', '.'] := by
      rcases List.mem_cons.mp hsegment with rfl | hsegment
      · exact noDots_bucket hbucket
      · exact (pathRules hpath).2.noDots segment hsegment
    have hdot : bytes ['.'] = dot := by decide
    have hdotDot : bytes ['.', '.'] = dotDot := by decide
    rw [← hdot, ← hdotDot]
    exact ⟨fun heq => hnoDots.1 (bytes_inj heq), fun heq => hnoDots.2 (bytes_inj heq)⟩
  have hplain : 37 ∉ bytes (bucket ++ '/' :: path) := by
    apply @not_mem_bytes _ '%' (by decide)
    have hbucketChars : '%' ∉ bucket := fun hmem => absurd (bucket_chars hbucket '%' hmem) (by decide)
    simp [hbucketChars, hpercent]
  intro q hq
  rw [below_plain hplain hdots hq]
  exact climbs_plain hdots 0

/-! Tokens and keys together -/

section Tokens

variable {Master Key : Type} (hkdf : Master → List Nat → Key) (hmac : Key → List Nat → Digest)

/-- A token is accepted for what it was made for, and none is that was not made. -/
structure Bound (master : Master) (calls : Master → SignedPayload → Prop) (presented : List Nat → List Nat → Prop) :
    Prop where
  signed : ∀ p target now,
    (∃ value, verifyToken hkdf hmac master (signToken hkdf hmac master p) target now = .ok value) ↔
      p.target = target ∧ now < p.exp.1 ∧ p.kid.1 ∈ acceptedKids
  made : ∀ token, presented (Jwt.encode (bodyPart token)) (Jwt.unb64u (macPart token)) → ∀ target now value,
    verifyToken hkdf hmac master token target now = .ok value → ∃ p, calls master p ∧ bodyPart token = body p

variable {hkdf hmac}

end Tokens

/-! A project that has signed one address -/

def sampleString (name : String) (h : Json.IsString (Json.str name.toList) := by decide) : JsString :=
  ⟨Json.str name.toList, h⟩

def samplePayload : SignedPayload where
  ref := sampleString "aaaaaaaaaaaaaaaa"
  bucket := sampleString "photos"
  path := sampleString "a/b.png"
  exp := ⟨2000000000, by decide +kernel⟩
  kid := sampleString "v1"

def sampleMaster : List Nat := List.replicate 32 0

def sampleHkdf (master salt : List Nat) : List Nat × List Nat := (master, salt)

def sampleMac : Digest where
  bytes := [2, 197, 218, 1, 139, 199, 53, 253, 247, 143, 209, 42, 188, 60, 197, 192, 112, 63, 124, 248, 73, 72, 197, 108,
    217, 118, 8, 43, 238, 33, 103, 60]
  length_eq := rfl
  byte := by decide

def otherMac : Digest := ⟨List.replicate 32 0, rfl, by decide⟩

def sampleHmac (key : List Nat × List Nat) (message : List Nat) : Digest :=
  if key = (sampleMaster, Jwt.encode currentKid) ∧ message = Jwt.encode (body samplePayload) then sampleMac else otherMac

def samplePresented (message mac : List Nat) : Prop :=
  message = Jwt.encode (body samplePayload) ∧ mac = sampleMac.bytes

theorem sampleHkdf_collisionFree : CollisionFree sampleHkdf := fun h => congrArg Prod.fst h

theorem sampleHmac_unforgeable : Unforgeable sampleHkdf sampleHmac sampleMaster
    (fun master p => master = sampleMaster ∧ p = samplePayload) samplePresented := by
  rintro kid message ⟨hmessage, hmac⟩
  refine ⟨sampleMaster, samplePayload, ⟨rfl, rfl⟩, ?_, hmessage.symm⟩
  unfold sampleHmac at hmac
  split at hmac
  next hkey => exact hkey.1.symm
  next => exact absurd hmac (by decide)

def climbing : Text := "%252e%252e/%252e%252e/bbbbbbbbbbbbbbbb/photos/a.png".toList

theorem downstream_twice (path : Bytes) : Downstream path (removeDotSegments (percentDecode (percentDecode path))) :=
  ((Relation.ReflTransGen.single (.decode path)).tail (.decode _)).tail (.resolve _)

end Corebase.StorageKeys
