import Corebase.JsText

namespace Corebase.StorageRules

open JsText

/-- The bytes of an object. -/
abbrev Content := List Nat

structure Key where
  bucket : Text
  name : Text
deriving DecidableEq

/-- Everything that belongs to one project. -/
def projectPrefix (ref : Text) : Text := "projects/".toList ++ ref ++ ['/']

def objectKey (ref : Text) (k : Key) : Text := projectPrefix ref ++ (k.bucket ++ '/' :: k.name)

theorem append_slash_inj {a b a' b' : Text} (ha : '/' ∉ a) (ha' : '/' ∉ a') (h : a ++ '/' :: b = a' ++ '/' :: b') :
    a = a' ∧ b = b' := by
  induction a generalizing a' with
  | nil =>
      cases a' with
      | nil => exact ⟨rfl, (List.cons.inj h).2⟩
      | cons c cs => exact absurd (List.mem_cons.mpr (.inl (List.cons.inj h).1)) ha'
  | cons c cs ih =>
      cases a' with
      | nil => exact absurd (List.mem_cons.mpr (.inl (List.cons.inj h).1.symm)) ha
      | cons c' cs' =>
          obtain ⟨rfl, htail⟩ := List.cons.inj h
          obtain ⟨rfl, hb⟩ := ih (fun hc => ha (List.mem_cons_of_mem _ hc)) (fun hc => ha' (List.mem_cons_of_mem _ hc)) htail
          exact ⟨rfl, hb⟩

/-- Two objects of a project never share a key. -/
theorem objectKey_inj {ref : Text} {k k' : Key} (hk : '/' ∉ k.bucket) (hk' : '/' ∉ k'.bucket)
    (h : objectKey ref k = objectKey ref k') : k = k' := by
  obtain ⟨hbucket, hname⟩ := append_slash_inj hk hk' (List.append_cancel_left h)
  cases k
  cases k'
  exact congrArg₂ Key.mk hbucket hname

def bucketChar (c : Char) : Bool := ('a' ≤ c && c ≤ 'z') || isDigit c

/-- The bucket name, or the error text. -/
def normalizeBucket (raw : Text) : Except String Text := match raw with
  | [] => .error "That is not a legal bucket name."
  | c :: cs =>
      if bucketChar c && (cs.all fun c => bucketChar c || c ∈ ['.', '_', '-']) && 1 ≤ cs.length && cs.length ≤ 62 then .ok raw
      else .error "That is not a legal bucket name."

theorem bucket_chars {raw bucket : Text} (h : normalizeBucket raw = .ok bucket) :
    ∀ c ∈ bucket, (bucketChar c || c ∈ ['.', '_', '-']) = true := by
  unfold normalizeBucket at h
  split at h
  · cases h
  · next c cs =>
      split at h <;> cases h
      next hlegal =>
        simp only [Bool.and_eq_true, List.all_eq_true] at hlegal
        obtain ⟨⟨⟨hc, hcs⟩, -⟩, -⟩ := hlegal
        exact List.forall_mem_cons.mpr ⟨by rw [hc, Bool.true_or], hcs⟩

theorem slash_not_mem {raw bucket : Text} (h : normalizeBucket raw = .ok bucket) : '/' ∉ bucket :=
  fun hmem => absurd (bucket_chars h '/' hmem) (by decide)

def segmentError (segment : Text) : Option String :=
  if segment = [] then some "An object path may not contain empty segments."
  else if segment = ['.'] ∨ segment = ['.', '.'] then some "An object path may not contain \".\" or \"..\" segments."
  else none

def pathError (raw : Text) : Option String :=
  let folded := raw.map Char.toLower
  if raw = [] then some "An object path is required."
  else if 1024 < length raw then some "An object path may be at most 1024 characters."
  else if ["%2e".toList, "%2f".toList, "%5c".toList].any fun escape => (indexOf escape folded).isSome then
    some "An object path may not contain percent-encoded separators or dots. Send the path as it should be stored."
  else if raw.head? = some '/' then some "An object path may not start with \"/\"."
  else if raw.getLast? = some '/' then some "An object path may not end with \"/\"."
  else if raw.any fun c => c.toNat < 32 || c.toNat = 127 then some "An object path may not contain control characters."
  else (raw.splitOn '/').findSome? segmentError

def normalizePath (raw : Text) : Except String Text := match pathError raw with
  | some message => .error message
  | none => .ok raw

def sniffBytes : Nat := 512

def dangerous : List (String × List Content) :=
  [("a Windows executable (MZ)", [[0x4d, 0x5a]]),
    ("an ELF binary", [[0x7f, 0x45, 0x4c, 0x46]]),
    ("a Mach-O binary or Java class", [[0xfe, 0xed, 0xfa, 0xce], [0xce, 0xfa, 0xed, 0xfe], [0xfe, 0xed, 0xfa, 0xcf],
      [0xcf, 0xfa, 0xed, 0xfe], [0xca, 0xfe, 0xba, 0xbe]])]

structure Media where
  mimes : List String
  label : String
  test : Content → Bool

def media : List Media :=
  [⟨["image/png"], "a PNG", ([0x89, 0x50, 0x4e, 0x47, 0x0d, 0x0a, 0x1a, 0x0a].isPrefixOf ·)⟩,
    ⟨["image/jpeg", "image/jpg"], "a JPEG", ([0xff, 0xd8, 0xff].isPrefixOf ·)⟩,
    ⟨["image/gif"], "a GIF", ([0x47, 0x49, 0x46, 0x38].isPrefixOf ·)⟩,
    ⟨["image/webp"], "a WebP", fun b => [0x52, 0x49, 0x46, 0x46].isPrefixOf b && (b.take 12).drop 8 = [0x57, 0x45, 0x42, 0x50]⟩,
    ⟨["application/pdf"], "a PDF", ([0x25, 0x50, 0x44, 0x46].isPrefixOf ·)⟩]

/-- The text starts with these characters in either case, and what follows is as required. -/
def opens (tag : String) (rest : Text → Bool) (t : Text) : Bool :=
  tag.toList.isPrefixOf (t.map Char.toLower) && rest (t.drop tag.length)

def headIs (p : Char → Bool) (t : Text) : Bool := t.head?.any p

/-- Markup or script starts here. -/
def activeHere (t : Text) : Bool :=
  opens "<script" (headIs fun c => isSpace c || c = '>') t || opens "<?php" (fun _ => true) t ||
    opens "<%" (headIs fun c => isSpace c || c = '@' || c = '=') t ||
    opens "<!doctype" (fun r => headIs isSpace r && opens "html" (fun _ => true) (r.dropWhile isSpace)) t ||
    opens "<html" (headIs fun c => isSpace c || c = '>') t

def active : Text → Bool
  | [] => activeHere []
  | c :: cs => activeHere (c :: cs) || active cs

/-- The reason to refuse the content, from its leading bytes and its declared type. -/
def sniff (head : Content) (declared : Text) : Option String :=
  match dangerous.find? fun sig => sig.2.any fun bytes => bytes.isPrefixOf head with
  | some (label, _) => some ("the content looks like " ++ label)
  | none =>
      let folded := declared.map Char.toLower
      match media.find? fun m => (m.mimes.any fun mime => mime.toList = folded) && 12 ≤ head.length && !m.test head with
      | some m => some ("the declared type is " ++ String.ofList declared ++ " but the content is not " ++ m.label)
      | none =>
          if (["image/", "video/", "audio/"].any fun kind => kind.toList.isPrefixOf folded) &&
              active ((head.take sniffBytes).map Char.ofNat) then
            some ("the declared type is " ++ String.ofList declared ++ " but the content contains markup or script")
          else none

def essence (lower : Text → Text) (mime : Text) : Text := lower (trim (mime.takeWhile (· ≠ ';')))

/-- The declared type is on the bucket's allowlist. The lower case of a text is the runtime's. -/
def mimeAllowed (lower : Text → Text) (declared : Text) : Option (List Text) → Bool
  | none | some [] => true
  | some allowed => allowed.any fun entry =>
      let pattern := essence lower entry
      if "/*".toList.isSuffixOf pattern then pattern.dropLast.isPrefixOf (essence lower declared)
      else pattern = essence lower declared

def proxyMaxBytes : Nat := 50 * 1024 * 1024

def uploadUrlSeconds : Nat := 3600

/-- The storage quota of a plan, the one of the free plan by default. -/
def planStorageBytes (plan : String) : Nat :=
  if plan = "pro" then 100 * 1024 ^ 3
  else if plan = "team" then 250 * 1024 ^ 3
  else if plan = "enterprise" then 10 * 1024 ^ 4
  else 1024 ^ 3

end Corebase.StorageRules
