import Corebase.RouteTable
import Corebase.StorageKeys

namespace Corebase.StorageUrls

open JsText (Text)
open Json (Str IsString)
open JsNumber Jwt StorageRules StorageTokens StorageKeys RouteTable
open UrlReference (bytes encodeComponent decodeComponent encodePath startPath preprocess pathText percentEncode endsPath)

inductive Method
  | get | post | put | delete
deriving DecidableEq

/-- What is run for an object, for a bucket or for an upload. -/
inductive Handler
  | info | delete | uploadSign | sign | redeem | publicRead | download | upload | replace
  | list | deleteMany | uploadComplete
deriving DecidableEq

/-- A route whose pattern is some words, the bucket and the path. -/
structure ObjectRoute where
  method : Method
  words : List Text
  handler : Handler
deriving DecidableEq

def baseWords : List Text := ["storage".toList, "v1".toList, "object".toList]

def ObjectRoute.route (r : ObjectRoute) : Route Method Handler :=
  ⟨r.method, baseWords.map .word ++ (r.words.map .word ++ [.param, .wildcard]), r.handler⟩

def objectRoutes : List ObjectRoute :=
  [⟨.get, ["info".toList], .info⟩, ⟨.delete, [], .delete⟩, ⟨.post, ["upload".toList, "sign".toList], .uploadSign⟩,
    ⟨.post, ["sign".toList], .sign⟩, ⟨.get, ["sign".toList], .redeem⟩, ⟨.get, ["public".toList], .publicRead⟩,
    ⟨.get, [], .download⟩, ⟨.post, [], .upload⟩, ⟨.put, [], .replace⟩]

/-- The others end in one parameter. -/
def otherRoutes : List (Route Method Handler) :=
  [⟨.post, baseWords.map .word ++ [.word "list".toList, .param], .list⟩,
    ⟨.post, baseWords.map .word ++ [.word "delete".toList, .param], .deleteMany⟩,
    ⟨.post, baseWords.map .word ++ [.word "upload".toList, .word "complete".toList, .param], .uploadComplete⟩]

def routes : List (Route Method Handler) := objectRoutes.map ObjectRoute.route ++ otherRoutes

/-! A request -/

def decodeAll : List Text → Option (List Text)
  | [] => some []
  | s :: rest => (decodeComponent s).bind fun t => (decodeAll rest).map (t :: ·)

/-- What the router runs for a reference to a path of the server. -/
def request (method : Method) (reference : Text) : Option (Handler × List Text) :=
  (decodeAll (startPath (preprocess reference))).bind (find routes method)

/-- The characters that are encoded in the query of a web URL. -/
def inQuerySet (c : Char) : Bool := c.toNat < 32 || 126 < c.toNat || c ∈ [' ', '"', '#', '<', '>', '\'']

def queryOf (reference : Text) : Text :=
  match (preprocess reference).dropWhile fun c => !endsPath c with
  | '?' :: rest => (rest.takeWhile (· ≠ '#')).flatMap (percentEncode inQuerySet)
  | _ => []

/-- Bucket and path, percent-encoded, in the URL of a route. -/
def objectUrl (words : List Text) (bucket path : Text) : Text :=
  pathText (baseWords ++ words ++ encodeComponent bucket :: (path.splitOn '/').map encodeComponent)

/-! Signed URLs -/

/-- A text as a string of the language. -/
def units (t : Text) : Str := t.flatMap fun c => utf16 c.toNat

structure Project (Master : Type) where
  ref : Text
  master : Master

structure World (Master : Type) where
  /-- The project of a ref, with its secret. -/
  project : Str → Option (Project Master)
  /-- The bytes of an object of a project, where it has a row in the bucket. -/
  object : Text → Text → Text → Option Content

inductive Answer
  | noRoute | elsewhere (handler : Handler)
  | badRequest (message : String) | unauthorized | forbidden | notFound
  | served (bucket name : Text) (object : Content)
deriving DecidableEq

def signedUrl (bucket name : Text) (token : Str) : Text :=
  "/storage/v1/object/sign/".toList ++ bucket ++ '/' :: name ++ "?token=".toList ++ token.map Char.ofNat

theorem isString_units (t : Text) : IsString (units t) := by
  intro u hu
  obtain ⟨c, -, hc⟩ := List.mem_flatMap.mp hu
  have hvalid := c.valid
  have hval : c.toNat = c.val.toNat := rfl
  simp only [UInt32.isValidChar, Nat.isValidChar] at hvalid
  rw [utf16] at hc
  split at hc
  · next h => rwa [List.mem_singleton.mp hc]
  · simp only [List.mem_cons, List.not_mem_nil, or_false] at hc
    omega

def payloadOf (ref bucket name : Text) (exp : Double) : SignedPayload where
  ref := ⟨units ref, isString_units ref⟩
  bucket := ⟨units bucket, isString_units bucket⟩
  path := ⟨units name, isString_units name⟩
  exp := exp
  kid := ⟨currentKid, by decide⟩

section Handlers

variable {Master Key : Type} (hkdf : Master → List Nat → Key) (hmac : Key → List Nat → Digest)

/-- POST /object/sign: the address that it answers with, where the caller can see the object. -/
def sign (visible : Text → Text → Bool) (project : Project Master) (exp : Double) (rawBucket rawName : Text) :
    Option Text :=
  match normalizeBucket rawBucket, normalizePath rawName with
  | .ok bucket, .ok name =>
      if visible bucket name then
        some (signedUrl bucket name (signToken hkdf hmac project.master (payloadOf project.ref bucket name exp)))
      else none
  | _, _ => none

/-- The ref is read before anything is verified, to choose the key. -/
def projectFromToken (world : World Master) (token : Str) : Option (Project Master) :=
  if '.'.toNat ∉ token ∨ bodyPart token = [] then none
  else
    match (Json.parse (text (unb64u (bodyPart token)))).bind fun payload => property payload "ref" with
    | some (some (.scalar (.string ref))) => world.project ref
    | _ => none

variable (tokenOf : Text → Option Text)

/-- GET /object/sign -/
def redeem (world : World Master) (now : Rat) (rawBucket rawName query : Text) : Answer :=
  match normalizeBucket rawBucket with
  | .error message => .badRequest message
  | .ok bucket =>
      match normalizePath rawName with
      | .error message => .badRequest message
      | .ok name =>
          match tokenOf query with
          | none | some [] => .unauthorized
          | some token =>
              match projectFromToken world (units token) with
              | none => .forbidden
              | some project =>
                  match verifyToken hkdf hmac project.master (units token)
                      ⟨units project.ref, units bucket, units name⟩ now with
                  | .error _ => .forbidden
                  | .ok _ =>
                      match world.object project.ref bucket name with
                      | none => .notFound
                      | some object => .served bucket name object

/-- What a client gets who follows a reference; only the answer of the route of signed addresses is spelled out. -/
def fetch (world : World Master) (now : Rat) (reference : Text) : Answer :=
  match request .get reference with
  | some (.redeem, [bucket, name]) => redeem hkdf hmac tokenOf world now bucket name (queryOf reference)
  | some (handler, _) => .elsewhere handler
  | none => .noRoute

/-! What is promised of a bucket and a path -/

structure Addressed (project : Project Master) (bucket path : Text) : Prop where
  routed : ∀ r ∈ objectRoutes, request r.method (objectUrl r.words bucket path) = some (r.handler, [bucket, path])
  shared : ∀ world visible exp now url object, world.project (units project.ref) = some project →
    world.object project.ref bucket path = some object → sign hkdf hmac visible project exp bucket path = some url →
      now < exp.1 → fetch hkdf hmac tokenOf world now url = .served bucket path object

end Handlers

/-- A bucket has the name of a word of a pattern, and the path fits what follows the word there. -/
def misread (bucket : Text) (segments : List Text) : Prop :=
  bucket ∈ ["info".toList, "sign".toList, "public".toList] ∧ 2 ≤ segments.length ∨
    bucket ∈ ["list".toList, "delete".toList] ∧ segments.length = 1 ∨
    bucket = "upload".toList ∧ (segments.head? = some "sign".toList ∧ 3 ≤ segments.length ∨
      segments.head? = some "complete".toList ∧ segments.length = 2)

instance (bucket : Text) (segments : List Text) : Decidable (misread bucket segments) :=
  inferInstanceAs (Decidable (_ ∨ _))

/-- The characters that do not survive in an address that is put together without encoding. -/
def isLost (c : Char) : Bool := c ∈ ['%', '?', '#', '\\']

/-! Encoded names -/

theorem mem_of_segment {path s : Text} {c : Char} (hs : s ∈ path.splitOn '/') (hc : c ∈ s) : c ∈ path := by
  have hjoin : ['/'].intercalate (path.splitOn '/') = path := List.intercalate_splitOn '/'
  rw [← hjoin]
  exact intercalate_mem hs hc

theorem decodeAll_append {raws raws' : List Text} {segments segments' : List Text} (h : decodeAll raws = some segments)
    (h' : decodeAll raws' = some segments') : decodeAll (raws ++ raws') = some (segments ++ segments') := by
  induction raws generalizing segments with
  | nil =>
      cases h
      exact h'
  | cons s rest ih =>
      obtain ⟨t, ht, hrest⟩ := Option.bind_eq_some_iff.mp h
      obtain ⟨tail, htail, rfl⟩ := Option.map_eq_some_iff.mp hrest
      rw [List.cons_append, decodeAll, ht, Option.bind_some, ih htail]
      rfl

theorem decodeAll_map {f : Text → Text} {segments : List Text} (h : ∀ s ∈ segments, decodeComponent (f s) = some s) :
    decodeAll (segments.map f) = some segments := by
  induction segments with
  | nil => rfl
  | cons s rest ih =>
      obtain ⟨hs, hrest⟩ := List.forall_mem_cons.mp h
      rw [List.map_cons, decodeAll, hs, Option.bind_some, ih hrest]
      rfl

theorem decodeAll_words {words : List Text} (h : ∀ w ∈ words, '%' ∉ w) : decodeAll words = some words := by
  have hself := @decodeAll_map id words fun w hw =>
    UrlReference.decodeComponent_iff.mpr (UrlReference.unescape_plain (h w hw))
  rwa [List.map_id] at hself

/-- The words of a pattern: they are written and read as they are. -/
def isWordText (w : Text) : Bool :=
  (w.all fun c => UrlReference.isQuiet c && c ≠ '%') && !UrlReference.isSingleDot w && !UrlReference.isDoubleDot w

theorem quiet_word {w : Text} (h : isWordText w = true) : UrlReference.Quiet w ∧ '%' ∉ w := by
  simp only [isWordText, Bool.and_eq_true, List.all_eq_true, Bool.not_eq_true', decide_eq_true_eq] at h
  obtain ⟨⟨hchars, hsingle⟩, hdouble⟩ := h
  exact ⟨⟨fun c hc => (hchars c hc).1, hsingle, hdouble⟩, fun hmem => (hchars '%' hmem).2 rfl⟩

theorem isWordText_base : ∀ w ∈ baseWords, isWordText w = true := by decide

theorem isWordText_words : ∀ r ∈ objectRoutes, ∀ w ∈ r.words, isWordText w = true := by decide

section Accepted

variable {rawBucket rawPath bucket path : Text} (hbucket : normalizeBucket rawBucket = .ok bucket)
  (hpath : normalizePath rawPath = .ok path)

include hbucket hpath

/-- What the router looks up for an encoded URL -/
theorem request_objectUrl {words : List Text} (hwords : ∀ w ∈ words, isWordText w = true) (method : Method) :
    request method (objectUrl words bucket path) =
      find routes method (baseWords ++ (words ++ bucket :: path.splitOn '/')) := by
  have hsegments : ∀ s ∈ path.splitOn '/', s ≠ ['.'] ∧ s ≠ ['.', '.'] := (pathRules hpath).2.noDots
  have hraws : ∀ w ∈ baseWords ++ words ++ encodeComponent bucket :: (path.splitOn '/').map encodeComponent,
      UrlReference.Quiet w := by
    intro w hw
    rcases List.mem_append.mp hw with hw | hw
    · rcases List.mem_append.mp hw with hw | hw
      · exact (quiet_word (isWordText_base w hw)).1
      · exact (quiet_word (hwords w hw)).1
    · rcases List.mem_cons.mp hw with rfl | hw
      · exact UrlReference.quiet_component (noDots_bucket hbucket)
      · obtain ⟨s, hs, rfl⟩ := List.mem_map.mp hw
        exact UrlReference.quiet_component (hsegments s hs)
  have hdecode : decodeAll (baseWords ++ words ++ encodeComponent bucket :: (path.splitOn '/').map encodeComponent) =
      some (baseWords ++ (words ++ bucket :: path.splitOn '/')) := by
    rw [← List.append_assoc]
    refine decodeAll_append (decodeAll_append ?_ ?_) ?_
    · exact decodeAll_words fun w hw => (quiet_word (isWordText_base w hw)).2
    · exact decodeAll_words fun w hw => (quiet_word (hwords w hw)).2
    · exact @decodeAll_map encodeComponent (bucket :: path.splitOn '/') fun s _ => UrlReference.decode_encode s
  rw [request, objectUrl, UrlReference.preprocess_pathText hraws, UrlReference.startPath_pathText (by simp) hraws,
    hdecode, Option.bind_some]

end Accepted

/-! The lookup -/

/-- What is left of the patterns of a method after the words that all begin with. -/
def rests (method : Method) : List (List Part × Handler) :=
  (candidates routes method).map fun r => (r.parts.drop 3, r.handler)

def answer (segments : List Text) (r : List Part × Handler) : Option (Handler × List Text) :=
  (matchParts r.1 segments).map (r.2, ·)

theorem find_base (method : Method) (segments : List Text) :
    find routes method (baseWords ++ segments) = (rests method).findSome? (answer segments) := by
  have hbase : ∀ r ∈ routes, r.parts = baseWords.map .word ++ r.parts.drop 3 := by decide
  have hmatch : ∀ r ∈ candidates routes method, matchParts r.parts (baseWords ++ segments) =
      matchParts (r.parts.drop 3) segments := by
    intro r hr
    have hmem : r ∈ routes := List.mem_of_mem_filter ((List.perm_insertionSort _ _).mem_iff.mp hr)
    conv_lhs => rw [hbase r hmem]
    exact matchParts_words baseWords _ segments
  rw [find, rests, List.findSome?_map]
  generalize candidates routes method = table at hmatch
  induction table with
  | nil => rfl
  | cons r table ih =>
      obtain ⟨hr, htable⟩ := List.forall_mem_cons.mp hmatch
      rw [List.findSome?_cons, List.findSome?_cons, hr, ih htable]
      rfl

theorem answer_word {s w : Text} {segments : List Text} {parts : List Part} {handler : Handler} :
    answer (s :: segments) (.word w :: parts, handler) = none ↔ (s = w → answer segments (parts, handler) = none) := by
  by_cases h : s = w
  · simp [answer, matchParts, h]
  · simp [answer, matchParts, h]

theorem answer_named {segments : List Text} {handler : Handler} :
    answer segments ([.param, .wildcard], handler) = none ↔ segments.length < 2 := by
  match segments with
  | [] | [_] | _ :: _ :: _ => simp [answer, matchParts]

theorem answer_param {segments : List Text} {handler : Handler} :
    answer segments ([.param], handler) = none ↔ segments.length ≠ 1 := by
  match segments with
  | [] | [_] | _ :: _ :: _ => simp [answer, matchParts]

/-- The last of the patterns is taken if and only if all the others fail. -/
theorem last_iff {segments : List Text} {rs : List (List Part × Handler)} {last : List Part × Handler}
    (hrs : ∀ r ∈ rs, r.2 ≠ last.2) {values : List Text} (hlast : answer segments last = some (last.2, values)) :
    (rs ++ [last]).findSome? (answer segments) = some (last.2, values) ↔ ∀ r ∈ rs, answer segments r = none := by
  induction rs with
  | nil => simp [hlast]
  | cons r rs ih =>
      obtain ⟨hr, hrs⟩ := List.forall_mem_cons.mp hrs
      rw [List.cons_append, List.findSome?_cons, List.forall_mem_cons]
      cases hanswer : answer segments r with
      | none =>
          refine (ih hrs).trans ?_
          simp
      | some a =>
          refine iff_of_false (fun heq => ?_) (fun hboth => by cases hboth.1)
          obtain ⟨values', -, rfl⟩ := Option.map_eq_some_iff.mp hanswer
          exact hr (congrArg Prod.fst (Option.some.inj heq))

theorem rests_get : rests .get = [([.word "info".toList, .param, .wildcard], .info),
    ([.word "sign".toList, .param, .wildcard], .redeem), ([.word "public".toList, .param, .wildcard], .publicRead),
    ([.param, .wildcard], .download)] := by decide

theorem rests_post : rests .post = [([.word "upload".toList, .word "complete".toList, .param], .uploadComplete),
    ([.word "upload".toList, .word "sign".toList, .param, .wildcard], .uploadSign),
    ([.word "list".toList, .param], .list), ([.word "delete".toList, .param], .deleteMany),
    ([.word "sign".toList, .param, .wildcard], .sign), ([.param, .wildcard], .upload)] := by decide

theorem rests_put : rests .put = [([.param, .wildcard], .replace)] := by decide

theorem rests_delete : rests .delete = [([.param, .wildcard], .delete)] := by decide

theorem find_download (bucket p : Text) (ps : List Text) :
    find routes .get (baseWords ++ bucket :: p :: ps) = some (.download, [bucket, ['/'].intercalate (p :: ps)]) ↔
      ¬(bucket ∈ ["info".toList, "sign".toList, "public".toList] ∧ 2 ≤ (p :: ps).length) := by
  rw [find_base, rests_get]
  refine (@last_iff _ [_, _, _] _ (by decide) _ rfl).trans ?_
  simp only [List.forall_mem_cons, answer_word, answer_named]
  grind

theorem find_upload (bucket p : Text) (ps : List Text) :
    find routes .post (baseWords ++ bucket :: p :: ps) = some (.upload, [bucket, ['/'].intercalate (p :: ps)]) ↔
      ¬(bucket = "sign".toList ∧ 2 ≤ (p :: ps).length) ∧
        ¬(bucket ∈ ["list".toList, "delete".toList] ∧ (p :: ps).length = 1) ∧
          ¬(bucket = "upload".toList ∧ (p = "sign".toList ∧ 3 ≤ (p :: ps).length ∨
            p = "complete".toList ∧ (p :: ps).length = 2)) := by
  rw [find_base, rests_post]
  refine (@last_iff _ [_, _, _, _, _] _ (by decide) _ rfl).trans ?_
  simp only [List.forall_mem_cons, answer_word, answer_named, answer_param]
  grind

theorem first_hit {segments : List Text} {r : List Part × Handler} {a : Handler × List Text}
    (h : answer segments r = some a) (rs : List (List Part × Handler)) :
    (r :: rs).findSome? (answer segments) = some a := by
  rw [List.findSome?_cons, h]

theorem first_skip {segments : List Text} {r : List Part × Handler} (h : answer segments r = none)
    (rs : List (List Part × Handler)) : (r :: rs).findSome? (answer segments) = rs.findSome? (answer segments) := by
  rw [List.findSome?_cons, h]

theorem answer_other {s w : Text} (h : s ≠ w) (segments : List Text) (parts : List Part) (handler : Handler) :
    answer (s :: segments) (.word w :: parts, handler) = none := answer_word.mpr fun heq => absurd heq h

/-- A route with words of its own is never missed. -/
theorem find_words (bucket p : Text) (ps : List Text) : ∀ r ∈ objectRoutes, r.words ≠ [] →
    find routes r.method (baseWords ++ (r.words ++ bucket :: p :: ps)) =
      some (r.handler, [bucket, ['/'].intercalate (p :: ps)]) := by
  simp only [objectRoutes, List.forall_mem_cons]
  refine ⟨fun _ => ?_, fun h => absurd rfl h, fun _ => ?_, fun _ => ?_, fun _ => ?_, fun _ => ?_, fun h => absurd rfl h,
    fun h => absurd rfl h, fun h => absurd rfl h, List.forall_mem_nil _⟩
  · rw [find_base, rests_get]
    exact first_hit rfl _
  · rw [find_base, rests_post]
    refine (first_skip (answer_word.mpr fun _ => answer_other (by decide) _ _ _) _).trans ?_
    exact first_hit rfl _
  · rw [find_base, rests_post]
    refine (first_skip (answer_other (by decide) _ _ _) _).trans ((first_skip (answer_other (by decide) _ _ _) _).trans ?_)
    refine (first_skip (answer_other (by decide) _ _ _) _).trans ((first_skip (answer_other (by decide) _ _ _) _).trans ?_)
    exact first_hit rfl _
  · rw [find_base, rests_get]
    refine (first_skip (answer_other (by decide) _ _ _) _).trans ?_
    exact first_hit rfl _
  · rw [find_base, rests_get]
    refine (first_skip (answer_other (by decide) _ _ _) _).trans ((first_skip (answer_other (by decide) _ _ _) _).trans ?_)
    exact first_hit rfl _

theorem routed_iff (bucket p : Text) (ps : List Text) :
    (∀ r ∈ objectRoutes, find routes r.method (baseWords ++ (r.words ++ bucket :: p :: ps)) =
      some (r.handler, [bucket, ['/'].intercalate (p :: ps)])) ↔ ¬misread bucket (p :: ps) := by
  have hwords := find_words bucket p ps
  have hreplace : find routes .put (baseWords ++ bucket :: p :: ps) =
      some (.replace, [bucket, ['/'].intercalate (p :: ps)]) := by
    rw [find_base, rests_put]
    exact first_hit rfl _
  have hdelete : find routes .delete (baseWords ++ bucket :: p :: ps) =
      some (.delete, [bucket, ['/'].intercalate (p :: ps)]) := by
    rw [find_base, rests_delete]
    exact first_hit rfl _
  have hdownload := find_download bucket p ps
  have hupload := find_upload bucket p ps
  have hmisread : misread bucket (p :: ps) ↔
      ¬(¬(bucket ∈ ["info".toList, "sign".toList, "public".toList] ∧ 2 ≤ (p :: ps).length) ∧
        ¬(bucket = "sign".toList ∧ 2 ≤ (p :: ps).length) ∧
          ¬(bucket ∈ ["list".toList, "delete".toList] ∧ (p :: ps).length = 1) ∧
            ¬(bucket = "upload".toList ∧ (p = "sign".toList ∧ 3 ≤ (p :: ps).length ∨
              p = "complete".toList ∧ (p :: ps).length = 2))) := by
    rw [misread, List.head?_cons, Option.some_inj, Option.some_inj]
    grind
  have hplain : ∀ r ∈ objectRoutes, r.words = [] →
      r ∈ [⟨.delete, [], .delete⟩, ⟨.get, [], .download⟩, ⟨.post, [], .upload⟩, ⟨.put, [], .replace⟩] := by decide
  rw [hmisread, not_not, ← hdownload, ← hupload]
  constructor
  · intro h
    exact ⟨h ⟨.get, [], .download⟩ (by decide), h ⟨.post, [], .upload⟩ (by decide)⟩
  · rintro ⟨hget, hpost⟩ r hr
    by_cases hempty : r.words = []
    · have hmem := hplain r hr hempty
      simp only [List.mem_cons, List.not_mem_nil, or_false] at hmem
      rcases hmem with rfl | rfl | rfl | rfl
      · exact hdelete
      · exact hget
      · exact hpost
      · exact hreplace
    · exact hwords r hr hempty

/-! The characters of a token -/

def isTokenChar (c : Char) : Bool := JsText.isLetter c || JsText.isDigit c || c ∈ ['-', '_', '.']

/-- A unit that is a character of a token. -/
def IsTokenUnit (u : Nat) : Prop := u < 128 ∧ isTokenChar (Char.ofNat u) = true

instance (u : Nat) : Decidable (IsTokenUnit u) := inferInstanceAs (Decidable (_ ∧ _))

def tokenText (token : Str) : Text := token.map Char.ofNat

section Token

variable {Master Key : Type} (hkdf : Master → List Nat → Key) (hmac : Key → List Nat → Digest)

theorem tokenUnit_signToken (master : Master) (p : SignedPayload) : ∀ u ∈ signToken hkdf hmac master p, IsTokenUnit u := by
  have hletter : ∀ n < 64, IsTokenUnit (letter n) := by decide
  unfold signToken
  refine List.forall_mem_append.mpr ⟨forall_b64url hletter (encode_body_lt p), List.forall_mem_cons.mpr ⟨by decide, ?_⟩⟩
  exact forall_b64url hletter (Digest.byte _)

theorem signToken_ne (master : Master) (p : SignedPayload) : signToken hkdf hmac master p ≠ [] := by
  unfold signToken
  simp

end Token

theorem isTokenChar_text {token : Str} (h : ∀ u ∈ token, IsTokenUnit u) : ∀ c ∈ tokenText token, isTokenChar c = true := by
  intro c hc
  obtain ⟨u, hu, rfl⟩ := List.mem_map.mp hc
  exact (h u hu).2

theorem units_tokenText {token : Str} (h : ∀ u ∈ token, IsTokenUnit u) : units (tokenText token) = token := by
  have hself : ∀ u < 128, utf16 (Char.ofNat u).toNat = [u] := by decide
  induction token with
  | nil => rfl
  | cons u token ih =>
      obtain ⟨hu, htoken⟩ := List.forall_mem_cons.mp h
      have htext : units (tokenText (u :: token)) = utf16 (Char.ofNat u).toNat ++ units (tokenText token) := rfl
      rw [htext, hself u hu.1, ih htoken]
      rfl

/-- A character of a token is nothing special in a URL. -/
theorem isTokenChar_quiet {c : Char} (h : isTokenChar c = true) :
    UrlReference.isEdge c = false ∧ UrlReference.isDropped c = false ∧ c ≠ '#' ∧ inQuerySet c = false := by
  have hall : ∀ n < 128, isTokenChar (Char.ofNat n) = true → UrlReference.isEdge (Char.ofNat n) = false ∧
      UrlReference.isDropped (Char.ofNat n) = false ∧ Char.ofNat n ≠ '#' ∧ inQuerySet (Char.ofNat n) = false := by
    decide
  have hlt : c.toNat < 128 := by
    apply UrlReference.isUnreserved_lt
    simp only [isTokenChar, UrlReference.isUnreserved, Bool.or_eq_true, decide_eq_true_eq, List.mem_cons] at h ⊢
    tauto
  have hc := hall c.toNat hlt
  rw [Char.ofNat_toNat] at hc
  exact hc h

/-! A signed address as it stands -/

theorem signedUrl_eq (bucket name : Text) (token : Str) : signedUrl bucket name token =
    pathText (baseWords ++ ["sign".toList, bucket]) ++ '/' :: (name ++ '?' :: ("token=".toList ++ tokenText token)) := by
  have hhead : "/storage/v1/object/sign/".toList = pathText (baseWords ++ ["sign".toList]) ++ ['/'] := by decide
  have hmark : "?token=".toList = '?' :: "token=".toList := by decide
  unfold signedUrl tokenText
  rw [hhead, hmark]
  generalize "sign".toList = sign
  generalize "token=".toList = token
  simp [pathText]

section Accepted

variable {rawBucket rawPath bucket path : Text} (hbucket : normalizeBucket rawBucket = .ok bucket)
  (hpath : normalizePath rawPath = .ok path)

include hbucket

theorem quiet_bucket : UrlReference.Quiet bucket ∧ '%' ∉ bucket := by
  have hchars := bucket_chars hbucket
  have hpercent : '%' ∉ bucket := fun hmem => absurd (hchars '%' hmem) (by decide)
  have hunreserved : ∀ c ∈ bucket, UrlReference.isUnreserved c = true := by
    intro c hc
    have hc := hchars c hc
    simp only [bucketChar, UrlReference.isUnreserved, JsText.isLetter, Bool.or_eq_true, decide_eq_true_eq, List.mem_cons,
      List.not_mem_nil, or_false] at hc ⊢
    tauto
  have hdecode : decodeComponent bucket = some bucket :=
    UrlReference.decodeComponent_iff.mpr (UrlReference.unescape_plain hpercent)
  have hdots := UrlReference.not_dots hdecode (noDots_bucket hbucket)
  exact ⟨⟨fun c hc => UrlReference.isQuiet_unreserved (hunreserved c hc), hdots.1, hdots.2⟩, hpercent⟩

theorem quiet_words : ∀ w ∈ baseWords ++ ["sign".toList, bucket], UrlReference.Quiet w ∧ '%' ∉ w := by
  refine List.forall_mem_append.mpr ⟨fun w hw => quiet_word (isWordText_base w hw), ?_⟩
  exact List.forall_mem_cons.mpr ⟨quiet_word (by decide), List.forall_mem_singleton.mpr (quiet_bucket hbucket)⟩

include hpath

theorem preprocess_signedUrl {token : Str} (htoken : ∀ u ∈ token, IsTokenUnit u) (hne : token ≠ []) :
    preprocess (signedUrl bucket path token) = signedUrl bucket path token := by
  have htext := isTokenChar_text htoken
  have hlow : ∀ {c : Char}, 32 ≤ c.toNat → UrlReference.isDropped c = false := by
    intro c hc
    rw [Bool.eq_false_iff]
    intro hdropped
    simp only [UrlReference.isDropped, Bool.or_eq_true, decide_eq_true_eq] at hdropped
    rcases hdropped with (rfl | rfl) | rfl <;> exact absurd hc (by decide)
  have hwords : ∀ c ∈ pathText (baseWords ++ ["sign".toList, bucket]), UrlReference.isDropped c = false := by
    intro c hc
    obtain ⟨w, hw, hmem⟩ := List.mem_flatMap.mp hc
    rcases List.mem_cons.mp hmem with rfl | hmem
    · rfl
    · have hedge := UrlReference.isEdge_quiet ((quiet_words hbucket w hw).1.chars c hmem)
      exact hlow (by simp only [UrlReference.isEdge, decide_eq_false_iff_not] at hedge; omega)
  have hparameter : ∀ c ∈ "token=".toList, UrlReference.isDropped c = false :=
    List.all_iff_forall_prop.mp (by decide)
  rw [signedUrl_eq]
  apply UrlReference.preprocess_self
  · simp only [List.forall_mem_append, List.forall_mem_cons]
    exact ⟨hwords, rfl, fun c hc => hlow ((pathRules hpath).2.control c hc), rfl, hparameter,
      fun c hc => (isTokenChar_quiet (htext c hc)).2.1⟩
  · intro c hc
    cases hc
    rfl
  · intro c hc
    have hnil : tokenText token ≠ [] := by simpa [tokenText] using hne
    rw [List.getLast?_append, List.getLast?_cons, List.getLast?_append, List.getLast?_cons, List.getLast?_append,
      List.getLast?_eq_some_getLast hnil] at hc
    cases hc
    exact (isTokenChar_quiet (htext _ (List.getLast_mem hnil))).1

theorem startPath_signedUrl {token : Str} (htoken : ∀ u ∈ token, IsTokenUnit u) (hne : token ≠ []) :
    startPath (preprocess (signedUrl bucket path token)) =
      UrlReference.readPath (baseWords ++ ["sign".toList, bucket]) [] path := by
  rw [preprocess_signedUrl hbucket hpath htoken hne, signedUrl_eq,
    UrlReference.startPath_words fun w hw => (quiet_words hbucket w hw).1, UrlReference.readPath_query]

theorem queryOf_signedUrl {token : Str} (htoken : ∀ u ∈ token, IsTokenUnit u) (hne : token ≠ [])
    (hlost : ∀ c ∈ path, isLost c = false) : queryOf (signedUrl bucket path token) = "token=".toList ++ tokenText token := by
  have htext := isTokenChar_text htoken
  have hpathEnds : ∀ c ∈ path, endsPath c = false := by
    intro c hc
    have hkept := hlost c hc
    simp only [isLost, List.mem_cons, List.not_mem_nil, or_false, decide_eq_false_iff_not, not_or] at hkept
    simp [endsPath, hkept]
  have hwords : ∀ c ∈ pathText (baseWords ++ ["sign".toList, bucket]), endsPath c = false := by
    intro c hc
    obtain ⟨w, hw, hmem⟩ := List.mem_flatMap.mp hc
    rcases List.mem_cons.mp hmem with rfl | hmem
    · rfl
    · have hquiet := (quiet_words hbucket w hw).1.chars c hmem
      simp only [UrlReference.isQuiet, Bool.and_eq_true, Bool.not_eq_true'] at hquiet
      exact hquiet.1.2
  have hquery : ∀ c ∈ "token=".toList ++ tokenText token, c ≠ '#' ∧ inQuerySet c = false :=
    List.forall_mem_append.mpr ⟨List.all_iff_forall_prop.mp (by decide), fun c hc => (isTokenChar_quiet (htext c hc)).2.2⟩
  have hfront : ∀ c ∈ pathText (baseWords ++ ["sign".toList, bucket]) ++ '/' :: path, (!endsPath c) = true := by
    refine List.forall_mem_append.mpr ⟨fun c hc => ?_, List.forall_mem_cons.mpr ⟨rfl, fun c hc => ?_⟩⟩
    · rw [hwords c hc]
      rfl
    · rw [hpathEnds c hc]
      rfl
  have hencode : ∀ {q : Text}, (∀ c ∈ q, inQuerySet c = false) → q.flatMap (percentEncode inQuerySet) = q := by
    intro q hq
    induction q with
    | nil => rfl
    | cons c q ih =>
        obtain ⟨hc, hq⟩ := List.forall_mem_cons.mp hq
        rw [List.flatMap_cons, ih hq, percentEncode, hc]
        rfl
  have htake : ("token=".toList ++ tokenText token).takeWhile (fun c => decide (c ≠ '#')) =
      "token=".toList ++ tokenText token :=
    List.takeWhile_eq_self_iff.mpr fun c hc => decide_eq_true (hquery c hc).1
  have hsplit : ∀ a b q : Text, a ++ '/' :: (b ++ '?' :: q) = (a ++ '/' :: b) ++ '?' :: q := by simp
  rw [queryOf, preprocess_signedUrl hbucket hpath htoken hne, signedUrl_eq, hsplit,
    List.dropWhile_append_of_pos hfront, List.dropWhile_cons_of_neg (by decide)]
  change (("token=".toList ++ tokenText token).takeWhile fun c => decide (c ≠ '#')).flatMap (percentEncode inQuerySet) = _
  rw [htake, hencode fun c hc => (hquery c hc).2]

/-- What the router looks up for a signed address in whose path nothing is lost -/
theorem request_signedUrl {token : Str} (htoken : ∀ u ∈ token, IsTokenUnit u) (hne : token ≠ [])
    (hlost : ∀ c ∈ path, isLost c = false) : request .get (signedUrl bucket path token) = some (.redeem, [bucket, path]) := by
  have hkept : ∀ {c : Char}, isLost c = true → c ∉ path := by
    intro c hc hmem
    rw [hlost c hmem] at hc
    cases hc
  have hwhole : path.takeWhile (fun c => !endsPath c) = path := by
    apply List.takeWhile_eq_self_iff.mpr
    intro c hc
    have hkept := hlost c hc
    simp only [isLost, List.mem_cons, List.not_mem_nil, or_false, decide_eq_false_iff_not, not_or] at hkept
    simp [endsPath, hkept]
  have hsegments : ∀ s ∈ path.splitOn '/', decodeComponent (encodePath s) = some s := by
    intro s hs
    have hpercent : '%' ∉ s := fun hmem => hkept (by decide) (mem_of_segment hs hmem)
    rw [UrlReference.decodeComponent_iff, UrlReference.unescape_encodePath, UrlReference.unescape_plain hpercent]
  have hdots : ∀ s ∈ ([] ++ path.takeWhile fun c => !endsPath c).splitOn '/',
      UrlReference.isSingleDot (encodePath s) = false ∧ UrlReference.isDoubleDot (encodePath s) = false := by
    rw [hwhole, List.nil_append]
    exact fun s hs => UrlReference.not_dots (hsegments s hs) ((pathRules hpath).2.noDots s hs)
  have hread := @UrlReference.readPath_segments (baseWords ++ ["sign".toList, bucket]) [] path List.not_mem_nil
    (hkept (by decide)) hdots
  rw [hwhole, List.nil_append, show encodePath [] = [] from rfl] at hread
  have hdecode := decodeAll_append (decodeAll_words fun w hw => (quiet_words hbucket w hw).2) (decodeAll_map hsegments)
  obtain ⟨p, ps, hcons⟩ := List.exists_cons_of_ne_nil (List.splitOn_ne_nil '/' path)
  have hjoin : ['/'].intercalate (p :: ps) = path := hcons ▸ List.intercalate_splitOn '/'
  have hfind := find_words bucket p ps ⟨.get, ["sign".toList], .redeem⟩ (by decide) (by decide)
  rw [hjoin, ← hcons] at hfind
  rw [request, startPath_signedUrl hbucket hpath htoken hne, hread, hdecode, Option.bind_some, List.append_assoc]
  exact hfind

end Accepted

/-! Redemption -/

section Redemption

variable {Master Key : Type} {hkdf : Master → List Nat → Key} {hmac : Key → List Nat → Digest}
  {tokenOf : Text → Option Text}

theorem projectFromToken_signToken (world : World Master) (master : Master) (ref bucket name : Text) (exp : Double) :
    projectFromToken world (signToken hkdf hmac master (payloadOf ref bucket name exp)) = world.project (units ref) := by
  have hdot : '.'.toNat ∈ signToken hkdf hmac master (payloadOf ref bucket name exp) :=
    List.mem_append_right _ List.mem_cons_self
  have hbody := bodyPart_signToken hkdf hmac master (payloadOf ref bucket name exp)
  have hnot : ¬('.'.toNat ∉ signToken hkdf hmac master (payloadOf ref bucket name exp) ∨
      bodyPart (signToken hkdf hmac master (payloadOf ref bucket name exp)) = []) := by
    rw [hbody]
    exact not_or.mpr ⟨not_not.mpr hdot, body_ne _⟩
  rw [projectFromToken, if_neg hnot, hbody, parse_body, Option.bind_some, property_ref]
  rfl

/-- What is served was asked for. -/
theorem asked_of_served {world : World Master} {now : Rat} {rawBucket rawName query bucket name : Text} {object : Content}
    (h : redeem hkdf hmac tokenOf world now rawBucket rawName query = .served bucket name object) :
    rawBucket = bucket ∧ rawName = name := by
  unfold redeem at h
  split at h
  · cases h
  next hbucket =>
    split at h
    · cases h
    next hname =>
      obtain rfl := eq_of_normalizeBucket hbucket
      obtain ⟨rfl, -⟩ := pathRules hname
      split at h
      · cases h
      · cases h
      split at h
      · cases h
      split at h
      · cases h
      split at h
      · cases h
      · cases h
        exact ⟨rfl, rfl⟩

variable {rawBucket rawPath bucket path : Text} (hbucket : normalizeBucket rawBucket = .ok bucket)
  (hpath : normalizePath rawPath = .ok path)

include hbucket hpath

theorem accepted_again : normalizeBucket bucket = .ok bucket ∧ normalizePath path = .ok path := by
  obtain rfl := eq_of_normalizeBucket hbucket
  obtain ⟨rfl, -⟩ := pathRules hpath
  exact ⟨hbucket, hpath⟩

theorem redeem_signToken (hquery : ∀ t, (∀ c ∈ t, isTokenChar c = true) → tokenOf ("token=".toList ++ t) = some t)
    {world : World Master} {project : Project Master} {exp : Double} {now : Rat} {object : Content}
    (hproject : world.project (units project.ref) = some project)
    (hobject : world.object project.ref bucket path = some object) (hnow : now < exp.1) :
    redeem hkdf hmac tokenOf world now bucket path ("token=".toList ++
      tokenText (signToken hkdf hmac project.master (payloadOf project.ref bucket path exp))) =
        .served bucket path object := by
  obtain ⟨hb, hp⟩ := accepted_again hbucket hpath
  have hunits := tokenUnit_signToken hkdf hmac project.master (payloadOf project.ref bucket path exp)
  have htoken := hquery _ (isTokenChar_text hunits)
  have hverify := (verifyToken_signToken hkdf hmac project.master (payloadOf project.ref bucket path exp)
    ⟨units project.ref, units bucket, units path⟩ now).mpr ⟨rfl, hnow, List.mem_singleton.mpr rfl⟩
  obtain ⟨value, hvalue⟩ := hverify
  have hne : tokenText (signToken hkdf hmac project.master (payloadOf project.ref bucket path exp)) ≠ [] := by
    simpa [tokenText] using signToken_ne hkdf hmac project.master (payloadOf project.ref bucket path exp)
  obtain ⟨c, cs, hcons⟩ := List.exists_cons_of_ne_nil hne
  have hread := units_tokenText hunits
  rw [hcons] at htoken hread
  simp only [redeem, hb, hp, hcons, htoken, hread, projectFromToken_signToken, hproject, hvalue, hobject]

end Redemption

/-! What is lost -/

theorem matchParts_words_inv {words : List Text} {parts : List Part} {segments values : List Text}
    (h : matchParts (words.map .word ++ parts) segments = some values) :
    ∃ rest, segments = words ++ rest ∧ matchParts parts rest = some values := by
  induction words generalizing segments with
  | nil => exact ⟨segments, rfl, h⟩
  | cons w words ih =>
      cases segments with
      | nil => cases h
      | cons s segments =>
          rw [List.map_cons, List.cons_append, matchParts] at h
          split at h
          · next hw =>
              obtain ⟨rest, rfl, hrest⟩ := ih h
              exact ⟨rest, by rw [hw, List.cons_append], hrest⟩
          · cases h

theorem find_redeem {segments : List Text} {bucket name : Text}
    (h : find routes .get segments = some (.redeem, [bucket, name])) :
    ∃ p ps, segments = baseWords ++ ["sign".toList, bucket] ++ p :: ps ∧ ['/'].intercalate (p :: ps) = name := by
  obtain ⟨r, hr, hanswer⟩ := List.exists_of_findSome?_eq_some h
  have hmem : r ∈ routes := List.mem_of_mem_filter ((List.perm_insertionSort _ _).mem_iff.mp hr)
  obtain ⟨values, hmatch, hvalues⟩ := Option.map_eq_some_iff.mp hanswer
  obtain ⟨hhandler, rfl⟩ := Prod.mk.inj hvalues
  have hparts : ∀ r ∈ routes, r.handler = .redeem →
      r.parts = (baseWords ++ ["sign".toList]).map .word ++ [.param, .wildcard] := by decide
  rw [hparts r hmem hhandler] at hmatch
  obtain ⟨rest, rfl, hrest⟩ := matchParts_words_inv hmatch
  match rest, hrest with
  | b :: p :: ps, hrest =>
      cases hrest
      exact ⟨p, ps, by simp, rfl⟩

theorem mem_decodeAll {raws segments : List Text} (h : decodeAll raws = some segments) {s : Text} (hs : s ∈ segments) :
    ∃ raw ∈ raws, decodeComponent raw = some s := by
  induction raws generalizing segments with
  | nil =>
      cases h
      exact absurd hs List.not_mem_nil
  | cons raw rest ih =>
      obtain ⟨t, ht, hrest⟩ := Option.bind_eq_some_iff.mp h
      obtain ⟨tail, htail, rfl⟩ := Option.map_eq_some_iff.mp hrest
      rcases List.mem_cons.mp hs with rfl | hs
      · exact ⟨raw, List.mem_cons_self, ht⟩
      · obtain ⟨raw', hraw, hdecode⟩ := ih htail hs
        exact ⟨raw', List.mem_cons_of_mem _ hraw, hdecode⟩

theorem totalWeight_decoded {raws segments : List Text} (h : decodeAll raws = some segments) :
    UrlReference.totalWeight raws = (segments.map fun s => (bytes s).length + 1).sum := by
  induction raws generalizing segments with
  | nil =>
      cases h
      rfl
  | cons raw rest ih =>
      obtain ⟨s, hs, hrest⟩ := Option.bind_eq_some_iff.mp h
      obtain ⟨tail, htail, rfl⟩ := Option.map_eq_some_iff.mp hrest
      have hweight : UrlReference.weight raw = (bytes s).length + 1 := by
        rw [UrlReference.weight, UrlReference.decodeComponent_iff.mp hs]
        rfl
      rw [List.map_cons, List.sum_cons, ← ih htail, ← hweight]
      rfl

theorem weight_join (p : Text) (ps : List Text) :
    ((p :: ps).map fun s => (bytes s).length + 1).sum = (bytes (['/'].intercalate (p :: ps))).length + 1 := by
  induction ps generalizing p with
  | nil => simp
  | cons q qs ih =>
      have hslash : (bytes ['/']).length = 1 := by decide
      rw [List.map_cons, List.sum_cons, ih q, List.intercalate_cons_cons, UrlReference.bytes_append,
        UrlReference.bytes_append, List.length_append, List.length_append, hslash]
      omega

section Lost

variable {rawBucket rawPath bucket path : Text} (hbucket : normalizeBucket rawBucket = .ok bucket)
  (hpath : normalizePath rawPath = .ok path)

include hbucket hpath

/-- An address that is read as it was meant has nothing in its path that is lost. -/
theorem kept_of_request {token : Str} (htoken : ∀ u ∈ token, IsTokenUnit u) (hne : token ≠ [])
    (h : request .get (signedUrl bucket path token) = some (.redeem, [bucket, path])) : ∀ c ∈ path, isLost c = false := by
  have hwordsRead := decodeAll_words fun w hw => (quiet_words hbucket w hw).2
  rw [request, startPath_signedUrl hbucket hpath htoken hne] at h
  obtain ⟨segments, hsegments, hfind⟩ := Option.bind_eq_some_iff.mp h
  obtain ⟨p, ps, rfl, hjoin⟩ := find_redeem hfind
  have hweight := UrlReference.weight_readPath (baseWords ++ ["sign".toList, bucket]) [] path
  rw [show encodePath [] = [] from rfl, totalWeight_decoded hsegments, totalWeight_decoded hwordsRead, List.map_append,
    List.sum_append, weight_join, hjoin, List.nil_append] at hweight
  obtain ⟨hle, hlt⟩ := hweight
  -- the path is as long as what is read of it
  have hwhole : path.takeWhile (fun c => !endsPath c) = path := by
    by_contra hcut
    obtain ⟨rest, hrest⟩ := List.takeWhile_prefix (l := path) fun c => !endsPath c
    have hrestNe : rest ≠ [] := by
      rintro rfl
      rw [List.append_nil] at hrest
      exact hcut hrest
    obtain ⟨c, cs, rfl⟩ := List.exists_cons_of_ne_nil hrestNe
    have hlength := congrArg (fun t => (bytes t).length) hrest
    have hpos := UrlReference.length_bytes_cons c cs
    simp only [UrlReference.bytes_append, List.length_append] at hlength
    omega
  have hpercent : '%' ∉ path := by
    intro hmem
    rw [hwhole] at hlt
    have := hlt hmem
    omega
  have hback : '\\' ∉ path := by
    intro hmem
    rw [← hjoin] at hmem
    obtain ⟨s, hs, hsback⟩ := (mem_intercalate hmem).resolve_left (by decide)
    obtain ⟨raw, hraw, hdecode⟩ := mem_decodeAll hsegments (List.mem_append_right _ hs)
    have hbytes := UrlReference.decodeComponent_iff.mp hdecode
    rcases UrlReference.mem_readPath (List.forall_mem_nil _) hraw with hword | rfl | ⟨y, rfl, hy, hslash⟩
    · obtain ⟨hquiet, hplain⟩ := quiet_words hbucket raw hword
      rw [UrlReference.unescape_plain hplain] at hbytes
      obtain rfl := UrlReference.bytes_inj (Option.some.inj hbytes)
      exact absurd (hquiet.chars _ hsback) (by decide)
    · obtain rfl : [] = s := UrlReference.bytes_inj (Option.some.inj hbytes)
      exact List.not_mem_nil hsback
    · rw [UrlReference.unescape_encodePath, UrlReference.unescape_plain fun hin => hpercent (hy.subset hin)] at hbytes
      obtain rfl := UrlReference.bytes_inj (Option.some.inj hbytes)
      exact absurd (hslash _ hsback) (by decide)
  intro c hc
  rw [Bool.eq_false_iff]
  intro hlost
  simp only [isLost, List.mem_cons, List.not_mem_nil, or_false, decide_eq_true_eq] at hlost
  have hends := List.takeWhile_eq_self_iff.mp hwhole c hc
  rcases hlost with rfl | rfl | rfl | rfl
  · exact hpercent hc
  · cases hends
  · cases hends
  · exact hback hc

end Lost

section Main

variable {Master Key : Type} {hkdf : Master → List Nat → Key} {hmac : Key → List Nat → Digest}
  {tokenOf : Text → Option Text} {rawBucket rawPath bucket path : Text}

/-- A bucket and a path are what their URLs address if and only if the bucket is not read as a word of a pattern
and nothing of the path is lost where it is not encoded. -/
theorem addressed_iff (hquery : ∀ t, (∀ c ∈ t, isTokenChar c = true) → tokenOf ("token=".toList ++ t) = some t)
    (project : Project Master) (hbucket : normalizeBucket rawBucket = .ok bucket)
    (hpath : normalizePath rawPath = .ok path) : Addressed hkdf hmac tokenOf project bucket path ↔
      ¬misread bucket (path.splitOn '/') ∧ ∀ c ∈ path, isLost c = false := by
  obtain ⟨hb, hp⟩ := accepted_again hbucket hpath
  obtain ⟨p, ps, hcons⟩ := List.exists_cons_of_ne_nil (List.splitOn_ne_nil '/' path)
  have hjoin : ['/'].intercalate (p :: ps) = path := hcons ▸ List.intercalate_splitOn '/'
  have hrequest : ∀ r ∈ objectRoutes, request r.method (objectUrl r.words bucket path) =
      find routes r.method (baseWords ++ (r.words ++ bucket :: p :: ps)) := by
    intro r hr
    rw [request_objectUrl hbucket hpath (isWordText_words r hr), hcons]
  have hrouted := routed_iff bucket p ps
  rw [hjoin, ← hcons] at hrouted
  have hsign : ∀ {visible : Text → Text → Bool} {exp : Double} {url : Text},
      sign hkdf hmac visible project exp bucket path = some url →
        url = signedUrl bucket path (signToken hkdf hmac project.master (payloadOf project.ref bucket path exp)) := by
    intro visible exp url hurl
    rw [sign, hb, hp] at hurl
    dsimp only at hurl
    split at hurl
    · exact (Option.some.inj hurl).symm
    · cases hurl
  constructor
  · intro h
    refine ⟨hrouted.mp fun r hr => ?_, ?_⟩
    · rw [hcons, ← hrequest r hr]
      exact h.routed r hr
    · have hunits := tokenUnit_signToken hkdf hmac project.master (payloadOf project.ref bucket path ⟨1, by decide +kernel⟩)
      have hne := signToken_ne hkdf hmac project.master (payloadOf project.ref bucket path ⟨1, by decide +kernel⟩)
      have hurl : sign hkdf hmac (fun _ _ => true) project ⟨1, by decide +kernel⟩ bucket path = some (signedUrl bucket path
          (signToken hkdf hmac project.master (payloadOf project.ref bucket path ⟨1, by decide +kernel⟩))) := by
        rw [sign, hb, hp]
        rfl
      have hserved := h.shared ⟨fun _ => some project, fun _ _ _ => some []⟩ _ _ 0 _ [] rfl rfl hurl (by norm_num)
      unfold fetch at hserved
      split at hserved
      · next name rest hfound =>
          obtain ⟨rfl, rfl⟩ := asked_of_served hserved
          exact kept_of_request hbucket hpath hunits hne hfound
      · cases hserved
      · cases hserved
  · rintro ⟨hread, hlost⟩
    refine ⟨fun r hr => ?_, ?_⟩
    · rw [hrequest r hr, ← hcons]
      exact hrouted.mpr hread r hr
    · intro world visible exp now url object hproject hobject hurl hnow
      obtain rfl := hsign hurl
      have hunits := tokenUnit_signToken hkdf hmac project.master (payloadOf project.ref bucket path exp)
      have hne := signToken_ne hkdf hmac project.master (payloadOf project.ref bucket path exp)
      rw [fetch, request_signedUrl hbucket hpath hunits hne hlost, queryOf_signedUrl hbucket hpath hunits hne hlost]
      exact redeem_signToken hbucket hpath hquery hproject hobject hnow

end Main

/-- A query that is the token alone -/
def sampleTokenOf (query : Text) : Option Text := if query.take 6 = "token=".toList then some (query.drop 6) else none

theorem sampleTokenOf_token (t : Text) : sampleTokenOf ("token=".toList ++ t) = some t := by
  have hlength : "token=".toList.length = 6 := by decide
  rw [sampleTokenOf, List.take_left' hlength, List.drop_left' hlength, if_pos rfl]

theorem addressed_sample : Addressed sampleHkdf sampleHmac sampleTokenOf ⟨"aaaaaaaaaaaaaaaa".toList, sampleMaster⟩
    "photos".toList "info/été 1.png".toList :=
  have hbucket : normalizeBucket "photos".toList = .ok "photos".toList := by decide
  have hpath : normalizePath "info/été 1.png".toList = .ok "info/été 1.png".toList := by decide
  (addressed_iff (fun t _ => sampleTokenOf_token t) _ hbucket hpath).mpr ⟨by decide, List.all_iff_forall_prop.mp (by decide)⟩

/-- The bucket info is read as a word, and a question mark ends the path of a signed address. -/
theorem names_lost :
    (¬∀ bucket path, normalizeBucket bucket = .ok bucket → normalizePath path = .ok path →
      request .get (objectUrl [] bucket path) = some (.download, [bucket, path])) ∧
    ¬∀ bucket path token, normalizeBucket bucket = .ok bucket → normalizePath path = .ok path →
      (∀ u ∈ token, IsTokenUnit u) → token ≠ [] →
        request .get (signedUrl bucket path token) = some (.redeem, [bucket, path]) := by
  constructor
  · intro h
    have hbucket : normalizeBucket "info".toList = .ok "info".toList := by decide
    have hpath : normalizePath "a/b".toList = .ok "a/b".toList := by decide
    have hrouted := h _ _ hbucket hpath
    have hsegments : "a/b".toList.splitOn '/' = ["a".toList, "b".toList] := by decide
    have hjoin : "a/b".toList = ['/'].intercalate ["a".toList, "b".toList] := by decide
    rw [request_objectUrl hbucket hpath (List.forall_mem_nil _), hsegments, List.nil_append, hjoin] at hrouted
    exact (find_download _ _ _).mp hrouted ⟨List.mem_cons_self, by decide⟩
  · intro h
    have hbucket : normalizeBucket "photos".toList = .ok "photos".toList := by decide
    have hpath : normalizePath "a?b".toList = .ok "a?b".toList := by decide
    have htoken : ∀ u ∈ [97, 46, 97], IsTokenUnit u := by decide
    have hne : [97, 46, 97] ≠ [] := List.cons_ne_nil _ _
    have hkept := kept_of_request hbucket hpath htoken hne (h _ _ _ hbucket hpath htoken hne)
    exact absurd (hkept '?' (by decide)) (by decide)

end Corebase.StorageUrls
