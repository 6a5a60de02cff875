import Corebase.JsonMeaning

namespace Corebase.Jwt

open JsNumber Json

/-! Bytes and texts -/

/-- The value of a letter of the base64 alphabets; any other unit is skipped. -/
def sextet (u : Nat) : Option Nat :=
  if 65 ≤ u ∧ u ≤ 90 then some (u - 65)
  else if 97 ≤ u ∧ u ≤ 122 then some (u - 71)
  else if 48 ≤ u ∧ u ≤ 57 then some (u + 4)
  else if u = '-'.toNat ∨ u = '+'.toNat then some 62
  else if u = '_'.toNat ∨ u = '/'.toNat then some 63
  else none

/-- Four letters make three bytes; the bits left over at the end are dropped. -/
def groups : List Nat → List Nat
  | a :: b :: c :: d :: rest => (a * 4 + b / 16) :: (b % 16 * 16 + c / 4) :: (c % 4 * 64 + d) :: groups rest
  | [a, b, c] => [a * 4 + b / 16, b % 16 * 16 + c / 4]
  | [a, b] => [a * 4 + b / 16]
  | [_] | [] => []

def unb64u (s : Str) : List Nat := groups (s.filterMap sextet)

/-- A character that is being decoded: how many bytes are to come, the bounds of the next one, the bits so far. -/
structure Pending where
  needed : Nat
  lower : Nat
  upper : Nat
  point : Nat
deriving DecidableEq

/-- The replacement character -/
def replacement : Nat := 0xFFFD

def firstByte (b : Nat) : Str × Option Pending :=
  if b < 0x80 then ([b], none)
  else if 0xC2 ≤ b ∧ b ≤ 0xDF then ([], some ⟨1, 0x80, 0xBF, b - 0xC0⟩)
  else if 0xE0 ≤ b ∧ b ≤ 0xEF then
    ([], some ⟨2, if b = 0xE0 then 0xA0 else 0x80, if b = 0xED then 0x9F else 0xBF, b - 0xE0⟩)
  else if 0xF0 ≤ b ∧ b ≤ 0xF4 then
    ([], some ⟨3, if b = 0xF0 then 0x90 else 0x80, if b = 0xF4 then 0x8F else 0xBF, b - 0xF0⟩)
  else ([replacement], none)

def utf16 (point : Nat) : Str :=
  if point < 0x10000 then [point] else [0xD800 + (point - 0x10000) / 0x400, 0xDC00 + (point - 0x10000) % 0x400]

def nextByte (pending : Pending) (b : Nat) : Str × Option Pending :=
  if pending.lower ≤ b ∧ b ≤ pending.upper then
    let point := pending.point * 64 + (b - 0x80)
    if pending.needed = 1 then (utf16 point, none) else ([], some ⟨pending.needed - 1, 0x80, 0xBF, point⟩)
  else
    let (units, pending) := firstByte b
    (replacement :: units, pending)

/-- A buffer as a string, read as UTF-8. -/
def utf8 (pending : Option Pending) : List Nat → Str
  | [] => if pending.isSome then [replacement] else []
  | b :: bs =>
      let (units, pending) := pending.elim (firstByte b) (nextByte · b)
      units ++ utf8 pending bs

def text (bytes : List Nat) : Str := utf8 none bytes

/-! Values of the language -/

/-- A property of a value: undefined where it has none, and nothing at all where reading it throws. -/
def property (value : JsValue) (name : String) : Option (Option JsValue) :=
  match value with
  | .scalar .null => none
  | .object members => some ((members.find? fun m => m.1 = str name.toList).map Prod.snd)
  | _ => some none

def isString (value : Option (Option JsValue)) (s : Str) : Bool :=
  match value with
  | some (some (.scalar (.string t))) => t = s
  | _ => false

mutual

/-- String(…); an object whose toString is a property of its own cannot be converted. -/
def stringOf : JsValue → Option Str
  | .scalar .null => some (str "null".toList)
  | .scalar (.bool true) => some (str "true".toList)
  | .scalar (.bool false) => some (str "false".toList)
  | .scalar (.number value) => some (str (toText value))
  | .scalar (.string value) => some value
  | .array items => (joined items).map List.tail
  | .object members =>
      if members.any fun m => m.1 = str "toString".toList then none else some (str "[object Object]".toList)

/-- The items as strings, each with a comma before it. -/
def joined : List JsValue → Option Str
  | [] => some []
  | .scalar .null :: items => (joined items).map (','.toNat :: ·)
  | item :: items => (stringOf item).bind fun s => (joined items).map fun rest => ','.toNat :: s ++ rest

end

/-- String(value ?? '') -/
def orEmpty (value : Option (Option JsValue)) : Option Str :=
  match value with
  | none => none
  | some none | some (some (.scalar .null)) => some []
  | some (some value) => stringOf value

def add (n : Number) (q : Rat) : Number :=
  match n with
  | .finite value => round (value + q)
  | .infinite negative => .infinite negative

def below (n : Number) (q : Rat) : Bool :=
  match n with
  | .finite value => value < q
  | .infinite negative => negative

def above (n : Number) (q : Rat) : Bool :=
  match n with
  | .finite value => q < value
  | .infinite negative => !negative

/-! Tokens -/

/-- The three parts of a token. -/
def parts (token : Str) : Option (Str × Str × Str) :=
  match token.splitOn '.'.toNat with
  | [header, payload, signature] => some (header, payload, signature)
  | _ => none

structure Decoded where
  header : JsValue
  claims : JsValue

def decodeUnverified (token : Str) : Option Decoded :=
  match parts token with
  | none => none
  | some (header, payload, _) =>
      match parse (text (unb64u header)), parse (text (unb64u payload)) with
      | some header, some claims => some ⟨header, claims⟩
      | _, _ => none

/-- Seconds of tolerance for clock skew. -/
def skew : Nat := 60

def timely (claims : JsValue) (now : Nat) : Bool :=
  match property claims "exp", property claims "iat" with
  | some (some (.scalar (.number exp))), iat =>
      !below (add exp skew) now &&
        match iat with
        | some (some (.scalar (.number iat))) => !above (add iat (-skew)) now
        | _ => true
  | _, _ => false

variable {Key : Type} (ecdsa : Key → Str → List Nat → Bool)

/-- `ecdsa` says whether the bytes are a signature of the text by the key. Nothing thrown is told apart. -/
def verify (key : Key) (kid issuer : Option Str) (now : Nat) (token : Str) : Bool :=
  match parts token, decodeUnverified token with
  | some (header64, payload64, signature64), some decoded =>
      isString (property decoded.header "alg") (str "ES256".toList) &&
        kid.all (fun kid => kid = [] || isString (property decoded.header "kid") kid) &&
        (unb64u signature64).length = 64 &&
        ecdsa key (header64 ++ '.'.toNat :: payload64) (unb64u signature64) &&
        timely decoded.claims now &&
        issuer.all fun issuer => issuer = [] || isString (property decoded.claims "iss") issuer
  | _, _ => false

/-! The spellings of one signature -/

def ofBytes (bytes : List Nat) : Nat := bytes.foldl (fun n b => 256 * n + b) 0

def toBytes : Nat → Nat → List Nat
  | 0, _ => []
  | k + 1, n => toBytes k (n / 256) ++ [n % 256]

/-- The order of the curve. -/
def order : Nat := 0xFFFFFFFF00000000FFFFFFFFFFFFFFFFBCE6FAADA7179E84F3B9CAC2FC632551

/-- The other signature with the same first half: its second half is the negative of the one's. -/
def twin (signature : List Nat) : List Nat :=
  let s := ofBytes (signature.drop 32)
  if signature.length = 64 ∧ 0 < s ∧ s < order then signature.take 32 ++ toBytes 32 (order - s) else signature

/-- The token has the header and the claims of the key, and its signature in some spelling. -/
def Spells (key token : Str) : Prop :=
  ∃ header payload signature signature', parts key = some (header, payload, signature) ∧
    parts token = some (header, payload, signature') ∧
    (unb64u signature' = unb64u signature ∨ unb64u signature' = twin (unb64u signature))

theorem length_toBytes (k n : Nat) : (toBytes k n).length = k := by
  induction k generalizing n with
  | zero => rfl
  | succ k ih => rw [toBytes, List.length_append, ih, List.length_singleton]

theorem ofBytes_snoc (bytes : List Nat) (b : Nat) : ofBytes (bytes ++ [b]) = 256 * ofBytes bytes + b := by
  rw [ofBytes, List.foldl_append]
  rfl

theorem ofBytes_toBytes {k n : Nat} (h : n < 256 ^ k) : ofBytes (toBytes k n) = n := by
  induction k generalizing n with
  | zero =>
      rw [Nat.pow_zero] at h
      exact (Nat.lt_one_iff.mp h).symm
  | succ k ih =>
      have hlt : n / 256 < 256 ^ k := by
        apply Nat.div_lt_of_lt_mul
        rwa [Nat.pow_succ, Nat.mul_comm] at h
      rw [toBytes, ofBytes_snoc, ih hlt]
      omega

theorem toBytes_ofBytes {bytes : List Nat} (h : ∀ b ∈ bytes, b < 256) : toBytes bytes.length (ofBytes bytes) = bytes := by
  induction bytes using List.reverseRecOn with
  | nil => rfl
  | append_singleton bytes b ih =>
      have hb : b < 256 := h b (by simp)
      have hdiv : (256 * ofBytes bytes + b) / 256 = ofBytes bytes := by omega
      have hmod : (256 * ofBytes bytes + b) % 256 = b := by omega
      rw [List.length_append, List.length_singleton, toBytes, ofBytes_snoc, hdiv, hmod, ih fun b hb => h b (by simp [hb])]

theorem sextet_lt {u d : Nat} (h : sextet u = some d) : d < 64 := by
  unfold sextet at h
  split_ifs at h <;> cases h <;> omega

theorem groups_lt (ds : List Nat) (h : ∀ d ∈ ds, d < 64) : ∀ b ∈ groups ds, b < 256 := by
  fun_induction groups ds with
  | case1 a b c d rest ih =>
      have ha : a < 64 := h a (by simp)
      have hb : b < 64 := h b (by simp)
      have hc : c < 64 := h c (by simp)
      have hd : d < 64 := h d (by simp)
      have hrest := ih fun d hd => h d (by simp [hd])
      simp only [List.forall_mem_cons]
      exact ⟨by omega, by omega, by omega, hrest⟩
  | case2 a b c =>
      have ha : a < 64 := h a (by simp)
      have hb : b < 64 := h b (by simp)
      have hc : c < 64 := h c (by simp)
      simp only [List.forall_mem_cons]
      exact ⟨by omega, by omega, List.forall_mem_nil _⟩
  | case3 a b =>
      have ha : a < 64 := h a (by simp)
      have hb : b < 64 := h b (by simp)
      simp only [List.forall_mem_cons]
      exact ⟨by omega, List.forall_mem_nil _⟩
  | case4 | case5 => exact List.forall_mem_nil _

theorem unb64u_lt (s : Str) : ∀ b ∈ unb64u s, b < 256 := by
  apply groups_lt
  intro d hd
  obtain ⟨u, -, hu⟩ := List.mem_filterMap.mp hd
  exact sextet_lt hu

theorem length_twin (signature : List Nat) : (twin signature).length = signature.length := by
  simp only [twin]
  split
  next h =>
    rw [List.length_append, List.length_take, length_toBytes]
    omega
  next => rfl

theorem twin_twin {signature : List Nat} (h : ∀ b ∈ signature, b < 256) : twin (twin signature) = signature := by
  by_cases hs : signature.length = 64 ∧ 0 < ofBytes (signature.drop 32) ∧ ofBytes (signature.drop 32) < order
  · have htwin : twin signature = signature.take 32 ++ toBytes 32 (order - ofBytes (signature.drop 32)) := if_pos hs
    have horder : order < 256 ^ 32 := by decide
    have htake : (signature.take 32).length = 32 := by
      rw [List.length_take]
      omega
    have hdrop : (twin signature).drop 32 = toBytes 32 (order - ofBytes (signature.drop 32)) := by
      rw [htwin, List.drop_left' htake]
    have hvalue : ofBytes ((twin signature).drop 32) = order - ofBytes (signature.drop 32) := by
      rw [hdrop, ofBytes_toBytes (by omega)]
    have hhalf : toBytes 32 (ofBytes (signature.drop 32)) = signature.drop 32 := by
      have hbytes : ∀ b ∈ signature.drop 32, b < 256 := fun b hb => h b (List.mem_of_mem_drop hb)
      have hvalue := toBytes_ofBytes hbytes
      rwa [List.length_drop, hs.1] at hvalue
    have hback : order - (order - ofBytes (signature.drop 32)) = ofBytes (signature.drop 32) := by omega
    have hpos : (twin signature).length = 64 ∧ 0 < ofBytes ((twin signature).drop 32) ∧
        ofBytes ((twin signature).drop 32) < order := by
      rw [length_twin, hvalue]
      omega
    have htake' : (twin signature).take 32 = signature.take 32 := by rw [htwin, List.take_left' htake]
    calc twin (twin signature)
        = (twin signature).take 32 ++ toBytes 32 (order - ofBytes ((twin signature).drop 32)) := if_pos hpos
      _ = signature.take 32 ++ signature.drop 32 := by rw [htake', hvalue, hback, hhalf]
      _ = signature := List.take_append_drop 32 signature
  · have htwin : twin signature = signature := if_neg hs
    rw [htwin, htwin]

theorem Spells.decode {key token : Str} (h : Spells key token) : decodeUnverified token = decodeUnverified key := by
  obtain ⟨header, payload, signature, signature', hkey, htoken, -⟩ := h
  simp only [decodeUnverified, hkey, htoken]

/-- Both or neither of a signature and its twin are good. -/
def Symmetric (ecdsa : Key → Str → List Nat → Bool) : Prop :=
  ∀ key message signature, ecdsa key message signature = true → ecdsa key message (twin signature) = true

variable {ecdsa}

theorem Symmetric.twin_eq (h : Symmetric ecdsa) (key : Key) (message : Str) {signature : List Nat}
    (hbytes : ∀ b ∈ signature, b < 256) : ecdsa key message (twin signature) = ecdsa key message signature := by
  rw [Bool.eq_iff_iff]
  refine ⟨fun htwin => ?_, h key message signature⟩
  have hback := h key message _ htwin
  rwa [twin_twin hbytes] at hback

/-- Every spelling of a token is verified like the token. -/
theorem Spells.verify_eq {key token : Str} (h : Spells key token) (hecdsa : Symmetric ecdsa) (publicKey : Key)
    (kid issuer : Option Str) (now : Nat) :
    verify ecdsa publicKey kid issuer now token = verify ecdsa publicKey kid issuer now key := by
  have hdecode := h.decode
  obtain ⟨header, payload, signature, signature', hkey, htoken, hsame⟩ := h
  have hlength : (unb64u signature').length = (unb64u signature).length := by
    rcases hsame with heq | heq
    · rw [heq]
    · rw [heq, length_twin]
  have hgood : ∀ message, ecdsa publicKey message (unb64u signature') = ecdsa publicKey message (unb64u signature) := by
    intro message
    rcases hsame with heq | heq
    · rw [heq]
    · rw [heq, hecdsa.twin_eq publicKey message (unb64u_lt signature)]
  unfold verify
  rw [hkey, htoken, hdecode]
  cases decodeUnverified key with
  | none => rfl
  | some decoded => simp only [hlength, hgood]

end Corebase.Jwt
