import Corebase.JsonUnits

namespace Corebase.AuditEntries

open Json JsNumber

abbrev Record := List (Str × JsValue)

/-! The names and the values that are secrets -/

/-- A letter as it is compared without its case: the pattern knows the letters of ASCII only. -/
def foldUnit (u : Nat) : Nat := if 65 ≤ u ∧ u ≤ 90 then u + 32 else u

/-- toLowerCase, which makes one more unit a letter of ASCII, the Kelvin sign. -/
def lowerUnit (u : Nat) : Nat := if u = 0x212A then 'k'.toNat else foldUnit u

def secretWords : List Str :=
  ["pass", "secret", "token", "credential", "authorization", "cookie", "private", "dek", "kek"].map fun word =>
    str word.toList

def SECRET_KEY (name : Str) : Bool :=
  let name := name.map foldUnit
  secretWords.any (fun word => decide (word <:+: name)) || (str "_key".toList).isSuffixOf name ||
    name = str "key".toList

def NOT_SECRET_KEY : List Str :=
  ["idempotency_key", "kek_id", "key_prefix", "key_id", "public_key", "ssh_key_fingerprint"].map fun name =>
    str name.toList

def named (name : Str) : Bool := SECRET_KEY name && !NOT_SECRET_KEY.contains (name.map lowerUnit)

/-- `[A-Za-z0-9_-]` -/
def tokenUnit (u : Nat) : Bool :=
  (65 ≤ u && u ≤ 90) || (97 ≤ u && u ≤ 122) || isDigit u || u = '_'.toNat || u = '-'.toNat

/-- `[A-Z ]` -/
def labelUnit (u : Nat) : Bool := (65 ≤ u && u ≤ 90) || u = ' '.toNat

def pemBegin : Str := str "-----BEGIN ".toList

def pemEnd : Str := str "PRIVATE KEY-----".toList

/-- `[A-Z ]*PRIVATE KEY-----` -/
def pemLabel : Str → Bool
  | [] => false
  | u :: us => pemEnd.isPrefixOf (u :: us) || labelUnit u && pemLabel us

def pem (s : Str) : Bool := s.tails.any fun t => pemBegin.isPrefixOf t && pemLabel (t.drop pemBegin.length)

/-- `[A-Za-z0-9_-]{10,}\.` -/
def segment (s : Str) : Option Str :=
  if 10 ≤ (s.takeWhile tokenUnit).length ∧ (s.dropWhile tokenUnit).head? = some '.'.toNat then
    some (s.dropWhile tokenUnit).tail
  else none

def jwt (s : Str) : Bool := (str "ey".toList).isPrefixOf s && ((segment (s.drop 2)).bind segment).isSome

def generated (s : Str) : Bool := s.length = 43 && s.all tokenUnit

/-- `[^x]+x` -/
def past (mark : Nat) (s : Str) : Option Str :=
  if s.head? ≠ some mark ∧ mark ∈ s then some (s.dropWhile (· ≠ mark)).tail else none

def authority (scheme s : Str) : Bool :=
  scheme.isPrefixOf s && ((past ':'.toNat (s.drop scheme.length)).bind (past '@'.toNat)).isSome

def connection (s : Str) : Bool :=
  authority (str "postgres://".toList) s || authority (str "postgresql://".toList) s

def SECRET_VALUE : List ((Str → Bool) × Str) :=
  [(pem, str "pem-private-key".toList), (jwt, str "jwt".toList), (generated, str "generated-secret".toList),
    (connection, str "connection-string-with-password".toList)]

def shaped (s : Str) : Bool := SECRET_VALUE.any fun pattern => pattern.1 s

def REDACTED : Str := str "[redacted]".toList

def MAX_METADATA_BYTES : Nat := 8 * 1024

/-! Redaction -/

def redactString (s : Str) : Str :=
  match SECRET_VALUE.find? fun pattern => pattern.1 s with
  | some pattern => REDACTED ++ ':'.toNat :: pattern.2
  | none => s

def PROTO : Str := str "__proto__".toList

/-- The members are set in the order of their enumeration; to set the prototype makes no member. -/
def assigned (members : Record) : Record := (enumerate members).filter fun m => m.1 ≠ PROTO

mutual

def redactValue : JsValue → JsValue
  | .scalar (.string s) => .scalar (.string (redactString s))
  | .scalar value => .scalar value
  | .array items => .array (redactItems items)
  | .object members => .object (assigned (redactMembers members))

def redactItems : List JsValue → List JsValue
  | [] => []
  | item :: items => redactValue item :: redactItems items

def redactMembers : Record → Record
  | [] => []
  | (name, value) :: members =>
      (name, if named name then .scalar (.string REDACTED) else redactValue value) :: redactMembers members

end

def redact (metadata : Record) : Record := assigned (redactMembers metadata)

def json (metadata : Record) : Str := print (.object (redact metadata))

def preview (metadata : Record) : Str := (json metadata).take 512

def truncation (metadata : Record) : Record :=
  [(str "truncated".toList, .scalar (.bool true)),
    (str "reason".toList, .scalar (.string (str "metadata exceeded 8192 bytes".toList))),
    (str "bytes".toList, .scalar (.number (JsNumber.round (byteLength false (json metadata))))),
    (str "preview".toList, .scalar (.string (preview metadata)))]

def serializeMetadata : Option Record → Str
  | none => str "\x7b\x7d".toList
  | some metadata =>
      if byteLength false (json metadata) ≤ MAX_METADATA_BYTES then json metadata
      else print (.object (truncation metadata))

/-! What the server takes -/

/-- A text of the database: every code point but the first. -/
def storable (s : Str) : Bool := wellFormed false s && !s.contains 0

/-- The text is cast to jsonb: it is a document, and each of its strings and names is a text of the database. -/
structure Jsonb (text : Str) (document : Document) : Prop where
  sent : storable text = true
  read : parseText text = some document
  strings : ∀ s, .scalar (.string s) ∈ tokens document → storable s = true

/-! What the entry must be -/

mutual

/-- Nothing is under a name of a secret. -/
def Hides : Document → Prop
  | .scalar _ => True
  | .array items => HidesItems items
  | .object members => HidesMembers members

def HidesItems : List Document → Prop
  | [] => True
  | item :: items => Hides item ∧ HidesItems items

def HidesMembers : List (Str × Document) → Prop
  | [] => True
  | (name, value) :: members =>
      (named name = true → value = .scalar (.string REDACTED)) ∧ Hides value ∧ HidesMembers members

end

/-- Neither a value under a name of a secret nor a string in the shape of one, names included. -/
def Free (document : Document) : Prop :=
  Hides document ∧ ∀ s, .scalar (.string s) ∈ tokens document → shaped s = false

/-- The beginning of a text that hides its secrets, without a string in the shape of one. -/
def FreeStart (text : Str) : Prop :=
  (∃ whole document, text <+: whole ∧ parseText whole = some document ∧ Hides document) ∧
    ∀ s, .scalar (.string s) ∈ emitted .between text → shaped s = false

structure Recorded (metadata : Option Record) : Prop where
  bounded : byteLength false (serializeMetadata metadata) ≤ MAX_METADATA_BYTES
  accepted : ∃ document, Jsonb (serializeMetadata metadata) document ∧ Free document
  previewed : ∀ m ∈ metadata, MAX_METADATA_BYTES < byteLength false (json m) → FreeStart (preview m)
  stable : ∀ m ∈ metadata, redact (redact m) = redact m

mutual

/-- Each string and name that is kept is a text of the database, and no name has the shape of a secret. -/
def Plain : JsValue → Prop
  | .scalar (.string s) => shaped s = false → storable s = true
  | .scalar _ => True
  | .array items => PlainItems items
  | .object members => PlainMembers members

def PlainItems : List JsValue → Prop
  | [] => True
  | item :: items => Plain item ∧ PlainItems items

def PlainMembers : Record → Prop
  | [] => True
  | (name, value) :: members =>
      (name ≠ PROTO → (storable name = true ∧ shaped name = false) ∧ (named name = false → Plain value)) ∧
        PlainMembers members

end

/-- The tokens of the text from which the preview is cut. -/
def script (metadata : Record) : List Token := tokens (content (.object (redact metadata)))

/-- The preview does not end within a pair, and no name that it shows has the shape of a secret. -/
structure Presentable (metadata : Record) : Prop where
  uncut : (json metadata)[511]?.any isLead = false
  names : ∀ before name, before ++ [.scalar (.string name)] <+: emitted .between (preview metadata) →
    before ++ [.scalar (.string name), .colon] <+: script metadata → shaped name = false
  lastName : ∀ name, emitted .between (preview metadata) ++ [.scalar (.string name), .colon] <+: script metadata →
    pem (remainder .between (preview metadata)) = false

def Loggable : Option Record → Prop
  | none => True
  | some metadata =>
      if byteLength false (json metadata) ≤ MAX_METADATA_BYTES then PlainMembers metadata else Presentable metadata

/-! The shapes -/

theorem pemLabel_iff (t : Str) : pemLabel t = true ↔
    ∃ label rest, (∀ u ∈ label, labelUnit u = true) ∧ t = label ++ (pemEnd ++ rest) := by
  induction t with
  | nil => simp [pemLabel, pemEnd, str]
  | cons u us ih =>
      rw [pemLabel, Bool.or_eq_true, Bool.and_eq_true, ih, List.isPrefixOf_iff_prefix]
      constructor
      · rintro (⟨rest, h⟩ | ⟨hu, label, rest, hlabel, rfl⟩)
        · exact ⟨[], rest, List.forall_mem_nil _, h.symm⟩
        · exact ⟨u :: label, rest, List.forall_mem_cons.mpr ⟨hu, hlabel⟩, rfl⟩
      · rintro ⟨label, rest, hlabel, h⟩
        cases label with
        | nil => exact Or.inl ⟨rest, h.symm⟩
        | cons v label =>
            obtain ⟨rfl, rfl⟩ := List.cons.inj h
            obtain ⟨hu, hlabel⟩ := List.forall_mem_cons.mp hlabel
            exact Or.inr ⟨hu, label, rest, hlabel, rfl⟩

theorem pem_iff (s : Str) : pem s = true ↔
    ∃ label, (∀ u ∈ label, labelUnit u = true) ∧ pemBegin ++ label ++ pemEnd <:+: s := by
  simp only [pem, List.any_eq_true, List.mem_tails, Bool.and_eq_true, List.isPrefixOf_iff_prefix, pemLabel_iff]
  constructor
  · rintro ⟨t, ⟨before, rfl⟩, ⟨rest, rfl⟩, label, after, hlabel, h⟩
    rw [List.drop_left] at h
    subst h
    exact ⟨label, hlabel, before, after, by simp⟩
  · rintro ⟨label, hlabel, before, after, rfl⟩
    refine ⟨pemBegin ++ (label ++ (pemEnd ++ after)), ⟨before, by simp⟩, List.prefix_append _ _, label, after, hlabel, ?_⟩
    rw [List.drop_left]

theorem pem_mono {s s' : Str} (h : s <:+: s') (hpem : pem s = true) : pem s' = true := by
  obtain ⟨label, hlabel, hin⟩ := (pem_iff s).mp hpem
  exact (pem_iff s').mpr ⟨label, hlabel, hin.trans h⟩

theorem shaped_pem {s : Str} (h : pem s = true) : shaped s = true := by
  simp [shaped, SECRET_VALUE, h]

/-- A text that begins with a brace has no other shape than that of a key file. -/
theorem shaped_brace (us : Str) : shaped ('\x7b'.toNat :: us) = pem ('\x7b'.toNat :: us) := by
  have hjwt : jwt ('\x7b'.toNat :: us) = false := rfl
  have hgenerated : generated ('\x7b'.toNat :: us) = false := by simp [generated, tokenUnit, isDigit]
  have hconnection : connection ('\x7b'.toNat :: us) = false := rfl
  simp only [shaped, SECRET_VALUE, List.any_cons, List.any_nil, hjwt, hgenerated, hconnection, Bool.or_false]

theorem labelUnit_raw {u : Nat} (h : labelUnit u = true) : isRaw u = true := by
  have hquote : '"'.toNat = 34 := rfl
  have hback : '\\'.toNat = 92 := rfl
  have hspace : ' '.toNat = 32 := rfl
  simp only [labelUnit, isRaw, Bool.or_eq_true, Bool.and_eq_true, decide_eq_true_eq, hquote, hback, hspace] at h ⊢
  omega

theorem raw_pem {label : Str} (h : ∀ u ∈ label, labelUnit u = true) :
    ∀ u ∈ pemBegin ++ label ++ pemEnd, isRaw u = true := by
  have hbegin : ∀ u ∈ pemBegin, isRaw u = true := by decide
  have hend : ∀ u ∈ pemEnd, isRaw u = true := by decide
  intro u hu
  rcases List.mem_append.mp hu with hu | hu
  · exact (List.mem_append.mp hu).elim (hbegin u) fun hu => labelUnit_raw (h u hu)
  · exact hend u hu

theorem shaped_find (s : Str) : shaped s = (SECRET_VALUE.find? fun pattern => pattern.1 s).isSome := by
  rw [shaped, List.isSome_find?]

theorem shaped_redacted : shaped REDACTED = false := by decide

theorem redactString_plain {s : Str} (h : shaped s = false) : redactString s = s := by
  rw [shaped_find, Option.isSome_eq_false_iff, Option.isNone_iff_eq_none] at h
  simp [redactString, h]

/-- What takes the place of a secret is neither a secret nor refused. -/
theorem redactString_shaped {s : Str} (h : shaped s = true) :
    shaped (redactString s) = false ∧ storable (redactString s) = true := by
  have hlabels : ∀ pattern ∈ SECRET_VALUE, shaped (REDACTED ++ ':'.toNat :: pattern.2) = false ∧
      storable (REDACTED ++ ':'.toNat :: pattern.2) = true := by
    simp only [SECRET_VALUE, List.forall_mem_cons]
    refine ⟨?_, ?_, ?_, ?_, List.forall_mem_nil _⟩ <;> decide
  rw [shaped_find] at h
  obtain ⟨pattern, hpattern⟩ := Option.isSome_iff_exists.mp h
  simp only [redactString, hpattern]
  exact hlabels pattern (List.mem_of_find?_eq_some hpattern)

theorem shaped_redactString (s : Str) : shaped (redactString s) = false := by
  cases h : shaped s with
  | true => exact (redactString_shaped h).1
  | false => rwa [redactString_plain h]

/-! Redaction twice -/

theorem redactItems_eq (items : List JsValue) : redactItems items = items.map redactValue := by
  induction items with
  | nil => rfl
  | cons item items ih => rw [redactItems, ih, List.map_cons]

def redactMember (name : Str) (value : JsValue) : JsValue :=
  if named name then .scalar (.string REDACTED) else redactValue value

theorem redactMembers_eq (members : Record) :
    redactMembers members = members.map fun m => (m.1, redactMember m.1 m.2) := by
  induction members with
  | nil => rfl
  | cons member members ih => rw [redactMembers, ih, List.map_cons, redactMember]

theorem redactMember_twice {name : Str} {value : JsValue} (h : redactValue (redactValue value) = redactValue value) :
    redactMember name (redactMember name value) = redactMember name value := by
  unfold redactMember
  split
  next => rfl
  next => exact h

theorem assigned_redact (members : Record) :
    assigned (redactMembers members) = (assigned members).map fun m => (m.1, redactMember m.1 m.2) := by
  rw [redactMembers_eq, assigned, enumerate_rename (fun m : Str × JsValue => (m.1, redactMember m.1 m.2)) (fun _ => rfl),
    List.filter_map]
  rfl

theorem assigned_twice {members : Record}
    (h : ∀ m ∈ members, redactValue (redactValue m.2) = redactValue m.2) :
    assigned (redactMembers (assigned (redactMembers members))) = assigned (redactMembers members) := by
  have hmembers : ∀ m ∈ assigned members, redactMember m.1 (redactMember m.1 m.2) = redactMember m.1 m.2 := by
    intro m hm
    exact redactMember_twice (h m ((enumerate_perm members).mem_iff.mp (List.mem_of_mem_filter hm)))
  have hfix : redactMembers (assigned (redactMembers members)) = assigned (redactMembers members) := by
    rw [redactMembers_eq, assigned_redact, List.map_map]
    exact List.map_congr_left fun m hm => congrArg (Prod.mk m.1) (hmembers m hm)
  rw [hfix, assigned, assigned, enumerate_filter, List.filter_filter]
  simp

theorem redactValue_twice (value : JsValue) : redactValue (redactValue value) = redactValue value := by
  induction value using Value.induct with
  | scalar value =>
      cases value with
      | string s =>
          change Value.scalar (.string (redactString (redactString s))) = _
          rw [redactString_plain (shaped_redactString s)]
          rfl
      | null | bool _ | number _ => rfl
  | array items ih =>
      simp only [redactValue, redactItems_eq, List.map_map]
      exact congrArg Value.array (List.map_congr_left ih)
  | object members ih => exact congrArg Value.object (assigned_twice ih)

theorem redact_twice (metadata : Record) : redact (redact metadata) = redact metadata :=
  assigned_twice fun m _ => redactValue_twice m.2

/-! The document of a redacted value -/

theorem content_object (members : Record) : content (.object (assigned (redactMembers members))) =
    .object ((assigned members).map fun m => (m.1, content (redactMember m.1 m.2))) := by
  have henum : enumerate (assigned members) = assigned members := enumerate_filter _ members
  rw [assigned_redact, content, memberContents_eq, enumerate_map, enumerate_rename
    (fun m : Str × JsValue => (m.1, redactMember m.1 m.2)) (fun _ => rfl), henum, List.map_map]
  rfl

theorem mem_assigned (members : Record) (m : Str × JsValue) : m ∈ assigned members ↔ m ∈ members ∧ m.1 ≠ PROTO := by
  rw [assigned, List.mem_filter, (enumerate_perm members).mem_iff, decide_eq_true_eq]

theorem hidesItems_iff (items : List Document) : HidesItems items ↔ ∀ item ∈ items, Hides item := by
  induction items with
  | nil => simp [HidesItems]
  | cons item items ih => rw [HidesItems, ih, List.forall_mem_cons]

theorem hidesMembers_iff (members : List (Str × Document)) : HidesMembers members ↔
    ∀ m ∈ members, (named m.1 = true → m.2 = .scalar (.string REDACTED)) ∧ Hides m.2 := by
  induction members with
  | nil => simp [HidesMembers]
  | cons member members ih => rw [HidesMembers, ih, List.forall_mem_cons, and_assoc]

theorem hides_object {members : Record} (h : ∀ m ∈ members, Hides (content (redactValue m.2))) :
    Hides (content (.object (assigned (redactMembers members)))) := by
  rw [content_object, Hides, hidesMembers_iff]
  intro row hrow
  obtain ⟨m, hm, rfl⟩ := List.mem_map.mp hrow
  have hvalue := h m ((mem_assigned members m).mp hm).1
  refine ⟨fun hnamed => by simp [redactMember, hnamed, content, Scalar.content], ?_⟩
  change Hides (content (redactMember m.1 m.2))
  unfold redactMember
  split
  next => trivial
  next => exact hvalue

theorem hides_redacted (value : JsValue) : Hides (content (redactValue value)) := by
  induction value using Value.induct with
  | scalar value => cases value <;> trivial
  | array items ih =>
      rw [redactValue, content, itemContents_eq, redactItems_eq, Hides, hidesItems_iff]
      simpa using ih
  | object members ih => exact hides_object ih

theorem hides_redact (metadata : Record) : Hides (content (.object (redact metadata))) :=
  hides_object fun m _ => hides_redacted m.2

def fit (s : Str) : Bool := storable s && !shaped s

theorem plainItems_iff (items : List JsValue) : PlainItems items ↔ ∀ item ∈ items, Plain item := by
  induction items with
  | nil => simp [PlainItems]
  | cons item items ih => rw [PlainItems, ih, List.forall_mem_cons]

theorem plainMembers_iff (members : Record) : PlainMembers members ↔
    ∀ m ∈ members, m.1 ≠ PROTO → (storable m.1 = true ∧ shaped m.1 = false) ∧ (named m.1 = false → Plain m.2) := by
  induction members with
  | nil => simp [PlainMembers]
  | cons member members ih => rw [PlainMembers, ih, List.forall_mem_cons]

def Fit (document : Document) : Prop := ∀ s, .scalar (.string s) ∈ tokens document → fit s = true

theorem fit_iff (s : Str) : fit s = true ↔ storable s = true ∧ shaped s = false := by
  rw [fit, Bool.and_eq_true, Bool.not_eq_true']

theorem fit_array (items : List Document) : Fit (.array items) ↔ ∀ item ∈ items, Fit item := by
  constructor
  · intro h item hitem s hs
    exact h s ((mem_array items s).mpr ⟨item, hitem, hs⟩)
  · intro h s hs
    obtain ⟨item, hitem, hs⟩ := (mem_array items s).mp hs
    exact h item hitem s hs

theorem fit_object (members : List (Str × Document)) :
    Fit (.object members) ↔ ∀ member ∈ members, fit member.1 = true ∧ Fit member.2 := by
  constructor
  · intro h member hmember
    exact ⟨h member.1 ((mem_object members _).mpr ⟨member, hmember, Or.inl rfl⟩),
      fun s hs => h s ((mem_object members s).mpr ⟨member, hmember, Or.inr hs⟩)⟩
  · intro h s hs
    obtain ⟨member, hmember, rfl | hs⟩ := (mem_object members s).mp hs
    · exact (h member hmember).1
    · exact (h member hmember).2 s hs

theorem fit_string (s : Str) : Fit (.scalar (.string s)) ↔ fit s = true := by
  simp [Fit, tokens]

theorem fit_redactString (s : Str) : fit (redactString s) = true ↔ (shaped s = false → storable s = true) := by
  cases h : shaped s with
  | true =>
      have hshaped := redactString_shaped h
      simp [fit, hshaped.1, hshaped.2]
  | false => simp [fit, redactString_plain h, h]

theorem fit_members {members : Record} (h : ∀ m ∈ members, Fit (content (redactValue m.2)) ↔ Plain m.2) :
    Fit (content (.object (assigned (redactMembers members)))) ↔ PlainMembers members := by
  have hredacted : Fit (content (.scalar (.string REDACTED))) := (fit_string REDACTED).mpr (by decide)
  have hmember : ∀ m ∈ members, Fit (content (redactMember m.1 m.2)) ↔ (named m.1 = false → Plain m.2) := by
    intro m hm
    unfold redactMember
    split
    next hnamed => simp [hnamed, hredacted]
    next hnamed => simp [hnamed, h m hm]
  rw [content_object, fit_object, plainMembers_iff]
  constructor
  · intro hrows m hm hproto
    have hrow := hrows (m.1, content (redactMember m.1 m.2))
      (List.mem_map_of_mem ((mem_assigned members m).mpr ⟨hm, hproto⟩))
    exact ⟨(fit_iff m.1).mp hrow.1, (hmember m hm).mp hrow.2⟩
  · intro hplain row hrow
    obtain ⟨m, hm, rfl⟩ := List.mem_map.mp hrow
    obtain ⟨hm, hproto⟩ := (mem_assigned members m).mp hm
    obtain ⟨hname, hvalue⟩ := hplain m hm hproto
    exact ⟨(fit_iff m.1).mpr hname, (hmember m hm).mpr hvalue⟩

theorem fit_redacted (value : JsValue) : Fit (content (redactValue value)) ↔ Plain value := by
  induction value using Value.induct with
  | scalar value =>
      cases value with
      | string s => exact (fit_string _).trans (fit_redactString s)
      | null | bool _ => simp [Fit, redactValue, content, Scalar.content, tokens, Plain]
      | number value => cases value <;> simp [Fit, redactValue, content, Scalar.content, tokens, Plain]
  | array items ih =>
      rw [redactValue, content, itemContents_eq, redactItems_eq, fit_array, Plain, plainItems_iff]
      simp only [List.map_map, List.forall_mem_map, Function.comp_apply]
      exact forall₂_congr ih
  | object members ih => exact fit_members ih

theorem fit_redact (metadata : Record) : Fit (content (.object (redact metadata))) ↔ PlainMembers metadata :=
  fit_members fun m _ => fit_redacted m.2

/-! What is printed is taken where its strings are -/

theorem storable_print (value : JsValue) : storable (print value) = true := by
  obtain ⟨last, rest, hlast, -, -⟩ := lex_complete (lex_print value)
  have hzero : (print value).contains 0 = false := by
    simpa using fun h => ne_zero (show Mode.between.Sane from trivial) hlast 0 h rfl
  rw [storable, wellFormed_print, hzero]
  rfl

/-- An entry that hides its secrets is recorded if and only if its strings are fit. -/
theorem accepted_iff {value : JsValue} (h : Hides (content value)) :
    (∃ document, Jsonb (print value) document ∧ Free document) ↔ Fit (content value) := by
  constructor
  · rintro ⟨document, hjsonb, hfree⟩ s hs
    obtain rfl : content value = document := Option.some.inj ((parseText_print value).symm.trans hjsonb.read)
    exact (fit_iff s).mpr ⟨hjsonb.strings s hs, hfree.2 s hs⟩
  · intro hfit
    exact ⟨content value, ⟨storable_print value, parseText_print value, fun s hs => ((fit_iff s).mp (hfit s hs)).1⟩,
      h, fun s hs => ((fit_iff s).mp (hfit s hs)).2⟩

/-! The truncated entry -/

theorem content_rows (members : Record) : content (.object members) =
    .object ((enumerate members).map fun m => (m.1, content m.2)) := by
  rw [content, memberContents_eq, enumerate_map]

theorem mem_rows {members : Record} {row : Str × Document} :
    row ∈ (enumerate members).map (fun m => (m.1, content m.2)) ↔ ∃ m ∈ members, (m.1, content m.2) = row := by
  simp only [List.mem_map, (enumerate_perm members).mem_iff]

theorem hides_truncation (metadata : Record) : Hides (content (.object (truncation metadata))) := by
  have hnames : named (str "truncated".toList) = false ∧ named (str "reason".toList) = false ∧
      named (str "bytes".toList) = false ∧ named (str "preview".toList) = false := by decide
  rw [content_rows, Hides, hidesMembers_iff]
  intro row hrow
  obtain ⟨m, hm, rfl⟩ := mem_rows.mp hrow
  simp only [truncation, List.mem_cons, List.not_mem_nil, or_false] at hm
  rcases hm with rfl | rfl | rfl | rfl
  · exact ⟨fun h => absurd (hnames.1.symm.trans h) Bool.false_ne_true, trivial⟩
  · exact ⟨fun h => absurd (hnames.2.1.symm.trans h) Bool.false_ne_true, trivial⟩
  · exact ⟨fun h => absurd (hnames.2.2.1.symm.trans h) Bool.false_ne_true, trivial⟩
  · exact ⟨fun h => absurd (hnames.2.2.2.symm.trans h) Bool.false_ne_true, trivial⟩

theorem fit_truncation (metadata : Record) :
    Fit (content (.object (truncation metadata))) ↔ fit (preview metadata) = true := by
  have hnames : fit (str "truncated".toList) = true ∧ fit (str "reason".toList) = true ∧
      fit (str "bytes".toList) = true ∧ fit (str "preview".toList) = true := by decide
  have hreason : fit (str "metadata exceeded 8192 bytes".toList) = true := by decide
  have hnumber : ∀ n : Number, Fit (content (.scalar (.number n))) := by
    intro n
    cases n <;> simp [Fit, content, Scalar.content, tokens]
  rw [content_rows, fit_object]
  constructor
  · intro h
    have hlast : (str "preview".toList, content (.scalar (.string (preview metadata)))) ∈
        (enumerate (truncation metadata)).map fun m => (m.1, content m.2) :=
      mem_rows.mpr ⟨(str "preview".toList, .scalar (.string (preview metadata))), by simp [truncation], rfl⟩
    exact (fit_string _).mp (h _ hlast).2
  · intro h row hrow
    obtain ⟨m, hm, rfl⟩ := mem_rows.mp hrow
    simp only [truncation, List.mem_cons, List.not_mem_nil, or_false] at hm
    rcases hm with rfl | rfl | rfl | rfl
    · exact ⟨hnames.1, by simp [Fit, content, Scalar.content, tokens]⟩
    · exact ⟨hnames.2.1, (fit_string _).mpr hreason⟩
    · exact ⟨hnames.2.2.1, hnumber _⟩
    · exact ⟨hnames.2.2.2, (fit_string _).mpr h⟩

theorem width_le (us : Str) : (us.map width).sum ≤ 3 * us.length := by
  induction us with
  | nil => exact Nat.le_refl 0
  | cons u us ih =>
      have hu : width u ≤ 3 := by unfold width; split <;> decide
      rw [List.map_cons, List.sum_cons, List.length_cons]
      omega

theorem width_member (name text : Str) :
    ((memberText (name, text)).map width).sum ≤ 6 * name.length + (text.map width).sum + 4 := by
  have hcomma : width ','.toNat = 1 := rfl
  have hcolon : width ':'.toNat = 1 := rfl
  have hname := width_quote name
  simp only [memberText, List.map_cons, List.map_append, List.sum_cons, List.sum_append, List.cons_append, hcomma,
    hcolon]
  omega

theorem width_tail (us : Str) : (us.tail.map width).sum ≤ (us.map width).sum := by
  cases us with
  | nil => exact Nat.le_refl 0
  | cons u us => rw [List.tail_cons, List.map_cons, List.sum_cons]; omega

theorem width_object (members : Record) : ((print (.object members)).map width).sum ≤
    (((members.map fun m => (m.1, print m.2)).flatMap memberText).map width).sum + 2 := by
  have hopen : width '\x7b'.toNat = 1 := rfl
  have hclose : width '\x7d'.toNat = 1 := rfl
  have hperm := ((enumerate_perm (printMembers members)).flatMap_right memberText).map width
  have htail := width_tail ((enumerate (printMembers members)).flatMap memberText)
  rw [hperm.sum_eq, printMembers_eq] at htail
  simp only [print, List.map_cons, List.map_append, List.sum_cons, List.sum_append, List.cons_append, List.map_nil,
    List.sum_nil, hopen, hclose]
  rw [printMembers_eq]
  omega

theorem width_number (q : Rat) : ((print (.scalar (.number (JsNumber.round q)))).map width).sum ≤ 150 := by
  have hlength := toText_length q
  have htext := width_le (print (.scalar (.number (JsNumber.round q))))
  cases h : JsNumber.round q with
  | finite x =>
      rw [h] at hlength htext
      have hprint : (print (.scalar (.number (.finite x)))).length = (toText (.finite x)).length := by
        simp [print, Scalar.print, str]
      omega
  | infinite negative => exact (by decide : ((str "null".toList).map width).sum ≤ 150)

/-- The wrapper is small, whatever was cut off. -/
theorem truncation_bounded (metadata : Record) :
    byteLength false (print (.object (truncation metadata))) ≤ MAX_METADATA_BYTES := by
  have hle := (byteLength_le false (print (.object (truncation metadata)))).trans
    (Nat.add_le_add_right (width_object (truncation metadata)) _)
  have htruncated := width_member (str "truncated".toList) (print (.scalar (.bool true)))
  have hreason := width_member (str "reason".toList) (print (.scalar (.string (str "metadata exceeded 8192 bytes".toList))))
  have hbytes := width_member (str "bytes".toList) (print (.scalar (.number (JsNumber.round (byteLength false (json metadata))))))
  have hpreview := width_member (str "preview".toList) (print (.scalar (.string (preview metadata))))
  have hnumber := width_number (byteLength false (json metadata))
  have hquote : ((print (.scalar (.string (preview metadata)))).map width).sum ≤ 6 * 512 + 2 := by
    have hlength : (preview metadata).length ≤ 512 := List.length_take_le 512 _
    exact (width_quote (preview metadata)).trans (by omega)
  have htrue : ((print (.scalar (.bool true))).map width).sum = 4 := by decide
  have htext : ((print (.scalar (.string (str "metadata exceeded 8192 bytes".toList)))).map width).sum = 30 := by
    decide
  have hnames : (str "truncated".toList).length = 9 ∧ (str "reason".toList).length = 6 ∧
      (str "bytes".toList).length = 5 ∧ (str "preview".toList).length = 7 := by decide
  have hrows : ((((truncation metadata).map fun m => (m.1, print m.2)).flatMap memberText).map width).sum ≤ 3500 := by
    simp only [truncation, List.map_cons, List.map_nil, List.flatMap_cons, List.flatMap_nil, List.map_append,
      List.sum_append, List.sum_nil]
    omega
  have hmax : MAX_METADATA_BYTES = 8192 := rfl
  simp only [Bool.false_eq_true, if_false] at hle
  omega

theorem json_brace (metadata : Record) : ∃ us, preview metadata = '\x7b'.toNat :: us := ⟨_, rfl⟩

theorem storable_preview (metadata : Record) :
    storable (preview metadata) = true ↔ (json metadata)[511]?.any isLead = false := by
  have hstorable := storable_print (.object (redact metadata))
  rw [storable, Bool.and_eq_true, Bool.not_eq_true'] at hstorable ⊢
  have hzero : (preview metadata).contains 0 = false := by
    have hnone : (0 : Nat) ∉ json metadata :=
      fun h => Bool.false_ne_true (hstorable.2.symm.trans (List.contains_iff_mem.mpr h))
    exact Bool.eq_false_iff.mpr fun h => hnone (List.mem_of_mem_take (List.contains_iff_mem.mp h))
  have htake := wellFormed_take hstorable.1 511
  rw [and_iff_left hzero]
  exact htake.trans (or_iff_left (by simp))

/-! A string in the shape of a secret is a name -/

/-- Where a string has the shape of a secret, the colon of a name follows. -/
def Named (ts : List Token) : Prop :=
  ∀ before s after, ts = before ++ .scalar (.string s) :: after → shaped s = true → after.head? = some .colon

theorem named_nil : Named [] := by
  intro before s after h
  simp at h

theorem named_cons {t : Token} {ts : List Token} (ht : ∀ s, t = .scalar (.string s) → shaped s = true →
    ts.head? = some .colon) (h : Named ts) : Named (t :: ts) := by
  intro before s after heq hs
  cases before with
  | nil =>
      obtain ⟨rfl, rfl⟩ := List.cons.inj heq
      exact ht s rfl hs
  | cons t' before => exact h before s after (List.cons.inj heq).2 hs

theorem named_append {a b : List Token} (ha : Named a) (hb : Named b) : Named (a ++ b) := by
  induction a with
  | nil => exact hb
  | cons t ts ih =>
      apply named_cons
      · rintro s rfl hs
        have hhead := ha [] s ts rfl hs
        cases ts with
        | nil => cases hhead
        | cons t' ts => exact hhead
      · exact ih fun before s after h => ha (t :: before) s after (congrArg (t :: ·) h)

theorem named_tail {ts : List Token} (h : Named ts) : Named ts.tail := by
  cases ts with
  | nil => exact h
  | cons t ts => exact fun before s after heq => h (t :: before) s after (congrArg (t :: ·) heq)

theorem named_items {items : List Document} (h : ∀ item ∈ items, Named (tokens item)) : Named (itemTokens items) := by
  induction items with
  | nil => exact named_nil
  | cons item items ih =>
      obtain ⟨hitem, hitems⟩ := List.forall_mem_cons.mp h
      exact named_cons (by rintro s ⟨⟩) (named_append hitem (ih hitems))

theorem named_members {members : List (Str × Document)} (h : ∀ member ∈ members, Named (tokens member.2)) :
    Named (memberTokens members) := by
  induction members with
  | nil => exact named_nil
  | cons member members ih =>
      obtain ⟨hmember, hmembers⟩ := List.forall_mem_cons.mp h
      have hvalue := named_append hmember (ih hmembers)
      exact named_cons (by rintro s ⟨⟩) (named_cons (fun _ _ _ => rfl) (named_cons (by rintro s ⟨⟩) hvalue))

theorem named_array {items : List Document} (h : ∀ item ∈ items, Named (tokens item)) :
    Named (tokens (.array items)) :=
  named_cons (by rintro s ⟨⟩) (named_append (named_tail (named_items h)) (named_cons (by rintro s ⟨⟩) named_nil))

theorem named_object {members : List (Str × Document)} (h : ∀ member ∈ members, Named (tokens member.2)) :
    Named (tokens (.object members)) :=
  named_cons (by rintro s ⟨⟩) (named_append (named_tail (named_members h)) (named_cons (by rintro s ⟨⟩) named_nil))

theorem named_string {s : Str} (h : shaped s = false) : Named [.scalar (.string s)] := by
  apply named_cons _ named_nil
  rintro s' ⟨⟩ hs
  rw [h] at hs
  cases hs

theorem named_record {members : Record} (h : ∀ m ∈ members, Named (tokens (content (redactValue m.2)))) :
    Named (tokens (content (.object (assigned (redactMembers members))))) := by
  rw [content_object]
  apply named_object
  intro row hrow
  obtain ⟨m, hm, rfl⟩ := List.mem_map.mp hrow
  change Named (tokens (content (redactMember m.1 m.2)))
  unfold redactMember
  split
  next => exact named_string shaped_redacted
  next => exact h m ((mem_assigned members m).mp hm).1

theorem named_redacted (value : JsValue) : Named (tokens (content (redactValue value))) := by
  induction value using Value.induct with
  | scalar value =>
      cases value with
      | string s => exact named_string (shaped_redactString s)
      | null | bool _ => exact named_cons (by rintro s ⟨⟩) named_nil
      | number value => cases value <;> exact named_cons (by rintro s ⟨⟩) named_nil
  | array items ih =>
      rw [redactValue, content, itemContents_eq, redactItems_eq]
      exact named_array (by simpa using ih)
  | object members ih => exact named_record ih

theorem named_script (metadata : Record) : Named (script metadata) := named_record fun m _ => named_redacted m.2

/-! The preview -/

/-- What the preview has completed is the beginning of the tokens, and the string that it breaks off in is the next one. -/
theorem preview_tokens (metadata : Record) : ∃ last, modeAfter .between (preview metadata) = some last ∧
    emitted .between (preview metadata) <+: script metadata ∧
    ∀ s, last.unfinished = some s → ∃ t ts, s <+: t ∧
      script metadata = emitted .between (preview metadata) ++ .scalar (.string t) :: ts := by
  have hlex : lex .between (preview metadata ++ (json metadata).drop 512) = some (script metadata) := by
    rw [preview, List.take_append_drop]
    exact lex_print (.object (redact metadata))
  rw [lex_append, Option.bind_eq_some_iff] at hlex
  obtain ⟨last, hlast, hrest⟩ := hlex
  obtain ⟨ts, hts, hscript⟩ := Option.map_eq_some_iff.mp hrest
  refine ⟨last, hlast, ⟨ts, hscript⟩, ?_⟩
  intro s hs
  obtain ⟨final, rest, hfinal, hfinish, rfl⟩ := lex_complete hts
  rcases emitted_unfinished hs hfinal with ⟨t, more, ht, hle⟩ | ⟨-, s', hs', -⟩
  · exact ⟨t, more ++ rest, hle, by rw [← hscript, ht]; rfl⟩
  · cases final with
    | between | word _ _ | number _ _ => cases hs'
    | string _ | escape _ | hex _ _ _ => cases hfinish

theorem shaped_preview (metadata : Record) : shaped (preview metadata) = pem (preview metadata) := by
  obtain ⟨us, hus⟩ := json_brace metadata
  rw [hus]
  exact shaped_brace us

theorem shown_free {metadata : Record} (h : Presentable metadata) {s : Str}
    (hs : .scalar (.string s) ∈ emitted .between (preview metadata)) : shaped s = false := by
  obtain ⟨last, -, ⟨rest, hscript⟩, -⟩ := preview_tokens metadata
  obtain ⟨before, after, hsplit⟩ := List.append_of_mem hs
  by_contra hshaped
  rw [Bool.not_eq_false] at hshaped
  have heq : script metadata = before ++ .scalar (.string s) :: (after ++ rest) := by
    rw [← hscript, hsplit]
    simp
  have hcolon := named_script metadata before s (after ++ rest) heq hshaped
  have hshown : before ++ [.scalar (.string s)] <+: emitted .between (preview metadata) := ⟨after, by rw [hsplit]; simp⟩
  obtain ⟨more, hmore⟩ : ∃ more, after ++ rest = .colon :: more := by
    cases hlist : after ++ rest with
    | nil => rw [hlist] at hcolon; cases hcolon
    | cons t more =>
        rw [hlist] at hcolon
        obtain rfl := Option.some.inj hcolon
        exact ⟨more, rfl⟩
  have hname := h.names before s hshown ⟨more, by rw [heq, hmore]; simp⟩
  rw [hname] at hshaped
  cases hshaped

theorem preview_free {metadata : Record} (h : Presentable metadata) : pem (preview metadata) = false := by
  by_contra hpem
  rw [Bool.not_eq_false] at hpem
  obtain ⟨label, hlabel, hrun⟩ := (pem_iff _).mp hpem
  obtain ⟨last, hlast, -, hnext⟩ := preview_tokens metadata
  have hdashes : dashes <+: pemBegin ++ label ++ pemEnd := ⟨str "--BEGIN ".toList ++ label ++ pemEnd, by
    rw [← List.append_assoc, ← List.append_assoc]
    rfl⟩
  have hself : pem (pemBegin ++ label ++ pemEnd) = true := (pem_iff _).mpr ⟨label, hlabel, List.infix_refl _⟩
  rcases within_string hrun hdashes (raw_pem hlabel) hlast with ⟨s, hs, hin⟩ | ⟨hrest, s, hs, hin⟩
  · have hfree := shown_free h hs
    rw [shaped_pem (pem_mono hin hself)] at hfree
    cases hfree
  · obtain ⟨t, ts, hle, hscript⟩ := hnext s hs
    have hcolon := named_script metadata _ t ts hscript (shaped_pem (pem_mono (hin.trans hle.isInfix) hself))
    cases ts with
    | nil => cases hcolon
    | cons t' ts =>
        obtain rfl := Option.some.inj hcolon
        have hname := h.lastName t ⟨ts, by rw [hscript]; simp⟩
        rw [pem_mono hrest hself] at hname
        cases hname

/-- A truncated entry is recorded, and its preview free, if and only if the preview is presentable. -/
theorem truncated_iff (metadata : Record) :
    ((∃ document, Jsonb (print (.object (truncation metadata))) document ∧ Free document) ∧
      FreeStart (preview metadata)) ↔ Presentable metadata := by
  rw [accepted_iff (hides_truncation metadata), fit_truncation, fit_iff, storable_preview, shaped_preview]
  constructor
  · rintro ⟨⟨huncut, hpem⟩, -, hshapes⟩
    refine ⟨huncut, fun before name hshown _ => hshapes name ?_, fun name _ => ?_⟩
    · obtain ⟨rest, hrest⟩ := hshown
      rw [← hrest]
      simp
    · by_contra hlast
      rw [Bool.not_eq_false] at hlast
      rw [pem_mono (remainder_suffix .between (preview metadata)).isInfix hlast] at hpem
      cases hpem
  · intro h
    have hprefix : preview metadata <+: json metadata := List.take_prefix 512 (json metadata)
    exact ⟨⟨h.uncut, preview_free h⟩, ⟨json metadata, _, hprefix, parseText_print (.object (redact metadata)),
      hides_redact metadata⟩, fun s hs => shown_free h hs⟩

/-- A name that ends in half a pair. -/
def halfName : Record := [(str "name".toList, .scalar (.string [0xD83D]))]

end Corebase.AuditEntries
