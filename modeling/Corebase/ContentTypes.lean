import Corebase.MimeType
import Corebase.StorageRules

namespace Corebase.ContentTypes

open JsText (Text isSpace)
open StorageRules
open MimeType (httpSpace Shape shape_of_essence essence_self scriptable)

/-! Serving -/

/-- The types that are taken to execute. -/
def executing : List Text :=
  ["text/html".toList, "image/svg+xml".toList, "application/xhtml+xml".toList, "text/xml".toList]

def sandbox : List (String × Text) :=
  [("content-disposition", "attachment".toList), ("content-security-policy", "default-src 'none'; sandbox".toList)]

def servingHeaders (lower : Text → Text) (mimeType : Text) : List (String × Text) :=
  ("x-content-type-options", "nosniff".toList) :: if essence lower mimeType ∈ executing then sandbox else []

structure Row where
  mimeType : Text
  etag : Text

structure Fetched where
  status : Nat
  contentRange : Option Text
  bytes : Content

inductive Answer
  | notModified (etag : Text)
  | missing
  | storeFailed
  | sent (status : Nat) (headers : List (String × Text)) (bytes : Content)

/-- The tags of a condition: without quotes, split at commas and the blanks after them. -/
def tags (ifNoneMatch : Text) : List Text :=
  match (ifNoneMatch.filter (· ≠ '"')).splitOn ',' with
  | [] => []
  | first :: rest => first :: rest.map (·.dropWhile isSpace)

def quoted (etag : Text) : Text := '"' :: etag ++ ['"']

/-- Where an object is downloaded from. -/
inductive DownloadPath
  | authenticated | signed | shared
deriving DecidableEq

def DownloadPath.cacheControl : DownloadPath → Text
  | .shared => "public, max-age=3600".toList
  | .authenticated | .signed => "private, no-store".toList

def streamObject (lower : Text → Text) (path : DownloadPath) (row : Row) (ifNoneMatch range : Option Text)
    (getObject : Option Text → Fetched) : Answer :=
  if ifNoneMatch.any fun inm => row.etag ∈ tags inm then .notModified (quoted row.etag)
  else
    let fetched := getObject range
    if fetched.status = 404 then .missing
    else if fetched.status ≠ 200 ∧ fetched.status ≠ 206 then .storeFailed
    else
      .sent fetched.status
        (servingHeaders lower row.mimeType ++ ([("content-type", row.mimeType), ("etag", quoted row.etag),
          ("accept-ranges", "bytes".toList), ("cache-control", path.cacheControl)] ++
            (fetched.contentRange.map fun r => ("content-range", r)).toList))
        fetched.bytes

/-! Uploading -/

/-- The checks of the type and of the content, which an upload passes at once or at its completion. -/
def accepted (lower : Text → Text) (declared : Text) (allowed : Option (List Text)) (bytes : Content) : Bool :=
  mimeAllowed lower declared allowed && (sniff (bytes.take sniffBytes) declared).isNone

/-- A declared type is treated as its essence is, what is accepted as a type with a known signature has it,
and what is opened as a document is served as an attachment in a sandbox. -/
structure OneTreatment (lower : Text → Text) (declared e : Text) (allowed : Option (List Text)) (bytes : Content) :
    Prop where
  allowedSame : mimeAllowed lower declared allowed = mimeAllowed lower e allowed
  verdictSame : (sniff (bytes.take sniffBytes) declared).isNone = (sniff (bytes.take sniffBytes) e).isNone
  headersSame : servingHeaders lower declared = servingHeaders lower e
  signed : accepted lower declared allowed bytes = true →
    ∀ m ∈ media, (∃ mime ∈ m.mimes, mime.toList = e) → m.test bytes = true
  sandboxed : scriptable e = true → ∀ path row ifNoneMatch range getObject status headers sent,
    row.mimeType = declared → streamObject lower path row ifNoneMatch range getObject = .sent status headers sent →
      ∀ header ∈ sandbox, header ∈ headers

/-! When that is so -/

/-- An executable, which is refused whatever its type. -/
def executable (head : Content) : Bool := dangerous.any fun sig => sig.2.any fun bytes => bytes.isPrefixOf head

/-- A type with a known signature, which the content does not have. -/
def Mismatch (e : Text) (head : Content) : Prop :=
  ∃ m ∈ media, (∃ mime ∈ m.mimes, mime.toList = e) ∧ 12 ≤ head.length ∧ m.test head = false

def mediaKind (e : Text) : Bool := ["image/", "video/", "audio/"].any fun kind => kind.toList.isPrefixOf e

/-- Markup in an image, a video or a sound. -/
def Markup (e : Text) (head : Content) : Prop :=
  mediaKind e = true ∧ active ((head.take sniffBytes).map Char.ofNat) = true

/-- The declared type is the essence itself, in either case. -/
def Bare (declared e : Text) : Prop := declared.map Char.toLower = e

/-- No blank stands before the type. -/
def Flush (declared : Text) : Prop := ∀ c, declared.head? = some c → httpSpace c = false

structure Sound (lower : Text → Text) (declared e : Text) (allowed : Option (List Text)) (bytes : Content) : Prop where
  inspected : executable (bytes.take sniffBytes) = true ∨
    ¬ Mismatch e (bytes.take sniffBytes) ∧ ¬ Markup e (bytes.take sniffBytes) ∨ Bare declared e ∨
      Flush declared ∧ Markup e (bytes.take sniffBytes)
  signed : ∀ m ∈ media, (∃ mime ∈ m.mimes, mime.toList = e) → m.test bytes = true ∨
    executable (bytes.take sniffBytes) = true ∨ Bare declared e ∧ 12 ≤ bytes.length ∨
      Flush declared ∧ Markup e (bytes.take sniffBytes) ∨ mimeAllowed lower e allowed = false
  listed : scriptable e = true → e ∈ executing

section

variable {lower : Text → Text} {declared e lead body trail rest : Text} {head bytes : Content}

theorem sniff_none : (sniff head declared).isNone = true ↔ executable head = false ∧
    ¬ Mismatch (declared.map Char.toLower) head ∧ ¬ Markup (declared.map Char.toLower) head := by
  have hexec : (dangerous.find? fun sig => sig.2.any fun bytes => bytes.isPrefixOf head) = none ↔
      executable head = false := by
    rw [List.find?_eq_none, executable, List.any_eq_false]
  have hmedia : (media.find? fun m => (m.mimes.any fun mime => mime.toList = declared.map Char.toLower) &&
      12 ≤ head.length && !m.test head) = none ↔ ¬ Mismatch (declared.map Char.toLower) head := by
    rw [List.find?_eq_none, Mismatch]
    simp only [not_exists, not_and, Bool.and_eq_true, List.any_eq_true, decide_eq_true_eq, Bool.not_eq_true']
    constructor
    · rintro h m hm hmime hlen htest
      exact h m hm ⟨hmime, hlen⟩ htest
    · rintro h m hm ⟨hmime, hlen⟩ htest
      exact h m hm hmime hlen htest
  rw [sniff]
  cases hd : dangerous.find? fun sig => sig.2.any fun bytes => bytes.isPrefixOf head with
  | some sig =>
      have : ¬ executable head = false := fun h => by
        rw [hexec.mpr h] at hd
        cases hd
      simp [this]
  | none =>
      rw [← hexec, and_iff_right hd]
      dsimp only
      cases hm : media.find? fun m => (m.mimes.any fun mime => mime.toList = declared.map Char.toLower) &&
          12 ≤ head.length && !m.test head with
      | some m =>
          have : ¬ ¬ Mismatch (declared.map Char.toLower) head := fun h => by
            rw [hmedia.mpr h] at hm
            cases hm
          simp [this]
      | none =>
          rw [and_iff_right (hmedia.mp hm)]
          dsimp only
          rw [Markup, mediaKind, ← Bool.and_eq_true]
          split
          next h => exact iff_of_false (by simp) (not_not.mpr h)
          next h => exact iff_of_true rfl h

theorem test_take {m : Media} (hm : m ∈ media) (bytes : Content) : m.test (bytes.take sniffBytes) = m.test bytes := by
  have hone : ∀ sig : Content, sig.length ≤ sniffBytes → sig.isPrefixOf (bytes.take sniffBytes) = sig.isPrefixOf bytes := by
    intro sig hsig
    apply Bool.eq_iff_iff.mpr
    rw [List.isPrefixOf_iff_prefix, List.isPrefixOf_iff_prefix, List.prefix_take_iff, and_iff_left hsig]
  simp only [media, List.mem_cons, List.not_mem_nil, or_false] at hm
  rcases hm with rfl | rfl | rfl | rfl | rfl
  · exact hone _ (by decide)
  · exact hone _ (by decide)
  · exact hone _ (by decide)
  · dsimp only
    rw [hone _ (by decide), List.take_take, show min 12 sniffBytes = 12 from rfl]
  · exact hone _ (by decide)

/-- The code reads the essence of what has one. -/
theorem essence_eq (hlower : ∀ t, (∀ c ∈ t, c.toNat < 128) → lower t = t.map Char.toLower)
    (h : MimeType.essence declared = some e) : essence lower declared = e := by
  obtain ⟨lead, body, trail, rest, hshape⟩ := shape_of_essence h
  rw [essence, hshape.trim_before, hlower body, hshape.essence_eq]
  intro c hc
  exact hshape.body_ascii hc

theorem lower_blank {c : Char} (h : httpSpace c = true) : c.toLower = c := by
  simp only [httpSpace, decide_eq_true_eq, List.mem_cons, List.not_mem_nil, or_false] at h
  rcases h with rfl | rfl | rfl | rfl <;> decide

theorem shape_flush (h : Shape declared e lead body trail rest) : Flush declared ↔ lead = [] := by
  rw [Flush, h.input_eq]
  constructor
  · intro hflush
    cases lead with
    | nil => rfl
    | cons c lead =>
        have := hflush c rfl
        rw [h.blankLead c (List.mem_cons_self ..)] at this
        cases this
  · rintro rfl c hc
    obtain ⟨kind, subtype, rfl, hkind, -⟩ := h.split
    cases kind with
    | nil => simp [MimeType.token] at hkind
    | cons d kind =>
        rw [← Option.some.inj hc]
        exact MimeType.token_not_space ((MimeType.token_iff.mp hkind).2 d (List.mem_cons_self ..))

/-- The kinds of media are looked for at the start of the declared type. -/
theorem mediaKind_iff (h : Shape declared e lead body trail rest) :
    mediaKind (declared.map Char.toLower) = true ↔ Flush declared ∧ mediaKind e = true := by
  obtain ⟨kind, subtype, hbody, hkind, hsub⟩ := h.split
  have hslash : '/' ∈ e := by
    rw [← h.essence_eq, hbody, List.map_append, List.map_cons]
    exact List.mem_append_right _ (List.mem_cons.mpr (.inl (by decide)))
  have hlow : declared.map Char.toLower = lead.map Char.toLower ++ (e ++ (trail ++ rest).map Char.toLower) := by
    rw [h.input_eq, List.map_append, List.map_append, h.essence_eq]
  have hone : ∀ word : String, (∃ d t, word.toList = d :: t ++ ['/'] ∧ '/' ∉ d :: t ∧ httpSpace d = false) →
      (word.toList <+: declared.map Char.toLower ↔ Flush declared ∧ word.toList <+: e) := by
    rintro word ⟨d, t, hword, hfree, hd⟩
    rw [hword, hlow, shape_flush h]
    constructor
    · intro hpre
      have hlead : lead = [] := by
        cases hl : lead with
        | nil => rfl
        | cons c more =>
            rw [hl] at hpre
            obtain ⟨rfl, -⟩ := List.cons_prefix_cons.mp hpre
            have hblank := h.blankLead c (by rw [hl]; exact List.mem_cons_self ..)
            rw [lower_blank hblank, hblank] at hd
            cases hd
      rw [hlead, List.map_nil, List.nil_append] at hpre
      refine ⟨hlead, ?_⟩
      rcases List.prefix_or_prefix_of_prefix hpre (List.prefix_append _ _) with hp | hp
      · exact hp
      · rcases List.prefix_concat_iff.mp hp with heq | hp
        · exact heq ▸ List.prefix_refl e
        · exact absurd (hp.subset hslash) hfree
    · rintro ⟨rfl, hpre⟩
      exact hpre.trans (List.prefix_append _ _)
  simp only [mediaKind, List.any_cons, List.any_nil, Bool.or_false, Bool.or_eq_true, List.isPrefixOf_iff_prefix]
  rw [hone "image/" ⟨'i', "mage".toList, by decide, by decide, by decide⟩,
    hone "video/" ⟨'v', "ideo".toList, by decide, by decide, by decide⟩,
    hone "audio/" ⟨'a', "udio".toList, by decide, by decide, by decide⟩]
  grind

/-- The types with a signature are looked for as the whole declared type. -/
theorem mime_iff (h : Shape declared e lead body trail rest) {m : Media} (hm : m ∈ media) :
    (∃ mime ∈ m.mimes, mime.toList = declared.map Char.toLower) ↔
      Bare declared e ∧ ∃ mime ∈ m.mimes, mime.toList = e := by
  have hletters : ∀ m ∈ media, ∀ mime ∈ m.mimes, ∀ c ∈ mime.toList, httpSpace c = false ∧ c ≠ ';' := by
    intro m hm
    simp only [media, List.mem_cons, List.not_mem_nil, or_false] at hm
    have hall : ∀ {mimes : List String},
        (mimes.all fun mime => mime.toList.all fun c => !httpSpace c && c != ';') = true →
          ∀ mime ∈ mimes, ∀ c ∈ mime.toList, httpSpace c = false ∧ c ≠ ';' := by
      intro mimes h mime hmime c hc
      simpa using List.all_eq_true.mp (List.all_eq_true.mp h mime hmime) c hc
    rcases hm with rfl | rfl | rfl | rfl | rfl <;> exact hall (by decide)
  constructor
  · rintro ⟨mime, hmime, heq⟩
    have hlow : declared.map Char.toLower = lead.map Char.toLower ++ (e ++ (trail.map Char.toLower ++ rest.map Char.toLower)) := by
      rw [h.input_eq, List.map_append, List.map_append, List.map_append, h.essence_eq]
    have hclean : ∀ c ∈ declared.map Char.toLower, httpSpace c = false ∧ c ≠ ';' := by
      rw [← heq]
      exact hletters m hm mime hmime
    have hblank : ∀ t : Text, (∀ c ∈ t, httpSpace c = true) → (∀ c ∈ t.map Char.toLower, httpSpace c = false) → t = [] := by
      intro t ht hlow
      cases t with
      | nil => rfl
      | cons c t =>
          have hc := ht c (List.mem_cons_self ..)
          have := hlow c.toLower (List.mem_map_of_mem (List.mem_cons_self ..))
          rw [lower_blank hc, hc] at this
          cases this
    rw [hlow] at hclean
    have hlead := hblank lead h.blankLead fun c hc => (hclean c (List.mem_append_left _ hc)).1
    have htrail := hblank trail h.blankTrail fun c hc => (hclean c
      (List.mem_append_right _ (List.mem_append_right _ (List.mem_append_left _ hc)))).1
    have hrest : rest = [] := by
      cases hr : rest with
      | nil => rfl
      | cons c more =>
          obtain rfl := h.params c (by rw [hr]; rfl)
          have hin : ';'.toLower ∈ rest.map Char.toLower := List.mem_map_of_mem (by rw [hr]; exact List.mem_cons_self ..)
          exact absurd rfl (hclean ';' (List.mem_append_right _ (List.mem_append_right _ (List.mem_append_right _ hin)))).2
    have hbare : declared.map Char.toLower = e := by
      rw [hlow, hlead, htrail, hrest]
      simp
    exact ⟨hbare, mime, hmime, heq.trans hbare⟩
  · rintro ⟨hbare, mime, hmime, heq⟩
    exact ⟨mime, hmime, heq.trans hbare.symm⟩

theorem mismatch_iff (h : Shape declared e lead body trail rest) :
    Mismatch (declared.map Char.toLower) head ↔ Bare declared e ∧ Mismatch e head := by
  constructor
  · rintro ⟨m, hm, hmime, hlen, htest⟩
    obtain ⟨hbare, hmime⟩ := (mime_iff h hm).mp hmime
    exact ⟨hbare, m, hm, hmime, hlen, htest⟩
  · rintro ⟨hbare, m, hm, hmime, hlen, htest⟩
    exact ⟨m, hm, (mime_iff h hm).mpr ⟨hbare, hmime⟩, hlen, htest⟩

theorem markup_iff (h : Shape declared e lead body trail rest) :
    Markup (declared.map Char.toLower) head ↔ Flush declared ∧ Markup e head := by
  rw [Markup, mediaKind_iff h, Markup, and_assoc]

theorem bare_flush (h : Shape declared e lead body trail rest) (hbare : Bare declared e) : Flush declared := by
  rw [shape_flush h]
  have hlen : declared.length = body.length := by
    have := congrArg List.length (hbare.trans h.essence_eq.symm)
    simpa using this
  rw [h.input_eq, List.length_append, List.length_append] at hlen
  exact List.length_eq_zero_iff.mp (by omega)

theorem sent_headers {path : DownloadPath} {row : Row} {ifNoneMatch range : Option Text} {getObject : Option Text → Fetched}
    {status : Nat} {headers : List (String × Text)} {sent : Content}
    (h : streamObject lower path row ifNoneMatch range getObject = .sent status headers sent) :
    ∀ header ∈ servingHeaders lower row.mimeType, header ∈ headers := by
  unfold streamObject at h
  split at h
  · cases h
  · dsimp only at h
    split at h
    · cases h
    · split at h
      · cases h
      · cases h
        exact fun header hmem => List.mem_append_left _ hmem

end

/-- A declared type with an essence is treated as it should be exactly when no blank or parameter hides
it from an inspection that would have refused, and when its essence, if it is opened as a document, is
one of those that are listed. -/
theorem one_treatment (lower : Text → Text) (hlower : ∀ t, (∀ c ∈ t, c.toNat < 128) → lower t = t.map Char.toLower)
    (declared e : Text) (hessence : MimeType.essence declared = some e) (allowed : Option (List Text)) (bytes : Content) :
    OneTreatment lower declared e allowed bytes ↔ Sound lower declared e allowed bytes := by
  obtain ⟨lead, body, trail, rest, hshape⟩ := shape_of_essence hessence
  obtain ⟨hself, hlow⟩ := essence_self hessence
  have hread := essence_eq hlower hessence
  have hread' := essence_eq hlower hself
  have hallowed : mimeAllowed lower declared allowed = mimeAllowed lower e allowed := by
    unfold mimeAllowed
    rw [hread, hread']
  have hheaders : servingHeaders lower declared = servingHeaders lower e := by
    rw [servingHeaders, servingHeaders, hread, hread']
  have hverdict : (sniff (bytes.take sniffBytes) declared).isNone = true ↔
      executable (bytes.take sniffBytes) = false ∧ ¬ (Bare declared e ∧ Mismatch e (bytes.take sniffBytes)) ∧
        ¬ (Flush declared ∧ Markup e (bytes.take sniffBytes)) := by
    rw [sniff_none, mismatch_iff hshape, markup_iff hshape]
  have hplain : (sniff (bytes.take sniffBytes) e).isNone = true ↔ executable (bytes.take sniffBytes) = false ∧
      ¬ Mismatch e (bytes.take sniffBytes) ∧ ¬ Markup e (bytes.take sniffBytes) := by
    rw [sniff_none, hlow]
  constructor
  · intro h
    refine ⟨?_, fun m hm hmime => ?_, fun hscript => ?_⟩
    · have hsame := Bool.eq_iff_iff.mp h.verdictSame
      rw [hverdict, hplain] at hsame
      cases hexec : executable (bytes.take sniffBytes) with
      | true => exact .inl rfl
      | false =>
          right
          by_contra hno
          grind
    · by_contra hno
      simp only [not_or, Bool.not_eq_true, Bool.not_eq_false] at hno
      obtain ⟨htest, hexec, hbare, hmark, hok⟩ := hno
      have haccepted : accepted lower declared allowed bytes = true := by
        rw [accepted, hallowed, hok, Bool.true_and, hverdict]
        refine ⟨hexec, ?_, hmark⟩
        rintro ⟨hb, _, _, _, hlen, _⟩
        exact hbare ⟨hb, hlen.trans (List.length_take_le' _ _)⟩
      rw [h.signed haccepted m hm hmime] at htest
      cases htest
    · by_contra hno
      have hin := h.sandboxed hscript .shared ⟨declared, []⟩ none none (fun _ => ⟨200, none, []⟩) _ _ _ rfl rfl
        ("content-disposition", "attachment".toList) (List.mem_cons_self ..)
      rw [servingHeaders, hread, if_neg hno] at hin
      simp at hin
  · intro h
    refine ⟨hallowed, ?_, hheaders, fun haccepted m hm hmime => ?_, ?_⟩
    · apply Bool.eq_iff_iff.mpr
      rw [hverdict, hplain]
      have hflush := bare_flush hshape
      rcases h.inspected with hexec | hclean | hbare | hmark
      · simp [hexec]
      · grind
      · have := hflush hbare
        grind
      · grind
    · rw [accepted, Bool.and_eq_true, hallowed, hverdict] at haccepted
      obtain ⟨hok, hexec, hmis, hmark⟩ := haccepted
      rcases h.signed m hm hmime with htest | htrue | ⟨hbare, hlen⟩ | hm' | hno
      · exact htest
      · rw [htrue] at hexec
        cases hexec
      · by_contra htest
        refine hmis ⟨hbare, m, hm, hmime, ?_, ?_⟩
        · rw [List.length_take, sniffBytes]
          omega
        · rw [test_take hm]
          exact Bool.not_eq_true _ ▸ htest
      · exact absurd hm' hmark
      · rw [hno] at hok
        cases hok
    · intro hscript path row ifNoneMatch range getObject status headers sent hrow hsent header hheader
      apply sent_headers hsent
      rw [hrow, servingHeaders, hread, if_pos (h.listed hscript)]
      exact List.mem_cons_of_mem _ hheader

/-- The lower case of a text, where only the letters of ASCII have one. -/
def lowerAscii (t : Text) : Text := t.map Char.toLower

theorem one_treatment_png : OneTreatment lowerAscii "Image/PNG".toList "image/png".toList none
    ([0x89, 0x50, 0x4e, 0x47, 0x0d, 0x0a, 0x1a, 0x0a] ++ List.replicate 40 0) := by
  refine (one_treatment lowerAscii (fun _ _ => rfl) _ _ (by decide) none _).mpr ⟨.inr (.inr (.inl ?_)), ?_, ?_⟩
  · unfold Bare
    decide
  · intro m hm hmime
    simp only [media, List.mem_cons, List.not_mem_nil, or_false] at hm
    rcases hm with rfl | rfl | rfl | rfl | rfl
    · exact .inl (by decide)
    all_goals exact absurd hmime (by decide)
  · decide

/-- Another type of XML is served as any file. -/
theorem xml_served : ¬ ∀ (declared e : Text) (allowed : Option (List Text)) (bytes : Content),
    MimeType.essence declared = some e → OneTreatment lowerAscii declared e allowed bytes := by
  intro h
  have hone := h "application/xml".toList "application/xml".toList none [] (by decide)
  have hin := hone.sandboxed (by decide) .shared ⟨"application/xml".toList, []⟩ none none
    (fun _ => ⟨200, none, []⟩) _ _ _ rfl rfl ("content-disposition", "attachment".toList) (List.mem_cons_self ..)
  revert hin
  decide

end Corebase.ContentTypes
