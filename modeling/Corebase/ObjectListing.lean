import Mathlib.Data.Bool.AllAny
import Corebase.XmlText
import Mathlib.Algebra.Order.BigOperators.Group.List
import Mathlib.Algebra.Order.Group.Nat

namespace Corebase.ObjectListing

open JsText XmlText

def decodeXml (s : Text) : Text :=
  [Entity.lt, .gt, .quot, .apos, .amp].foldl (fun s e => replaceAll (reference e.name) e.char s) s

structure Reply where
  status : Nat
  body : Text

structure Listed where
  key : Text
  size : Nat
  lastModified : Option Text
deriving DecidableEq

def KEY : Text := ['K', 'e', 'y']
def SIZE : Text := ['S', 'i', 'z', 'e']
def LAST_MODIFIED : Text := "LastModified".toList
def CONTENTS : Text := "Contents".toList
def IS_TRUNCATED : Text := "IsTruncated".toList
def TOKEN : Text := "NextContinuationToken".toList
def yes : Text := ['t', 'r', 'u', 'e']

def number (digits : Text) : Nat := digits.foldl (fun n c => 10 * n + (c.toNat - 48)) 0

def digitsOf (s : Text) : Option (Text × Nat) := (elementOf isDigit SIZE s).filter fun m => m.1 ≠ []

def keysIn (body : Text) : List Text := (matchAll (elementOf isText KEY) 0 body).map decodeXml

def detailOf (xml : Text) : Option Listed :=
  match (matchAll (elementOf isText KEY) 0 xml).head? with
  | none | some [] => none
  | some key => some {
      key := decodeXml key
      size := number ((matchAll digitsOf 0 xml).head?.getD ['0'])
      lastModified := (matchAll (elementOf isText LAST_MODIFIED) 0 xml).head? }

def detailsIn (body : Text) : List Listed := (matchAll (blockOf CONTENTS) 0 body).filterMap detailOf

def isTruncated (body : Text) : Bool := contains (openTag IS_TRUNCATED ++ (yes ++ closeTag IS_TRUNCATED)) body

def nextToken (body : Text) : Option Text := (matchAll (elementOf isText TOKEN) 0 body).head?

/-- An empty token is not sent. -/
def sent (token : Option Text) : Option Text := token.filter (· ≠ [])

section Paging

variable {α : Type} (read : Text → List α) (next : Text → Text) (throws : Bool) (reply : Option Text → Reply)

/-- The loop of both listings, which a page limit ends with an error or with what there is. -/
def paged : Nat → Option Text → List α → Option (List α)
  | 0, _, out => if throws then none else some out
  | n + 1, token, out =>
      let res := reply (sent token)
      if res.status ≠ 200 then none
      else
        let out := out ++ read res.body
        match nextToken res.body with
        | none => some out
        | some token => if isTruncated res.body && token ≠ [] then paged n (some (next token)) out else some out

end Paging

def list (reply : Option Text → Reply) : Option (List Text) := paged keysIn decodeXml true reply 10000 none []

def listDetailed (reply : Option Text → Reply) : Option (List Listed) := paged detailsIn id false reply 10000 none []

/-! What the server writes -/

def field (name : Text) (w : Written) : Text := openTag name ++ w.raw ++ closeTag name

structure Contents where
  lead : Text
  key : Written
  afterKey : Text
  time : Written
  afterTime : Text
  size : Written
  tail : Text
  named : key.content ≠ []
  counted : size.content ≠ [] ∧ ∀ c ∈ size.content, isDigit c = true

namespace Contents

def inside (c : Contents) : Text :=
  c.lead ++ (field KEY c.key ++ (c.afterKey ++ (field LAST_MODIFIED c.time ++
    (c.afterTime ++ (field SIZE c.size ++ c.tail)))))

def document (c : Contents) : Text := openTag CONTENTS ++ c.inside ++ closeTag CONTENTS

/-- What the element says. -/
def listed (c : Contents) : Listed := ⟨c.key.content, number c.size.content, some c.time.content⟩

end Contents

inductive Item
  | contents (c : Contents)
  | truncated (w : Written)
  | token (w : Written)
  | other (s : Text)

namespace Item

def document : Item → Text
  | contents c => c.document
  | truncated w => field IS_TRUNCATED w
  | token w => field TOKEN w
  | other s => s

def contents? : Item → Option Contents
  | contents c => some c
  | _ => none

def truncated? : Item → Option Written
  | truncated w => some w
  | _ => none

def token? : Item → Option Written
  | token w => some w
  | _ => none

end Item

/-- One page of a listing, its parts in any order. -/
structure Page where
  items : List Item
  truncated : Written
  token : Option Written
  truncated_items : items.filterMap Item.truncated? = [truncated]
  token_items : items.filterMap Item.token? = token.toList

namespace Page

variable (page : Page)

def document : Text := page.items.flatMap Item.document

def contents : List Contents := page.items.filterMap Item.contents?

def more : Prop := page.truncated.content = yes

end Page

/-- The answers to the tokens that the pages give out. A request may fail. -/
def Serves (reply : Option Text → Reply) : Option Text → List Page → Prop
  | _, [] => False
  | issued, page :: pages =>
      ((reply issued).status = 200 → (reply issued).body = page.document) ∧
        (page.more → ∃ t, page.token = some t ∧ Serves reply (some t.content) pages) ∧ (¬ page.more → pages = [])

structure Listing where
  reply : Option Text → Reply
  pages : List Page
  serves : Serves reply none pages
  distinct : ((pages.flatMap Page.contents).map (·.key.content)).Nodup

def Listing.listed (l : Listing) : List Listed := (l.pages.flatMap Page.contents).map Contents.listed

/-! Where the reading is right -/

/-- The elements that the patterns look for. -/
def names : List Text := [KEY, SIZE, LAST_MODIFIED, CONTENTS, '/' :: CONTENTS, IS_TRUNCATED, TOKEN]

def Still (s : Text) : Prop := ∀ name ∈ names, Quiet name s

/-- No CDATA section in what is read, and nothing like a tag of these names elsewhere. -/
structure Contents.Tidy (c : Contents) : Prop where
  key : c.key.Free
  time : c.time.Free
  size : c.size.Free
  lead : Still c.lead
  afterKey : Still c.afterKey
  afterTime : Still c.afterTime
  tail : Still c.tail

def Item.Tidy : Item → Prop
  | .contents c => c.Tidy
  | .truncated w => w.Free
  | .token w => w.Free
  | .other s => Still s

def Page.Tidy (page : Page) : Prop := ∀ item ∈ page.items, item.Tidy

/-- No character of the key is written by number. -/
def Contents.KeyNamed (c : Contents) : Prop := ∀ p ∈ c.key, p.isNumeric = false

structure Contents.Named (c : Contents) : Prop where
  key : c.KeyNamed
  time : c.time.plain = true
  size : c.size.plain = true ∨ number c.size.content = 0

/-- The token as the page writes it, where the page is read as one that more pages follow. -/
def Page.goes (page : Page) : Option Text :=
  if page.truncated.raw = yes then (page.token.map Written.raw).filter (· ≠ []) else none

section Conditions

variable (good : Contents → Prop) (next : Text → Text) (throws : Bool) (reply : Option Text → Reply)

/-- Each page is read right, up to the last that has an entry. -/
def Whole : Nat → Option Text → Option Text → List Page → Prop
  | 0, _, _, pages => throws = false ∧ pages.flatMap Page.contents = []
  | _ + 1, _, _, [] => False
  | n + 1, token, issued, page :: pages =>
      (reply (sent token)).status = 200 ∧ sent token = issued ∧ page.Tidy ∧ (∀ c ∈ page.contents, good c) ∧
        match page.goes with
        | some raw => Whole n (some (next raw)) (page.token.map Written.content) pages
        | none => pages.flatMap Page.contents = []

/-- A request fails, or the page limit is an error and is reached. -/
def Fails : Nat → Option Text → Option Text → List Page → Prop
  | 0, _, _, _ => throws = true
  | _ + 1, token, _, [] => (reply (sent token)).status ≠ 200
  | n + 1, token, issued, page :: pages =>
      (reply (sent token)).status ≠ 200 ∨
        sent token = issued ∧ page.Tidy ∧
          ∃ raw, page.goes = some raw ∧ Fails n (some (next raw)) (page.token.map Written.content) pages

end Conditions

namespace Listing

variable (l : Listing)

def ListReads : Prop :=
  Whole Contents.KeyNamed decodeXml true l.reply 10000 none none l.pages ∨
    Fails decodeXml true l.reply 10000 none none l.pages

def DetailedReads : Prop :=
  Whole Contents.Named id false l.reply 10000 none none l.pages ∨ Fails id false l.reply 10000 none none l.pages

/-- A server without CDATA sections that refuses the tokens it has not given out. -/
structure Strict : Prop where
  tidy : ∀ page ∈ l.pages, page.Tidy
  refuses : ∀ page ∈ l.pages, ∀ raw, page.goes = some raw → ∀ token ∈ [decodeXml raw, raw],
    sent (some token) = page.token.map Written.content ∨ (l.reply (sent (some token))).status ≠ 200

def ListExact : Prop := ∀ keys, list l.reply = some keys → keys.Perm (l.listed.map (·.key))

def DetailedExact : Prop := ∀ out, listDetailed l.reply = some out → out.Perm l.listed

end Listing

/-! Decoding -/

def replaced (e : Entity) (t : Text) : Text := if t = reference e.name then [e.char] else t

theorem replaceAll_flatten (e : Entity) {ts : List Text} (hts : ∀ t ∈ ts, Chunk t) :
    replaceAll (reference e.name) e.char ts.flatten = (ts.map (replaced e)).flatten :=
  replaceAll_chunks hts e.name_free.2

theorem chunk_replaced {e : Entity} (he : e.char ≠ '&') {ts : List Text} (hts : ∀ t ∈ ts, Chunk t) :
    ∀ t ∈ ts.map (replaced e), Chunk t := by
  intro t ht
  obtain ⟨u, hu, rfl⟩ := List.mem_map.mp ht
  exact (hts u hu).replace he

def unreferenced (t : Text) : Text := replaced .amp (replaced .apos (replaced .quot (replaced .gt (replaced .lt t))))

theorem decodeXml_flatten {ts : List Text} (hts : ∀ t ∈ ts, Chunk t) :
    decodeXml ts.flatten = (ts.map unreferenced).flatten := by
  have hlt := chunk_replaced (e := .lt) (by decide) hts
  have hgt := chunk_replaced (e := .gt) (by decide) hlt
  have hquot := chunk_replaced (e := .quot) (by decide) hgt
  have hapos := chunk_replaced (e := .apos) (by decide) hquot
  simp only [decodeXml, List.foldl_cons, List.foldl_nil]
  rw [replaceAll_flatten _ hts, replaceAll_flatten _ hlt, replaceAll_flatten _ hgt, replaceAll_flatten _ hquot,
    replaceAll_flatten _ hapos]
  simp only [List.map_map]
  rfl

theorem replaced_char (e : Entity) {c : Char} (hc : c ≠ '&') : replaced e [c] = [c] :=
  if_neg fun h => hc (List.cons.inj h).1

theorem unreferenced_raw {p : Piece} (hp : p.isCdata = false) : unreferenced p.raw = p.unnamed := by
  cases p with
  | plain c hc => simp only [unreferenced, Piece.raw, Piece.unnamed, replaced_char _ hc.2.1]
  | named e => cases e <;> decide
  | numeric c digits h => rfl
  | cdata => exact absurd hp.symm Bool.false_ne_true

theorem decodeXml_raw {w : Written} (hw : w.Free) : decodeXml w.raw = w.unnamed := by
  have hchunks : ∀ t ∈ w.map Piece.raw, Chunk t := by
    intro t ht
    obtain ⟨p, hp, rfl⟩ := List.mem_map.mp ht
    exact Piece.chunk (hw p hp)
  rw [Written.raw, List.flatMap, decodeXml_flatten hchunks, List.map_map, Written.unnamed, List.flatMap,
    List.map_congr_left]
  exact fun p hp => unreferenced_raw (hw p hp)

/-! Reading a page -/

section Reading

variable {x y s rest : Text} {w : Written} {item : Item} {page : Page} {c : Contents}

theorem quiet_closing (hclose : x ≠ '/' :: y) (hx : '>' ∉ x) (hy : '>' ∉ y ∧ '<' ∉ y) (hw : w.Free) :
    Quiet x (y ++ ['>'] ++ w.raw ++ closeTag y) := by
  have hopen : '<' ∉ y ++ ['>'] ++ w.raw := by
    have hraw := Written.raw_free hw
    simp [hy.2, hraw]
  refine (quiet_of_not_mem hopen).append (quiet_tag hclose hx ?_ ?_)
  · simpa using hy.1
  · simpa using hy.2

theorem quiet_field (hne : x ≠ y) (hclose : x ≠ '/' :: y) (hx : '>' ∉ x) (hy : '>' ∉ y ∧ '<' ∉ y) (hw : w.Free) :
    Quiet x (field y w) := by
  refine ((quiet_tag hne hx hy.1 hy.2).append (quiet_of_not_mem (Written.raw_free hw))).append (quiet_tag hclose hx ?_ ?_)
  · simpa using hy.1
  · simpa using hy.2

theorem elementOf_quiet {p : Char → Bool} (x : Text) : ∀ u, ¬ tag x <+: u → elementOf p x u = none :=
  fun _ h => elementOf_none h

theorem blockOf_quiet (x : Text) : ∀ u, ¬ tag x <+: u → blockOf x u = none := fun _ h => blockOf_none h

theorem digitsOf_quiet : ∀ u, ¬ tag SIZE <+: u → digitsOf u = none := by
  intro u h
  rw [digitsOf, elementOf_none h]
  rfl

theorem matchAll_field (hw : w.Free) :
    matchAll (elementOf isText y) 0 (field y w ++ rest) = w.raw :: matchAll (elementOf isText y) 0 rest := by
  refine matchAll_element rfl fun c hc => ?_
  exact decide_eq_true fun h => Written.raw_free hw (h ▸ hc)

/-- What a pattern finds in a page, found part by part. -/
theorem matchAll_items {α : Type} {f : Text → Option (α × Nat)} (g : Item → List α) {items : List Item}
    (h : ∀ item ∈ items, ∀ rest, matchAll f 0 (item.document ++ rest) = g item ++ matchAll f 0 rest) :
    matchAll f 0 (items.flatMap Item.document) = items.flatMap g := by
  induction items with
  | nil => rfl
  | cons item items ih =>
      rw [List.flatMap_cons, h item List.mem_cons_self, ih fun i hi => h i (List.mem_cons_of_mem _ hi), List.flatMap_cons]

theorem plainNames : ∀ x ∈ names, '>' ∉ x ∧ '<' ∉ x := by decide

theorem quiet_after (h : c.Tidy) (hx : x ∈ names) (htime : x ≠ LAST_MODIFIED ∧ x ≠ '/' :: LAST_MODIFIED)
    (hsize : x ≠ SIZE ∧ x ≠ '/' :: SIZE) :
    Quiet x (c.afterKey ++ (field LAST_MODIFIED c.time ++ (c.afterTime ++ (field SIZE c.size ++ c.tail)))) := by
  have hplain := (plainNames x hx).1
  have hTime := quiet_field htime.1 htime.2 hplain (by decide) h.time
  have hSize := quiet_field hsize.1 hsize.2 hplain (by decide) h.size
  exact (h.afterKey x hx).append (hTime.append ((h.afterTime x hx).append (hSize.append (h.tail x hx))))

theorem quiet_inside (h : c.Tidy) (hx : x ∈ names) (hkey : x ≠ KEY ∧ x ≠ '/' :: KEY) (htime : x ≠ LAST_MODIFIED ∧ x ≠ '/' :: LAST_MODIFIED)
    (hsize : x ≠ SIZE ∧ x ≠ '/' :: SIZE) : Quiet x c.inside := by
  have hKey := quiet_field hkey.1 hkey.2 (plainNames x hx).1 (by decide) h.key
  exact (h.lead x hx).append (hKey.append (quiet_after h hx htime hsize))

theorem quiet_document (h : c.Tidy) (hx : x ∈ names) (hkey : x ≠ KEY ∧ x ≠ '/' :: KEY)
    (htime : x ≠ LAST_MODIFIED ∧ x ≠ '/' :: LAST_MODIFIED) (hsize : x ≠ SIZE ∧ x ≠ '/' :: SIZE)
    (hcontents : x ≠ CONTENTS ∧ x ≠ '/' :: CONTENTS) : Quiet x c.document := by
  have hplain := (plainNames x hx).1
  have hopen : Quiet x (openTag CONTENTS) := quiet_tag hcontents.1 hplain (by decide) (by decide)
  have hclose : Quiet x (closeTag CONTENTS) := quiet_tag hcontents.2 hplain (by decide) (by decide)
  exact (hopen.append (quiet_inside h hx hkey htime hsize)).append hclose

def Item.keys (item : Item) : List Text := (item.contents?.map (·.key.raw)).toList

def Item.tokens (item : Item) : List Text := (item.token?.map Written.raw).toList

def Item.blocks (item : Item) : List Text := (item.contents?.map Contents.inside).toList

theorem Item.matchAll_keys (h : item.Tidy) (rest : Text) :
    matchAll (elementOf isText KEY) 0 (item.document ++ rest) = item.keys ++ matchAll (elementOf isText KEY) 0 rest := by
  cases item with
  | contents c =>
      have hopen : Quiet KEY (openTag CONTENTS) := quiet_tag (by decide) (by decide) (by decide) (by decide)
      have hclose : Quiet KEY (closeTag CONTENTS) := quiet_tag (by decide) (by decide) (by decide) (by decide)
      have hafter := quiet_after (x := KEY) h (by decide) (by decide) (by decide)
      rw [Item.document, Contents.document, List.append_assoc, List.append_assoc, hopen.matchAll (elementOf_quiet _),
        Contents.inside, List.append_assoc, Quiet.matchAll (h.lead KEY (by decide)) (elementOf_quiet _),
        List.append_assoc, matchAll_field h.key, hafter.matchAll (elementOf_quiet _), hclose.matchAll (elementOf_quiet _)]
      rfl
  | truncated w =>
      exact (quiet_field (by decide) (by decide) (by decide) (by decide) h).matchAll (elementOf_quiet _)
  | token w =>
      exact (quiet_field (by decide) (by decide) (by decide) (by decide) h).matchAll (elementOf_quiet _)
  | other s => exact (h KEY (by decide)).matchAll (elementOf_quiet _)

theorem Item.matchAll_tokens (h : item.Tidy) (rest : Text) :
    matchAll (elementOf isText TOKEN) 0 (item.document ++ rest) = item.tokens ++ matchAll (elementOf isText TOKEN) 0 rest := by
  cases item with
  | contents c =>
      have hquiet := quiet_document (x := TOKEN) h (by decide) (by decide) (by decide)
        (by decide) (by decide)
      exact hquiet.matchAll (elementOf_quiet _)
  | truncated w =>
      exact (quiet_field (by decide) (by decide) (by decide) (by decide) h).matchAll
        (elementOf_quiet _)
  | token w => exact matchAll_field h
  | other s => exact (h TOKEN (by decide)).matchAll (elementOf_quiet _)

theorem Item.matchAll_blocks (h : item.Tidy) (rest : Text) :
    matchAll (blockOf CONTENTS) 0 (item.document ++ rest) = item.blocks ++ matchAll (blockOf CONTENTS) 0 rest := by
  cases item with
  | contents c =>
      exact matchAll_block (quiet_inside h (by decide) (by decide) (by decide) (by decide))
  | truncated w =>
      exact (quiet_field (by decide) (by decide) (by decide) (by decide) h).matchAll
        (blockOf_quiet _)
  | token w =>
      exact (quiet_field (by decide) (by decide) (by decide) (by decide) h).matchAll
        (blockOf_quiet _)
  | other s => exact (h CONTENTS (by decide)).matchAll (blockOf_quiet _)

theorem contains_skip (h : Quiet IS_TRUNCATED s) : isTruncated (s ++ rest) = isTruncated rest := by
  rw [isTruncated, contains, openTag, indexOf_tag_skip h, Option.isSome_map]
  rfl

def Item.saysMore (item : Item) : Bool := item.truncated?.any fun w => w.raw = yes

theorem isTruncated_field (hw : w.Free) : isTruncated (field IS_TRUNCATED w ++ rest) = (decide (w.raw = yes) || isTruncated rest) := by
  have hraw := Written.raw_free hw
  by_cases heq : w.raw = yes
  · have hhere : field IS_TRUNCATED w ++ rest = openTag IS_TRUNCATED ++ (yes ++ closeTag IS_TRUNCATED) ++ rest := by
      rw [field, heq, List.append_assoc (openTag IS_TRUNCATED)]
    rw [isTruncated, contains, hhere, indexOf_here, decide_eq_true heq]
    rfl
  · have hnot : ¬ openTag IS_TRUNCATED ++ (yes ++ closeTag IS_TRUNCATED) <+: field IS_TRUNCATED w ++ rest := by
      intro hstarts
      rw [field, List.append_assoc, List.append_assoc, List.prefix_append_right_inj] at hstarts
      have hshort : yes ++ ['<'] <+: w.raw ++ '<' :: ('/' :: IS_TRUNCATED ++ ['>'] ++ rest) := by
        refine List.IsPrefix.trans ?_ hstarts
        exact ⟨'/' :: IS_TRUNCATED ++ ['>'], by rw [List.append_assoc]; rfl⟩
      exact heq (prefix_unique (by decide) hraw hshort).symm
    have hquiet : Quiet IS_TRUNCATED (IS_TRUNCATED ++ ['>'] ++ w.raw ++ closeTag IS_TRUNCATED) :=
      quiet_closing (by decide) (by decide) (by decide) hw
    have hstep : isTruncated (field IS_TRUNCATED w ++ rest) =
        isTruncated (IS_TRUNCATED ++ ['>'] ++ w.raw ++ closeTag IS_TRUNCATED ++ rest) := by
      have hcons : field IS_TRUNCATED w ++ rest = '<' :: (IS_TRUNCATED ++ ['>'] ++ w.raw ++ closeTag IS_TRUNCATED ++ rest) := rfl
      rw [hcons] at hnot ⊢
      rw [isTruncated, contains, indexOf, if_neg (by rwa [List.isPrefixOf_iff_prefix]), Option.isSome_map]
      rfl
    rw [hstep, contains_skip hquiet, decide_eq_false heq, Bool.false_or]

theorem Item.isTruncated_append (h : item.Tidy) (rest : Text) :
    isTruncated (item.document ++ rest) = (item.saysMore || isTruncated rest) := by
  cases item with
  | contents c =>
      exact contains_skip (quiet_document h (by decide) (by decide) (by decide)
        (by decide) (by decide))
  | truncated w => exact isTruncated_field h
  | token w => exact contains_skip (quiet_field (by decide) (by decide) (by decide) (by decide) h)
  | other s => exact contains_skip (h IS_TRUNCATED (by decide))

theorem isTruncated_items {items : List Item} (h : ∀ item ∈ items, item.Tidy) :
    isTruncated (items.flatMap Item.document) = items.any Item.saysMore := by
  induction items with
  | nil => rfl
  | cons item items ih =>
      rw [List.flatMap_cons, Item.isTruncated_append (h item List.mem_cons_self),
        ih fun i hi => h i (List.mem_cons_of_mem _ hi), List.any_cons]

theorem Page.Tidy.contents (h : page.Tidy) (hc : c ∈ page.contents) : c.Tidy := by
  obtain ⟨item, hitem, hcontents⟩ := List.mem_filterMap.mp hc
  cases item with
  | contents d =>
      obtain rfl := Option.some.inj hcontents
      exact h _ hitem
  | truncated | token | other => cases hcontents

theorem flatMap_toList {α β : Type} (f : Item → Option α) (g : α → β) (items : List Item) :
    (items.flatMap fun item => ((f item).map g).toList) = (items.filterMap f).map g := by
  rw [← List.filterMap_eq_flatMap_toList, List.map_filterMap]

theorem nextToken_document (h : page.Tidy) : nextToken page.document = page.token.map Written.raw := by
  rw [nextToken, Page.document, matchAll_items Item.tokens fun item hitem => Item.matchAll_tokens (h item hitem)]
  unfold Item.tokens
  rw [flatMap_toList, page.token_items]
  cases page.token <;> rfl

theorem isTruncated_document (h : page.Tidy) : isTruncated page.document = decide (page.truncated.raw = yes) := by
  have hany : page.items.any Item.saysMore = (page.items.filterMap Item.truncated?).any fun w => w.raw = yes := by
    induction page.items with
    | nil => rfl
    | cons item items ih =>
        rw [List.any_cons, ih, List.filterMap_cons]
        cases htruncated : item.truncated? with
        | none => simp [Item.saysMore, htruncated]
        | some w => simp [Item.saysMore, htruncated]
  rw [Page.document, isTruncated_items h, hany, page.truncated_items]
  simp

theorem keysIn_document (h : page.Tidy) : keysIn page.document = page.contents.map fun c => decodeXml c.key.raw := by
  rw [keysIn, Page.document, matchAll_items Item.keys fun item hitem => Item.matchAll_keys (h item hitem)]
  unfold Item.keys
  rw [flatMap_toList, List.map_map]
  rfl

theorem detailsIn_document (h : page.Tidy) : detailsIn page.document = page.contents.filterMap fun c => detailOf c.inside := by
  rw [detailsIn, Page.document, matchAll_items Item.blocks fun item hitem => Item.matchAll_blocks (h item hitem)]
  unfold Item.blocks
  rw [flatMap_toList, List.filterMap_map]
  rfl

theorem matchAll_nil {α : Type} {f : Text → Option (α × Nat)} (hf : ∀ u, ¬ tag x <+: u → f u = none) (hs : Quiet x s) :
    matchAll f 0 s = [] := by
  have hskip : matchAll f 0 (s ++ []) = matchAll f 0 [] := hs.matchAll hf
  rwa [List.append_nil] at hskip

/-- The size of an object as it is read: nothing but digits will do. -/
def Contents.sizeRead (c : Contents) : Nat := if c.size.plain then number c.size.content else 0

theorem digitsOf_plain (hw : w.plain = true) (hdigits : w.content ≠ [] ∧ ∀ d ∈ w.content, isDigit d = true) :
    matchAll digitsOf 0 (field SIZE w ++ rest) = w.content :: matchAll digitsOf 0 rest := by
  rw [field, Written.raw_plain hw]
  refine matchAll_hit (List.cons_ne_nil _ _) ?_
  rw [digitsOf, elementOf_hit (by decide) hdigits.2, Option.filter_some, if_pos (decide_eq_true hdigits.1)]

theorem digitsOf_reference (hw : w.plain = false) (hfree : w.Free) (hs : Quiet SIZE s) :
    matchAll digitsOf 0 (field SIZE w ++ s) = [] := by
  have hamp := Written.amp_mem_raw hw hfree
  obtain ⟨d, ds, hstop⟩ : ∃ d ds, w.raw.dropWhile isDigit = d :: ds := by
    cases hdrop : w.raw.dropWhile isDigit with
    | nil => exact absurd (List.dropWhile_eq_nil_iff.mp hdrop _ hamp) (by decide)
    | cons d ds => exact ⟨d, ds, rfl⟩
  have hd : isDigit d = false := head_dropWhile (by rw [hstop]; rfl)
  have hmem : d ∈ w.raw := (List.dropWhile_suffix isDigit).subset (hstop ▸ List.mem_cons_self)
  have hraw : w.raw = w.raw.takeWhile isDigit ++ d :: ds := by rw [← hstop, List.takeWhile_append_dropWhile]
  have hhere : digitsOf (field SIZE w ++ s) = none := by
    have hsplit : field SIZE w ++ s = openTag SIZE ++ (w.raw.takeWhile isDigit ++ d :: (ds ++ (closeTag SIZE ++ s))) := by
      rw [field, List.append_assoc, List.append_assoc]
      nth_rewrite 1 [hraw]
      rw [List.append_assoc, List.cons_append]
    rw [digitsOf, hsplit, elementOf_stop (fun _ => List.mem_takeWhile_imp) hd fun h => Written.raw_free hfree (h ▸ hmem)]
    rfl
  have hquiet : Quiet SIZE (SIZE ++ ['>'] ++ w.raw ++ closeTag SIZE ++ s) :=
    (quiet_closing (by decide) (by decide) (by decide) hfree).append hs
  have hcons : field SIZE w ++ s = '<' :: (SIZE ++ ['>'] ++ w.raw ++ closeTag SIZE ++ s) := rfl
  rw [hcons] at hhere ⊢
  rw [matchAll, hhere]
  exact matchAll_nil digitsOf_quiet hquiet

theorem detailOf_inside (h : c.Tidy) :
    detailOf c.inside = some ⟨decodeXml c.key.raw, c.sizeRead, some c.time.raw⟩ := by
  have hkey : (matchAll (elementOf isText KEY) 0 c.inside).head? = some c.key.raw := by
    rw [Contents.inside, Quiet.matchAll (h.lead KEY (by decide)) (elementOf_quiet _), matchAll_field h.key]
    rfl
  have htime : (matchAll (elementOf isText LAST_MODIFIED) 0 c.inside).head? = some c.time.raw := by
    have hfield : Quiet LAST_MODIFIED (field KEY c.key) :=
      quiet_field (by decide) (by decide) (by decide) (by decide) h.key
    rw [Contents.inside, Quiet.matchAll (h.lead LAST_MODIFIED (by decide)) (elementOf_quiet _),
      hfield.matchAll (elementOf_quiet _),
      Quiet.matchAll (h.afterKey LAST_MODIFIED (by decide)) (elementOf_quiet _), matchAll_field h.time]
    rfl
  have hsize : number ((matchAll digitsOf 0 c.inside).head?.getD ['0']) = c.sizeRead := by
    have hSize : SIZE ∈ names := by decide
    have hKey : Quiet SIZE (field KEY c.key) := quiet_field (by decide) (by decide) (by decide) (by decide) h.key
    have hTime : Quiet SIZE (field LAST_MODIFIED c.time) :=
      quiet_field (by decide) (by decide) (by decide) (by decide) h.time
    rw [Contents.inside, Quiet.matchAll (h.lead SIZE hSize) digitsOf_quiet, hKey.matchAll digitsOf_quiet,
      Quiet.matchAll (h.afterKey SIZE hSize) digitsOf_quiet, hTime.matchAll digitsOf_quiet,
      Quiet.matchAll (h.afterTime SIZE hSize) digitsOf_quiet, Contents.sizeRead]
    cases hplain : c.size.plain with
    | true =>
        rw [digitsOf_plain hplain c.counted]
        rfl
    | false =>
        rw [digitsOf_reference hplain h.size (h.tail SIZE hSize)]
        rfl
  have hnamed : c.key.raw ≠ [] := by
    intro hnil
    have hle := Written.content_le_raw h.key
    rw [hnil] at hle
    exact c.named (List.length_eq_zero_iff.mp (Nat.le_zero.mp hle))
  rw [detailOf, hkey]
  cases hraw : c.key.raw with
  | nil => exact absurd hraw hnamed
  | cons d ds =>
      dsimp only
      rw [hsize, htime]

end Reading

/-! Page after page -/

section Runs

variable {α : Type} {read : Text → List α} {next : Text → Text} {throws : Bool} {reply : Option Text → Reply}
  {got want : Contents → α} {good : Contents → Prop} {n : Nat} {token issued : Option Text} {out : List α}
  {page : Page} {pages : List Page}

theorem Serves.body (hserves : Serves reply issued (page :: pages)) (hstatus : (reply (sent token)).status = 200)
    (hsent : sent token = issued) : (reply (sent token)).body = page.document := by
  rw [hsent] at hstatus ⊢
  exact hserves.1 hstatus

theorem Page.goes_some {raw : Text} (htidy : page.Tidy) (hraw : page.goes = some raw) : page.more := by
  unfold Page.goes at hraw
  split at hraw
  next hyes =>
    have hfree : page.truncated.Free := by
      have hmem : page.truncated ∈ page.items.filterMap Item.truncated? := page.truncated_items ▸ List.mem_cons_self
      obtain ⟨item, hitem, htruncated⟩ := List.mem_filterMap.mp hmem
      cases item with
      | truncated w =>
          obtain rfl : w = page.truncated := Option.some.inj htruncated
          exact htidy _ hitem
      | contents | token | other => cases htruncated
    cases hplain : page.truncated.plain with
    | true => exact (Written.raw_plain hplain).symm.trans hyes
    | false => exact absurd (hyes ▸ Written.amp_mem_raw hplain hfree) (by decide)
  next => cases hraw

theorem Serves.rest {raw : Text} (hserves : Serves reply issued (page :: pages)) (htidy : page.Tidy)
    (hraw : page.goes = some raw) : Serves reply (page.token.map Written.content) pages := by
  obtain ⟨t, ht, hrest⟩ := hserves.2.1 (page.goes_some htidy hraw)
  rw [ht]
  exact hrest

theorem paged_refused (hstatus : (reply (sent token)).status ≠ 200) : paged read next throws reply (n + 1) token out = none := by
  rw [paged]
  exact if_pos hstatus

variable (hread : ∀ page : Page, page.Tidy → read page.document = page.contents.map got)

include hread

theorem paged_page (htidy : page.Tidy) (hstatus : (reply (sent token)).status = 200)
    (hbody : (reply (sent token)).body = page.document) :
    paged read next throws reply (n + 1) token out = match page.goes with
      | some raw => paged read next throws reply n (some (next raw)) (out ++ page.contents.map got)
      | none => some (out ++ page.contents.map got) := by
  rw [paged]
  dsimp only
  rw [if_neg (not_not.mpr hstatus), hbody, hread page htidy, nextToken_document htidy, isTruncated_document htidy, Page.goes]
  cases page.token with
  | none => by_cases hyes : page.truncated.raw = yes <;> simp [hyes]
  | some w =>
      by_cases hyes : page.truncated.raw = yes <;> by_cases hraw : w.raw = [] <;> simp [hyes, hraw, Option.filter]

theorem paged_fails (hserves : Serves reply issued pages) (h : Fails next throws reply n token issued pages) :
    paged read next throws reply n token out = none := by
  induction n generalizing token issued pages out with
  | zero =>
      rw [paged]
      exact if_pos h
  | succ n ih =>
      cases pages with
      | nil => exact paged_refused h
      | cons page pages =>
          rcases h with hstatus | ⟨hsent, htidy, raw, hraw, hfails⟩
          · exact paged_refused hstatus
          · by_cases hstatus : (reply (sent token)).status = 200
            · rw [paged_page hread htidy hstatus (hserves.body hstatus hsent), hraw]
              exact ih (hserves.rest htidy hraw) hfails
            · exact paged_refused hstatus

theorem paged_whole (hgood : ∀ c : Contents, c.Tidy → good c → got c = want c) (hserves : Serves reply issued pages)
    (h : Whole good next throws reply n token issued pages) :
    paged read next throws reply n token out = some (out ++ (pages.flatMap Page.contents).map want) := by
  induction n generalizing token issued pages out with
  | zero =>
      rw [paged, if_neg (Bool.eq_false_iff.mp h.1), h.2, List.map_nil, List.append_nil]
  | succ n ih =>
      cases pages with
      | nil => exact h.elim
      | cons page pages =>
          obtain ⟨hstatus, hsent, htidy, hall, hrest⟩ := h
          have hgot : page.contents.map got = page.contents.map want :=
            List.map_congr_left fun c hc => hgood c (htidy.contents hc) (hall c hc)
          rw [paged_page hread htidy hstatus (hserves.body hstatus hsent), hgot, List.flatMap_cons, List.map_append,
            ← List.append_assoc]
          cases hraw : page.goes with
          | some raw =>
              rw [hraw] at hrest
              exact ih (hserves.rest htidy hraw) hrest
          | none =>
              rw [hraw] at hrest
              dsimp only at hrest ⊢
              rw [hrest, List.map_nil, List.append_nil]

/-- What comes of a run against a server that refuses the tokens it has not given out. -/
theorem paged_strict (out : List α) (hserves : Serves reply issued pages) (htidy : ∀ page ∈ pages, page.Tidy)
    (hrefuses : ∀ page ∈ pages, ∀ raw, page.goes = some raw →
      sent (some (next raw)) = page.token.map Written.content ∨ (reply (sent (some (next raw)))).status ≠ 200)
    (hissued : sent token = issued ∨ (reply (sent token)).status ≠ 200)
    (h : ¬ Fails next throws reply n token issued pages) :
    ∃ front rest, pages = front ++ rest ∧
      paged read next throws reply n token out = some (out ++ (front.flatMap Page.contents).map got) ∧
      ((∀ c ∈ front.flatMap Page.contents, good c) → rest.flatMap Page.contents = [] →
        Whole good next throws reply n token issued pages) := by
  induction n generalizing token issued pages out with
  | zero =>
      have hthrows : throws = false := Bool.eq_false_iff.mpr h
      refine ⟨[], pages, rfl, ?_, fun _ hrest => ⟨hthrows, hrest⟩⟩
      rw [paged, if_neg (Bool.eq_false_iff.mp hthrows), List.flatMap_nil, List.map_nil, List.append_nil]
  | succ n ih =>
      cases pages with
      | nil => exact hserves.elim
      | cons page pages =>
          obtain ⟨hstatus, hstep⟩ := not_or.mp h
          rw [not_not] at hstatus
          have hsent : sent token = issued := hissued.resolve_right (not_not.mpr hstatus)
          have hpage := htidy page List.mem_cons_self
          have hrun : paged read next throws reply (n + 1) token out = _ :=
            paged_page hread hpage hstatus (hserves.body hstatus hsent)
          cases hraw : page.goes with
          | none =>
              rw [hraw] at hrun
              refine ⟨[page], pages, rfl, by simpa using hrun, fun hall hrest => ⟨hstatus, hsent, hpage, ?_, ?_⟩⟩
              · simpa using hall
              · rw [hraw]
                exact hrest
          | some raw =>
              rw [hraw] at hrun
              have hnot : ¬ Fails next throws reply n (some (next raw)) (page.token.map Written.content) pages :=
                fun hfails => hstep ⟨hsent, hpage, raw, hraw, hfails⟩
              obtain ⟨front, rest, rfl, hpaged, hwhole⟩ := ih (out ++ page.contents.map got)
                (hserves.rest hpage hraw) (fun p hp => htidy p (List.mem_cons_of_mem _ hp))
                (fun p hp => hrefuses p (List.mem_cons_of_mem _ hp)) (hrefuses page List.mem_cons_self raw hraw) hnot
              refine ⟨page :: front, rest, rfl, ?_, fun hall hrest => ⟨hstatus, hsent, hpage, ?_, ?_⟩⟩
              · rw [hrun, List.flatMap_cons, List.map_append, ← List.append_assoc]
                exact hpaged
              · exact fun c hc => hall c (List.mem_append_left _ hc)
              · rw [hraw]
                exact hwhole (fun c hc => hall c (List.mem_append_right _ hc)) hrest

end Runs

/-! The two listings -/

section Exactness

variable {c : Contents} {page : Page} {cs : List Contents} {l : Listing}

/-- An object as it is read. -/
def Contents.read (c : Contents) : Listed := ⟨decodeXml c.key.raw, c.sizeRead, some c.time.raw⟩

theorem detailsIn_tidy (h : page.Tidy) : detailsIn page.document = page.contents.map Contents.read := by
  rw [detailsIn_document h, ← List.filterMap_eq_map]
  exact List.filterMap_congr fun c hc => detailOf_inside (h.contents hc)

theorem key_read (h : c.Tidy) (hnamed : c.KeyNamed) : decodeXml c.key.raw = c.key.content := by
  rw [decodeXml_raw h.key, Written.unnamed_eq hnamed h.key]

theorem key_longer (h : c.Tidy) (hnamed : ¬ c.KeyNamed) : c.key.content.length < (decodeXml c.key.raw).length := by
  rw [decodeXml_raw h.key]
  exact Written.content_lt_unnamed hnamed h.key

theorem read_named (h : c.Tidy) (hnamed : c.Named) : c.read = c.listed := by
  have hsize : c.sizeRead = number c.size.content := by
    unfold Contents.sizeRead
    split
    · rfl
    next hplain => exact (hnamed.size.resolve_left hplain).symm
  rw [Contents.read, Contents.listed, key_read h hnamed.key, hsize, Written.raw_plain hnamed.time]

theorem sizeRead_le : c.sizeRead ≤ number c.size.content := by
  unfold Contents.sizeRead
  split
  · exact Nat.le_refl _
  · exact Nat.zero_le _

/-- A measure that can only grow has not grown anywhere if the lists are the same. -/
theorem eq_of_perm {α : Type} {f g : Contents → α} (m : α → Nat) (hperm : (cs.map f).Perm (cs.map g))
    (hle : ∀ c ∈ cs, m (f c) ≤ m (g c)) : ∀ c ∈ cs, m (f c) = m (g c) := by
  have hsum : ((cs.map f).map m).sum = ((cs.map g).map m).sum := (hperm.map m).sum_nat
  rw [List.map_map, List.map_map] at hsum
  clear hperm
  induction cs with
  | nil => exact List.forall_mem_nil _
  | cons c cs ih =>
      have hhead := hle c List.mem_cons_self
      have htail : (cs.map (m ∘ f)).sum ≤ (cs.map (m ∘ g)).sum :=
        List.sum_le_sum fun d hd => hle d (List.mem_cons_of_mem _ hd)
      simp only [List.map_cons, List.sum_cons, Function.comp_apply] at hsum
      refine List.forall_mem_cons.mpr ⟨by omega, ih (fun d hd => hle d (List.mem_cons_of_mem _ hd)) (by omega)⟩

theorem named_of_perm (htidy : ∀ c ∈ cs, c.Tidy)
    (hperm : (cs.map fun c => decodeXml c.key.raw).Perm (cs.map fun c => c.key.content)) : ∀ c ∈ cs, c.KeyNamed := by
  have hlengths := eq_of_perm List.length hperm.symm fun c hc => by
    by_cases hnamed : c.KeyNamed
    · rw [key_read (htidy c hc) hnamed]
    · exact (key_longer (htidy c hc) hnamed).le
  intro c hc
  by_contra hnamed
  exact absurd (hlengths c hc) (key_longer (htidy c hc) hnamed).ne

theorem all_named_of_perm (htidy : ∀ c ∈ cs, c.Tidy) (hperm : (cs.map Contents.read).Perm (cs.map Contents.listed)) :
    ∀ c ∈ cs, c.Named := by
  have hkeys : ∀ c ∈ cs, c.KeyNamed := by
    refine named_of_perm htidy ?_
    have hmap := hperm.map Listed.key
    rwa [List.map_map, List.map_map] at hmap
  have htimes := eq_of_perm (fun x : Listed => (x.lastModified.getD []).length) hperm.symm fun c hc =>
    Written.content_le_raw (htidy c hc).time
  have hsizes := eq_of_perm Listed.size hperm fun c _ => sizeRead_le
  intro c hc
  refine ⟨hkeys c hc, ?_, ?_⟩
  · by_contra hplain
    exact absurd (htimes c hc) (Written.content_lt_raw (Bool.eq_false_iff.mpr hplain) (htidy c hc).time).ne
  · have hsize : c.sizeRead = number c.size.content := hsizes c hc
    by_cases hplain : c.size.plain = true
    · exact .inl hplain
    · rw [Contents.sizeRead, if_neg hplain] at hsize
      exact .inr hsize.symm

/-- A listing that is cut short does not have all the entries. -/
theorem rest_of_perm {α : Type} {got want : Contents → α} {front rest : List Page}
    (hperm : ((front.flatMap Page.contents).map got).Perm (((front ++ rest).flatMap Page.contents).map want)) :
    rest.flatMap Page.contents = [] ∧
      ((front.flatMap Page.contents).map got).Perm ((front.flatMap Page.contents).map want) := by
  have hlength := hperm.length_eq
  rw [List.flatMap_append, List.length_map, List.length_map, List.length_append] at hlength
  have hrest : rest.flatMap Page.contents = [] := List.length_eq_zero_iff.mp (by omega)
  rw [List.flatMap_append, hrest, List.append_nil] at hperm
  exact ⟨hrest, hperm⟩

theorem keysIn_tidy (page : Page) (h : page.Tidy) : keysIn page.document = page.contents.map fun c => decodeXml c.key.raw :=
  keysIn_document h

theorem contents_tidy {pages : List Page} (h : ∀ page ∈ pages, page.Tidy) : ∀ c ∈ pages.flatMap Page.contents, c.Tidy := by
  intro c hc
  obtain ⟨page, hpage, hc⟩ := List.mem_flatMap.mp hc
  exact (h page hpage).contents hc

theorem list_exact (h : l.ListReads) : l.ListExact := by
  intro keys hkeys
  rcases h with hwhole | hfails
  · rw [list, paged_whole keysIn_tidy (fun c => key_read) l.serves hwhole] at hkeys
    obtain rfl := Option.some.inj hkeys
    rw [List.nil_append, Listing.listed, List.map_map]
    exact List.Perm.refl _
  · rw [list, paged_fails keysIn_tidy l.serves hfails] at hkeys
    cases hkeys

theorem listDetailed_exact (h : l.DetailedReads) : l.DetailedExact := by
  intro out hout
  rcases h with hwhole | hfails
  · rw [listDetailed, paged_whole (fun _ => detailsIn_tidy) (fun c => read_named) l.serves hwhole] at hout
    obtain rfl := Option.some.inj hout
    exact List.Perm.refl _
  · rw [listDetailed, paged_fails (fun _ => detailsIn_tidy) l.serves hfails] at hout
    cases hout

theorem list_reads (hstrict : l.Strict) (h : l.ListExact) : l.ListReads := by
  by_cases hfails : Fails decodeXml true l.reply 10000 none none l.pages
  · exact .inr hfails
  · obtain ⟨front, rest, hpages, hpaged, hwhole⟩ := paged_strict keysIn_tidy [] l.serves hstrict.tidy
      (fun page hpage raw hraw => hstrict.refuses page hpage raw hraw _ List.mem_cons_self) (.inl rfl) hfails
    have hperm := h _ hpaged
    rw [List.nil_append, Listing.listed, List.map_map, hpages] at hperm
    obtain ⟨hrest, hfront⟩ := rest_of_perm hperm
    have htidy := contents_tidy hstrict.tidy
    rw [hpages, List.flatMap_append] at htidy
    exact .inl (hwhole (named_of_perm (fun c hc => htidy c (List.mem_append_left _ hc)) hfront) hrest)

theorem listDetailed_reads (hstrict : l.Strict) (h : l.DetailedExact) : l.DetailedReads := by
  by_cases hfails : Fails id false l.reply 10000 none none l.pages
  · exact .inr hfails
  · obtain ⟨front, rest, hpages, hpaged, hwhole⟩ := paged_strict (fun _ => detailsIn_tidy) [] l.serves hstrict.tidy
      (fun page hpage raw hraw => hstrict.refuses page hpage raw hraw _ (List.mem_cons_of_mem _ List.mem_cons_self))
      (.inl rfl) hfails
    have hperm := h _ hpaged
    rw [List.nil_append, Listing.listed, hpages] at hperm
    obtain ⟨hrest, hfront⟩ := rest_of_perm hperm
    have htidy := contents_tidy hstrict.tidy
    rw [hpages, List.flatMap_append] at htidy
    exact .inl (hwhole (all_named_of_perm (fun c hc => htidy c (List.mem_append_left _ hc)) hfront) hrest)

end Exactness

/-! A page with one object, its name written by number -/

def plainText (s : Text) (h : ∀ c ∈ s, c ≠ '<' ∧ c ≠ '&' ∧ c ≠ '\r') : Written := s.attach.map fun c => .plain c.1 (h c.1 c.2)

def no : Written := plainText "false".toList (List.all_iff_forall_prop.mp (by decide))

def object (key : Piece) (hkey : key.content ≠ []) : Contents where
  lead := []
  key := [key]
  afterKey := []
  time := plainText "2026-01-01".toList (List.all_iff_forall_prop.mp (by decide))
  afterTime := []
  size := plainText ['7'] (List.all_iff_forall_prop.mp (by decide))
  tail := []
  named := by simpa [Written.content] using hkey
  counted := ⟨by decide, List.all_iff_forall_prop.mp (by decide)⟩

def onePage (key : Piece) (hkey : key.content ≠ []) : Page where
  items := [.truncated no, .contents (object key hkey)]
  truncated := no
  token := none
  truncated_items := rfl
  token_items := rfl

def oneObject (key : Piece) (hkey : key.content ≠ []) : Listing where
  reply token := if token = none then ⟨200, (onePage key hkey).document⟩ else ⟨400, []⟩
  pages := [onePage key hkey]
  serves := by
    have hmore : ¬ (onePage key hkey).more := by
      unfold Page.more
      change ¬ no.content = yes
      decide
    exact ⟨fun _ => rfl, fun h => absurd h hmore, fun _ => rfl⟩
  distinct := List.pairwise_singleton _ _

def quote : Piece := .numeric '\'' ['3', '9'] (by decide)

def letter : Piece := .plain 'a' (by decide)

end Corebase.ObjectListing
