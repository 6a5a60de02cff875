import Corebase.Keyset
import Corebase.JsText
import Corebase.ProvisioningJobs
import Mathlib.Data.Prod.Lex

namespace Corebase.Pagination

open JsText Keyset ProvisioningJobs

abbrev Uuid := Nat
abbrev OrganizationId := Nat

/-- What Buffer and JSON.parse make of a cursor. -/
inductive Parsed
  | unreadable
  | null
  | fields (created_at id : Option Text)
deriving DecidableEq

/-- The texts of the runtime and of PostgreSQL: times are microseconds, the times of a Date milliseconds. -/
structure Runtime where
  /-- The base64url of a cursor's JSON. -/
  stringify : Text → Text → Text
  parse : Text → Parsed
  toISOString : ℤ → Text
  /-- Date.parse, none for NaN. -/
  dateParse : Text → Option ℤ
  /-- to_char(…, 'YYYY-MM-DD"T"HH24:MI:SS.MSZ'). -/
  toChar : ℤ → Text
  timestamptz : Text → Option ℤ
  uuidText : Uuid → Text
  uuid : Text → Option Uuid
  /-- The first issue of the query's schema. -/
  issue : Text

structure ApiError where
  status : Nat
  message : Text
deriving DecidableEq

inductive Failure
  | api (e : ApiError)
  /-- Any other exception: a TypeError, or a query that PostgreSQL refuses. -/
  | thrown
deriving DecidableEq

def validation (message : Text) : Failure := .api ⟨400, message⟩

def DEFAULT_LIMIT : Nat := 20
def MAX_LIMIT : Nat := 100

structure Cursor where
  created_at : Text
  id : Text
deriving DecidableEq

inductive LimitText
  | absent
  | blank
  | fractional
  | integer (n : ℤ)
deriving DecidableEq

structure Query where
  limit : LimitText
  cursor : Option Text

structure PageRequest where
  limit : Nat
  cursor : Option Cursor

structure Page (ρ : Type) where
  items : List ρ
  next_cursor : Option Text
  has_more : Bool

variable {ρ : Type} (rt : Runtime)

def encodeCursor (c : Cursor) : Text := rt.stringify c.created_at c.id

def decodeCursor (raw : Text) : Except Failure Cursor :=
  match rt.parse raw with
  | .unreadable =>
      .error (validation "The cursor is not readable. Pass a `next_cursor` from a previous response, or omit it.".toList)
  | .null => .error .thrown
  | .fields (some created_at) (some id) =>
      if (rt.dateParse created_at).isNone then .error (validation "The cursor carries an invalid timestamp.".toList)
      else .ok ⟨created_at, id⟩
  | .fields _ _ =>
      .error (validation "The cursor is missing its fields. Pass a `next_cursor` from a previous response.".toList)

def parseLimit : LimitText → Except Failure Nat
  | .absent | .blank => .ok DEFAULT_LIMIT
  | .integer n =>
      if n < 1 then .error (validation "limit must be a positive integer (max 100).".toList)
      else .ok (min n.toNat MAX_LIMIT)
  | .fractional => .error (validation "limit must be a positive integer (max 100).".toList)

def parsePageRequest (query : Query) : Except Failure PageRequest := do
  let limit ← parseLimit query.limit
  match query.cursor with
  | none | some [] => return ⟨limit, none⟩
  | some raw => return ⟨limit, some (← decodeCursor rt raw)⟩

def toPage (rows : List ρ) (limit : Nat) (textOf : ρ → Text) : Page ρ :=
  let hasMore := decide (limit < rows.length)
  let items := if hasMore then rows.take limit else rows
  ⟨items, if hasMore then items.getLast?.map textOf else none, hasMore⟩

abbrev Key := ℤ ×ₗ Uuid

/-- ORDER BY created_at DESC, id DESC LIMIT n of the listed rows below a cursor. -/
def select (key : ρ → Key) (listed : ρ → Bool) (before : Option Key) (n : Nat) (table : List ρ) : List ρ :=
  (sorted key (table.filter fun r => listed r && before.all fun c => key r < c)).take n

/-- The parameters $2::timestamptz and $3::uuid. -/
def readCursor : Option Cursor → Except Failure (Option Key)
  | none => .ok none
  | some c =>
      match rt.timestamptz c.created_at, rt.uuid c.id with
      | some t, some id => .ok (some (toLex (t, id)))
      | _, _ => .error .thrown

structure User where
  id : Uuid
  created_at : ℤ
  deleted_at : Option ℤ
deriving DecidableEq

structure Project where
  id : Uuid
  created_at : ℤ
  organization_id : OrganizationId
  status : ProjectStatus
deriving DecidableEq

def User.listed (u : User) : Bool := u.deleted_at.isNone

def User.key (u : User) : Key := toLex (u.created_at, u.id)

def Project.listed (organizationId : Option OrganizationId) (p : Project) : Bool :=
  p.status ≠ .deleted && organizationId.all fun org => p.organization_id = org

def Project.key (p : Project) : Key := toLex (p.created_at, p.id)

def listUsers (table : List User) (limit : Nat) (cursor : Option Cursor) : Except Failure (List User) := do
  return select User.key User.listed (← readCursor rt cursor) (limit + 1) table

def listProjectsPage (table : List Project) (limit : Nat) (cursor : Option Cursor)
    (organizationId : Option OrganizationId) : Except Failure (List Project) := do
  return select Project.key (Project.listed organizationId) (← readCursor rt cursor) (limit + 1) table

/-- The time of a Date: node-postgres drops what is below a millisecond. -/
def toDate (t : ℤ) : ℤ := t / 1000

/-- GET /auth/v1/admin/users -/
def adminUsers (table : List User) (query : Query) : Except Failure (Page User) := do
  let page ← parsePageRequest rt query
  let rows ← listUsers rt table page.limit page.cursor
  return toPage rows page.limit fun u => encodeCursor rt ⟨rt.toISOString (toDate u.created_at), rt.uuidText u.id⟩

/-- GET /v1/projects, of the organization the caller's scope has settled on. -/
def projects (organizationId : Option OrganizationId) (table : List Project) (query : Query) :
    Except Failure (Page Project) := do
  let page ← parsePageRequest rt query
  let rows ← listProjectsPage rt table page.limit page.cursor organizationId
  return toPage rows page.limit fun p => encodeCursor rt ⟨rt.toChar p.created_at, rt.uuidText p.id⟩

namespace ProjectUsers

def DEFAULT_LIMIT : Nat := 50

/-- The limit of ListQuery: a blank text is the number 0. -/
def parseLimit : LimitText → Except Failure Nat
  | .absent => .ok DEFAULT_LIMIT
  | .integer n => if 1 ≤ n ∧ n ≤ MAX_LIMIT then .ok n.toNat else .error (validation rt.issue)
  | .blank | .fractional => .error (validation rt.issue)

/-- The text before and after its last comma. -/
def splitLastComma (raw : Text) : Option (Text × Text) :=
  match raw.reverse.dropWhile (· ≠ ',') with
  | [] => none
  | _ :: before => some (before.reverse, (raw.reverse.takeWhile (· ≠ ',')).reverse)

def parseCursor (raw : Text) : Except Failure Cursor :=
  match splitLastComma raw with
  | none | some ([], _) => .error (validation "cursor must be \"created_at,id\".".toList)
  | some (created_at, id) =>
      if (rt.dateParse created_at).isNone ∨ id = [] then .error (validation "cursor must be \"created_at,id\".".toList)
      else .ok ⟨created_at, id⟩

/-- GET /v1/projects/:ref/auth/users without a search. -/
def list (table : List User) (query : Query) : Except Failure (Page User) := do
  let limit ← parseLimit rt query.limit
  if query.cursor.any fun raw => 120 < JsText.length raw then .error (validation rt.issue)
  else
    let cursor ← match query.cursor with
      | none | some [] => pure none
      | some raw => pure (some (← parseCursor rt raw))
    let rows ← listUsers rt table limit cursor
    return toPage rows limit fun u => rt.toISOString (toDate u.created_at) ++ ',' :: rt.uuidText u.id

end ProjectUsers

inductive Endpoint
  | adminUsers
  | projectUsers
  | projects (organizationId : Option OrganizationId)

namespace Endpoint

def Row : Endpoint → Type
  | adminUsers | projectUsers => User
  | projects _ => Project

def get (rt : Runtime) : (e : Endpoint) → List e.Row → Query → Except Failure (Page e.Row)
  | adminUsers => Pagination.adminUsers rt
  | projectUsers => ProjectUsers.list rt
  | projects organizationId => Pagination.projects rt organizationId

def limitOf (rt : Runtime) : Endpoint → LimitText → Except Failure Nat
  | adminUsers | projects _ => parseLimit
  | projectUsers => ProjectUsers.parseLimit rt

def key : (e : Endpoint) → e.Row → Key
  | adminUsers | projectUsers => User.key
  | projects _ => Project.key

def listed : (e : Endpoint) → e.Row → Bool
  | adminUsers | projectUsers => User.listed
  | projects organizationId => Project.listed organizationId

/-- The created_at that a cursor carries. -/
def stamp (rt : Runtime) : Endpoint → ℤ → Text
  | adminUsers | projectUsers => fun t => rt.toISOString (toDate t)
  | projects _ => rt.toChar

/-- The rows of the list, in the endpoint's order. -/
def rows (e : Endpoint) (table : List e.Row) : List e.Row := sorted e.key (table.filter e.listed)

end Endpoint

/-- Follow next_cursor from a request until it is absent. -/
def follow (get : Query → Except Failure (Page ρ)) (limit : LimitText) :
    Nat → Option Text → Option (Except Failure (List (List ρ)))
  | 0, _ => none
  | n + 1, cursor =>
      match get ⟨limit, cursor⟩ with
      | .error e => some (.error e)
      | .ok page =>
          match page.next_cursor with
          | none => some (.ok [page.items])
          | some c => (follow get limit n (some c)).map fun pages => pages.map (page.items :: ·)

/-- The chain ends, and has returned the rows once each in their order. -/
def Exact (get : Query → Except Failure (Page ρ)) (limit : LimitText) (rows : List ρ) : Prop :=
  ∃ n pages, follow get limit n none = some (.ok pages) ∧ pages.flatten = rows

section Chain

variable {get : Query → Except Failure (Page ρ)} {limit : LimitText} {text : ρ → Text} {key cut : ρ → Key} {ℓ : Nat}
  {rows R : List ρ}

/-- The page made of the first rows of a list, one more of them having been fetched. -/
def pageOf (text : ρ → Text) (ℓ : Nat) (rows : List ρ) : Page ρ := toPage (rows.take (ℓ + 1)) ℓ text

theorem pageOf_more (h : ℓ < rows.length) :
    pageOf text ℓ rows = ⟨rows.take ℓ, (rows.take ℓ).getLast?.map text, true⟩ := by
  have hlen : ℓ < (rows.take (ℓ + 1)).length := by rw [List.length_take]; omega
  have htake : (rows.take (ℓ + 1)).take ℓ = rows.take ℓ := by rw [List.take_take, Nat.min_eq_left (Nat.le_succ ℓ)]
  simp only [pageOf, toPage, decide_eq_true hlen, if_true, htake]

theorem pageOf_last (h : rows.length ≤ ℓ) : pageOf text ℓ rows = ⟨rows, none, false⟩ := by
  have htake : rows.take (ℓ + 1) = rows := List.take_of_length_le (by omega)
  simp [pageOf, toPage, htake, h]

/-- What an endpoint answers: the first page of the rows, and after a row's cursor that of the rows below it. -/
structure Serves (get : Query → Except Failure (Page ρ)) (limit : LimitText) (text : ρ → Text) (key cut : ρ → Key)
    (ℓ : Nat) (rows : List ρ) : Prop where
  pos : 0 < ℓ
  sorted : rows.Pairwise (key · > key ·)
  cut_le : ∀ r, cut r ≤ key r
  first : get ⟨limit, none⟩ = .ok (pageOf text ℓ rows)
  next : ∀ r ∈ rows, get ⟨limit, some (text r)⟩ = .ok (pageOf text ℓ (rows.filter fun x => key x < cut r))

/-- The cursors of the rows ask for the same of this list as of the whole one. -/
def Closed (key cut : ρ → Key) (rows R : List ρ) : Prop :=
  R.Sublist rows ∧ ∀ e ∈ R, (rows.filter fun r => key r < cut e) = R.filter fun r => key r < cut e

theorem Closed.filter (hcut : ∀ r, cut r ≤ key r) (h : Closed key cut rows R) {e : ρ} :
    Closed key cut rows (R.filter fun r => key r < cut e) := by
  refine ⟨List.filter_sublist.trans h.1, fun e' he' => ?_⟩
  obtain ⟨hmem, hlt⟩ := List.mem_filter.mp he'
  rw [h.2 e' hmem, List.filter_filter]
  refine List.filter_congr fun r _ => ?_
  have : key r < cut e' → key r < cut e := fun hr => hr.trans ((hcut e').trans_lt (of_decide_eq_true hlt))
  by_cases hr : key r < cut e' <;> simp [hr, this]

theorem follow_walk (h : Serves get limit text key cut ℓ rows) (n : Nat) {cursor : Option Text}
    (hclosed : Closed key cut rows R) (hget : get ⟨limit, cursor⟩ = .ok (pageOf text ℓ R)) :
    follow get limit n cursor =
      if (walk key cut ℓ R).length ≤ n then some (.ok (walk key cut ℓ R)) else none := by
  induction n generalizing R cursor with
  | zero =>
      rw [walk]
      split <;> rfl
  | succ n ih =>
      by_cases hlen : ℓ < R.length
      · obtain ⟨e, he⟩ : ∃ e, R[ℓ - 1]? = some e := ⟨_, List.getElem?_eq_getElem (by omega)⟩
        have hlast : (R.take ℓ).getLast? = some e := by
          rw [List.getLast?_take, if_neg (by have := h.pos; omega), he]
          rfl
        have hmem : e ∈ R := List.mem_of_getElem? he
        have hrest : (rows.filter fun r => key r < cut e) = rest key cut ℓ R := by
          rw [hclosed.2 e hmem]
          exact filter_below h.cut_le h.pos (h.sorted.sublist hclosed.1) he
        have hnext : get ⟨limit, some (text e)⟩ = .ok (pageOf text ℓ (rest key cut ℓ R)) := by
          rw [h.next e (hclosed.1.subset hmem), hrest]
        have hclosed' : Closed key cut rows (rest key cut ℓ R) := by
          rw [← hrest, hclosed.2 e hmem]
          exact hclosed.filter h.cut_le
        rw [follow, hget, pageOf_more hlen, hlast, walk_more h.pos hlen]
        simp only [Option.map_some, ih hclosed' hnext, List.length_cons, Nat.add_le_add_iff_right]
        split <;> rfl
      · rw [follow, hget, pageOf_last (by omega), walk_last (by omega)]
        exact (if_pos (by simp)).symm

/-- The chain ends whatever the table holds, and what it has returned repeats no row and keeps the order. -/
theorem Serves.ends (h : Serves get limit text key cut ℓ rows) :
    ∃ n pages, follow get limit n none = some (.ok pages) ∧ pages.flatten.Sublist rows :=
  ⟨_, _, (follow_walk h _ ⟨.refl _, fun _ _ => rfl⟩ h.first).trans (if_pos le_rfl), walk_sublist key cut ℓ rows⟩

theorem Serves.exact_unbroken (h : Serves get limit text key cut ℓ rows) :
    Exact get limit rows ↔ Unbroken key cut ℓ rows := by
  have hfollow := fun n => follow_walk h n ⟨.refl _, fun _ _ => rfl⟩ h.first
  rw [← walk_flatten h.pos h.sorted]
  constructor
  · rintro ⟨n, pages, hpages, hflat⟩
    rw [hfollow] at hpages
    split at hpages
    · cases hpages
      exact hflat
    · cases hpages
  · exact fun hflat => ⟨_, _, (hfollow _).trans (if_pos le_rfl), hflat⟩

end Chain

/-- What the code relies on where a row's cursor is written and read back. -/
structure Runtime.Reads (rt : Runtime) (stamp : Text) (t : ℤ) (id : Uuid) : Prop where
  date : rt.dateParse stamp ≠ none
  timestamptz : rt.timestamptz stamp = some (1000 * toDate t)
  uuid : rt.uuid (rt.uuidText id) = some id
  parse : rt.parse (rt.stringify stamp (rt.uuidText id)) = .fields (some stamp) (some (rt.uuidText id))
  stringify_ne : rt.stringify stamp (rt.uuidText id) ≠ []
  stamp_ne : stamp ≠ []
  uuidText_ne : rt.uuidText id ≠ []
  comma : ',' ∉ rt.uuidText id
  short : JsText.length (stamp ++ ',' :: rt.uuidText id) ≤ 120

/-- A key as its cursor is read back, cut to the millisecond. -/
def cutKey (k : Key) : Key := toLex (1000 * toDate (ofLex k).1, (ofLex k).2)

theorem cutKey_le (k : Key) : cutKey k ≤ k := by
  have hle : 1000 * toDate (ofLex k).1 ≤ (ofLex k).1 := by unfold toDate; omega
  rcases hle.lt_or_eq with hlt | heq
  · exact (Prod.Lex.lt_iff.mpr (.inl hlt)).le
  · exact Prod.Lex.le_iff.mpr (.inr ⟨heq, le_rfl⟩)

section Reading

variable {rt} {stamp : Text} {t : ℤ} {id : Uuid}

theorem decodeCursor_encode (h : rt.Reads stamp t id) :
    decodeCursor rt (encodeCursor rt ⟨stamp, rt.uuidText id⟩) = .ok ⟨stamp, rt.uuidText id⟩ := by
  have hdate := h.date
  simp only [decodeCursor, encodeCursor, h.parse]
  rw [if_neg (by simpa using hdate)]

theorem readCursor_reads (h : rt.Reads stamp t id) :
    readCursor rt (some ⟨stamp, rt.uuidText id⟩) = .ok (some (cutKey (toLex (t, id)))) := by
  simp only [readCursor, h.timestamptz, h.uuid]
  rfl

theorem parsePageRequest_first {limit : LimitText} {ℓ : Nat} (hlimit : parseLimit limit = .ok ℓ) :
    parsePageRequest rt ⟨limit, none⟩ = .ok ⟨ℓ, none⟩ := by
  simp only [parsePageRequest, hlimit]
  rfl

theorem parsePageRequest_next {limit : LimitText} {ℓ : Nat} (hlimit : parseLimit limit = .ok ℓ)
    (h : rt.Reads stamp t id) :
    parsePageRequest rt ⟨limit, some (encodeCursor rt ⟨stamp, rt.uuidText id⟩)⟩ =
      .ok ⟨ℓ, some ⟨stamp, rt.uuidText id⟩⟩ := by
  have hdecode := decodeCursor_encode h
  have hne : encodeCursor rt ⟨stamp, rt.uuidText id⟩ ≠ [] := h.stringify_ne
  obtain ⟨c, cs, hcs⟩ := List.exists_cons_of_ne_nil hne
  rw [hcs] at hdecode ⊢
  simp only [parsePageRequest, hlimit, hdecode]
  rfl

theorem parseLimit_pos {limit : LimitText} {ℓ : Nat} (hlimit : parseLimit limit = .ok ℓ) : 0 < ℓ := by
  cases limit with
  | absent | blank => cases hlimit; decide
  | fractional => cases hlimit
  | integer n =>
      simp only [parseLimit] at hlimit
      split at hlimit <;> cases hlimit
      simp only [MAX_LIMIT]
      omega

namespace ProjectUsers

theorem splitLastComma_join (hcomma : ',' ∉ rt.uuidText id) :
    splitLastComma (stamp ++ ',' :: rt.uuidText id) = some (stamp, rt.uuidText id) := by
  have hstop : ∀ c ∈ (rt.uuidText id).reverse, decide (c ≠ ',') = true := fun c hc =>
    decide_eq_true fun hc' => hcomma (hc' ▸ List.mem_reverse.mp hc)
  have hrev : (stamp ++ ',' :: rt.uuidText id).reverse = (rt.uuidText id).reverse ++ ',' :: stamp.reverse := by simp
  simp only [splitLastComma, hrev]
  rw [List.dropWhile_append_of_pos hstop, List.takeWhile_append_of_pos hstop]
  simp

theorem parseCursor_join (h : rt.Reads stamp t id) :
    parseCursor rt (stamp ++ ',' :: rt.uuidText id) = .ok ⟨stamp, rt.uuidText id⟩ := by
  have hdate := h.date
  obtain ⟨c, cs, hcs⟩ := List.exists_cons_of_ne_nil h.stamp_ne
  simp only [parseCursor, splitLastComma_join h.comma, hcs]
  rw [if_neg]
  rw [← hcs]
  exact fun hor => hor.elim (by simpa using hdate) h.uuidText_ne

theorem parseLimit_pos {limit : LimitText} {ℓ : Nat} (hlimit : parseLimit rt limit = .ok ℓ) : 0 < ℓ := by
  cases limit with
  | absent => cases hlimit; decide
  | blank | fractional => cases hlimit
  | integer n =>
      simp only [parseLimit] at hlimit
      split at hlimit <;> cases hlimit
      omega

end ProjectUsers

end Reading

section Requests

variable {rt} {limit : LimitText} {ℓ : Nat}

theorem adminUsers_first (hlimit : parseLimit limit = .ok ℓ) (table : List User) :
    adminUsers rt table ⟨limit, none⟩ = .ok (toPage (select User.key User.listed none (ℓ + 1) table) ℓ
      fun u => encodeCursor rt ⟨rt.toISOString (toDate u.created_at), rt.uuidText u.id⟩) := by
  simp only [adminUsers, parsePageRequest_first hlimit]
  rfl

theorem adminUsers_next (hlimit : parseLimit limit = .ok ℓ) (table : List User) (u : User)
    (hu : rt.Reads (rt.toISOString (toDate u.created_at)) u.created_at u.id) :
    adminUsers rt table
      ⟨limit, some (encodeCursor rt ⟨rt.toISOString (toDate u.created_at), rt.uuidText u.id⟩)⟩ =
      .ok (toPage (select User.key User.listed (some (cutKey u.key)) (ℓ + 1) table) ℓ
        fun u => encodeCursor rt ⟨rt.toISOString (toDate u.created_at), rt.uuidText u.id⟩) := by
  simp only [adminUsers, listUsers, parsePageRequest_next hlimit hu, bind, Except.bind, readCursor_reads hu]
  rfl

theorem projects_first (hlimit : parseLimit limit = .ok ℓ) (org : Option OrganizationId) (table : List Project) :
    projects rt org table ⟨limit, none⟩ = .ok (toPage (select Project.key (Project.listed org) none (ℓ + 1) table) ℓ
      fun p => encodeCursor rt ⟨rt.toChar p.created_at, rt.uuidText p.id⟩) := by
  simp only [projects, parsePageRequest_first hlimit]
  rfl

theorem projects_next (hlimit : parseLimit limit = .ok ℓ) (org : Option OrganizationId) (table : List Project)
    (p : Project) (hp : rt.Reads (rt.toChar p.created_at) p.created_at p.id) :
    projects rt org table ⟨limit, some (encodeCursor rt ⟨rt.toChar p.created_at, rt.uuidText p.id⟩)⟩ =
      .ok (toPage (select Project.key (Project.listed org) (some (cutKey p.key)) (ℓ + 1) table) ℓ
        fun p => encodeCursor rt ⟨rt.toChar p.created_at, rt.uuidText p.id⟩) := by
  simp only [projects, listProjectsPage, parsePageRequest_next hlimit hp, bind, Except.bind, readCursor_reads hp]
  rfl

theorem ProjectUsers.list_first (hlimit : ProjectUsers.parseLimit rt limit = .ok ℓ) (table : List User) :
    ProjectUsers.list rt table ⟨limit, none⟩ = .ok (toPage (select User.key User.listed none (ℓ + 1) table) ℓ
      fun u => rt.toISOString (toDate u.created_at) ++ ',' :: rt.uuidText u.id) := by
  simp only [ProjectUsers.list, hlimit]
  rfl

theorem ProjectUsers.list_next (hlimit : ProjectUsers.parseLimit rt limit = .ok ℓ) (table : List User) (u : User)
    (hu : rt.Reads (rt.toISOString (toDate u.created_at)) u.created_at u.id) :
    ProjectUsers.list rt table ⟨limit, some (rt.toISOString (toDate u.created_at) ++ ',' :: rt.uuidText u.id)⟩ =
      .ok (toPage (select User.key User.listed (some (cutKey u.key)) (ℓ + 1) table) ℓ
        fun u => rt.toISOString (toDate u.created_at) ++ ',' :: rt.uuidText u.id) := by
  have hshort : ¬ 120 < JsText.length (rt.toISOString (toDate u.created_at) ++ ',' :: rt.uuidText u.id) :=
    not_lt.mpr hu.short
  have hparse := ProjectUsers.parseCursor_join hu
  obtain ⟨c, cs, hcs⟩ := List.exists_cons_of_ne_nil hu.stamp_ne
  rw [hcs, List.cons_append] at hshort hparse ⊢
  simp only [ProjectUsers.list, listUsers, hlimit, bind, Except.bind, Option.any_some, hshort, decide_false,
    if_neg Bool.false_ne_true, hparse, ← hcs, pure, Except.pure, readCursor_reads hu]
  rfl

end Requests

namespace Endpoint

variable {rt} {e : Endpoint} {table : List e.Row} {limit : LimitText} {ℓ : Nat}

/-- The cursor's text of a row. -/
def textOf (rt : Runtime) : (e : Endpoint) → e.Row → Text
  | adminUsers => fun u => encodeCursor rt ⟨rt.toISOString (toDate u.created_at), rt.uuidText u.id⟩
  | projectUsers => fun u => rt.toISOString (toDate u.created_at) ++ ',' :: rt.uuidText u.id
  | projects _ => fun p => encodeCursor rt ⟨rt.toChar p.created_at, rt.uuidText p.id⟩

/-- The key that a row's cursor is read back as. -/
def cut (e : Endpoint) (r : e.Row) : Key := cutKey (e.key r)

def id (e : Endpoint) (r : e.Row) : Uuid := (ofLex (e.key r)).2

def Reads (rt : Runtime) (e : Endpoint) (r : e.Row) : Prop :=
  rt.Reads (e.stamp rt (ofLex (e.key r)).1) (ofLex (e.key r)).1 (e.id r)

theorem limitOf_pos (h : e.limitOf rt limit = .ok ℓ) : 0 < ℓ := by
  cases e with
  | adminUsers => exact parseLimit_pos h
  | projectUsers => exact ProjectUsers.parseLimit_pos h
  | projects _ => exact parseLimit_pos h

theorem get_first (h : e.limitOf rt limit = .ok ℓ) (table : List e.Row) :
    e.get rt table ⟨limit, none⟩ = .ok (toPage (select e.key e.listed none (ℓ + 1) table) ℓ (e.textOf rt)) := by
  cases e with
  | adminUsers => exact adminUsers_first h table
  | projectUsers => exact ProjectUsers.list_first h table
  | projects org => exact projects_first h org table

theorem get_next (h : e.limitOf rt limit = .ok ℓ) (table : List e.Row) {r : e.Row} (hr : e.Reads rt r) :
    e.get rt table ⟨limit, some (e.textOf rt r)⟩ =
      .ok (toPage (select e.key e.listed (some (e.cut r)) (ℓ + 1) table) ℓ (e.textOf rt)) := by
  cases e with
  | adminUsers => exact adminUsers_next h table r hr
  | projectUsers => exact ProjectUsers.list_next h table r hr
  | projects org => exact projects_next h org table r hr

/-- The pages of a listing are cut from its rows in the endpoint's order. -/
theorem select_rows (hkeys : (table.map e.key).Nodup) (before : Option Key) (n : Nat) :
    select e.key e.listed before n table =
      ((e.rows table).filter fun r => before.all fun c => e.key r < c).take n := by
  have hlisted : ((table.filter e.listed).map e.key).Nodup := hkeys.sublist (List.filter_sublist.map e.key)
  rw [rows, ← sorted_filter _ hlisted, List.filter_filter]
  simp only [select, Bool.and_comm]

theorem keys_nodup (hids : (table.map e.id).Nodup) : (table.map e.key).Nodup := by
  refine List.Nodup.of_map (fun k : Key => (ofLex k).2) ?_
  rwa [List.map_map]

theorem serves (h : e.limitOf rt limit = .ok ℓ) (hids : (table.map e.id).Nodup)
    (hreads : ∀ r ∈ table, e.Reads rt r) :
    Serves (e.get rt table) limit (e.textOf rt) e.key e.cut ℓ (e.rows table) where
  pos := limitOf_pos h
  sorted := sorted_strict ((keys_nodup hids).sublist (List.filter_sublist.map e.key))
  cut_le r := cutKey_le (e.key r)
  first := by
    rw [get_first h, select_rows (keys_nodup hids)]
    simp [pageOf]
  next r hr := by
    have hmem : r ∈ table := (List.mem_filter.mp ((sorted_perm e.key _).subset hr)).1
    rw [get_next h table (hreads r hmem), select_rows (keys_nodup hids)]
    rfl

end Endpoint

/-- A chain of pages returns each listed row once and in order exactly when every page's last row, its time cut to the
millisecond, is still above the row after it. -/
theorem pages_exact (e : Endpoint) (rt : Runtime) (table : List e.Row) (limit : LimitText) (ℓ : Nat)
    (hlimit : e.limitOf rt limit = .ok ℓ) (hids : (table.map e.id).Nodup) (hreads : ∀ r ∈ table, e.Reads rt r) :
    Exact (e.get rt table) limit (e.rows table) ↔ Unbroken e.key e.cut ℓ (e.rows table) :=
  (Endpoint.serves hlimit hids hreads).exact_unbroken

namespace Sample

def date : Text := "2026-09-01T12:00:00.123Z".toList

def uuidText (n : Uuid) : Text := "00000000-0000-4000-8000-00000000000".toList ++ [if n = 1 then '1' else '2']

def raw (n : Uuid) : Text :=
  ("eyJjcmVhdGVkX2F0IjoiMjAyNi0wOS0wMVQxMjowMDowMC4xMjNaIiwiaWQiOiIwMDAwMDAwMC0wMDAw" ++
    "LTQwMDAtODAwMC0wMDAwMDAwMDAwMD").toList ++ (if n = 1 then 'E' else 'I') :: "ifQ".toList

/-- A runtime that knows one millisecond and two ids. -/
def runtime : Runtime where
  stringify _ id := raw (if id = uuidText 1 then 1 else 2)
  parse text := if text = raw 1 then .fields (some date) (some (uuidText 1)) else .fields (some date) (some (uuidText 2))
  toISOString _ := date
  dateParse _ := some 1788264000123
  toChar _ := date
  timestamptz _ := some 1788264000123000
  uuidText := uuidText
  uuid text := some (if text = uuidText 1 then 1 else 2)
  issue := "Number must be greater than or equal to 1".toList

theorem uuidText_ne : uuidText 2 ≠ uuidText 1 := fun h => absurd (List.append_cancel_left h) (by decide)

theorem raw_ne : raw 2 ≠ raw 1 := fun h => absurd (List.append_cancel_left h) (by decide)

theorem stringify_eq {n : Uuid} (hn : n = 1 ∨ n = 2) : runtime.stringify date (uuidText n) = raw n := by
  rcases hn with rfl | rfl
  · exact congrArg raw (if_pos rfl)
  · exact congrArg raw (if_neg uuidText_ne)

theorem parse_raw {n : Uuid} (hn : n = 1 ∨ n = 2) : runtime.parse (raw n) = .fields (some date) (some (uuidText n)) := by
  simp only [runtime]
  rcases hn with rfl | rfl
  · rw [if_pos rfl]
  · rw [if_neg raw_ne]

theorem uuid_uuidText {n : Uuid} (hn : n = 1 ∨ n = 2) : runtime.uuid (uuidText n) = some n := by
  rcases hn with rfl | rfl
  · exact congrArg some (if_pos rfl)
  · exact congrArg some (if_neg uuidText_ne)

theorem reads {t : ℤ} {n : Uuid} (ht : toDate t = 1788264000123) (hn : n = 1 ∨ n = 2) : runtime.Reads date t n where
  date := nofun
  timestamptz := by rw [ht]; rfl
  uuid := uuid_uuidText hn
  parse := (congrArg runtime.parse (stringify_eq hn)).trans (parse_raw hn)
  stringify_ne := fun h => List.append_ne_nil_of_right_ne_nil _ (List.cons_ne_nil _ _) ((stringify_eq hn).symm.trans h)
  stamp_ne := by decide
  uuidText_ne := List.append_ne_nil_of_right_ne_nil _ (List.cons_ne_nil _ _)
  comma := by rcases hn with rfl | rfl <;> decide
  short := by rcases hn with rfl | rfl <;> decide

/-- Two users of one millisecond. -/
def twoUsers : List User := [⟨1, 1788264000123900, none⟩, ⟨2, 1788264000123100, none⟩]

theorem reads_twoUsers : ∀ u ∈ twoUsers, Endpoint.adminUsers.Reads runtime u := by
  intro u hu
  rcases List.mem_cons.mp hu with rfl | hu
  · exact reads rfl (.inl rfl)
  · rcases List.mem_singleton.mp hu with rfl
    exact reads rfl (.inr rfl)

end Sample

open Sample

theorem pages_exact_twoUsers :
    Exact (Endpoint.adminUsers.get runtime twoUsers) (.integer 2) (Endpoint.adminUsers.rows twoUsers) :=
  (pages_exact .adminUsers runtime twoUsers (.integer 2) 2 rfl (by decide) reads_twoUsers).mpr
    (unbroken_short (by decide))

/-- With one user a page the second of the two users is never returned. -/
theorem not_pages_exact : ¬ ∀ (e : Endpoint) (rt : Runtime) (table : List e.Row) (limit : LimitText) (ℓ : Nat),
    e.limitOf rt limit = .ok ℓ → (table.map e.id).Nodup → (∀ r ∈ table, e.Reads rt r) →
      Exact (e.get rt table) limit (e.rows table) := by
  intro h
  have hserves : Serves (Endpoint.adminUsers.get runtime twoUsers) (.integer 1) (Endpoint.adminUsers.textOf runtime)
      Endpoint.adminUsers.key Endpoint.adminUsers.cut 1 (Endpoint.adminUsers.rows twoUsers) :=
    Endpoint.serves rfl (by decide) reads_twoUsers
  have hunbroken := hserves.exact_unbroken.mp (h .adminUsers runtime twoUsers (.integer 1) 1 rfl (by decide) reads_twoUsers)
  exact absurd (hunbroken 0 _ _ rfl rfl) (by decide)

end Corebase.Pagination
