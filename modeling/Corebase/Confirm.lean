import Corebase.Console
import Corebase.QuotedText
import Corebase.Verdicts

namespace Corebase.Confirm

open JsText SqlLex SqlGuard Verdicts Console QuotedText

structure RunBody (Param Claims : Type) where
  sql : Text
  params : Option (List Param)
  role : Option ConsoleRole
  claims : Option Claims
  readOnly : Option Bool
  confirmDestructive : Option Bool
  confirmNames : Option (List Text)
  timeoutMs : Option Nat

variable {Param Claims : Type}

/-- The limits of the route's schema; the length of a string is in UTF-16 units. -/
def RunBody.accepted (body : RunBody Param Claims) : Bool :=
  1 ≤ length body.sql && length body.sql ≤ 100000
    && body.params.all (·.length ≤ 64)
    && body.confirmNames.all (fun ns => ns.length ≤ 20 && ns.all fun n => 1 ≤ length n && length n ≤ 200)
    && body.timeoutMs.all fun t => 100 ≤ t && t ≤ MAX_TIMEOUT_MS

def RunBody.request (body : RunBody Param Claims) : RunRequest Param Claims where
  sql := body.sql
  params := body.params.getD []
  role := body.role
  claims := body.claims
  readOnly := body.readOnly.getD false
  confirmDestructive := body.confirmDestructive.getD false
  confirmNames := body.confirmNames.getD []
  timeoutMs := body.timeoutMs

def isSeparator (c : Char) : Bool := isSpace c || c = ','

/-- Every required name present in what was typed, compared exactly. -/
def namesSatisfied (required : List Text) (typed : Text) : Bool :=
  required = [] || required.all fun n => n ∈ tokens isSeparator typed

example : namesSatisfied [lit "\"odd name\"", lit "b"] (lit "\"odd name\", b") = true := by decide

example : namesSatisfied [lit "a", lit "b"] (lit "drop a and b") = true := by decide

/-- The guard, the route and the dialog agree on the confirmation of a script. -/
structure Confirmable (Param Claims : Type) (sql : Text) : Prop where
  sound : ∀ req : RunRequest Param Claims, (classify sql).danger ≠ .safe → checkRequest (classify sql) req = .ok () →
    req.confirmDestructive = true ∧
      ∀ s ∈ (classify sql).statements, ∀ n ∈ s.names, ∃ given ∈ req.confirmNames, trim given = n
  passable : ∃ body : RunBody Param Claims, body.sql = sql ∧ body.accepted = true ∧
    checkRequest (classify sql) body.request = .ok ()
  satisfied : ∀ typed, Typed (classify sql).namesToType typed →
    namesSatisfied (classify sql).namesToType typed = true
  refused : ∀ n ∈ (classify sql).namesToType, ∀ others typed, others.Sublist (classify sql).namesToType → n ∉ others →
    Typed others typed → namesSatisfied (classify sql).namesToType typed = false

theorem separates : Separates isSeparator where
  blank := by decide
  comma := by decide
  quote := by decide

theorem checkRequest_ok {script : Script} {req : RunRequest Param Claims} (h : checkRequest script req = .ok ()) :
    script.statements ≠ [] ∧
      (script.danger ≠ .safe → req.confirmDestructive = true ∧ missingNames script req = []) := by
  unfold checkRequest at h
  split at h
  · cases h
  rename_i hs
  refine ⟨hs, fun hd => ?_⟩
  split at h
  · cases h
  split at h
  · cases h
  rename_i hc
  refine ⟨by simpa using hc, ?_⟩
  by_contra hm
  simp only [hm, if_false] at h
  cases h

theorem missingNames_nil {script : Script} {req : RunRequest Param Claims} :
    missingNames script req = [] ↔ ∀ n ∈ script.namesToType, ∃ given ∈ req.confirmNames, trim given = n := by
  simp [missingNames]

theorem trim_sublist (s : Text) : (trim s).Sublist s := by
  have h := (List.dropWhile_sublist isSpace (l := (trimStart s).reverse)).reverse
  rw [List.reverse_reverse] at h
  exact h.trans (List.dropWhile_sublist isSpace)

theorem length_sublist {s t : Text} (h : s.Sublist t) : length s ≤ length t := by
  induction h with
  | slnil => exact le_rfl
  | cons c _ ih =>
      simp only [length, List.map_cons, List.sum_cons] at ih ⊢
      omega
  | cons_cons c _ ih =>
      simp only [length, List.map_cons, List.sum_cons] at ih ⊢
      omega

theorem length_pos {s : Text} (h : s ≠ []) : 1 ≤ length s := by
  cases s with
  | nil => exact absurd rfl h
  | cons c s =>
      simp only [length, List.map_cons, List.sum_cons]
      split <;> omega

theorem trimStart_stable {s : Text} (h : ∀ c, s.head? = some c → isSpace c = false) : trimStart s = s := by
  cases s with
  | nil => rfl
  | cons c s => simp [trimStart, h c rfl]

theorem trim_stable {s : Text} (hhead : ∀ c, s.head? = some c → isSpace c = false)
    (hlast : ∀ c, s.getLast? = some c → isSpace c = false) : trim s = s := by
  have hrev : trimStart s.reverse = s.reverse := by
    apply trimStart_stable
    rwa [List.head?_reverse]
  rw [trim, trimStart_stable hhead, hrev, List.reverse_reverse]

theorem typeable_mem {ns : List Text} (h : Typeable isSeparator ns) {n : Text} (hn : n ∈ ns) :
    Enclosed n ∨ Unbroken isSeparator n := by
  induction ns with
  | nil => cases hn
  | cons m ns ih =>
      rcases List.mem_cons.mp hn with rfl | hn
      · exact h.1.imp_right And.left
      · exact ih h.2 hn

theorem Typeable.sublist {sep : Char → Bool} {ns ms : List Text} (h : Typeable sep ns) (hsub : ms.Sublist ns) :
    Typeable sep ms := by
  induction hsub with
  | slnil => exact h
  | cons n _ ih => exact ih h.2
  | cons_cons n hsub ih => exact ⟨h.1.imp_right fun hu => ⟨hu.1, hu.2.imp_right fun hq => ⟨hq.1, fun m hm =>
      hq.2 m (hsub.subset hm)⟩⟩, ih h.2⟩

/-- A name that can be read back from the typed text is neither empty nor changed by trim. -/
theorem name_stable {n : Text} (h : Enclosed n ∨ Unbroken isSeparator n) : n ≠ [] ∧ trim n = n := by
  rcases h with ⟨body, rfl, -⟩ | ⟨hne, hn⟩
  · refine ⟨by simp, trim_stable ?_ ?_⟩
    · rintro c ⟨⟩
      decide
    · intro c hc
      rw [← List.cons_append, List.getLast?_concat] at hc
      cases hc
      decide
  · have hspace : ∀ c ∈ n, isSpace c = false := fun c hc => (Bool.or_eq_false_iff.mp (hn c hc)).1
    exact ⟨hne, trim_stable (fun c hc => hspace c (List.mem_of_mem_head? hc))
      fun c hc => hspace c (List.mem_of_mem_getLast? hc)⟩

theorem namesSatisfied_iff {required : List Text} {typed : Text} :
    namesSatisfied required typed = true ↔ ∀ n ∈ required, n ∈ tokens isSeparator typed := by
  cases required with
  | nil => simp [namesSatisfied]
  | cons n ns => simp [namesSatisfied]

theorem statements_nil {sql : Text} : (classify sql).statements = [] ↔ split sql = [] := by
  simp [classify]

/-- What a request that passes both the schema and the check says about the names. -/
theorem passable_limits {sql : Text} {body : RunBody Param Claims} (hsql : body.sql = sql) (hacc : body.accepted = true)
    (hok : checkRequest (classify sql) body.request = .ok ()) :
    length sql ≤ 100000 ∧ (classify sql).namesToType.length ≤ 20 ∧ ∀ n ∈ (classify sql).namesToType, length n ≤ 200 := by
  simp only [RunBody.accepted, Bool.and_eq_true, decide_eq_true_eq] at hacc
  obtain ⟨⟨⟨⟨-, hlen⟩, -⟩, hnames⟩, -⟩ := hacc
  rw [hsql] at hlen
  refine ⟨hlen, ?_⟩
  by_cases hsafe : (classify sql).danger = .safe
  · rw [namesToType_safe hsafe]
    simp
  have hgiven := missingNames_nil.mp ((checkRequest_ok hok).2 hsafe).2
  have hlimits : body.request.confirmNames.length ≤ 20 ∧ ∀ given ∈ body.request.confirmNames, length given ≤ 200 := by
    unfold RunBody.request
    cases hb : body.confirmNames with
    | none => simp
    | some ns =>
        rw [hb, Option.all_some, Bool.and_eq_true, decide_eq_true_eq, List.all_eq_true] at hnames
        refine ⟨hnames.1, fun given hg => ?_⟩
        have := hnames.2 given hg
        simp only [Bool.and_eq_true, decide_eq_true_eq] at this
        exact this.2
  constructor
  · have hsub : (classify sql).namesToType ⊆ body.request.confirmNames.map trim := by
      intro n hn
      obtain ⟨given, hg, heq⟩ := hgiven n hn
      exact List.mem_map.mpr ⟨given, hg, heq⟩
    have hle := ((nodup_distinct _).subperm hsub).length_le
    rw [List.length_map] at hle
    exact hle.trans hlimits.1
  · intro n hn
    obtain ⟨given, hg, rfl⟩ := hgiven n hn
    exact (length_sublist (trim_sublist given)).trans (hlimits.2 given hg)

/-- The request that carries every name of the script. -/
def fullBody (Param Claims : Type) (sql : Text) : RunBody Param Claims where
  sql := sql
  params := none
  role := none
  claims := none
  readOnly := none
  confirmDestructive := some true
  confirmNames := some (classify sql).namesToType
  timeoutMs := none

theorem fullBody_passes {sql : Text} (hsplit : split sql ≠ []) (hlen : length sql ≤ 100000)
    (hcount : (classify sql).namesToType.length ≤ 20) (hnames : ∀ n ∈ (classify sql).namesToType, length n ≤ 200)
    (hstable : ∀ n ∈ (classify sql).namesToType, n ≠ [] ∧ trim n = n) :
    (fullBody Param Claims sql).accepted = true ∧
      checkRequest (classify sql) (fullBody Param Claims sql).request = .ok () := by
  constructor
  · have hsql : sql ≠ [] := by
      rintro rfl
      exact hsplit rfl
    simp only [RunBody.accepted, fullBody, Bool.and_eq_true, decide_eq_true_eq, Option.all_none, Option.all_some,
      List.all_eq_true, and_true]
    exact ⟨⟨decide_eq_true (length_pos hsql), decide_eq_true hlen⟩, hcount, fun n hn =>
      ⟨length_pos (hstable n hn).1, hnames n hn⟩⟩
  · have hmissing : missingNames (classify sql) (fullBody Param Claims sql).request = [] :=
      missingNames_nil.mpr fun n hn => ⟨n, hn, (hstable n hn).2⟩
    have hst : (classify sql).statements ≠ [] := fun h => hsplit (statements_nil.mp h)
    have hparams : ¬ ((fullBody Param Claims sql).request.params ≠ [] ∧ (classify sql).statements.length > 1) :=
      fun h => h.1 rfl
    have hconfirm : (fullBody Param Claims sql).request.confirmDestructive = true := rfl
    simp only [checkRequest, hst, if_false, hparams, hconfirm, hmissing, Bool.not_true, Bool.false_eq_true, if_true,
      ite_self]

/-- A script can be confirmed in every spelling exactly when it fits the limits of the route
and each of its names can be read back from the list typed out. -/
theorem confirmable_iff (sql : Text) : Confirmable Param Claims sql ↔
    split sql ≠ [] ∧ length sql ≤ 100000 ∧ (classify sql).namesToType.length ≤ 20 ∧
      (∀ n ∈ (classify sql).namesToType, length n ≤ 200) ∧ Typeable isSeparator (classify sql).namesToType := by
  constructor
  · rintro ⟨-, ⟨body, hsql, hacc, hok⟩, hsat, -⟩
    obtain ⟨hlen, hcount, hnames⟩ := passable_limits hsql hacc hok
    refine ⟨fun h => (checkRequest_ok hok).1 (statements_nil.mpr h), hlen, hcount, hnames, ?_⟩
    exact typeable_of_mem separates (nodup_distinct _) fun text htyped => namesSatisfied_iff.mp (hsat text htyped)
  · rintro ⟨hsplit, hlen, hcount, hnames, htype⟩
    have hstable : ∀ n ∈ (classify sql).namesToType, n ≠ [] ∧ trim n = n :=
      fun n hn => name_stable (typeable_mem htype hn)
    obtain ⟨hacc, hok⟩ := @fullBody_passes Param Claims sql hsplit hlen hcount hnames hstable
    refine ⟨?_, ⟨_, rfl, hacc, hok⟩, ?_, ?_⟩
    · intro req hd hreq
      obtain ⟨hconfirm, hmissing⟩ := (checkRequest_ok hreq).2 hd
      refine ⟨hconfirm, fun s hs n hn => missingNames_nil.mp hmissing n ?_⟩
      obtain ⟨t, ht, rfl⟩ := List.mem_map.mp hs
      exact mem_namesToType.mpr ⟨t, ht, hn⟩
    · intro typed htyped
      exact namesSatisfied_iff.mpr fun n hn => (mem_tokens separates htyped htype n).mpr hn
    · intro n hn others typed hsub hmissing htyped
      rw [Bool.eq_false_iff]
      intro h
      have htoken := namesSatisfied_iff.mp h n hn
      exact hmissing ((mem_tokens separates htyped (Typeable.sublist htype hsub) n).mp htoken)

/-- A qualified name with a quoted part falls apart where it is typed. -/
theorem not_confirmable_qualified : ¬ Confirmable Unit Unit (lit "DROP TABLE public.\"Posts\"") := by
  intro h
  have htyped : Typed (classify (lit "DROP TABLE public.\"Posts\"")).namesToType (lit "public.\"Posts\"") := by
    have hnames : (classify (lit "DROP TABLE public.\"Posts\"")).namesToType = [lit "public.\"Posts\""] := by decide
    rw [hnames]
    exact .one _
  exact absurd (h.satisfied _ htyped) (by decide)

end Corebase.Confirm
