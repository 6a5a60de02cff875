import Corebase.AccountFlows

namespace Corebase.TokenLedger

open Interleaving AccountStore AccountFlows

/-- What a token has been issued with, and the address that its user had. -/
structure Origin where
  userId : UserId
  type : TokenType
  relatesTo : Option Address
  partner : Option Secret
  current : Option Address

def issuedAs (x : Secret) : Event → Option Origin
  | .issued u type y relatesTo partner current => if y = x then some ⟨u, type, relatesTo, partner, current⟩ else none
  | _ => none

def origin (x : Secret) (past : List Event) : Option Origin := past.findSome? (issuedAs x)

def consumedBy (x : Secret) : Event → Option Client
  | .consumed c _ _ y _ _ => if y = x then some c else none
  | _ => none

/-- The client that has spent the token. -/
def spender (x : Secret) (past : List Event) : Option Client := past.findSome? (consumedBy x)

def issuedFor (u : UserId) (type : TokenType) : Event → Option Secret
  | .issued v type' x .. => if v = u ∧ type' = type then some x else none
  | _ => none

/-- The newest token of the user and the type. -/
def latest (u : UserId) (type : TokenType) (past : List Event) : Option Secret := past.findSome? (issuedFor u type)

/-- A token is issued once, and is spent once, by its user and while it is the newest. -/
def Lawful : List Event → Prop
  | [] => True
  | e :: past => Lawful past ∧ match e with
    | .issued _ _ x .. => origin x past = none
    | .consumed _ u type x .. => spender x past = none ∧ latest u type past = some x ∧
        ∃ o, origin x past = some o ∧ o.userId = u ∧ o.type = type
    | _ => True

structure Ledger (s : Store) : Prop where
  secrets : ∀ x o, origin x s.history = some o → x < s.nextSecret
  latest : ∀ u type t, s.tokens u type = some t → latest u type s.history = some t.secret
  origin : ∀ u type t, s.tokens u type = some t →
    ∃ current, origin t.secret s.history = some ⟨u, type, t.relatesTo, t.partner, current⟩
  spender : ∀ u type t, s.tokens u type = some t → (t.usedAt = none ↔ spender t.secret s.history = none)
  lawful : Lawful s.history

/-- The events that are not about tokens that are issued or spent. -/
def idle : Event → Bool
  | .issued .. | .consumed .. => false
  | _ => true

section Histories

variable {x : Secret} {u : UserId} {type : TokenType} {e : Event} {past es : List Event} {o : Origin} {c : Client}

theorem origin_idle (he : idle e = true) : origin x (e :: past) = origin x past := by
  cases e <;> first | rfl | cases he

theorem spender_idle (he : idle e = true) : spender x (e :: past) = spender x past := by
  cases e <;> first | rfl | cases he

theorem latest_idle (he : idle e = true) : latest u type (e :: past) = latest u type past := by
  cases e <;> first | rfl | cases he

theorem origin_issued {y : Secret} {relatesTo current : Option Address} {partner : Option Secret} :
    origin x (.issued u type y relatesTo partner current :: past) =
      if y = x then some ⟨u, type, relatesTo, partner, current⟩ else origin x past := by
  by_cases hy : y = x <;> simp [origin, issuedAs, hy]

theorem spender_issued {y : Secret} {relatesTo current : Option Address} {partner : Option Secret} :
    spender x (.issued u type y relatesTo partner current :: past) = spender x past := rfl

theorem spender_consumed {y : Secret} {current pending : Option Address} :
    spender x (.consumed c u type y current pending :: past) = if y = x then some c else spender x past := by
  by_cases hy : y = x <;> simp [spender, consumedBy, hy]

theorem latest_issued {v : UserId} {type' : TokenType} {y : Secret} {relatesTo current : Option Address}
    {partner : Option Secret} : latest u type (.issued v type' y relatesTo partner current :: past) =
      if v = u ∧ type' = type then some y else latest u type past := by
  by_cases hy : v = u ∧ type' = type <;> simp [latest, issuedFor, hy]

theorem lawful_idle (he : idle e = true) (h : Lawful past) : Lawful (e :: past) := by
  cases e <;> first | exact ⟨h, trivial⟩ | cases he

theorem origin_mem (h : origin x past = some o) :
    .issued o.userId o.type x o.relatesTo o.partner o.current ∈ past := by
  obtain ⟨e, he, hissued⟩ := List.exists_of_findSome?_eq_some h
  cases e <;> try cases hissued
  next v type' y relatesTo partner current =>
    simp only [issuedAs] at hissued
    split at hissued
    next hy =>
      cases hissued
      exact hy ▸ he
    next => cases hissued

theorem spender_mem (h : spender x past = some c) : ∃ u type current pending,
    .consumed c u type x current pending ∈ past := by
  obtain ⟨e, he, hconsumed⟩ := List.exists_of_findSome?_eq_some h
  cases e <;> try cases hconsumed
  next d u type y current pending =>
    simp only [consumedBy] at hconsumed
    split at hconsumed
    next hy =>
      cases hconsumed
      exact ⟨u, type, current, pending, hy ▸ he⟩
    next => cases hconsumed

theorem Lawful.suffix (h : Lawful (es ++ past)) : Lawful past := by
  induction es with
  | nil => exact h
  | cons e es ih => exact ih h.1

/-- A token keeps its origin. -/
theorem Lawful.origin_append (h : Lawful (es ++ past)) (ho : origin x past = some o) : origin x (es ++ past) = some o := by
  induction es with
  | nil => exact ho
  | cons e es ih =>
      have hrest := ih h.1
      by_cases he : idle e = true
      · exact (origin_idle he).trans hrest
      · cases e <;> try exact absurd rfl he
        next v type' y relatesTo partner current =>
          have hne : y ≠ x := by
            rintro rfl
            cases hrest.symm.trans h.2
          rw [List.cons_append, origin_issued, if_neg hne]
          exact hrest
        next => exact hrest

theorem Lawful.origin_of_mem {relatesTo current : Option Address} {partner : Option Secret} (h : Lawful past)
    (hmem : .issued u type x relatesTo partner current ∈ past) :
    origin x past = some ⟨u, type, relatesTo, partner, current⟩ := by
  obtain ⟨es, before, rfl⟩ := List.append_of_mem hmem
  have hfirst : origin x (.issued u type x relatesTo partner current :: before) =
      some ⟨u, type, relatesTo, partner, current⟩ := origin_issued.trans (if_pos rfl)
  exact h.origin_append hfirst

theorem Lawful.spender_append (h : Lawful (es ++ past)) (hc : spender x past = some c) :
    spender x (es ++ past) = some c := by
  induction es with
  | nil => exact hc
  | cons e es ih =>
      have hrest := ih h.1
      by_cases he : idle e = true
      · exact (spender_idle he).trans hrest
      · cases e <;> try exact absurd rfl he
        next => exact hrest
        next d v type' y current pending =>
          have hne : y ≠ x := by
            rintro rfl
            cases hrest.symm.trans h.2.1
          rw [List.cons_append, spender_consumed, if_neg hne]
          exact hrest

/-- Only what has been issued is spent. -/
theorem Lawful.origin_spender (h : Lawful past) (hc : spender x past = some c) : ∃ o, origin x past = some o := by
  obtain ⟨u, type, current, pending, hmem⟩ := spender_mem hc
  obtain ⟨es, before, rfl⟩ := List.append_of_mem hmem
  obtain ⟨-, -, -, o, ho, -⟩ := h.suffix
  have hwhole : es ++ .consumed c u type x current pending :: before =
      (es ++ [.consumed c u type x current pending]) ++ before := by simp
  rw [hwhole] at h ⊢
  exact ⟨o, h.origin_append ho⟩

theorem findSome_idles {α : Type} {f : Event → Option α} (hf : ∀ e ∈ es, f e = none) :
    (es ++ past).findSome? f = past.findSome? f := by
  rw [List.findSome?_append, List.findSome?_eq_none_iff.mpr hf, Option.none_or]

theorem origin_idles (hes : ∀ e ∈ es, idle e = true) : origin x (es ++ past) = origin x past :=
  findSome_idles fun e he => by have := hes e he; cases e <;> first | rfl | cases this

theorem spender_idles (hes : ∀ e ∈ es, idle e = true) : spender x (es ++ past) = spender x past :=
  findSome_idles fun e he => by have := hes e he; cases e <;> first | rfl | cases this

theorem latest_idles (hes : ∀ e ∈ es, idle e = true) : latest u type (es ++ past) = latest u type past :=
  findSome_idles fun e he => by have := hes e he; cases e <;> first | rfl | cases this

theorem lawful_idles (hes : ∀ e ∈ es, idle e = true) (h : Lawful past) : Lawful (es ++ past) := by
  induction es with
  | nil => exact h
  | cons e es ih => exact lawful_idle (hes e List.mem_cons_self) (ih fun e' he' => hes e' (List.mem_cons_of_mem _ he'))

end Histories

/-- The idle events that tell neither of a mail nor of an address that has been changed. -/
def mute : Event → Bool
  | .issued .. | .consumed .. | .mailed .. | .applied .. => false
  | _ => true

theorem idle_of_mute {e : Event} (he : mute e = true) : idle e = true := by
  cases e <;> first | rfl | cases he

/-- A statement that issues and spends no tokens, but may drop some. -/
structure Calm (s s' : Store) : Prop where
  nextSecret : s'.nextSecret = s.nextSecret
  tokens {u type t} : s'.tokens u type = some t → s.tokens u type = some t
  history : ∃ es, s'.history = es ++ s.history ∧ ∀ e ∈ es, mute e = true

/-- What a statement does to the tokens. -/
inductive Effect (c : Client) (op : Op) (s s' : Store) : Prop
  | calm (h : Calm s s')
  | mail (u : UserId) (x : Secret) (recipient : Address) (hop : op = .mail u x recipient)
      (h : s' = s.log (.mailed x recipient (s.email u)))
  | apply (u : UserId) (email : Address) (hop : op = .applyEmailChange u email) (h : s' = s.applyEmailChange u email)
  | issue (u : UserId) (type : TokenType) (relatesTo : Option Address) (partner : Option Secret)
      (hop : op = .issueOneTimeToken u type relatesTo partner) (h : s' = s.issueOneTimeToken u type relatesTo partner)
  | spend (u : UserId) (type : TokenType) (t : OneTimeToken) (ht : s.tokens u type = some t) (hunused : t.usedAt = none)
      (h : s' = s.spend c u type t.secret ∨ s' = (s.spend c u type t.secret).meet c u)

section Effects

variable {c : Client} {s s' : Store}

theorem Calm.refl (s : Store) : Calm s s := ⟨rfl, fun h => h, [], rfl, nofun⟩

theorem Calm.log (h : Calm s s') {e : Event} (he : mute e = true) : Calm s (s'.log e) := by
  obtain ⟨es, hes, hmute⟩ := h.history
  refine ⟨h.nextSecret, h.tokens, e :: es, congrArg (e :: ·) hes, fun e' he' => ?_⟩
  rcases List.mem_cons.mp he' with rfl | he'
  · exact he
  · exact hmute e' he'

theorem Calm.logPassword (h : Calm s s') (u : UserId) (o : Option Password) (p : Password) :
    Calm s (s'.logPassword u o p) := by
  cases o with
  | none => exact h.log rfl
  | some q => exact (h.log (e := .stored u p) rfl).log rfl

theorem Calm.logBar (h : Calm s s') (u : UserId) (before : Bool) : Calm s (s'.logBar u before) := by
  rcases logBar_cases s' u before with he | he <;> rw [he]
  · exact h
  · exact h.log rfl

/-- A statement that leaves the tokens and the history alone. -/
theorem calm_of (hsecret : s'.nextSecret = s.nextSecret) (htokens : s'.tokens = s.tokens)
    (hhistory : s'.history = s.history) : Calm s s' :=
  ⟨hsecret, fun h => htokens ▸ h, [], hhistory, nofun⟩

theorem setToken_tokens (u : UserId) (type : TokenType) (x : Option OneTimeToken) (v : UserId) (type' : TokenType) :
    (s.setToken u type x).tokens v type' = if v = u ∧ type' = type then x else s.tokens v type' := by
  by_cases hv : v = u
  · subst hv
    by_cases ht : type' = type <;> simp [Store.setToken, ht]
  · simp [Store.setToken, hv]

theorem calm_clear (u : UserId) (type : TokenType) : Calm s (s.setToken u type none) := by
  refine ⟨rfl, fun h => ?_, [], rfl, nofun⟩
  rw [setToken_tokens] at h
  split at h
  · cases h
  · exact h

theorem Calm.trans {s'' : Store} (h : Calm s s') (h' : Calm s' s'') : Calm s s'' := by
  obtain ⟨es, hes, hidle⟩ := h.history
  obtain ⟨es', hes', hidle'⟩ := h'.history
  exact ⟨h'.nextSecret.trans h.nextSecret, fun ht => h.tokens (h'.tokens ht), es' ++ es,
    by rw [hes', hes, List.append_assoc], fun e he => (List.mem_append.mp he).elim (hidle' e) (hidle e)⟩

theorem calm_updatePasswordHash (u : UserId) (p : Password) (change : Bool) :
    Calm s (s.updatePasswordHash u p change) := by
  unfold Store.updatePasswordHash
  split
  · exact .refl s
  next x _ =>
    have hset : Calm s (s.setUser u (x.withPassword p)) := calm_of rfl rfl rfl
    cases change with
    | false => exact hset
    | true => exact hset.logPassword u _ p

theorem calm_createUser (email : Address) (password : Option Password) (confirmed : Bool) :
    Calm s (s.createUser email password confirmed) := by
  cases password with
  | none => exact calm_of rfl rfl rfl
  | some p => exact ⟨rfl, fun h => h, [.stored s.nextUser p], rfl, fun e he => by cases List.mem_singleton.mp he; rfl⟩

theorem calm_adminUpdateUser (u : UserId) (a : AdminUpdate) : Calm s (s.adminUpdateUser u a) := by
  have hupdate : Calm s (s.updateUser u (a.apply s.now)) := calm_of rfl rfl rfl
  unfold Store.adminUpdateUser
  cases a.password with
  | none => exact hupdate.logBar u _
  | some p => exact (hupdate.logPassword u _ p).logBar u _

theorem calm_softDeleteUser (u : UserId) : Calm s (s.softDeleteUser u) := by
  have hscrub : Calm s (s.scrub u) := by
    refine ⟨rfl, fun {v type t} h => ?_, [], rfl, nofun⟩
    by_cases hv : v = u
    · subst hv
      simp [Store.scrub] at h
    · simpa [Store.scrub, Function.update_of_ne hv] using h
  exact (hscrub.logBar u _).log rfl

theorem exec_effect {chance : Chance} {op : Op} {r : Reply op} (hexec : exec c chance op s = some (r, s')) :
    Effect c op s s' := by
  have hsame : Effect c op s s := .calm (.refl s)
  cases op with
  | findUserByEmail =>
      cases hexec
      split
      · exact hsame
      · exact .calm (calm_of rfl rfl rfl)
  | createUser email password confirmed =>
      simp only [exec] at hexec
      split at hexec <;> cases hexec
      · exact hsame
      · exact .calm ((calm_createUser email password confirmed).trans (calm_of rfl rfl rfl))
  | updatePasswordHash v p change =>
      cases hexec
      exact .calm (calm_updatePasswordHash v p change)
  | markEmailConfirmed v secret =>
      cases hexec
      have hupdate : ∀ f, Calm s (s.updateUser v f) := fun _ => calm_of rfl rfl rfl
      exact .calm ((hupdate _).log rfl)
  | findRefreshToken =>
      simp only [exec] at hexec
      split at hexec <;> cases hexec <;> exact hsame
  | findUserById | liveSession | idleExpired | siblingConsumed | clock =>
      cases hexec
      exact hsame
  | openSession v via =>
      cases hexec
      exact .calm ⟨rfl, fun h => h, [_], rfl, fun e he => by cases List.mem_singleton.mp he; rfl⟩
  | revokeUserSessions v scope current =>
      cases hexec
      have hrevoke : Calm s (s.revokeSessions (Store.wanted v scope current)) := calm_of rfl rfl rfl
      unfold Store.revokeUserSessions
      split
      · exact .calm hrevoke
      · exact .calm (hrevoke.log rfl)
  | revokeOwnSession | revokeSessionFamily | tick =>
      cases hexec
      exact .calm (calm_of rfl rfl rfl)
  | rotateRefreshToken v id =>
      cases chance with
      | other | third =>
          cases hexec
          exact hsame
      | usual =>
          simp only [exec] at hexec
          split at hexec <;> cases hexec
          · exact .calm ((Calm.refl s).log rfl)
          · exact hsame
  | issueOneTimeToken v type relatesTo partner =>
      cases hexec
      exact .issue v type relatesTo partner rfl rfl
  | mail v secret recipient =>
      cases chance <;> cases hexec
      · exact .mail v secret recipient rfl rfl
      · exact hsame
      · exact hsame
  | consumeOneTimeToken type secret =>
      simp only [exec] at hexec
      split at hexec <;> cases hexec
      · exact hsame
      next v hspent =>
        obtain ⟨-, t, ht, rfl, hunused, -⟩ := consumeOneTimeToken_some hspent
        exact .spend v type t ht hunused (.inr rfl)
  | consumeEitherToken secret =>
      simp only [exec] at hexec
      split at hexec <;> cases hexec
      next _ _ v hspent =>
        obtain ⟨-, t, ht, rfl, hunused, -⟩ := consumeOneTimeToken_some hspent
        exact .spend v _ t ht hunused (.inl rfl)
      next _ _ v _ hspent =>
        obtain ⟨-, t, ht, rfl, hunused, -⟩ := consumeOneTimeToken_some hspent
        exact .spend v _ t ht hunused (.inl rfl)
      · exact hsame
  | applyEmailChange v email =>
      simp only [exec] at hexec
      split at hexec <;> cases hexec
      · exact .apply v email rfl rfl
      · exact hsame
  | clearEmailChangeTokens v =>
      cases hexec
      exact .calm ((calm_clear v _).trans (calm_clear v _))
  | clearCurrentToken v =>
      cases hexec
      exact .calm (calm_clear v _)
  | adminUpdateUser v a =>
      simp only [exec] at hexec
      split at hexec <;> cases hexec
      · split
        · exact hsame
        · exact .calm (calm_adminUpdateUser v a)
      · exact hsame
  | softDeleteUser v =>
      simp only [exec] at hexec
      split at hexec <;> cases hexec
      · exact .calm (calm_softDeleteUser v)
      · exact hsame
  | answer a =>
      cases hexec
      exact .calm ((Calm.refl s).log rfl)

theorem Ledger.calm (h : Ledger s) (hcalm : Calm s s') : Ledger s' := by
  obtain ⟨es, hes, hmute⟩ := hcalm.history
  have hidle : ∀ e ∈ es, idle e = true := fun e he => idle_of_mute (hmute e he)
  refine ⟨fun x o ho => ?_, fun u type t ht => ?_, fun u type t ht => ?_, fun u type t ht => ?_, ?_⟩
  · rw [hes, origin_idles hidle] at ho
    exact hcalm.nextSecret ▸ h.secrets x o ho
  · rw [hes, latest_idles hidle]
    exact h.latest u type t (hcalm.tokens ht)
  · rw [hes, origin_idles hidle]
    exact h.origin u type t (hcalm.tokens ht)
  · rw [hes, spender_idles hidle]
    exact h.spender u type t (hcalm.tokens ht)
  · rw [hes]
    exact lawful_idles hidle h.lawful

theorem Ledger.log (h : Ledger s) {e : Event} (he : idle e = true) : Ledger (s.log e) := by
  refine ⟨fun x o ho => ?_, fun u type t ht => ?_, fun u type t ht => ?_, fun u type t ht => ?_, lawful_idle he h.lawful⟩
  · rw [log_history, origin_idle he] at ho
    exact h.secrets x o ho
  · rw [log_history, latest_idle he]
    exact h.latest u type t ht
  · rw [log_history, origin_idle he]
    exact h.origin u type t ht
  · rw [log_history, spender_idle he]
    exact h.spender u type t ht

/-- The next secret is a new one. -/
theorem Ledger.fresh (h : Ledger s) : TokenLedger.origin s.nextSecret s.history = none := by
  cases ho : TokenLedger.origin s.nextSecret s.history with
  | none => rfl
  | some o => exact absurd (h.secrets _ o ho) (Nat.lt_irrefl _)

theorem Ledger.unspent (h : Ledger s) : TokenLedger.spender s.nextSecret s.history = none := by
  cases hc : TokenLedger.spender s.nextSecret s.history with
  | none => rfl
  | some c =>
      obtain ⟨o, ho⟩ := h.lawful.origin_spender hc
      cases h.fresh.symm.trans ho

theorem issue_tokens (u : UserId) (type : TokenType) (relatesTo : Option Address) (partner : Option Secret)
    (v : UserId) (type' : TokenType) : (s.issueOneTimeToken u type relatesTo partner).tokens v type' =
      if v = u ∧ type' = type then some ⟨s.nextSecret, relatesTo, s.now + ttlSeconds type * 1000, none, partner⟩
      else s.tokens v type' :=
  setToken_tokens ..

theorem spend_tokens (c : Client) (u : UserId) (type : TokenType) (x : Secret) (v : UserId) (type' : TokenType) :
    (s.spend c u type x).tokens v type' =
      if v = u ∧ type' = type then (s.tokens u type).map fun t => { t with usedAt := some s.now }
      else s.tokens v type' :=
  setToken_tokens ..

theorem Ledger.issue (h : Ledger s) (u : UserId) (type : TokenType) (relatesTo : Option Address)
    (partner : Option Secret) : Ledger (s.issueOneTimeToken u type relatesTo partner) := by
  have hold : ∀ v type' t, s.tokens v type' = some t → s.nextSecret ≠ t.secret := by
    intro v type' t ht
    obtain ⟨a, ho⟩ := h.origin v type' t ht
    exact Nat.ne_of_gt (h.secrets _ _ ho)
  have hhistory : (s.issueOneTimeToken u type relatesTo partner).history =
      .issued u type s.nextSecret relatesTo partner (s.email u) :: s.history := rfl
  refine ⟨fun x o ho => ?_, fun v type' t ht => ?_, fun v type' t ht => ?_, fun v type' t ht => ?_, ⟨h.lawful, h.fresh⟩⟩
  · rw [hhistory, origin_issued] at ho
    split at ho
    next hx => exact hx ▸ Nat.lt_succ_self _
    next => exact Nat.lt_succ_of_lt (h.secrets x o ho)
  · rw [hhistory, latest_issued]
    rw [issue_tokens] at ht
    by_cases hv : v = u ∧ type' = type
    · obtain ⟨rfl, rfl⟩ := hv
      simp only [true_and, if_true] at ht ⊢
      cases ht
      rfl
    · rw [if_neg hv] at ht
      rw [if_neg fun hu => hv ⟨hu.1.symm, hu.2.symm⟩]
      exact h.latest v type' t ht
  · rw [hhistory, origin_issued]
    rw [issue_tokens] at ht
    split at ht
    next hv =>
      obtain ⟨rfl, rfl⟩ := hv
      cases ht
      exact ⟨_, if_pos rfl⟩
    next =>
      rw [if_neg (hold v type' t ht)]
      exact h.origin v type' t ht
  · rw [hhistory, spender_issued]
    rw [issue_tokens] at ht
    split at ht
    next =>
      cases ht
      exact ⟨fun _ => h.unspent, fun _ => rfl⟩
    next => exact h.spender v type' t ht

theorem Ledger.spend (h : Ledger s) (c : Client) {u : UserId} {type : TokenType} {t : OneTimeToken}
    (ht : s.tokens u type = some t) (hunused : t.usedAt = none) : Ledger (s.spend c u type t.secret) := by
  have hhistory : (s.spend c u type t.secret).history =
      .consumed c u type t.secret (s.email u) (s.pendingEmailChange u) :: s.history := rfl
  obtain ⟨a, ho⟩ := h.origin u type t ht
  have hrow : ∀ v type' t', (s.spend c u type t.secret).tokens v type' = some t' →
      ∃ t₀, s.tokens v type' = some t₀ ∧ t'.secret = t₀.secret ∧ t'.relatesTo = t₀.relatesTo ∧ t'.partner = t₀.partner ∧
        (v = u ∧ type' = type ∧ t'.usedAt = some s.now ∨ ¬ (v = u ∧ type' = type) ∧ t' = t₀) := by
    intro v type' t' ht'
    rw [spend_tokens] at ht'
    split at ht'
    next hv =>
      obtain ⟨rfl, rfl⟩ := hv
      rw [ht] at ht'
      cases ht'
      exact ⟨t, ht, rfl, rfl, rfl, .inl ⟨rfl, rfl, rfl⟩⟩
    next hv => exact ⟨t', ht', rfl, rfl, rfl, .inr ⟨hv, rfl⟩⟩
  refine ⟨h.secrets, fun v type' t' ht' => ?_, fun v type' t' ht' => ?_, fun v type' t' ht' => ?_,
    ⟨h.lawful, (h.spender u type t ht).mp hunused, h.latest u type t ht, _, ho, rfl, rfl⟩⟩
  · obtain ⟨t₀, ht₀, hsecret, -⟩ := hrow v type' t' ht'
    exact hsecret ▸ h.latest v type' t₀ ht₀
  · obtain ⟨t₀, ht₀, hsecret, hrelates, hpartner, -⟩ := hrow v type' t' ht'
    rw [hsecret, hrelates, hpartner]
    exact h.origin v type' t₀ ht₀
  · obtain ⟨t₀, ht₀, hsecret, -, -, ⟨rfl, rfl, hused⟩ | ⟨hother, rfl⟩⟩ := hrow v type' t' ht'
    · cases ht.symm.trans ht₀
      rw [hhistory, spender_consumed, hsecret, hused]
      simp
    · have hne : t.secret ≠ t'.secret := by
        intro he
        obtain ⟨a', ho'⟩ := h.origin v type' t' ht₀
        rw [← he, ho] at ho'
        simp only [Option.some.injEq, Origin.mk.injEq] at ho'
        exact hother ⟨ho'.1.symm, ho'.2.1.symm⟩
      rw [hhistory, spender_consumed, if_neg hne]
      exact h.spender v type' t' ht₀

theorem Ledger.meet (h : Ledger s) (c : Client) (u : UserId) : Ledger (s.meet c u) :=
  ⟨h.secrets, h.latest, h.origin, h.spender, h.lawful⟩

theorem Ledger.exec {chance : Chance} {op : Op} {r : Reply op} (h : Ledger s)
    (hexec : AccountStore.exec c chance op s = some (r, s')) : Ledger s' := by
  cases exec_effect hexec with
  | calm hcalm => exact h.calm hcalm
  | mail u x recipient _ hs => exact hs ▸ h.log rfl
  | apply u email _ hs =>
      have hupdate : ∀ f, Ledger (s.updateUser u f) := fun _ => ⟨h.secrets, h.latest, h.origin, h.spender, h.lawful⟩
      exact hs ▸ (hupdate _).log rfl
  | issue u type relatesTo partner _ hs => exact hs ▸ h.issue u type relatesTo partner
  | spend u type t ht hunused hs =>
      rcases hs with rfl | rfl
      · exact h.spend c ht hunused
      · exact (h.spend c ht hunused).meet c u

end Effects

theorem ledger_opened (rows : List User) : Ledger (.opened rows) := by
  have hidle : ∀ e ∈ (Store.opened rows).history, idle e = true := by
    intro e he
    obtain ⟨u, p, rfl, -⟩ := stored_opened he
    rfl
  have hempty : (Store.opened rows).history = (Store.opened rows).history ++ [] := (List.append_nil _).symm
  refine ⟨fun x o ho => ?_, nofun, nofun, nofun, ?_⟩
  · rw [hempty, origin_idles hidle] at ho
    cases ho
  · rw [hempty]
    exact lawful_idles hidle trivial

/-- The ledger is kept in every run. -/
theorem ledger_reachable {config : AccountFlows.Config} {rows : List User}
    {ok : Interleaving.Config Client Store Op Reply → Move Client Chance Request → Prop}
    {g : Interleaving.Config Client Store Op Reply} (h : (accounts config).Reachable ok (.opened rows) g) :
    Ledger g.store :=
  h.invariant (ledger_opened rows) (fun _ _ _ _ _ _ hI hexec => hI.exec hexec) fun _ _ => id

end Corebase.TokenLedger
