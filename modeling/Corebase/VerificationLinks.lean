import Corebase.TokenLedger

namespace Corebase.VerificationLinks

open Interleaving AccountStore AccountFlows TokenLedger

/-- The user has the address that the client has met. -/
def Unmoved (c : Client) (u : UserId) (s : Store) : Prop := ∀ x, s.seen c = some (u, x) → s.email u = x.email

/-- The user has a link that can still be followed. -/
def Outstanding (u : UserId) (s : Store) : Prop :=
  ∃ type t, verifiable type = true ∧ s.tokens u type = some t ∧ t.usedAt = none ∧ s.now < t.expiresAt

/-- An address is changed only while its user has no link that can still be followed, and not between
the lookup of a user and the issue of the link, or between the click on a link and its session. -/
def Bound (c : Client) : Op → Store → Prop
  | .issueOneTimeToken u type _ _, s => verifiable type = true → Unmoved c u s
  | .markEmailConfirmed u _, s | .openSession u (.link _), s => Unmoved c u s
  | .applyEmailChange u email, s => s.email u = some email ∨ ¬ Outstanding u s
  | .adminUpdateUser u a, s => (∀ email, a.email = some email → s.email u = some email) ∨ ¬ Outstanding u s
  | _, _ => True

def opensWith (x : Secret) : Event → Bool
  | .opened _ _ (.link y) _ => y = x
  | _ => false

/-- The number of sessions that have been opened with a link. -/
def openings (x : Secret) (past : List Event) : Nat := past.countP (opensWith x)

/-- The link succeeds, while its user has the address. -/
def Succeeds (x : Secret) (current : Option Address) : Event → Prop
  | .consumed _ _ type y current' _ => verifiable type = true ∧ y = x ∧ current' = current
  | .confirmed _ y current' => y = x ∧ current' = current
  | .opened _ _ (.link y) current' => y = x ∧ current' = current
  | _ => False

/-- Links are mailed to, and followed at, the address that their user had when they were issued. -/
def Proven : List Event → Prop
  | [] => True
  | e :: past => Proven past ∧ match e with
    | .mailed x recipient _ => ∃ o, origin x past = some o ∧ (verifiable o.type = true → o.current = some recipient)
    | .consumed _ _ type x current _ => ∃ o, origin x past = some o ∧ (verifiable type = true → o.current = current)
    | .confirmed _ x current => ∃ o, origin x past = some o ∧ verifiable o.type = true ∧ o.current = current
    | .opened _ _ (.link x) current => openings x past = 0 ∧ (spender x past).isSome ∧
        ∃ o, origin x past = some o ∧ verifiable o.type = true ∧ o.current = current
    | _ => True

structure Inv (s : Store) : Prop where
  proven : Proven s.history
  seen : ∀ c u x, s.seen c = some (u, x) → u < s.nextUser
  born : ∀ x o, origin x s.history = some o → verifiable o.type = true → o.userId < s.nextUser
  address : ∀ u type t o, s.tokens u type = some t → verifiable type = true → t.usedAt = none → s.now < t.expiresAt →
    origin t.secret s.history = some o → s.email u = o.current

structure Guar (c : Client) (s s' : Store) : Prop where
  issued : ∀ x o, origin x s.history = some o → origin x s'.history = some o
  spent : ∀ x d, spender x s.history = some d → spender x s'.history = some d
  opened : ∀ x d, spender x s.history = some d → d ≠ c → openings x s'.history = openings x s.history
  seen : ∀ d, d ≠ c → s'.seen d = s.seen d

def binding : Discipline Client Store Op where
  Inv := Inv
  Guar := Guar
  Idle _ _ := True
  Allowed c op s := Ledger s ∧ Bound c op s

/-- The events that neither are about tokens that are issued or spent, nor tell of a link that was mailed or
succeeded. -/
def silent : Event → Bool
  | .issued .. | .consumed .. | .mailed .. | .confirmed .. | .opened _ _ (.link _) _ => false
  | _ => true

section Histories

variable {e : Event} {past es : List Event} {x : Secret}

theorem idle_of_silent (he : silent e = true) : idle e = true := by
  cases e <;> first | rfl | cases he

theorem proven_silent (he : silent e = true) (h : Proven past) : Proven (e :: past) := by
  cases e with
  | issued | consumed | mailed | confirmed => cases he
  | opened u id via current =>
      cases via with
      | password p => exact ⟨h, trivial⟩
      | link y => cases he
  | _ => exact ⟨h, trivial⟩

theorem openings_silent (he : silent e = true) : openings x (e :: past) = openings x past := by
  cases e with
  | opened u id via current =>
      cases via with
      | password p => rfl
      | link y => cases he
  | _ => rfl

theorem proven_silents (hes : ∀ e ∈ es, silent e = true) (h : Proven past) : Proven (es ++ past) := by
  induction es with
  | nil => exact h
  | cons e es ih => exact proven_silent (hes e List.mem_cons_self) (ih fun e' he' => hes e' (List.mem_cons_of_mem _ he'))

theorem openings_silents (hes : ∀ e ∈ es, silent e = true) : openings x (es ++ past) = openings x past := by
  induction es with
  | nil => rfl
  | cons e es ih =>
      exact (openings_silent (hes e List.mem_cons_self)).trans (ih fun e' he' => hes e' (List.mem_cons_of_mem _ he'))

theorem Proven.suffix (h : Proven (es ++ past)) : Proven past := by
  induction es with
  | nil => exact h
  | cons e es ih => exact ih h.1

theorem Proven.openings_le (h : Proven past) : openings x past ≤ 1 := by
  induction past with
  | nil => exact Nat.zero_le _
  | cons e past ih =>
      by_cases he : opensWith x e = true
      · cases e with
        | opened u id via current =>
            cases via with
            | password p => cases he
            | link y =>
                obtain rfl : y = x := by simpa [opensWith] using he
                have hnone : openings y past = 0 := h.2.1
                rw [openings, List.countP_cons_of_pos he]
                exact Nat.succ_le_succ (Nat.le_of_eq hnone)
        | _ => cases he
      · rw [openings, List.countP_cons_of_neg he]
        exact ih h.1

theorem Proven.succeeds (h : Proven past) (hl : Lawful past) (he : e ∈ past) {current : Option Address}
    (hs : Succeeds x current e) : ∃ o, origin x past = some o ∧ verifiable o.type = true ∧ o.current = current := by
  obtain ⟨es, before, rfl⟩ := List.append_of_mem he
  suffices hbefore : ∃ o, origin x before = some o ∧ verifiable o.type = true ∧ o.current = current by
    obtain ⟨o, ho, hrest⟩ := hbefore
    have hwhole : es ++ e :: before = (es ++ [e]) ++ before := by simp
    rw [hwhole] at hl ⊢
    exact ⟨o, hl.origin_append ho, hrest⟩
  have hthere := h.suffix
  cases e with
  | consumed c u type y current' pending =>
      obtain ⟨hver, rfl, rfl⟩ := hs
      obtain ⟨-, o, ho, hcurrent⟩ := hthere
      obtain ⟨-, -, -, o', ho', -, htype⟩ := hl.suffix
      cases ho.symm.trans ho'
      exact ⟨o, ho, htype ▸ hver, hcurrent hver⟩
  | confirmed u y current' =>
      obtain ⟨rfl, rfl⟩ := hs
      exact hthere.2
  | opened u id via current' =>
      cases via with
      | password p => exact hs.elim
      | link y =>
          obtain ⟨rfl, rfl⟩ := hs
          exact hthere.2.2.2
  | _ => exact hs.elim

theorem Proven.mailed (h : Proven past) (hl : Lawful past) {recipient : Address} {current : Option Address}
    (he : .mailed x recipient current ∈ past) :
    ∃ o, origin x past = some o ∧ (verifiable o.type = true → o.current = some recipient) := by
  obtain ⟨es, before, rfl⟩ := List.append_of_mem he
  obtain ⟨-, o, ho, hto⟩ := h.suffix
  have hwhole : es ++ .mailed x recipient current :: before = (es ++ [.mailed x recipient current]) ++ before := by simp
  rw [hwhole] at hl ⊢
  exact ⟨o, hl.origin_append ho, hto⟩

/-- A session is opened only with a link that has been spent. -/
theorem openings_unspent (h : Proven past) (hl : Lawful past) (hx : spender x past = none) : openings x past = 0 := by
  induction past with
  | nil => rfl
  | cons e past ih =>
      have hrest : spender x past = none := by
        cases hc : spender x past with
        | none => rfl
        | some c =>
            have hkeep : spender x ([e] ++ past) = some c := Lawful.spender_append hl hc
            cases hx.symm.trans hkeep
      have hpast := ih h.1 hl.1 hrest
      by_cases he : opensWith x e = true
      · cases e with
        | opened u id via current =>
            cases via with
            | password p => cases he
            | link y =>
                obtain rfl : y = x := by simpa [opensWith] using he
                have hspent := h.2.2.1
                rw [hrest] at hspent
                cases hspent
        | _ => cases he
      · rw [openings, List.countP_cons_of_neg he]
        exact hpast

end Histories

section Steps

variable {c : Client} {s s' : Store} {u : UserId} {x : Secret}

/-- A statement that is not about links, and keeps the addresses of those who have one. -/
structure Plain (c : Client) (s s' : Store) : Prop where
  now : s.now ≤ s'.now
  nextUser : s.nextUser ≤ s'.nextUser
  seen : ∀ d, d ≠ c → s'.seen d = s.seen d
  met : ∀ u x, s'.seen c = some (u, x) → u < s'.nextUser
  tokens {u type t} : s'.tokens u type = some t → s.tokens u type = some t
  email : ∀ u type t, s'.tokens u type = some t → verifiable type = true → t.usedAt = none → s'.now < t.expiresAt →
    u < s.nextUser → s'.email u = s.email u
  history : ∃ es, s'.history = es ++ s.history ∧ ∀ e ∈ es, silent e = true

theorem Plain.keeps (hI : Inv s) (hL : Ledger s) (h : Plain c s s') : Inv s' ∧ Guar c s s' := by
  obtain ⟨es, hes, hsilent⟩ := h.history
  have hidle : ∀ e ∈ es, idle e = true := fun e he => idle_of_silent (hsilent e he)
  have horigin : ∀ y, origin y s'.history = origin y s.history := fun y => hes ▸ origin_idles hidle
  refine ⟨⟨hes ▸ proven_silents hsilent hI.proven, fun d v y hv => ?_, fun y o ho hver => ?_, fun v type t o ht hver hu hx ho => ?_⟩,
    fun y o ho => (horigin y).trans ho, fun y d hd => ?_, fun y d _ _ => hes ▸ openings_silents hsilent, h.seen⟩
  · by_cases hd : d = c
    · subst hd
      exact h.met v y hv
    · exact Nat.lt_of_lt_of_le (hI.seen d v y (h.seen d hd ▸ hv)) h.nextUser
  · exact Nat.lt_of_lt_of_le (hI.born y o (horigin y ▸ ho) hver) h.nextUser
  · have hold := h.tokens ht
    have hsame := horigin t.secret ▸ ho
    obtain ⟨a, hown⟩ := hL.origin v type t hold
    cases hsame.symm.trans hown
    rw [h.email v type t ht hver hu hx (hI.born _ _ hsame hver)]
    exact hI.address v type t _ hold hver hu (Nat.lt_of_le_of_lt h.now hx) hsame
  · rw [hes, spender_idles hidle]
    exact hd

/-- A statement that adds no users, and leaves the addresses and what the clients have met. -/
theorem plain_of (hI : Inv s) (hnow : s'.now = s.now) (hnext : s'.nextUser = s.nextUser) (hseen : s'.seen = s.seen)
    (htokens : ∀ {u type t}, s'.tokens u type = some t → s.tokens u type = some t) (hemail : ∀ u, s'.email u = s.email u)
    (hhistory : ∃ es, s'.history = es ++ s.history ∧ ∀ e ∈ es, silent e = true) : Plain c s s' :=
  ⟨Nat.le_of_eq hnow.symm, Nat.le_of_eq hnext.symm, fun d _ => congrFun hseen d,
    fun u x hx => hnext ▸ hI.seen c u x (hseen ▸ hx), htokens, fun u _ _ _ _ _ _ _ => hemail u, hhistory⟩

theorem Plain.refl (hI : Inv s) : Plain c s s := plain_of hI rfl rfl rfl id (fun _ => rfl) ⟨[], rfl, nofun⟩

theorem Plain.log (h : Plain c s s') {e : Event} (he : silent e = true) : Plain c s (s'.log e) := by
  obtain ⟨es, hes, hsilent⟩ := h.history
  refine ⟨h.now, h.nextUser, h.seen, h.met, h.tokens, h.email, e :: es, congrArg (e :: ·) hes, fun e' he' => ?_⟩
  rcases List.mem_cons.mp he' with rfl | he'
  · exact he
  · exact hsilent e' he'

theorem Plain.logPassword (h : Plain c s s') (v : UserId) (o : Option Password) (p : Password) :
    Plain c s (s'.logPassword v o p) := by
  cases o with
  | none => exact h.log rfl
  | some q => exact (h.log (e := .stored v p) rfl).log rfl

theorem Plain.logBar (h : Plain c s s') (v : UserId) (before : Bool) : Plain c s (s'.logBar v before) := by
  rcases logBar_cases s' v before with he | he <;> rw [he]
  · exact h
  · exact h.log rfl

theorem Plain.meet (h : Plain c s s') {v : UserId} (hv : v < s'.nextUser) : Plain c s (s'.meet c v) := by
  refine ⟨h.now, h.nextUser, fun d hd => (meet_other s' c v hd).trans (h.seen d hd), fun u x hx => ?_, h.tokens, h.email,
    h.history⟩
  have hseen : (s'.meet c v).seen c = (s'.users v).map (v, ·) := Function.update_self ..
  obtain ⟨y, -, he⟩ := Option.map_eq_some_iff.mp (hseen ▸ hx)
  cases he
  exact hv

/-- A row that keeps its address, or whose user has no link that can still be followed. -/
theorem plain_updateUser (hI : Inv s) (v : UserId) {f : User → User}
    (hf : (∀ y, s.users v = some y → (f y).email = y.email) ∨ ¬ Outstanding v s) : Plain c s (s.updateUser v f) := by
  refine ⟨Nat.le_refl _, Nat.le_refl _, fun _ _ => rfl, fun u y hy => hI.seen c u y hy, id,
    fun u type t ht hver hunused hnow _ => ?_, [], rfl, nofun⟩
  by_cases hu : u = v
  · subst hu
    rcases hf with hsame | hnone
    · cases hy : s.users u with
      | none => simp [Store.email, hy]
      | some y => simp [Store.email, hy, hsame y hy]
    · exact absurd ⟨type, t, hver, ht, hunused, hnow⟩ hnone
  · simp [Store.email, updateUser_other s v u hu]

theorem plain_createUser (hI : Inv s) (email : Address) (password : Option Password) (confirmed : Bool) :
    Plain c s (s.createUser email password confirmed) := by
  have hcreated : ∀ y, Plain c s { s.setUser s.nextUser y with nextUser := s.nextUser + 1 } := by
    refine fun y => ⟨Nat.le_refl _, Nat.le_succ _, fun _ _ => rfl, fun u z hz => Nat.lt_succ_of_lt (hI.seen c u z hz), id,
      fun u _ _ _ _ _ _ hu => ?_, [], rfl, nofun⟩
    have hsame : (s.setUser s.nextUser y).users u = s.users u := setUser_other s s.nextUser u (Nat.ne_of_lt hu)
    exact congrArg (Option.bind · _) hsame
  cases password with
  | none => exact hcreated _
  | some p => exact (hcreated _).log rfl

theorem plain_updatePasswordHash (hI : Inv s) (v : UserId) (p : Password) (change : Bool) :
    Plain c s (s.updatePasswordHash v p change) := by
  unfold Store.updatePasswordHash
  cases hx : s.users v with
  | none => exact .refl hI
  | some y =>
      have hset : s.setUser v (y.withPassword p) = s.updateUser v (·.withPassword p) := by
        simp [Store.setUser, Store.updateUser, hx]
      have hupdate : Plain c s (s.setUser v (y.withPassword p)) := hset ▸ plain_updateUser hI v (.inl fun _ _ => rfl)
      cases change with
      | false => exact hupdate
      | true => exact hupdate.logPassword v _ p

theorem plain_adminUpdateUser (hI : Inv s) (v : UserId) (a : AdminUpdate)
    (hok : (∀ email, a.email = some email → s.email v = some email) ∨ ¬ Outstanding v s) :
    Plain c s (s.adminUpdateUser v a) := by
  have hupdate : Plain c s (s.updateUser v (a.apply s.now)) := by
    refine plain_updateUser hI v (hok.imp_left fun hsame y hy => ?_)
    cases ha : a.email with
    | none => simp [AdminUpdate.apply, ha]
    | some email =>
        have := hsame email ha
        simp only [Store.email, hy, Option.bind_some] at this
        simp [AdminUpdate.apply, ha, this]
  unfold Store.adminUpdateUser
  cases a.password with
  | none => exact hupdate.logBar v _
  | some p => exact (hupdate.logPassword v _ p).logBar v _

theorem plain_softDeleteUser (hI : Inv s) (v : UserId) : Plain c s (s.softDeleteUser v) := by
  have hscrub : Plain c s (s.scrub v) := by
    have htokens : ∀ u type, (s.scrub v).tokens u type = if u = v then none else s.tokens u type := by
      intro u type
      by_cases hu : u = v
      · subst hu
        simp [Store.scrub]
      · simp [Store.scrub, hu]
    refine ⟨Nat.le_refl _, Nat.le_refl _, fun _ _ => rfl, fun u y hy => hI.seen c u y hy, fun {u type t} ht => ?_,
      fun u type t ht _ _ _ _ => ?_, [], rfl, List.forall_mem_nil _⟩ <;> rw [htokens] at ht <;> split at ht
    · cases ht
    · exact ht
    · cases ht
    next hu => exact congrArg (Option.bind · _) (updateUser_other s v u hu)
  exact (hscrub.logBar v _).log rfl

/-- The statements about links. -/
def loud : Op → Bool
  | .issueOneTimeToken .. | .mail .. | .consumeOneTimeToken .. | .consumeEitherToken _ | .markEmailConfirmed ..
  | .openSession _ (.link _) => true
  | _ => false

theorem plain_exec {chance : Chance} {op : Op} {r : Reply op} (hop : loud op = false) (hI : Inv s)
    (hok : Bound c op s) (hexec : exec c chance op s = some (r, s')) : Plain c s s' := by
  have hsame : Plain c s s := .refl hI
  cases op with
  | issueOneTimeToken | mail | consumeOneTimeToken | consumeEitherToken | markEmailConfirmed => cases hop
  | findUserByEmail email =>
      cases hexec
      cases hfound : s.findUserByEmail email with
      | none => exact hsame
      | some found => exact hsame.meet (findUserByEmail_lt hfound)
  | createUser email password confirmed =>
      simp only [exec] at hexec
      split at hexec <;> cases hexec
      · exact hsame
      · exact (plain_createUser hI email password confirmed).meet (by cases password <;> exact Nat.lt_succ_self _)
  | updatePasswordHash v p change =>
      cases hexec
      exact plain_updatePasswordHash hI v p change
  | findRefreshToken =>
      simp only [exec] at hexec
      split at hexec <;> cases hexec <;> exact hsame
  | findUserById | liveSession | idleExpired | siblingConsumed | clock =>
      cases hexec
      exact hsame
  | openSession v via =>
      cases via with
      | password p =>
          cases hexec
          exact plain_of hI rfl rfl rfl id (fun _ => rfl) ⟨[_], rfl, fun e he => by cases List.mem_singleton.mp he; rfl⟩
      | link y => cases hop
  | revokeUserSessions v scope current =>
      cases hexec
      have hrevoke : Plain c s (s.revokeSessions (Store.wanted v scope current)) :=
        plain_of hI rfl rfl rfl id (fun _ => rfl) ⟨[], rfl, List.forall_mem_nil _⟩
      unfold Store.revokeUserSessions
      split
      · exact hrevoke
      · exact hrevoke.log rfl
  | revokeOwnSession | revokeSessionFamily =>
      cases hexec
      exact plain_of hI rfl rfl rfl id (fun _ => rfl) ⟨[], rfl, List.forall_mem_nil _⟩
  | rotateRefreshToken v id =>
      cases chance with
      | other | third =>
          cases hexec
          exact hsame
      | usual =>
          simp only [exec] at hexec
          split at hexec <;> cases hexec
          · exact hsame.log rfl
          · exact hsame
  | applyEmailChange v email =>
      simp only [exec] at hexec
      split at hexec <;> cases hexec
      · refine (plain_updateUser hI v (hok.imp_left fun he y hy => ?_)).log rfl
        simpa [Store.email, hy] using he.symm
      · exact hsame
  | clearEmailChangeTokens v =>
      cases hexec
      exact plain_of hI rfl rfl rfl ((calm_clear v _).trans (calm_clear v _)).tokens (fun _ => rfl) ⟨[], rfl, List.forall_mem_nil _⟩
  | clearCurrentToken v =>
      cases hexec
      exact plain_of hI rfl rfl rfl (calm_clear v _).tokens (fun _ => rfl) ⟨[], rfl, List.forall_mem_nil _⟩
  | adminUpdateUser v a =>
      simp only [exec] at hexec
      split at hexec <;> cases hexec
      · split
        · exact hsame
        · exact plain_adminUpdateUser hI v a hok
      · exact hsame
  | softDeleteUser v =>
      simp only [exec] at hexec
      split at hexec <;> cases hexec
      · exact plain_softDeleteUser hI v
      · exact hsame
  | answer a =>
      cases hexec
      exact hsame.log rfl
  | tick ms =>
      cases hexec
      exact ⟨Nat.le_add_right _ _, Nat.le_refl _, fun _ _ => rfl, fun u y hy => hI.seen c u y hy, id,
        fun _ _ _ _ _ _ _ _ => rfl, [], rfl, List.forall_mem_nil _⟩

/-- A statement with an event that is proven. -/
theorem tell_keeps (hI : Inv s) (hL : Ledger s) (h : Plain c s s') (hsame : s'.history = s.history) {e : Event}
    (he : idle e = true) (hproven : Proven (e :: s.history))
    (hopen : ∀ y d, spender y s.history = some d → d ≠ c → opensWith y e = false) :
    Inv (s'.log e) ∧ Guar c s (s'.log e) := by
  obtain ⟨hinv, -⟩ := h.keeps hI hL
  have hhistory : (s'.log e).history = e :: s.history := congrArg (e :: ·) hsame
  refine ⟨⟨hhistory ▸ hproven, hinv.seen, fun y o ho => ?_, fun v type t o ht hver hu hx ho => ?_⟩,
    fun y o ho => ?_, fun y d hd => ?_, fun y d hd hne => ?_, h.seen⟩
  · rw [log_history, origin_idle he] at ho
    exact hinv.born y o ho
  · rw [log_history, origin_idle he] at ho
    exact hinv.address v type t o ht hver hu hx ho
  · rw [hhistory, origin_idle he]
    exact ho
  · rw [hhistory, spender_idle he]
    exact hd
  · rw [hhistory, openings, List.countP_cons_of_neg (by simp [hopen y d hd hne])]
    rfl

theorem issue_keeps (hI : Inv s) (hL : Ledger s) {type : TokenType} (relatesTo : Option Address)
    (partner : Option Secret) (hu : verifiable type = true → u < s.nextUser) :
    Inv (s.issueOneTimeToken u type relatesTo partner) ∧ Guar c s (s.issueOneTimeToken u type relatesTo partner) := by
  have hhistory : (s.issueOneTimeToken u type relatesTo partner).history =
      .issued u type s.nextSecret relatesTo partner (s.email u) :: s.history := rfl
  have hold : ∀ y o, origin y s.history = some o → s.nextSecret ≠ y :=
    fun y o ho => Nat.ne_of_gt (hL.secrets y o ho)
  refine ⟨⟨⟨hI.proven, trivial⟩, hI.seen, fun y o ho hver => ?_, fun v type' t o ht hver hunused hx ho => ?_⟩,
    fun y o ho => ?_, fun y d hd => hd, fun y d _ _ => rfl, fun _ _ => rfl⟩
  · rw [hhistory, origin_issued] at ho
    split at ho
    · cases ho
      exact hu hver
    · exact hI.born y o ho hver
  · rw [issue_tokens] at ht
    rw [hhistory, origin_issued] at ho
    split at ht
    next hv =>
      obtain ⟨rfl, rfl⟩ := hv
      cases ht
      rw [if_pos rfl] at ho
      cases ho
      rfl
    next =>
      obtain ⟨a, hown⟩ := hL.origin v type' t ht
      rw [if_neg (hold _ _ hown)] at ho
      exact hI.address v type' t o ht hver hunused hx ho
  · rw [hhistory, origin_issued, if_neg (hold y o ho)]
    exact ho

theorem spend_keeps (hI : Inv s) (hL : Ledger s) {type : TokenType} {t : OneTimeToken} (ht : s.tokens u type = some t)
    (hunused : t.usedAt = none) (hx : s.now < t.expiresAt) :
    Inv (s.spend c u type t.secret) ∧ Guar c s (s.spend c u type t.secret) := by
  have hhistory : (s.spend c u type t.secret).history =
      .consumed c u type t.secret (s.email u) (s.pendingEmailChange u) :: s.history := rfl
  obtain ⟨a, hown⟩ := hL.origin u type t ht
  have hunspent := (hL.spender u type t ht).mp hunused
  refine ⟨⟨⟨hI.proven, _, hown, fun hver => (hI.address u type t _ ht hver hunused hx hown).symm⟩, hI.seen, hI.born,
    fun v type' t' o ht' hver hunused' hx' ho => ?_⟩,
    fun y o ho => ho, fun y d hd => ?_, fun y d _ _ => rfl, fun _ _ => rfl⟩
  · rw [spend_tokens] at ht'
    split at ht'
    next hv =>
      rw [ht] at ht'
      cases ht'
      cases hunused'
    next => exact hI.address v type' t' o ht' hver hunused' hx' ho
  · rw [hhistory, spender_consumed]
    split
    next hy =>
      rw [← hy, hunspent] at hd
      cases hd
    next => exact hd

/-- The client has spent the link, and has opened no session with it. -/
structure Holding (c : Client) (u : UserId) (x : Secret) (s : Store) : Prop where
  spender : spender x s.history = some c
  openings : openings x s.history = 0
  origin : ∃ o y, origin x s.history = some o ∧ verifiable o.type = true ∧ s.seen c = some (u, y) ∧ y.email = o.current

/-- The link has been issued while its user had the address. -/
def Sent (x : Secret) (recipient : Option Address) (s : Store) : Prop :=
  ∃ o, origin x s.history = some o ∧ (verifiable o.type = true → o.current = recipient)

theorem holding_stable : binding.Stable c (Holding c u x) := by
  rintro d hd s s' - hG ⟨hspender, hopenings, o, y, ho, hver, hseen, hemail⟩
  exact ⟨hG.spent x c hspender, (hG.opened x c hspender hd.symm).trans hopenings, o, y, hG.issued x o ho, hver,
    (hG.seen c hd.symm).trans hseen, hemail⟩

theorem sent_stable {recipient : Option Address} : binding.Stable c (Sent x recipient) := by
  rintro d hd s s' - hG ⟨o, ho, hto⟩
  exact ⟨o, hG.issued x o ho, hto⟩

theorem Holding.current (h : Holding c u x s) (hok : Unmoved c u s) :
    ∃ o, TokenLedger.origin x s.history = some o ∧ verifiable o.type = true ∧ o.current = s.email u := by
  obtain ⟨-, -, o, y, ho, hver, hseen, hemail⟩ := h
  exact ⟨o, ho, hver, (hemail.symm.trans (hok y hseen).symm)⟩

theorem mail_keeps (hI : Inv s) (hL : Ledger s) {recipient : Address} (h : Sent x (some recipient) s)
    (current : Option Address) :
    Inv (s.log (.mailed x recipient current)) ∧ Guar c s (s.log (.mailed x recipient current)) :=
  tell_keeps (e := .mailed x recipient current) hI hL (.refl hI) rfl rfl ⟨hI.proven, h⟩ fun _ _ _ _ => rfl

theorem confirm_keeps (hI : Inv s) (hL : Ledger s) (h : Holding c u x s) (hok : Unmoved c u s) :
    Inv (s.markEmailConfirmed u x) ∧ Guar c s (s.markEmailConfirmed u x) ∧ Holding c u x (s.markEmailConfirmed u x) := by
  have hplain : Plain c s (s.updateUser u fun y => { y with emailConfirmedAt := some (y.emailConfirmedAt.getD s.now) }) :=
    plain_updateUser hI u (.inl fun _ _ => rfl)
  obtain ⟨hinv, hG⟩ := tell_keeps (e := .confirmed u x (s.email u)) hI hL hplain rfl rfl ⟨hI.proven, h.current hok⟩
    fun _ _ _ _ => rfl
  exact ⟨hinv, hG, h.spender, h.openings, h.origin⟩

theorem open_keeps (hI : Inv s) (hL : Ledger s) (h : Holding c u x s) (hok : Unmoved c u s) :
    Inv (s.openSession u (.link x)) ∧ Guar c s (s.openSession u (.link x)) := by
  have hplain : Plain c s { s with
      sessions := Function.update s.sessions s.nextSession (some ⟨u, false, .link x⟩)
      nextSession := s.nextSession + 1 } :=
    plain_of hI rfl rfl rfl id (fun _ => rfl) ⟨[], rfl, nofun⟩
  refine tell_keeps hI hL hplain rfl rfl
    ⟨hI.proven, h.openings, by rw [h.spender]; rfl, h.current hok⟩ fun y d hd hne => ?_
  by_contra hy
  obtain rfl : x = y := by simpa [opensWith] using hy
  exact hne (Option.some.inj (hd.symm.trans h.spender))

/-- The client has met the user with this address. -/
def Met (c : Client) (u : UserId) (recipient : Option Address) (s : Store) : Prop :=
  ∃ y, s.seen c = some (u, y) ∧ y.email = recipient

theorem met_stable {recipient : Option Address} : binding.Stable c (Met c u recipient) := by
  rintro d hd s s' - hG ⟨y, hy, hto⟩
  exact ⟨y, (hG.seen c hd.symm).trans hy, hto⟩

end Steps

section Programs

variable (config : Config) (c : Client) {u : UserId}

/-- A statement that by itself keeps the discipline. -/
def calm : Op → Prop
  | .consumeEitherToken _ => True
  | op => loud op = false

theorem keeps_statement (chance : Chance) (op : Op) (s : Store) (r : Reply op) (s' : Store) (hop : calm op) (hI : Inv s)
    (hok : Ledger s ∧ Bound c op s) (hexec : exec c chance op s = some (r, s')) : Inv s' ∧ Guar c s s' := by
  by_cases hloud : loud op = false
  · exact (plain_exec hloud hI hok.2 hexec).keeps hI hok.1
  cases op <;> first | exact absurd hop hloud | skip
  case consumeEitherToken secret =>
    simp only [exec] at hexec
    split at hexec <;> cases hexec
    next _ _ v hspent =>
      obtain ⟨-, t, ht, rfl, hunused, hx⟩ := consumeOneTimeToken_some hspent
      exact spend_keeps hI hok.1 ht hunused hx
    next _ _ v _ hspent =>
      obtain ⟨-, t, ht, rfl, hunused, hx⟩ := consumeOneTimeToken_some hspent
      exact spend_keeps hI hok.1 ht hunused hx
    next => exact (Plain.refl hI).keeps hI hok.1

theorem meets_only {p : Program Op Reply} (hp : p.Only calm) (Q : Store → Prop) :
    binding.Meets (accounts config) c p Q :=
  Discipline.Meets.of_only hp (fun _ _ => trivial) (fun chance op s r s' => keeps_statement c chance op s r s') Q

theorem meets_answer (a : Answer) (Q : Store → Prop) : binding.Meets (accounts config) c (answer a) Q :=
  meets_only config c (show (answer a).Only calm from ⟨rfl, fun _ => trivial⟩) Q

theorem meets_sendMail {x : Secret} {recipient : Option Address} {next : Program Op Reply}
    (hnext : binding.Meets (accounts config) c next fun _ => True) :
    binding.Meets (accounts config) c (sendMail u x recipient next) (Sent x recipient) := by
  cases recipient with
  | none => exact hnext.mono fun _ _ _ => trivial
  | some recipient =>
      intro s chance r s' hI hQ hok hexec
      suffices h : Inv s' ∧ Guar c s s' from ⟨h.1, h.2, _, Discipline.stable_true, trivial, hnext⟩
      have hsame := (Plain.refl (c := c) hI).keeps hI hok.1
      cases chance <;> cases hexec
      · exact mail_keeps hI hok.1 hQ _
      · exact hsame
      · exact hsame

/-- A link is issued for a user that the client has met, and mailed to the address that the client has met. -/
theorem meets_issue {type : TokenType} {relatesTo recipient : Option Address} {partner : Option Secret} {Q : Store → Prop}
    {next : Secret → Program Op Reply} (hQ : verifiable type = true → ∀ s, Q s → Met c u recipient s)
    (hnext : ∀ x, binding.Meets (accounts config) c (next x) fun _ => True) :
    binding.Meets (accounts config) c
      (.step (.issueOneTimeToken u type relatesTo partner) fun x => sendMail u x recipient (next x)) Q := by
  intro s chance r s' hI hQs hok hexec
  have hbound : Bound c (.issueOneTimeToken u type relatesTo partner) s := hok.2
  cases hexec
  have hu : verifiable type = true → u < s.nextUser := by
    intro hver
    obtain ⟨y, hy, -⟩ := hQ hver s hQs
    exact hI.seen c u y hy
  obtain ⟨hinv, hG⟩ := issue_keeps (c := c) hI hok.1 relatesTo partner hu
  refine ⟨hinv, hG, _, sent_stable, ⟨_, origin_issued.trans (if_pos rfl), fun hver => ?_⟩, meets_sendMail config c (hnext _)⟩
  obtain ⟨y, hy, hto⟩ := hQ hver s hQs
  exact (hbound hver y hy).trans hto

theorem meets_sendConfirmation {recipient : Option Address} :
    binding.Meets (accounts config) c (sendConfirmation u recipient) (Met c u recipient) :=
  meets_issue config c (fun _ _ => id) fun _ => meets_answer config c _ _

theorem meets_findUserByEmail {email : Address} {next : Option (UserId × User) → Program Op Reply} {Q : Store → Prop}
    (hnone : binding.Meets (accounts config) c (next none) fun _ => True)
    (hsome : ∀ v y, y.email = some email → binding.Meets (accounts config) c (next (some (v, y))) (Met c v y.email)) :
    binding.Meets (accounts config) c (.step (.findUserByEmail email) next) Q := by
  intro s chance r s' hI _ hok hexec
  obtain ⟨hinv, hG⟩ := keeps_statement c chance (.findUserByEmail email) s r s' rfl hI hok hexec
  cases hexec
  cases hfound : s.findUserByEmail email with
  | none =>
      simp only [hfound] at hinv hG
      exact ⟨hinv, hG, _, Discipline.stable_true, trivial, hnone⟩
  | some found =>
      obtain ⟨v, y⟩ := found
      obtain ⟨huser, -, hemail⟩ := findUserByEmail_some hfound
      simp only [hfound] at hinv hG
      refine ⟨hinv, hG, _, met_stable, ⟨y, ?_, rfl⟩, hsome v y hemail⟩
      simp [Store.meet, huser]

theorem meets_signup (email : Address) (password : Password) :
    binding.Meets (accounts config) c (signup config email password) fun _ => True := by
  intro s chance r s' hI _ hok hexec
  obtain ⟨hinv, hG⟩ := keeps_statement c chance (.createUser email (some password) config.autoconfirm) s r s' rfl hI hok
    hexec
  simp only [accounts, exec] at hexec
  split at hexec <;> cases hexec
  · refine ⟨hinv, hG, _, Discipline.stable_true, trivial, ?_⟩
    apply meets_findUserByEmail config c
    · exact meets_answer config c _ _
    · intro v y _
      dsimp only
      split
      · exact meets_sendConfirmation config c
      · exact meets_answer config c _ _
  · have hcreated : Met c s.nextUser (some email)
        ((s.createUser email (some password) config.autoconfirm).meet c s.nextUser) :=
      ⟨⟨some email, some ⟨password, false⟩, if config.autoconfirm then some s.now else none, none, none⟩,
        by simp [Store.meet, Store.createUser], rfl⟩
    refine ⟨hinv, hG, _, met_stable, hcreated, ?_⟩
    dsimp only
    split
    · refine meets_only config c (show (issueSession _ (.password _)).Only calm from ⟨rfl, fun _ => ⟨rfl, fun _ => trivial⟩⟩) _
    · exact meets_sendConfirmation config c

theorem meets_recover (email : Address) : binding.Meets (accounts config) c (recover email) fun _ => True := by
  apply meets_findUserByEmail config c
  · exact meets_answer config c _ _
  · intro v y hy
    exact meets_issue config c (fun _ _ => hy ▸ id) fun _ => meets_answer config c _ _

theorem meets_resend (email : Address) : binding.Meets (accounts config) c (resend email) fun _ => True := by
  apply meets_findUserByEmail config c
  · exact meets_answer config c _ _
  · intro v y _
    dsimp only
    split
    · exact meets_answer config c _ _
    · exact meets_sendConfirmation config c

theorem meets_doVerify {type : TokenType} (hver : verifiable type = true) (x : Secret) :
    binding.Meets (accounts config) c (doVerify type x) fun _ => True := by
  intro s chance r s' hI _ hok hexec
  simp only [accounts, exec] at hexec
  split at hexec <;> cases hexec
  · obtain ⟨hinv, hG⟩ := (Plain.refl (c := c) hI).keeps hI hok.1
    exact ⟨hinv, hG, _, Discipline.stable_true, trivial, meets_answer config c _ _⟩
  next v hspent =>
    have hv := consumeOneTimeToken_lt hspent
    obtain ⟨hpresent, t, ht, rfl, hunused, hx⟩ := consumeOneTimeToken_some hspent
    obtain ⟨y, hy, -⟩ := Option.any_eq_true _ _ |>.mp hpresent
    obtain ⟨a, hown⟩ := hok.1.origin v type t ht
    have hunspent := (hok.1.spender v type t ht).mp hunused
    obtain ⟨hinv, hG⟩ := spend_keeps (c := c) hI hok.1 ht hunused hx
    obtain ⟨hinv', hG'⟩ := ((Plain.refl (c := c) hinv).meet hv).keeps hinv (hok.1.spend c ht hunused)
    have hholding : Holding c v t.secret ((s.spend c v type t.secret).meet c v) := by
      have hnone : openings t.secret ((s.spend c v type t.secret).meet c v).history = openings t.secret s.history := rfl
      refine ⟨spender_consumed.trans (if_pos rfl), hnone.trans (openings_unspent hI.proven hok.1.lawful hunspent), _, y,
        hown, hver, ?_, ?_⟩
      · simp [Store.meet, Store.spend, Store.setToken, hy]
      · have := hI.address v type t _ ht hver hunused hx hown
        rwa [Store.email, hy] at this
    refine ⟨hinv', ⟨hG.issued, hG.spent, hG.opened, fun d hd => (hG'.seen d hd).trans (hG.seen d hd)⟩, _, holding_stable,
      hholding, ?_⟩
    generalize t.secret = x at *
    intro s chance user s' hI hQ hok hexec
    obtain ⟨hinv, hG⟩ := keeps_statement c chance (.findUserById v) s user s' rfl hI hok hexec
    cases hexec
    refine ⟨hinv, hG, _, holding_stable, hQ, ?_⟩
    cases s.findUserById v with
    | none => exact meets_answer config c _ _
    | some user =>
        intro s chance r s' hI hQ hok hexec
        obtain ⟨hinv, hG, hQ'⟩ := confirm_keeps hI hok.1 hQ hok.2
        cases hexec
        refine ⟨hinv, hG, _, holding_stable, hQ', ?_⟩
        intro s chance r s' hI hQ hok hexec
        obtain ⟨hinv, hG⟩ := open_keeps hI hok.1 hQ hok.2
        cases hexec
        exact ⟨hinv, hG, _, Discipline.stable_true, trivial, meets_answer config c _ _⟩

theorem meets_putEmail (bearer : Bearer) (user : User) (email : Option Address) (a : Answer) (Q : Store → Prop) :
    binding.Meets (accounts config) c (putEmail config bearer user email a) Q := by
  unfold putEmail
  split
  · exact meets_answer config c _ _
  split
  · exact meets_answer config c _ _
  · refine meets_issue config c nofun fun new => ?_
    split
    · exact meets_issue config c nofun fun _ => meets_answer config c _ _
    · exact meets_only config c (show Program.Only calm (.step (.clearCurrentToken _) fun _ => answer a) from
        ⟨rfl, fun _ => ⟨rfl, fun _ => trivial⟩⟩) _

/-- A statement that by itself keeps the discipline, before what is to follow from nothing. -/
theorem meets_calm {op : Op} {next : Reply op → Program Op Reply} {Q : Store → Prop} (hop : calm op)
    (hnext : ∀ r, binding.Meets (accounts config) c (next r) fun _ => True) :
    binding.Meets (accounts config) c (.step op next) Q := by
  intro s chance r s' hI _ hok hexec
  obtain ⟨hinv, hG⟩ := keeps_statement c chance op s r s' hop hI hok hexec
  exact ⟨hinv, hG, _, Discipline.stable_true, trivial, hnext r⟩

theorem meets_putUser (bearer : Bearer) (body : UserBody) :
    binding.Meets (accounts config) c (putUser config bearer body) fun _ => True := by
  refine meets_calm config c (by rfl) ?_
  rintro (_ | _)
  · exact meets_answer config c _ _
  refine meets_calm config c (by rfl) ?_
  rintro (_ | user)
  · exact meets_answer config c _ _
  dsimp only
  split
  · exact meets_putEmail config c _ _ _ _ _
  split
  · exact meets_answer config c _ _
  refine meets_calm config c (by rfl) ?_
  intro old
  refine meets_calm config c (by rfl) ?_
  intro _
  exact meets_putEmail config c _ _ _ _ _

theorem sound : binding.Sound (accounts config) where
  idle _ := Discipline.stable_true
  abort c s hI _ := ⟨hI, ⟨fun _ _ => id, fun _ _ => id, fun _ _ _ _ => rfl, fun _ _ => rfl⟩, trivial⟩
  program c q := by
    by_cases hq : ∀ op, uses q op → calm op
    · exact meets_only config c ((program_uses config q).mono hq) _
    · cases q with
      | signup email password => exact meets_signup config c email password
      | recover email => exact meets_recover config c email
      | resend email => exact meets_resend config c email
      | putUser bearer body => exact meets_putUser config c bearer body
      | verify type x =>
          change binding.Meets _ c (if verifiable type then doVerify type x else plain) _
          split
          next hver => exact meets_doVerify config c hver x
          next => exact meets_answer config c _ _
      | passwordGrant =>
          refine absurd (fun op hop => ?_) hq
          cases op with
          | openSession v via =>
              obtain ⟨p, rfl⟩ := hop
              rfl
          | issueOneTimeToken | mail | consumeOneTimeToken | markEmailConfirmed => exact hop.elim
          | consumeEitherToken => trivial
          | _ => rfl
      | verifyEmailChange | refresh | logout | deleteSession | adminCreate | adminUpdate | adminDelete | tick =>
          refine absurd (fun op hop => ?_) hq
          cases op with
          | openSession | issueOneTimeToken | mail | consumeOneTimeToken | markEmailConfirmed => exact hop.elim
          | consumeEitherToken => trivial
          | _ => rfl

end Programs

theorem inv_opened (rows : List User) : Inv (.opened rows) := by
  have hsilent : ∀ e ∈ (Store.opened rows).history, silent e = true := by
    intro e he
    obtain ⟨u, p, rfl, -⟩ := stored_opened he
    rfl
  refine ⟨?_, nofun, fun x o ho => ?_, fun _ _ _ _ ht => (nomatch ht)⟩
  · rw [← List.append_nil (Store.opened rows).history]
    exact proven_silents hsilent trivial
  · rw [← List.append_nil (Store.opened rows).history, origin_idles fun e he => idle_of_silent (hsilent e he)] at ho
    cases ho

/-- In a run where an address is changed only while its user has no link that can still be followed,
and not in the middle of a request that issues or follows one: every link opens at most one session, is the
newest of its kind when it is spent, and succeeds only while its user has the address that it was mailed to. -/
theorem link_proves {config : AccountFlows.Config} {rows : List User} {g : Interleaving.Config Client Store Op Reply}
    (h : (accounts config).Reachable (Protocol.Statements Bound) (.opened rows) g) :
    (∀ x, openings x g.store.history ≤ 1) ∧
    (∀ later past c u type x current pending,
      g.store.history = later ++ .consumed c u type x current pending :: past → latest u type past = some x) ∧
    ∀ x recipient was, .mailed x recipient was ∈ g.store.history →
      ∀ e ∈ g.store.history, ∀ current, Succeeds x current e → current = some recipient := by
  have hgrants : binding.Grants fun (g : Interleaving.Config Client Store Op Reply) (m : Move Client Chance Request) =>
      Protocol.Statements Bound g m ∧ Ledger g.store :=
    ⟨fun _ c choice op next hr hok => ⟨hok.2, hok.1 c choice op next rfl hr⟩, fun _ _ _ => trivial⟩
  have hledger := ledger_reachable h
  have hholds := (sound config).reachable hgrants (inv_opened rows) (fun _ => trivial)
    (h.along fun _ hg => ledger_reachable hg)
  have hproven := hholds.1.proven
  refine ⟨fun x => hproven.openings_le, fun later past c u type x current pending hh => ?_,
    fun x recipient was hmail e he current hs => ?_⟩
  · have hlawful := hledger.lawful
    rw [hh] at hlawful
    exact hlawful.suffix.2.2.1
  · obtain ⟨o, ho, hver, hcurrent⟩ := hproven.succeeds hledger.lawful he hs
    obtain ⟨o', ho', hto⟩ := hproven.mailed hledger.lawful hmail
    cases ho.symm.trans ho'
    exact hcurrent.symm.trans (hto hver)

section Examples

/-- A test of the statements that Bound is about. -/
def bound (c : Client) : Op → Store → Bool
  | .issueOneTimeToken u _ _ _, s | .markEmailConfirmed u _, s | .openSession u (.link _), s =>
      (s.seen c).all fun (v, x) => v ≠ u || s.email u = x.email
  | .applyEmailChange u email, s => s.email u = some email
  | .adminUpdateUser _ a, _ => a.email.isNone
  | _, _ => true

theorem bound_of (c : Client) (op : Op) (s : Store) (h : bound c op s = true) : Bound c op s := by
  have hmet : ∀ u, (s.seen c).all (fun (v, x) => v ≠ u || s.email u = x.email) = true → Unmoved c u s := by
    intro u hu x hx
    simpa [hx] using hu
  cases op with
  | issueOneTimeToken u type => exact fun _ => hmet u h
  | markEmailConfirmed u x => exact hmet u h
  | openSession u via =>
      cases via with
      | password p => trivial
      | link x => exact hmet u h
  | applyEmailChange u email => exact .inl (of_decide_eq_true h)
  | adminUpdateUser u a => exact .inl fun email he => by simp [bound, he] at h
  | _ => trivial

/-- A recovery link, and a click on it. -/
def recovered : List (Move Client Chance Request) :=
  [.arrive 1 (.recover (.mailbox 0)), .run 1 .usual, .run 1 .usual, .run 1 .usual, .run 1 .usual,
    .arrive 2 (.verify .recovery 0), .run 2 .usual, .run 2 .usual, .run 2 .usual, .run 2 .usual]

theorem link_proves_recovered : ∃ g, (accounts strict).Reachable (Protocol.Statements Bound) (.opened [alice]) g ∧
    openings 0 g.store.history ≤ 1 := by
  have h := Protocol.Reachable.start.replay (P := accounts strict) (s := .opened [alice])
    (Protocol.statements_watch bound_of) recovered rfl
  exact ⟨_, h, (link_proves h).1 0⟩

/-- An administrator changes the address between the mail and the click. -/
def moved : List (Move Client Chance Request) :=
  [.arrive 1 (.recover (.mailbox 0)), .run 1 .usual, .run 1 .usual, .run 1 .usual, .run 1 .usual,
    .arrive 2 (.adminUpdate 0 ⟨some (.mailbox 9), none, none, none, false⟩), .run 2 .usual, .run 2 .usual, .run 2 .usual,
    .arrive 1 (.verify .recovery 0), .run 1 .usual, .run 1 .usual, .run 1 .usual, .run 1 .usual]

theorem not_link_proves : ∃ g, (accounts strict).Reachable (fun _ _ => True) (.opened [alice]) g ∧
    .mailed 0 (.mailbox 0) (some (.mailbox 0)) ∈ g.store.history ∧
    .confirmed 0 0 (some (.mailbox 9)) ∈ g.store.history ∧
    .opened 0 0 (.link 0) (some (.mailbox 9)) ∈ g.store.history :=
  ⟨_, Protocol.Reachable.start.free moved rfl, by decide, by decide, by decide⟩

end Examples

end Corebase.VerificationLinks
