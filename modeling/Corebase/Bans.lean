import Corebase.AccountFlows

namespace Corebase.Bans

open Interleaving AccountStore AccountFlows

/-- The sessions of the user have been ended since the user was last barred. -/
def Ended (u : UserId) : List Event → Prop
  | [] => False
  | e :: past => e ≠ .barred u ∧ (e = .signedOut u ∨ Ended u past)

/-- The user is barred, and has been signed out for it. -/
def Ousted (u : UserId) (s : Store) : Prop := s.barred u = true ∧ Ended u s.history

/-- The user has not been barred and signed out since the client met the row. -/
def Fresh (c : Client) (u : UserId) (s : Store) : Prop :=
  ∀ x, s.seen c = some (u, x) → Ousted u s → x.barred s.now = true

/-- A link is spent only while its user is not barred, and a session is opened only if the user has
not been barred and signed out since the request met the row. -/
def Admitted (c : Client) : Op → Store → Prop
  | .consumeOneTimeToken type secret, s => ∀ u, s.consumeOneTimeToken type secret = some u → s.barred u = false
  | .openSession u _, s => Fresh c u s
  | _, _ => True

/-- The user has no session that is not revoked. -/
def Clear (u : UserId) (s : Store) : Prop := ∀ id x, s.sessions id = some x → x.userId = u → x.revoked = true

/-- What a ban with this number vouches for, as long as it is the latest one. -/
def Sealed (u : UserId) (ban : Nat) (s : Store) : Prop :=
  ban ≤ s.bans u ∧ (s.bans u = ban → s.barred u = true → Ended u s.history ∧ Clear u s)

/-- The ban that the user is under has been answered. -/
def Enforced (u : UserId) (s : Store) : Prop :=
  s.barred u = true ∧ ∃ x, .answered ⟨some (u, s.bans u), x⟩ ∈ s.history

/-- The event issues tokens for the user. -/
def Issues (u : UserId) : Event → Prop
  | .opened v .. | .refreshed v _ => v = u
  | _ => False

def Inv (s : Store) : Prop := ∀ u ban x, .answered ⟨some (u, ban), x⟩ ∈ s.history → Sealed u ban s

structure Guar (c : Client) (s s' : Store) : Prop where
  now : s.now ≤ s'.now
  seen : ∀ d, d ≠ c → s'.seen d = s.seen d
  barred : ∀ u, s'.bans u = s.bans u → s'.barred u = true → s.barred u = true
  sessions : ∀ id x, s'.sessions id = some x → x.revoked = false → s.sessions id = some x ∨ ¬ Ousted x.userId s
  history : ∃ es, s'.history = es ++ s.history ∧ ∀ e ∈ es, ∀ u, Issues u e → ¬ Ousted u s ∨ ¬ Clear u s

def bans : Discipline Client Store Op where
  Inv := Inv
  Guar := Guar
  Idle _ _ := True
  Allowed := Admitted

section Steps

variable {c : Client} {s s' : Store} {u : UserId} {ban : Nat}

theorem bans_append {es : List Event} (h : s'.history = es ++ s.history) :
    s'.bans u = es.countP (· = .barred u) + s.bans u := by
  rw [Store.bans, h, List.countP_append, Store.bans]

theorem Ended.append {past : List Event} (h : Ended u past) {es : List Event}
    (hes : es.countP (· = .barred u) = 0) : Ended u (es ++ past) := by
  induction es with
  | nil => exact h
  | cons e es ih =>
      rw [List.countP_cons] at hes
      have he : e ≠ .barred u := fun he => by simp [he] at hes
      exact ⟨he, .inr (ih (by omega))⟩

theorem Guar.bans (h : Guar c s s') : s.bans u ≤ s'.bans u := by
  obtain ⟨es, hes, -⟩ := h.history
  exact bans_append hes ▸ Nat.le_add_left _ _

theorem Sealed.step (h : Sealed u ban s) (hG : Guar c s s') : Sealed u ban s' := by
  refine ⟨Nat.le_trans h.1 hG.bans, fun hban hbarred => ?_⟩
  have hsame : s'.bans u = s.bans u := Nat.le_antisymm (hban ▸ h.1) hG.bans
  have hbefore := hG.barred u hsame hbarred
  obtain ⟨hended, hclear⟩ := h.2 (hsame ▸ hban) hbefore
  obtain ⟨es, hes, -⟩ := hG.history
  have hnone : es.countP (· = .barred u) = 0 := by have := bans_append (u := u) hes; omega
  refine ⟨hes ▸ hended.append hnone, fun id x hx hu => ?_⟩
  by_contra hlive
  rcases hG.sessions id x hx (by simpa using hlive) with hold | hnew
  · exact hlive (hclear id x hold hu)
  · exact hnew (hu.symm ▸ ⟨hbefore, hended⟩)

/-- The user has a row that is not barred, as the client has met it. -/
def Welcome (c : Client) (u : UserId) (s : Store) : Prop := ∃ x, s.seen c = some (u, x) ∧ x.barred s.now = false

theorem barred_mono {x : User} {t t' : Time} (h : t ≤ t') (hx : x.barred t' = true) : x.barred t = true := by
  simp only [User.barred, User.banned, Bool.or_eq_true, Option.any_eq_true, decide_eq_true_eq] at hx ⊢
  rcases hx with hx | ⟨until', hu, hlt⟩
  · exact .inl hx
  · exact .inr ⟨until', hu, Nat.lt_of_le_of_lt h hlt⟩

theorem welcome_stable (c : Client) : bans.Stable c (Welcome c u) := by
  rintro d hd s s' - hG ⟨x, hx, hwelcome⟩
  refine ⟨x, (hG.seen c hd.symm).trans hx, ?_⟩
  cases hlate : x.barred s'.now with
  | false => rfl
  | true => rw [← hwelcome, barred_mono hG.now hlate]

theorem Welcome.not_ousted (h : Welcome c u s) (hfresh : Fresh c u s) : ¬ Ousted u s := by
  obtain ⟨x, hx, hwelcome⟩ := h
  intro ho
  rw [hfresh x hx ho] at hwelcome
  cases hwelcome

/-- The invariant is kept where no ban is answered. -/
theorem Inv.step (hI : Inv s) (hG : Guar c s s') {es : List Event} (hes : s'.history = es ++ s.history)
    (hanswer : ∀ e ∈ es, ∀ b x, e ≠ .answered ⟨some b, x⟩) : Inv s' := by
  intro u ban x hmem
  rw [hes] at hmem
  rcases List.mem_append.mp hmem with hmem | hmem
  · exact absurd rfl (hanswer _ hmem (u, ban) x)
  · exact (hI u ban x hmem).step hG

/-- An event that neither issues tokens, nor answers about a ban. -/
def Harmless (e : Event) : Prop := (∀ u, ¬ Issues u e) ∧ ∀ b x, e ≠ .answered ⟨some b, x⟩

/-- A statement that bars nobody and issues nothing. -/
structure Mild (c : Client) (s s' : Store) : Prop where
  now : s.now ≤ s'.now
  seen : ∀ d, d ≠ c → s'.seen d = s.seen d
  barred : ∀ u, s'.barred u = true → s.barred u = true
  sessions : ∀ id x, s'.sessions id = some x → x.revoked = false → s.sessions id = some x
  history : ∃ es, s'.history = es ++ s.history ∧ ∀ e ∈ es, Harmless e

theorem Mild.keeps (hI : Inv s) (h : Mild c s s') : Inv s' ∧ Guar c s s' := by
  obtain ⟨es, hes, hharm⟩ := h.history
  have hG : Guar c s s' := ⟨h.now, h.seen, fun u _ => h.barred u, fun id x hx hl => .inl (h.sessions id x hx hl),
    es, hes, fun e he u hissue => absurd hissue ((hharm e he).1 u)⟩
  exact ⟨hI.step hG hes fun e he => (hharm e he).2, hG⟩

theorem Guar.mild {s'' : Store} (h : Guar c s s') (h' : Mild c s' s'') : Guar c s s'' := by
  obtain ⟨es, hes, hissues⟩ := h.history
  obtain ⟨es', hes', hharm⟩ := h'.history
  have hall : s''.history = (es' ++ es) ++ s.history := by rw [hes', hes, List.append_assoc]
  refine ⟨Nat.le_trans h.now h'.now, fun d hd => (h'.seen d hd).trans (h.seen d hd), fun u hu hb => ?_,
    fun id x hx hl => h.sessions id x (h'.sessions id x hx hl) hl, _, hall, fun e he => ?_⟩
  · refine h.barred u ?_ (h'.barred u hb)
    have := bans_append (u := u) hes
    have := bans_append (u := u) hes'
    omega
  · rcases List.mem_append.mp he with he | he
    · exact fun u hissue => absurd hissue ((hharm e he).1 u)
    · exact hissues e he

theorem Mild.refl (c : Client) (s : Store) : Mild c s s :=
  ⟨Nat.le_refl _, fun _ _ => rfl, fun _ => id, fun _ _ h _ => h, [], rfl, nofun⟩

theorem Mild.log (h : Mild c s s') {e : Event} (he : Harmless e) : Mild c s (s'.log e) := by
  obtain ⟨es, hes, hharm⟩ := h.history
  refine ⟨h.now, h.seen, h.barred, h.sessions, e :: es, congrArg (e :: ·) hes, fun e' he' => ?_⟩
  rcases List.mem_cons.mp he' with rfl | he'
  · exact he
  · exact hharm e' he'

theorem Mild.meet (h : Mild c s s') (v : UserId) : Mild c s (s'.meet c v) :=
  ⟨h.now, fun d hd => (meet_other s' c v hd).trans (h.seen d hd), h.barred, h.sessions, h.history⟩

/-- The tokens and the secrets matter to no ban. -/
theorem Mild.withTokens (h : Mild c s s') (tokens : UserId → TokenType → Option OneTimeToken) (nextSecret : Secret) :
    Mild c s { s' with tokens := tokens, nextSecret := nextSecret } :=
  ⟨h.now, h.seen, h.barred, h.sessions, h.history⟩

theorem mild_spend (v : UserId) (type : TokenType) (secret : Secret) : Mild c s (s.spend c v type secret) := by
  unfold Store.spend
  apply Mild.log
  · exact (Mild.refl c s).withTokens _ s.nextSecret
  · exact ⟨fun _ => id, nofun⟩

theorem barred_of {x : User} (hx : s.users u = some x) : s.barred u = x.barred s.now := by
  simp [Store.barred, hx]

/-- A row is kept as far as bans go. -/
theorem mild_updateUser (v : UserId) {f : User → User}
    (hf : ∀ x, (f x).bannedUntil = x.bannedUntil ∧ (f x).deletedAt = x.deletedAt) : Mild c s (s.updateUser v f) := by
  refine ⟨Nat.le_refl _, fun _ _ => rfl, fun u hu => ?_, fun _ _ h _ => h, [], rfl, nofun⟩
  by_cases hv : u = v
  · subst hv
    cases hx : s.users u with
    | none => simp [Store.barred, hx] at hu
    | some x =>
        have hbarred : (s.updateUser u f).barred u = (f x).barred s.now := by
          simp [Store.barred, hx]
          rfl
        rw [barred_of hx, ← hu, hbarred, User.barred, User.barred, User.banned, User.banned, (hf x).1, (hf x).2]
  · rwa [Store.barred, updateUser_other s v u hv] at hu

theorem mild_revoke (hit : SessionId → Session → Bool) : Mild c s (s.revokeSessions hit) :=
  ⟨Nat.le_refl _, fun _ _ => rfl, fun _ => id, fun _ _ hx hl => (revokeSessions_live hx hl).1, [], rfl, nofun⟩

theorem mild_createUser (email : Address) (password : Option Password) (confirmed : Bool) :
    Mild c s (s.createUser email password confirmed) := by
  have hcreated : ∀ x : User, x.bannedUntil = none → x.deletedAt = none →
      Mild c s { s.setUser s.nextUser x with nextUser := s.nextUser + 1 } := by
    refine fun x hb hd => ⟨Nat.le_refl _, fun _ _ => rfl, fun u hu => ?_, fun _ _ h _ => h, [], rfl, nofun⟩
    by_cases hv : u = s.nextUser
    · subst hv
      simp [Store.barred, User.barred, User.banned, hb, hd] at hu
    · rwa [Store.barred, show _ = s.users u from setUser_other s s.nextUser u hv] at hu
  cases password with
  | none => exact hcreated _ rfl rfl
  | some p => exact (hcreated _ rfl rfl).log ⟨fun _ => id, nofun⟩

theorem mild_logPassword (h : Mild c s s') (v : UserId) (o : Option Password) (p : Password) :
    Mild c s (s'.logPassword v o p) := by
  have hstored : Mild c s (s'.log (.stored v p)) := h.log ⟨fun _ => id, nofun⟩
  cases o with
  | none => exact hstored
  | some q => exact hstored.log ⟨fun _ => id, nofun⟩

theorem mild_updatePasswordHash (v : UserId) (p : Password) (change : Bool) :
    Mild c s (s.updatePasswordHash v p change) := by
  unfold Store.updatePasswordHash
  cases hx : s.users v with
  | none => exact .refl c s
  | some x =>
      have hset : s.setUser v (x.withPassword p) = s.updateUser v (·.withPassword p) := by
        simp [Store.setUser, Store.updateUser, hx]
      have hupdate : Mild c s (s.setUser v (x.withPassword p)) :=
        hset ▸ mild_updateUser v fun _ => ⟨rfl, rfl⟩
      cases change with
      | false => exact hupdate
      | true => exact mild_logPassword hupdate v _ p

/-- What bars a user, issues tokens or answers about a ban. -/
def loud : Op → Bool
  | .openSession .. | .rotateRefreshToken .. | .adminUpdateUser .. | .softDeleteUser _ => true
  | .answer a => a.barred.isSome
  | _ => false

theorem mild_exec {chance : Chance} {op : Op} {r : Reply op} (hop : loud op = false)
    (hexec : exec c chance op s = some (r, s')) : Mild c s s' := by
  cases op with
  | openSession | rotateRefreshToken | adminUpdateUser | softDeleteUser => cases hop
  | findUserByEmail =>
      cases hexec
      split
      · exact .refl c s
      · exact (Mild.refl c s).meet _
  | createUser email password confirmed =>
      simp only [exec] at hexec
      split at hexec <;> cases hexec
      · exact .refl c s
      · exact (mild_createUser email password confirmed).meet _
  | updatePasswordHash v p change =>
      cases hexec
      exact mild_updatePasswordHash v p change
  | markEmailConfirmed v secret =>
      cases hexec
      unfold Store.markEmailConfirmed
      apply Mild.log
      · exact mild_updateUser v fun _ => ⟨rfl, rfl⟩
      · exact ⟨fun _ => id, nofun⟩
  | findRefreshToken =>
      simp only [exec] at hexec
      split at hexec <;> cases hexec <;> exact .refl c s
  | findUserById | liveSession | idleExpired | siblingConsumed | clock =>
      cases hexec
      exact .refl c s
  | revokeUserSessions v scope current =>
      cases hexec
      unfold Store.revokeUserSessions
      split
      · exact mild_revoke _
      · exact (mild_revoke _).log ⟨fun _ => id, nofun⟩
  | revokeOwnSession | revokeSessionFamily =>
      cases hexec
      exact mild_revoke _
  | issueOneTimeToken v type =>
      cases hexec
      unfold Store.issueOneTimeToken
      apply Mild.log
      · exact (Mild.refl c s).withTokens _ _
      · exact ⟨fun _ => id, nofun⟩
  | mail =>
      cases chance <;> cases hexec
      · exact (Mild.refl c s).log ⟨fun _ => id, nofun⟩
      · exact .refl c s
      · exact .refl c s
  | consumeOneTimeToken =>
      simp only [exec] at hexec
      split at hexec <;> cases hexec
      · exact .refl c s
      · exact (mild_spend _ _ _).meet _
  | consumeEitherToken =>
      simp only [exec] at hexec
      split at hexec <;> cases hexec
      · exact mild_spend _ _ _
      · exact mild_spend _ _ _
      · exact .refl c s
  | applyEmailChange v email =>
      simp only [exec] at hexec
      split at hexec <;> cases hexec
      · unfold Store.applyEmailChange
        apply Mild.log
        · exact mild_updateUser v fun _ => ⟨rfl, rfl⟩
        · exact ⟨fun _ => id, nofun⟩
      · exact .refl c s
  | clearEmailChangeTokens | clearCurrentToken =>
      cases hexec
      exact (Mild.refl c s).withTokens _ s.nextSecret
  | tick ms =>
      cases hexec
      refine ⟨Nat.le_add_right _ _, fun _ _ => rfl, fun u hu => ?_, fun _ _ h _ => h, [], rfl, nofun⟩
      obtain ⟨x, hx, hb⟩ := Option.any_eq_true _ _ |>.mp hu
      exact Option.any_eq_true _ _ |>.mpr ⟨x, hx, barred_mono (Nat.le_add_right _ _) hb⟩
  | answer a =>
      cases hexec
      refine (Mild.refl c s).log ⟨fun _ => id, fun b x he => ?_⟩
      cases he
      cases hop

theorem openSession_keeps (hI : Inv s) {via : Via} (hfresh : Fresh c u s) (hwelcome : Welcome c u s) :
    Inv (s.openSession u via) ∧ Guar c s (s.openSession u via) := by
  have hnot := hwelcome.not_ousted hfresh
  have hG : Guar c s (s.openSession u via) := by
    refine ⟨Nat.le_refl _, fun _ _ => rfl, fun _ _ => id, fun id x hx _ => ?_, [_], rfl, fun e he v hissue => .inl ?_⟩
    · change Function.update s.sessions s.nextSession _ id = _ at hx
      by_cases hid : id = s.nextSession
      · subst hid
        rw [Function.update_self] at hx
        cases hx
        exact .inr hnot
      · rw [Function.update_of_ne hid] at hx
        exact .inl hx
    · cases List.mem_singleton.mp he
      cases hissue
      exact hnot
  exact ⟨hI.step hG (List.singleton_append ..).symm fun e he => by cases List.mem_singleton.mp he; nofun, hG⟩

theorem rotate_keeps (hI : Inv s) {chance : Chance} {id : SessionId} {r : Rotation}
    (hexec : exec c chance (.rotateRefreshToken u id) s = some (r, s')) : Inv s' ∧ Guar c s s' := by
  have hsame := (Mild.refl c s).keeps hI
  cases chance with
  | other | third =>
      cases hexec
      exact hsame
  | usual =>
      simp only [exec] at hexec
      split at hexec <;> cases hexec
      next hlive =>
        have hG : Guar c s (s.log (.refreshed u id)) := by
          refine ⟨Nat.le_refl _, fun _ _ => rfl, fun _ _ h => h, fun _ _ hx _ => .inl hx, [_], rfl, fun e he v hissue => ?_⟩
          cases List.mem_singleton.mp he
          cases hissue
          obtain ⟨x, hx, hmine⟩ := Option.any_eq_true _ _ |>.mp hlive
          simp only [Bool.and_eq_true, decide_eq_true_eq, Bool.not_eq_true'] at hmine
          exact .inr fun hclear => by simpa [hmine.2] using hclear id x hx hmine.1
        exact ⟨hI.step hG (List.singleton_append ..).symm fun e he => by cases List.mem_singleton.mp he; nofun, hG⟩
      next => exact hsame

/-- A user whose row may be barred now, with a log of it. -/
theorem logBar_keeps (hI : Inv s) (v : UserId) (es : List Event) (hhistory : s'.history = es ++ s.history)
    (hharm : ∀ e ∈ es, Harmless e) (hnow : s'.now = s.now) (hseen : s'.seen = s.seen)
    (hother : ∀ w, w ≠ v → s'.users w = s.users w)
    (hsessions : ∀ id x, s'.sessions id = some x → x.revoked = false → s.sessions id = some x) :
    Inv (s'.logBar v (s.barred v)) ∧ Guar c s (s'.logBar v (s.barred v)) := by
  have hothers : ∀ w, w ≠ v → s'.barred w = s.barred w := by
    intro w hw
    rw [Store.barred, Store.barred, hother w hw, hnow]
  by_cases hnew : (!s.barred v && s'.barred v) = true
  · have hlog : s'.logBar v (s.barred v) = s'.log (.barred v) := if_pos hnew
    have hall : ∀ e ∈ .barred v :: es, Harmless e := by
      intro e he
      rcases List.mem_cons.mp he with rfl | he
      · exact ⟨fun _ => id, nofun⟩
      · exact hharm e he
    have hhist : (s'.log (.barred v)).history = (.barred v :: es) ++ s.history := congrArg (_ :: ·) hhistory
    have hG : Guar c s (s'.log (.barred v)) := by
      refine ⟨Nat.le_of_eq hnow.symm, fun d _ => congrFun hseen d, fun u hsame hu => ?_,
        fun id x hx hl => .inl (hsessions id x hx hl), _, hhist, fun e he u hissue => absurd hissue ((hall e he).1 u)⟩
      by_cases hv : u = v
      · subst hv
        have := bans_append (u := u) hhist
        simp only [List.countP_cons, decide_true, if_true] at this
        omega
      · exact hothers u hv ▸ hu
    rw [hlog]
    exact ⟨hI.step hG hhist fun e he => (hall e he).2, hG⟩
  · have hlog : s'.logBar v (s.barred v) = s' := if_neg hnew
    have hmild : Mild c s s' := by
      refine ⟨Nat.le_of_eq hnow.symm, fun d _ => congrFun hseen d, fun u hu => ?_, hsessions, es, hhistory, hharm⟩
      by_cases hv : u = v
      · subst hv
        simpa [hu] using hnew
      · exact hothers u hv ▸ hu
    rw [hlog]
    exact hmild.keeps hI

theorem logPassword_seen (v : UserId) (o : Option Password) (p : Password) : (s.logPassword v o p).seen = s.seen := by
  cases o <;> rfl

theorem updatePasswordHash_seen (v : UserId) (p : Password) (change : Bool) :
    (s.updatePasswordHash v p change).seen = s.seen := by
  unfold Store.updatePasswordHash
  split
  · rfl
  · cases change with
    | false => rfl
    | true => exact logPassword_seen ..

theorem adminUpdateUser_keeps (hI : Inv s) (v : UserId) (a : AdminUpdate) :
    Inv (s.adminUpdateUser v a) ∧ Guar c s (s.adminUpdateUser v a) := by
  unfold Store.adminUpdateUser
  cases a.password with
  | none =>
      exact logBar_keeps hI v [] rfl nofun rfl rfl (fun w hw => updateUser_other s v w hw) fun _ _ h _ => h
  | some p =>
      obtain ⟨es, hes, hharm⟩ := (mild_logPassword (Mild.refl c (s.updateUser v (a.apply s.now))) v (s.password v) p).history
      refine logBar_keeps hI v es hes hharm (by cases s.password v <;> rfl) (logPassword_seen ..)
        (fun w hw => ?_) fun _ _ h _ => ?_
      · rw [logPassword_users]
        exact updateUser_other s v w hw
      · rwa [logPassword_sessions] at h

theorem softDeleteUser_keeps (hI : Inv s) (v : UserId) :
    Inv (s.softDeleteUser v) ∧ Guar c s (s.softDeleteUser v) ∧ Sealed v ((s.softDeleteUser v).bans v) (s.softDeleteUser v) := by
  have hsessions : ∀ id x, (s.scrub v).sessions id = some x → x.revoked = false → s.sessions id = some x ∧ x.userId ≠ v := by
    intro id x hx hl
    simpa using @revokeSessions_live s (fun _ x => x.userId = v) id x hx hl
  obtain ⟨hinv, hG⟩ : Inv ((s.scrub v).logBar v (s.barred v)) ∧ Guar c s ((s.scrub v).logBar v (s.barred v)) :=
    logBar_keeps hI v [] rfl nofun rfl rfl (fun w hw => updateUser_other s v w hw)
      fun id x hx hl => (hsessions id x hx hl).1
  have hlog : Mild c ((s.scrub v).logBar v (s.barred v)) (s.softDeleteUser v) :=
    (Mild.refl c _).log ⟨fun _ => id, nofun⟩
  refine ⟨(hlog.keeps hinv).1, hG.mild hlog, Nat.le_refl _, fun _ _ => ⟨⟨nofun, .inl rfl⟩, fun id x hx hu => ?_⟩⟩
  by_contra hlive
  rw [Store.softDeleteUser, log_sessions, logBar_sessions] at hx
  exact (hsessions id x hx (by simpa using hlive)).2 hu

theorem Welcome.of_same (h : Welcome c u s) (hnow : s'.now = s.now) (hseen : s'.seen = s.seen) : Welcome c u s' := by
  obtain ⟨x, hx, hwelcome⟩ := h
  exact ⟨x, hseen ▸ hx, hnow ▸ hwelcome⟩

end Steps

section Programs

variable (config : Config) (c : Client) {u : UserId}

/-- A statement that opens no session and answers about no ban. -/
def calm : Op → Prop
  | .openSession .. => False
  | .answer a => a.barred = none
  | _ => True

theorem keeps_statement (chance : Chance) (op : Op) (s : Store) (r : Reply op) (s' : Store) (hop : calm op) (hI : Inv s)
    (hexec : exec c chance op s = some (r, s')) : Inv s' ∧ Guar c s s' := by
  by_cases hloud : loud op = false
  · exact (mild_exec hloud hexec).keeps hI
  cases op <;> try exact absurd rfl hloud
  case openSession => exact hop.elim
  case rotateRefreshToken => exact rotate_keeps hI hexec
  case adminUpdateUser v a =>
    have hsame := (Mild.refl c s).keeps hI
    simp only [exec] at hexec
    split at hexec <;> cases hexec
    · split
      · exact hsame
      · exact adminUpdateUser_keeps hI v a
    · exact hsame
  case softDeleteUser v =>
    simp only [exec] at hexec
    split at hexec <;> cases hexec
    · obtain ⟨hinv, hG, -⟩ := softDeleteUser_keeps (c := c) hI v
      exact ⟨hinv, hG⟩
    · exact (Mild.refl c s).keeps hI
  case answer a => exact absurd (congrArg Option.isSome hop) hloud

theorem meets_only {p : Program Op Reply} (hp : p.Only calm) (Q : Store → Prop) : bans.Meets (accounts config) c p Q :=
  Discipline.Meets.of_only hp (fun _ _ => trivial)
    (fun chance op s r s' hop hI _ hexec => keeps_statement c chance op s r s' hop hI hexec) Q

theorem meets_plain (Q : Store → Prop) : bans.Meets (accounts config) c plain Q :=
  meets_only config c (show plain.Only calm from ⟨rfl, fun _ => trivial⟩) Q

/-- A session is opened for a user whose row was not barred. -/
theorem meets_issueSession (via : Via) : bans.Meets (accounts config) c (issueSession u via) (Welcome c u) := by
  intro s chance r s' hI hQ hok hexec
  cases hexec
  obtain ⟨hinv, hG⟩ := openSession_keeps hI (show Fresh c u s from hok) hQ
  exact ⟨hinv, hG, _, Discipline.stable_true, trivial, meets_plain config c _⟩

theorem meets_answer {ban : Nat} {x : Option (UserId × Option Password × Option SessionId)} :
    bans.Meets (accounts config) c (answer ⟨some (u, ban), x⟩) (Sealed u ban) := by
  intro s chance r s' hI hQ _ hexec
  cases hexec
  have hG : Guar c s (s.log (.answered ⟨some (u, ban), x⟩)) :=
    ⟨Nat.le_refl _, fun _ _ => rfl, fun _ _ h => h, fun _ _ hx _ => .inl hx, [_], rfl, fun e he v hissue => by
      cases List.mem_singleton.mp he
      exact hissue.elim⟩
  refine ⟨fun v ban' x' hmem => ?_, hG, _, Discipline.stable_true, trivial, fun _ _ _ => trivial⟩
  rcases List.mem_cons.mp hmem with he | hmem
  · cases he
    exact hQ.step hG
  · exact (hI v ban' x' hmem).step hG

theorem meets_passwordGrant (email : Address) (password : Password) :
    bans.Meets (accounts config) c (passwordGrant config email password) fun _ => True := by
  intro s chance r s' hI _ _ hexec
  obtain ⟨hinv, hG⟩ := keeps_statement c chance (.findUserByEmail email) s r s' trivial hI hexec
  cases hfound : s.findUserByEmail email with
  | none =>
      obtain rfl : none = r := by cases hexec; exact hfound.symm
      exact ⟨hinv, hG, _, Discipline.stable_true, trivial, meets_plain config c _⟩
  | some found =>
      obtain ⟨v, user⟩ := found
      obtain ⟨rfl, rfl⟩ : some (v, user) = r ∧ s.meet c v = s' := by
        cases hexec
        simp [hfound]
      obtain ⟨huser, hlive, -⟩ := findUserByEmail_some hfound
      have hmet : bans.Stable c fun s => s.seen c = some (v, user) :=
        fun d hd s s' _ hG hs => (hG.seen c hd.symm).trans hs
      refine ⟨hinv, hG, _, hmet, by simp [Store.meet, huser], ?_⟩
      dsimp only
      split
      · exact meets_plain config c _
      split
      · exact meets_plain config c _
      intro s chance now s' hI hQ _ hexec
      cases hexec
      obtain ⟨hinv, hG⟩ := (Mild.refl c s).keeps hI
      by_cases hbanned : user.banned s.now = true
      · refine ⟨hinv, hG, _, Discipline.stable_true, trivial, ?_⟩
        simp only [hbanned, if_true]
        exact meets_plain config c _
      · have hwelcome : Welcome c v s := ⟨user, hQ, by simp [User.barred, hlive, hbanned]⟩
        refine ⟨hinv, hG, _, welcome_stable c, hwelcome, ?_⟩
        dsimp only
        rw [if_neg hbanned]
        split
        · exact meets_plain config c _
        split
        · intro s chance r s' hI hQ _ hexec
          obtain ⟨hinv, hG⟩ := keeps_statement c chance (.updatePasswordHash v password false) s r s' trivial hI hexec
          refine ⟨hinv, hG, _, welcome_stable c, ?_, meets_issueSession config c _⟩
          cases hexec
          exact hQ.of_same (by unfold Store.updatePasswordHash; split <;> rfl) (updatePasswordHash_seen ..)
        · exact meets_issueSession config c _

theorem meets_sendConfirmation (v : UserId) (recipient : Option Address) (Q : Store → Prop) :
    bans.Meets (accounts config) c (sendConfirmation v recipient) Q := by
  refine meets_only config c (show (sendConfirmation v recipient).Only calm from ⟨trivial, fun _ => ?_⟩) Q
  exact only_sendMail (fun _ => trivial) ⟨rfl, fun _ => trivial⟩

theorem meets_signup (email : Address) (password : Password) :
    bans.Meets (accounts config) c (signup config email password) fun _ => True := by
  intro s chance r s' hI _ _ hexec
  obtain ⟨hinv, hG⟩ := keeps_statement c chance (.createUser email (some password) config.autoconfirm) s r s' trivial hI
    hexec
  simp only [accounts, exec] at hexec
  split at hexec <;> cases hexec
  · refine ⟨hinv, hG, _, Discipline.stable_true, trivial, ?_⟩
    intro s chance r s' hI _ _ hexec
    cases hexec
    have hexec : exec c chance (.findUserByEmail email) s = some (s.findUserByEmail email, _) := rfl
    obtain ⟨hinv, hG⟩ := (mild_exec rfl hexec).keeps hI
    refine ⟨hinv, hG, _, Discipline.stable_true, trivial, ?_⟩
    cases s.findUserByEmail email with
    | none => exact meets_plain config c _
    | some found =>
        dsimp only
        split
        · exact meets_sendConfirmation config c _ _ _
        · exact meets_plain config c _
  · have hcreated : Welcome c s.nextUser ((s.createUser email (some password) config.autoconfirm).meet c s.nextUser) :=
      ⟨⟨some email, some ⟨password, false⟩, if config.autoconfirm then some s.now else none, none, none⟩,
        by simp [Store.meet, Store.createUser], rfl⟩
    refine ⟨hinv, hG, _, welcome_stable c, hcreated, ?_⟩
    dsimp only
    split
    · exact meets_issueSession config c _
    · exact meets_sendConfirmation config c _ _ _

theorem meets_doVerify (type : TokenType) (secret : Secret) :
    bans.Meets (accounts config) c (doVerify type secret) fun _ => True := by
  intro s chance r s' hI _ hok hexec
  obtain ⟨hinv, hG⟩ := keeps_statement c chance (.consumeOneTimeToken type secret) s r s' trivial hI hexec
  simp only [accounts, exec] at hexec
  split at hexec <;> cases hexec
  · exact ⟨hinv, hG, _, Discipline.stable_true, trivial, meets_plain config c _⟩
  next v hspent =>
    have hwelcome : Welcome c v ((s.spend c v type secret).meet c v) := by
      obtain ⟨x, hx, -⟩ := Option.any_eq_true _ _ |>.mp (consumeOneTimeToken_some hspent).1
      refine ⟨x, by simp [Store.meet, Store.spend, Store.setToken, hx], ?_⟩
      exact (barred_of hx).symm.trans ((show Admitted c (.consumeOneTimeToken type secret) s from hok) v hspent)
    refine ⟨hinv, hG, _, welcome_stable c, hwelcome, ?_⟩
    intro s chance user s' hI hQ _ hexec
    cases hexec
    obtain ⟨hinv, hG⟩ := (Mild.refl c s).keeps hI
    refine ⟨hinv, hG, _, welcome_stable c, hQ, ?_⟩
    cases s.findUserById v with
    | none => exact meets_plain config c _
    | some user =>
        intro s chance r s' hI hQ _ hexec
        obtain ⟨hinv, hG⟩ := keeps_statement c chance (.markEmailConfirmed v secret) s r s' trivial hI hexec
        refine ⟨hinv, hG, _, welcome_stable c, ?_, meets_issueSession config c _⟩
        cases hexec
        exact hQ.of_same rfl rfl

theorem meets_adminUpdate (v : UserId) (update : AdminUpdate) :
    bans.Meets (accounts config) c (adminUpdate v update) fun _ => True := by
  intro s chance r s' hI _ _ hexec
  obtain ⟨hinv, hG⟩ := keeps_statement c chance (.adminUpdateUser v update) s r s' trivial hI hexec
  cases r with
  | none => exact ⟨hinv, hG, _, Discipline.stable_true, trivial, meets_plain config c _⟩
  | some reply =>
      obtain ⟨old, ban⟩ := reply
      have hban : ban ≤ s'.bans v := by
        simp only [accounts, exec] at hexec
        split at hexec <;> cases hexec
        exact Nat.le_refl _
      have hlasting : bans.Stable c fun s => ban ≤ s.bans v := fun _ _ _ _ _ hG h => Nat.le_trans h hG.bans
      refine ⟨hinv, hG, _, hlasting, hban, ?_⟩
      intro s chance now s' hI hQ _ hexec
      cases hexec
      obtain ⟨hinv, hG⟩ := (Mild.refl c s).keeps hI
      refine ⟨hinv, hG, _, hlasting, hQ, ?_⟩
      by_cases hbans : AdminUpdate.bans update s.now = true
      · simp only [adminAnswer, hbans, Bool.or_true, if_true]
        intro s chance r s' hI hQ _ hexec
        obtain ⟨hinv, hG⟩ := keeps_statement c chance (.revokeUserSessions v .global 0) s r s' trivial hI hexec
        cases hexec
        refine ⟨hinv, hG, Sealed v ban, fun _ _ _ _ _ hG h => h.step hG, ⟨?_, fun _ _ => ⟨⟨nofun, .inl rfl⟩, ?_⟩⟩,
          meets_answer config c⟩
        · exact Nat.le_trans hQ hG.bans
        · intro id x hx hu
          by_contra hlive
          simpa [Store.wanted, hu] using (revokeSessions_live hx (by simpa using hlive)).2
      · refine meets_only config c ?_ _
        simp only [adminAnswer, hbans]
        split
        · exact ⟨trivial, fun _ => ⟨rfl, fun _ => trivial⟩⟩
        · exact ⟨rfl, fun _ => trivial⟩

theorem meets_adminDelete (v : UserId) : bans.Meets (accounts config) c (adminDelete v) fun _ => True := by
  intro s chance r s' hI _ _ hexec
  simp only [accounts, exec] at hexec
  split at hexec <;> cases hexec
  · obtain ⟨hinv, hG, hsealed⟩ := softDeleteUser_keeps (c := c) hI v
    exact ⟨hinv, hG, Sealed v _, fun _ _ _ _ _ hG h => h.step hG, hsealed, meets_answer config c⟩
  · obtain ⟨hinv, hG⟩ := (Mild.refl c s).keeps hI
    exact ⟨hinv, hG, _, Discipline.stable_true, trivial, meets_plain config c _⟩

theorem sound : bans.Sound (accounts config) where
  idle _ := Discipline.stable_true
  abort c s hI _ := by
    obtain ⟨hinv, hG⟩ := (Mild.refl c s).keeps hI
    exact ⟨hinv, hG, trivial⟩
  program c q := by
    by_cases hq : ∀ op, uses q op → calm op
    · exact meets_only config c ((program_uses config q).mono hq) _
    · cases q with
      | signup email password => exact meets_signup config c email password
      | passwordGrant email password => exact meets_passwordGrant config c email password
      | verify type secret =>
          change bans.Meets _ c (if verifiable type then doVerify type secret else plain) _
          split
          · exact meets_doVerify config c type secret
          · exact meets_plain config c _
      | adminUpdate v update => exact meets_adminUpdate config c v update
      | adminDelete v => exact meets_adminDelete config c v
      | putUser bearer body =>
          refine absurd (fun op hop => ?_) hq
          cases op with
          | answer a => exact hop
          | openSession => exact hop
          | _ => trivial
      | verifyEmailChange | recover | resend | refresh | logout | deleteSession | adminCreate | tick =>
          refine absurd (fun op hop => ?_) hq
          cases op with
          | answer a => exact congrArg Answer.barred (show a = ⟨none, none⟩ from hop)
          | openSession => exact hop
          | _ => trivial

end Programs

theorem inv_opened (rows : List User) : Inv (.opened rows) := by
  intro u ban x hmem
  obtain ⟨v, p, he, -⟩ := stored_opened hmem
  cases he

theorem Enforced.ousted {u : UserId} {s : Store} (h : Enforced u s) (hI : Inv s) : Ousted u s ∧ Clear u s := by
  obtain ⟨hbarred, x, hx⟩ := h
  obtain ⟨hended, hclear⟩ := (hI u _ x hx).2 rfl hbarred
  exact ⟨⟨hbarred, hended⟩, hclear⟩

theorem grants : bans.Grants (@Protocol.Statements Client Store Op Chance Request Reply Admitted) :=
  Discipline.grants_statements fun _ _ => trivial

section Examples

/-- A test of the statements that Admitted is about. -/
def admitted (_ : Client) : Op → Store → Bool
  | .consumeOneTimeToken type secret, s => (s.consumeOneTimeToken type secret).all fun u => !s.barred u
  | .openSession u _, s => !s.barred u
  | _, _ => true

theorem admitted_of (c : Client) (op : Op) (s : Store) (h : admitted c op s = true) : Admitted c op s := by
  cases op with
  | consumeOneTimeToken type secret =>
      intro u hu
      simpa [admitted, hu] using h
  | openSession u via =>
      intro x _ ho
      simp [admitted, ho.1] at h
  | _ => trivial

/-- A login, and then a ban of the user. -/
def banned : List (Move Client Chance Request) :=
  [.arrive 1 (.passwordGrant (.mailbox 0) 1), .run 1 .usual, .run 1 .usual, .run 1 .usual, .run 1 .usual, .run 1 .usual,
    .arrive 2 (.adminUpdate 0 ⟨none, none, none, some (some 5000000), false⟩), .run 2 .usual, .run 2 .usual,
    .run 2 .usual, .run 2 .usual]

/-- A recovery link is followed after the ban of its user has been answered. -/
def followed : List (Move Client Chance Request) :=
  [.arrive 1 (.recover (.mailbox 0)), .run 1 .usual, .run 1 .usual, .run 1 .usual, .run 1 .usual,
    .arrive 2 (.adminUpdate 0 ⟨none, none, none, some (some 5000000), false⟩), .run 2 .usual, .run 2 .usual,
    .run 2 .usual, .run 2 .usual, .arrive 1 (.verify .recovery 0), .run 1 .usual, .run 1 .usual, .run 1 .usual]

end Examples

end Corebase.Bans
