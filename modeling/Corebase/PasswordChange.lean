import Corebase.AccountFlows

namespace Corebase.PasswordChange

open Interleaving AccountStore AccountFlows

/-- The password has been replaced, and the sessions of the user have been ended since. -/
def Superseded (u : UserId) (p : Password) : List Event → Prop
  | [] => False
  | e :: past => Superseded u p past ∨ e = .signedOut u ∧ .replaced u p ∈ past

/-- A new password is one that the user has not had, and a password that has been verified is
written again only while it is the stored one, and opens a session only until it is superseded. -/
def Timely (_ : Client) : Op → Store → Prop
  | .updatePasswordHash u p true, s => .stored u p ∉ s.history
  | .updatePasswordHash u p false, s => s.password u = some p
  | .adminUpdateUser u a, s => ∀ p, a.password = some p → .stored u p ∉ s.history
  | .openSession u (.password p), s => ¬ Superseded u p s.history
  | _, _ => True

/-- The password has been replaced. -/
structure Gone (u : UserId) (old : Password) (s : Store) : Prop where
  stored : .stored u old ∈ s.history
  replaced : .replaced u old ∈ s.history
  password : s.password u ≠ some old

/-- The replaced password is of no use, but for the session that is kept. -/
structure Settled (u : UserId) (old : Password) (keep : Option SessionId) (s : Store) : Prop where
  gone : Gone u old s
  superseded : Superseded u old s.history
  sessions : ∀ id x, s.sessions id = some x → x.userId = u → x.via = .password old → x.revoked = false → keep = some id

structure Inv (s : Store) : Prop where
  stored : ∀ u p, s.password u = some p → .stored u p ∈ s.history
  unborn : ∀ u, s.nextUser ≤ u → s.users u = none ∧ ∀ p, .stored u p ∉ s.history
  answered : ∀ b u old keep, .answered ⟨b, some (u, some old, keep)⟩ ∈ s.history → Settled u old keep s

structure Guar (s s' : Store) : Prop where
  history : ∃ es, s'.history = es ++ s.history
  password : ∀ u p, s'.password u = some p → s.password u = some p ∨ .stored u p ∉ s.history
  sessions : ∀ id x, s'.sessions id = some x → x.revoked = false → s.sessions id = some x ∨
    ∀ p, x.via = .password p → ¬ Superseded x.userId p s.history

def finality : Discipline Client Store Op where
  Inv := Inv
  Guar _ := Guar
  Idle _ _ := True
  Allowed := Timely

section Steps

variable {s s' : Store} {u : UserId} {old : Password} {keep : Option SessionId}

theorem Superseded.append {p : Password} {past : List Event} (h : Superseded u p past) (es : List Event) :
    Superseded u p (es ++ past) := by
  induction es with
  | nil => exact h
  | cons e es ih => exact .inl ih

theorem Guar.mem (h : Guar s s') {e : Event} (he : e ∈ s.history) : e ∈ s'.history := by
  obtain ⟨es, hes⟩ := h.history
  rw [hes]
  exact List.mem_append_right es he

theorem Guar.trans {s'' : Store} (h : Guar s s') (h' : Guar s' s'') : Guar s s'' := by
  obtain ⟨es, hes⟩ := h.history
  obtain ⟨es', hes'⟩ := h'.history
  refine ⟨⟨es' ++ es, by rw [hes', hes, List.append_assoc]⟩, fun u p hp => ?_, fun id x hx hl => ?_⟩
  · rcases h'.password u p hp with hp | hnew
    · exact h.password u p hp
    · exact .inr fun hmem => hnew (h.mem hmem)
  · rcases h'.sessions id x hx hl with hx | hnew
    · exact h.sessions id x hx hl
    · exact .inr fun p hp hsup => hnew p hp (hes ▸ hsup.append es)

theorem Gone.step (h : Gone u old s) (hG : Guar s s') : Gone u old s' := by
  refine ⟨hG.mem h.stored, hG.mem h.replaced, fun hp => ?_⟩
  exact (hG.password u old hp).elim h.password fun hnew => hnew h.stored

theorem Settled.step (h : Settled u old keep s) (hG : Guar s s') : Settled u old keep s' := by
  obtain ⟨es, hes⟩ := hG.history
  refine ⟨h.gone.step hG, hes ▸ h.superseded.append es, fun id x hx hu hvia hlive => ?_⟩
  rcases hG.sessions id x hx hlive with hold | hnew
  · exact h.sessions id x hold hu hvia hlive
  · exact absurd (hu ▸ h.superseded) (hnew old hvia)

/-- A statement that neither stores a password nor opens a session. -/
structure Quiet (s s' : Store) : Prop where
  nextUser : s'.nextUser = s.nextUser
  users : ∀ v, s.users v = none → s'.users v = none
  password : ∀ v, s'.password v = s.password v ∨ s'.password v = none
  sessions : ∀ id x, s'.sessions id = some x → x.revoked = false → s.sessions id = some x
  history : ∃ es, s'.history = es ++ s.history ∧ ∀ e ∈ es, (∀ v p, e ≠ .stored v p) ∧ ∀ b x, e ≠ .answered ⟨b, some x⟩

theorem Quiet.refl (s : Store) : Quiet s s := ⟨rfl, fun _ => id, fun _ => .inl rfl, fun _ _ h _ => h, [], rfl, nofun⟩

theorem Quiet.keeps (hI : Inv s) (h : Quiet s s') : Inv s' ∧ Guar s s' := by
  obtain ⟨es, hes, hquiet⟩ := h.history
  have hpassword : ∀ v p, s'.password v = some p → s.password v = some p := by
    intro v p hp
    rcases h.password v with he | he <;> rw [he] at hp
    · exact hp
    · cases hp
  have hG : Guar s s' :=
    ⟨⟨es, hes⟩, fun v p hp => .inl (hpassword v p hp), fun id x hx hl => .inl (h.sessions id x hx hl)⟩
  refine ⟨⟨fun v p hp => hG.mem (hI.stored v p (hpassword v p hp)), fun v hv => ?_, fun b v o k hmem => ?_⟩, hG⟩
  · obtain ⟨hnone, hnever⟩ := hI.unborn v (h.nextUser ▸ hv)
    refine ⟨h.users v hnone, fun p hp => ?_⟩
    rw [hes] at hp
    rcases List.mem_append.mp hp with hp | hp
    · exact (hquiet _ hp).1 v p rfl
    · exact hnever p hp
  · rw [hes] at hmem
    rcases List.mem_append.mp hmem with hmem | hmem
    · exact absurd rfl ((hquiet _ hmem).2 b _)
    · exact (hI.answered b v o k hmem).step hG

def Harmless (e : Event) : Prop := (∀ v p, e ≠ .stored v p) ∧ ∀ b x, e ≠ .answered ⟨b, some x⟩

/-- A statement that leaves the users and the sessions alone. -/
theorem quiet_of (hnext : s'.nextUser = s.nextUser) (husers : s'.users = s.users) (hsessions : s'.sessions = s.sessions)
    (hpast : s'.history = s.history ∨ ∃ e, s'.history = e :: s.history ∧ Harmless e) : Quiet s s' := by
  refine ⟨hnext, fun v hv => by rw [husers, hv], fun v => .inl ?_, fun id x hx _ => by rw [← hsessions, hx], ?_⟩
  · unfold Store.password
    rw [husers]
  · rcases hpast with hpast | ⟨e, hpast, he⟩
    · exact ⟨[], hpast, nofun⟩
    · exact ⟨[e], hpast, fun e' he' => List.mem_singleton.mp he' ▸ he⟩

theorem quiet_spend (c : Client) (v : UserId) (type : TokenType) (secret : Secret) :
    Quiet s (s.spend c v type secret) :=
  quiet_of rfl rfl rfl (.inr ⟨_, rfl, nofun, nofun⟩)

theorem quiet_revoke (hit : SessionId → Session → Bool) : Quiet s (s.revokeSessions hit) :=
  ⟨rfl, fun _ => id, fun _ => .inl rfl, fun _ _ hx hl => (revokeSessions_live hx hl).1, [], rfl, nofun⟩

theorem Quiet.log (h : Quiet s s') {e : Event} (he : Harmless e) : Quiet s (s'.log e) := by
  obtain ⟨es, hes, hquiet⟩ := h.history
  refine ⟨h.nextUser, h.users, h.password, h.sessions, e :: es, congrArg (e :: ·) hes, fun e' he' => ?_⟩
  rcases List.mem_cons.mp he' with rfl | he'
  · exact he
  · exact hquiet e' he'

theorem Quiet.trans {s'' : Store} (h : Quiet s s') (h' : Quiet s' s'') : Quiet s s'' := by
  obtain ⟨es, hes, hq⟩ := h.history
  obtain ⟨es', hes', hq'⟩ := h'.history
  refine ⟨h'.nextUser.trans h.nextUser, fun v hv => h'.users v (h.users v hv), fun v => ?_,
    fun id x hx hl => h.sessions id x (h'.sessions id x hx hl) hl, es' ++ es, by rw [hes', hes, List.append_assoc],
    fun e he => (List.mem_append.mp he).elim (hq' e) (hq e)⟩
  rcases h'.password v with hv | hv
  · rw [hv]
    exact h.password v
  · exact .inr hv

theorem Quiet.logBar (h : Quiet s s') (v : UserId) (before : Bool) : Quiet s (s'.logBar v before) := by
  rcases logBar_cases s' v before with he | he <;> rw [he]
  · exact h
  · exact h.log ⟨nofun, nofun⟩

/-- A password is kept or taken away. -/
theorem quiet_updateUser (v : UserId) {f : User → User}
    (hf : ∀ x, (f x).encryptedPassword = x.encryptedPassword ∨ (f x).encryptedPassword = none) :
    Quiet s (s.updateUser v f) := by
  refine ⟨rfl, fun w hw => updateUser_none s v w hw, fun w => ?_, fun _ _ h _ => h, [], rfl, nofun⟩
  by_cases hw : w = v
  · subst hw
    cases hx : s.users w with
    | none => simp [Store.password, hx]
    | some x =>
        rcases hf x with h | h
        · simp [Store.password, hx, h]
        · simp [Store.password, hx, h]
  · simp [Store.password, updateUser_other s v w hw]

theorem quiet_softDelete (v : UserId) : Quiet s (s.softDeleteUser v) := by
  have hscrub : Quiet s (s.updateUser v fun u => ⟨some (.tombstone v), none, none, u.bannedUntil, some s.now⟩) :=
    quiet_updateUser v fun _ => .inr rfl
  have hscrubbed : Quiet s (s.scrub v) := (hscrub.trans (quiet_revoke fun _ x => x.userId = v)).trans (quiet_of rfl rfl rfl (.inl rfl))
  exact (hscrubbed.logBar v _).log ⟨nofun, nofun⟩

/-- What stores a password, opens a session, or answers a change of password. -/
def loud : Op → Bool
  | .createUser .. | .updatePasswordHash .. | .adminUpdateUser .. | .openSession .. => true
  | .answer a => a.changed.isSome
  | _ => false

theorem quiet_exec {c : Client} {chance : Chance} {op : Op} {r : Reply op} (hop : loud op = false)
    (hexec : exec c chance op s = some (r, s')) : Quiet s s' := by
  cases op with
  | createUser | updatePasswordHash | adminUpdateUser | openSession => cases hop
  | findUserByEmail =>
      cases hexec
      split
      · exact .refl s
      · exact quiet_of rfl rfl rfl (.inl rfl)
  | markEmailConfirmed v secret =>
      cases hexec
      unfold Store.markEmailConfirmed
      apply Quiet.log
      · exact quiet_updateUser v fun _ => .inl rfl
      · exact ⟨nofun, nofun⟩
  | findRefreshToken =>
      simp only [exec] at hexec
      split at hexec <;> cases hexec <;> exact .refl s
  | findUserById | liveSession | idleExpired | siblingConsumed | clock =>
      cases hexec
      exact .refl s
  | revokeUserSessions v scope current =>
      cases hexec
      unfold Store.revokeUserSessions
      split
      · exact quiet_revoke _
      · exact (quiet_revoke _).log ⟨nofun, nofun⟩
  | revokeOwnSession | revokeSessionFamily =>
      cases hexec
      exact quiet_revoke _
  | rotateRefreshToken v id =>
      cases chance
      · simp only [exec] at hexec
        split at hexec <;> cases hexec
        · exact (Quiet.refl s).log ⟨nofun, nofun⟩
        · exact .refl s
      · cases hexec
        exact .refl s
      · cases hexec
        exact .refl s
  | issueOneTimeToken =>
      cases hexec
      exact quiet_of rfl rfl rfl (.inr ⟨_, rfl, nofun, nofun⟩)
  | mail =>
      cases chance <;> cases hexec
      · exact (Quiet.refl s).log ⟨nofun, nofun⟩
      · exact .refl s
      · exact .refl s
  | consumeOneTimeToken =>
      simp only [exec] at hexec
      split at hexec <;> cases hexec
      · exact .refl s
      · exact (quiet_spend c _ _ _).trans (quiet_of rfl rfl rfl (.inl rfl))
  | consumeEitherToken =>
      simp only [exec] at hexec
      split at hexec <;> cases hexec
      · exact quiet_spend c _ _ _
      · exact quiet_spend c _ _ _
      · exact .refl s
  | applyEmailChange v email =>
      simp only [exec] at hexec
      split at hexec <;> cases hexec
      · unfold Store.applyEmailChange
        apply Quiet.log
        · exact quiet_updateUser v fun _ => .inl rfl
        · exact ⟨nofun, nofun⟩
      · exact .refl s
  | clearEmailChangeTokens | clearCurrentToken | tick =>
      cases hexec
      exact quiet_of rfl rfl rfl (.inl rfl)
  | softDeleteUser v =>
      simp only [exec] at hexec
      split at hexec <;> cases hexec
      · exact quiet_softDelete v
      · exact .refl s
  | answer a =>
      cases hexec
      refine quiet_of rfl rfl rfl (.inr ⟨_, rfl, nofun, fun b x he => ?_⟩)
      cases he
      cases hop

/-- A statement that stores a password which the user has not had, or has already. -/
theorem inv_store (hI : Inv s) (v : UserId) (es : List Event) (husers : ∀ w, w ≠ v → s'.users w = s.users w)
    (hself : ∀ p, s'.password v = some p → .stored v p ∈ s'.history ∧ (s.password v = some p ∨ .stored v p ∉ s.history))
    (hnext : s.nextUser ≤ s'.nextUser ∧ v < s'.nextUser) (hsessions : s'.sessions = s.sessions)
    (hhistory : s'.history = es ++ s.history)
    (hes : ∀ e ∈ es, (∀ w q, e = .stored w q → w = v) ∧ ∀ b y, e ≠ .answered ⟨b, some y⟩) : Inv s' ∧ Guar s s' := by
  have hother : ∀ w, w ≠ v → s'.password w = s.password w := by
    intro w hw
    unfold Store.password
    rw [husers w hw]
  have hG : Guar s s' := by
    refine ⟨⟨es, hhistory⟩, fun w q hq => ?_, fun id y hy _ => .inl (hsessions ▸ hy)⟩
    by_cases hw : w = v
    · subst hw
      exact (hself q hq).2
    · exact .inl (hother w hw ▸ hq)
  refine ⟨⟨fun w q hq => ?_, fun w hw => ?_, fun b w o k hmem => ?_⟩, hG⟩
  · by_cases hw : w = v
    · subst hw
      exact (hself q hq).1
    · exact hG.mem (hI.stored w q (hother w hw ▸ hq))
  · have hne : w ≠ v := Nat.ne_of_gt (Nat.lt_of_lt_of_le hnext.2 hw)
    obtain ⟨hnone, hnever⟩ := hI.unborn w (Nat.le_trans hnext.1 hw)
    refine ⟨(husers w hne).trans hnone, fun q hq => ?_⟩
    rw [hhistory] at hq
    rcases List.mem_append.mp hq with hq | hq
    · exact hne ((hes _ hq).1 w q rfl)
    · exact hnever q hq
  · rw [hhistory] at hmem
    rcases List.mem_append.mp hmem with hmem | hmem
    · exact absurd rfl ((hes _ hmem).2 b _)
    · exact (hI.answered b w o k hmem).step hG

/-- The log of a password that takes the place of another one. -/
theorem logPassword_history (v : UserId) (o : Option Password) (p : Password) :
    ∃ es, (s.logPassword v o p).history = es ++ s.history ∧ .stored v p ∈ es ∧
      (∀ q, o = some q → .replaced v q ∈ es) ∧
      ∀ e ∈ es, (∀ w q, e = .stored w q → w = v) ∧ ∀ b y, e ≠ .answered ⟨b, some y⟩ := by
  cases o with
  | none =>
      refine ⟨[.stored v p], rfl, by simp, nofun, fun e he => ?_⟩
      cases List.mem_singleton.mp he
      exact ⟨fun w q h => by cases h; rfl, nofun⟩
  | some q =>
      refine ⟨[.replaced v q, .stored v p], rfl, by simp, fun q' h => by simp [Option.some.inj h], fun e he => ?_⟩
      rcases List.mem_cons.mp he with rfl | he
      · exact ⟨nofun, nofun⟩
      · cases List.mem_singleton.mp he
        exact ⟨fun w q h => by cases h; rfl, nofun⟩

theorem inv_createUser (hI : Inv s) (c : Client) (email : Address) (password : Option Password) (confirmed : Bool) :
    Inv ((s.createUser email password confirmed).meet c s.nextUser) ∧
      Guar s ((s.createUser email password confirmed).meet c s.nextUser) := by
  obtain ⟨hnone, hnever⟩ := hI.unborn s.nextUser (Nat.le_refl _)
  have hother : ∀ x w, w ≠ s.nextUser → (s.setUser s.nextUser x).users w = s.users w :=
    fun x w hw => setUser_other s s.nextUser w hw
  have hnext : s.nextUser ≤ s.nextUser + 1 ∧ s.nextUser < s.nextUser + 1 := ⟨Nat.le_succ _, Nat.lt_succ_self _⟩
  cases password with
  | none =>
      refine inv_store hI s.nextUser [] (hother _) (fun p hp => ?_) hnext rfl rfl (List.forall_mem_nil _)
      simp [Store.password, Store.createUser, Store.meet] at hp
  | some p =>
      refine inv_store hI s.nextUser [.stored s.nextUser p] (hother _) (fun q hq => ?_) hnext rfl rfl
        (fun e he => ?_)
      · obtain rfl : p = q := by simpa [Store.password, Store.createUser, Store.meet, Store.log] using hq
        exact ⟨List.mem_cons_self, .inr (hnever p)⟩
      · cases List.mem_singleton.mp he
        exact ⟨fun w q h => by cases h; rfl, fun b y h => by cases h⟩

theorem present_lt (hI : Inv s) {v : UserId} {x : User} (hx : s.users v = some x) : v < s.nextUser := by
  by_contra hle
  rw [(hI.unborn v (Nat.le_of_not_lt hle)).1] at hx
  cases hx

/-- A new password takes the place of the one of a user that is there. -/
theorem inv_change (hI : Inv s) {v : UserId} {p : Password} {x : User} (hx : s.users v = some x)
    (hp : .stored v p ∉ s.history) (husers : ∀ w, w ≠ v → s'.users w = s.users w) (hself : s'.password v = some p)
    (hnext : s'.nextUser = s.nextUser) (hsessions : s'.sessions = s.sessions)
    (hhistory : s'.history = (s.logPassword v (s.password v) p).history) :
    Inv s' ∧ Guar s s' ∧ ∀ old, s.password v = some old → Gone v old s' := by
  obtain ⟨es, hes, hstored, hreplaced, hall⟩ := logPassword_history (s := s) v (s.password v) p
  rw [hes] at hhistory
  have hmem : ∀ e ∈ es, e ∈ s'.history := fun e he => hhistory ▸ List.mem_append_left _ he
  obtain ⟨hinv, hG⟩ := inv_store hI v es husers (fun q hq => by
    cases hself.symm.trans hq
    exact ⟨hmem _ hstored, .inr hp⟩) ⟨Nat.le_of_eq hnext.symm, hnext ▸ present_lt hI hx⟩ hsessions hhistory hall
  refine ⟨hinv, hG, fun old hold => ⟨hG.mem (hI.stored v old hold), hmem _ (hreplaced old hold), fun h => ?_⟩⟩
  cases hself.symm.trans h
  exact hp (hI.stored v p hold)

theorem inv_updatePasswordHash (hI : Inv s) {c : Client} {v : UserId} {p : Password} {change : Bool}
    (hok : Timely c (.updatePasswordHash v p change) s) :
    Inv (s.updatePasswordHash v p change) ∧ Guar s (s.updatePasswordHash v p change) ∧
      (change = true → ∀ old, s.password v = some old → Gone v old (s.updatePasswordHash v p change)) := by
  unfold Store.updatePasswordHash
  cases hx : s.users v with
  | none => exact ⟨hI, ((Quiet.refl s).keeps hI).2, fun _ old ho => by simp [Store.password, hx] at ho⟩
  | some x =>
      have hother : ∀ w, w ≠ v → (s.setUser v (x.withPassword p)).users w = s.users w :=
        fun w hw => setUser_other s v w hw
      have hself : (s.setUser v (x.withPassword p)).password v = some p := by
        simp [Store.password, User.withPassword]
      cases change with
      | false =>
          have hold : ∀ q, (s.setUser v (x.withPassword p)).password v = some q →
              .stored v q ∈ s.history ∧ (s.password v = some q ∨ .stored v q ∉ s.history) := by
            intro q hq
            cases hself.symm.trans hq
            exact ⟨hI.stored v p hok, .inl hok⟩
          obtain ⟨hinv, hG⟩ := inv_store hI v [] hother hold ⟨Nat.le_refl _, present_lt hI hx⟩ rfl rfl (List.forall_mem_nil _)
          exact ⟨hinv, hG, fun h => by cases h⟩
      | true =>
          have hlog : ((s.setUser v (x.withPassword p)).logPassword v (s.password v) p).password v = some p := by
            rw [Store.password, logPassword_users]
            exact hself
          obtain ⟨hinv, hG, hgone⟩ := inv_change hI hx hok (fun w hw => by rw [logPassword_users, hother w hw]) hlog
            (logPassword_nextUser ..) (logPassword_sessions ..) (by cases s.password v <;> rfl)
          exact ⟨hinv, hG, fun _ => hgone⟩

theorem inv_adminUpdateUser (hI : Inv s) {c : Client} {v : UserId} {a : AdminUpdate}
    (hok : Timely c (.adminUpdateUser v a) s) (hpresent : s.present v = true) :
    Inv (s.adminUpdateUser v a) ∧ Guar s (s.adminUpdateUser v a) ∧
      (a.password.isSome → ∀ old, s.password v = some old → Gone v old (s.adminUpdateUser v a)) := by
  obtain ⟨x, hx, -⟩ := Option.any_eq_true _ _ |>.mp hpresent
  unfold Store.adminUpdateUser
  cases hpw : a.password with
  | none =>
      have hupdate : Quiet s (s.updateUser v (a.apply s.now)) :=
        quiet_updateUser v fun y => .inl (by simp [AdminUpdate.apply, hpw])
      obtain ⟨hinv, hG⟩ := (hupdate.logBar v (s.barred v)).keeps hI
      exact ⟨hinv, hG, nofun⟩
  | some p =>
      have hself : ((s.updateUser v (a.apply s.now)).logPassword v (s.password v) p).password v = some p := by
        simp [Store.password, logPassword_users, hx, AdminUpdate.apply, hpw]
      obtain ⟨hinv, hG, hgone⟩ := inv_change hI hx (hok p hpw)
        (fun w hw => by rw [logPassword_users]; exact updateUser_other s v w hw) hself
        (logPassword_nextUser ..) (logPassword_sessions ..) (by cases s.password v <;> rfl)
      obtain ⟨hinv', hG'⟩ := ((Quiet.refl _).logBar v (s.barred v)).keeps hinv
      exact ⟨hinv', hG.trans hG', fun _ old hold => (hgone old hold).step hG'⟩

theorem inv_openSession (hI : Inv s) {c : Client} {v : UserId} {via : Via} (hok : Timely c (.openSession v via) s) :
    Inv (s.openSession v via) ∧ Guar s (s.openSession v via) := by
  have hG : Guar s (s.openSession v via) := by
    refine ⟨⟨[_], rfl⟩, fun _ _ => .inl, fun id x hx hl => ?_⟩
    change Function.update s.sessions s.nextSession _ id = _ at hx
    by_cases hid : id = s.nextSession
    · subst hid
      rw [Function.update_self] at hx
      cases hx
      refine .inr fun p hp => ?_
      cases hp
      exact hok
    · rw [Function.update_of_ne hid] at hx
      exact .inl hx
  refine ⟨⟨fun u p hp => hG.mem (hI.stored u p hp), fun u hu => ?_, fun b u o k hmem => ?_⟩, hG⟩
  · obtain ⟨hnone, hnever⟩ := hI.unborn u hu
    exact ⟨hnone, fun p hp => hnever p ((List.mem_cons.mp hp).resolve_left nofun)⟩
  · exact (hI.answered b u o k ((List.mem_cons.mp hmem).resolve_left nofun)).step hG

theorem inv_answer (hI : Inv s) {a : Answer}
    (ha : ∀ u o k, a.changed = some (u, some o, k) → Settled u o k s) : Inv (s.log (.answered a)) ∧ Guar s (s.log (.answered a)) := by
  have hG : Guar s (s.log (.answered a)) := ⟨⟨[_], rfl⟩, fun _ _ => .inl, fun _ _ hx _ => .inl hx⟩
  refine ⟨⟨fun u p hp => hG.mem (hI.stored u p hp), fun u hu => ?_, fun b u o k hmem => ?_⟩, hG⟩
  · obtain ⟨hnone, hnever⟩ := hI.unborn u hu
    exact ⟨hnone, fun p hp => hnever p ((List.mem_cons.mp hp).resolve_left nofun)⟩
  · rcases List.mem_cons.mp hmem with he | hmem
    · cases he
      exact (ha u o k rfl).step hG
    · exact (hI.answered b u o k hmem).step hG

/-- After the sessions have been ended nothing is left of the password that has been replaced. -/
theorem settled_revoke (h : Gone u old s) (scope : Scope) (current : SessionId) (hscope : scope ≠ .local) :
    Settled u old (if scope = .others then some current else none) (s.revokeUserSessions u scope current) := by
  have hG : (s.revokeUserSessions u scope current).history = .signedOut u :: s.history := by
    rw [Store.revokeUserSessions, if_neg hscope]
    rfl
  refine ⟨⟨hG ▸ .tail _ h.stored, hG ▸ .tail _ h.replaced, ?_⟩, hG ▸ .inr ⟨rfl, h.replaced⟩, fun id x hx hu hvia hl => ?_⟩
  · rw [Store.revokeUserSessions, if_neg hscope]
    exact h.password
  · rw [Store.revokeUserSessions, if_neg hscope] at hx
    obtain ⟨-, hhit⟩ := revokeSessions_live (s := s) hx hl
    cases scope with
    | «local» => exact absurd rfl hscope
    | global => simp [Store.wanted, hu] at hhit
    | others => simp_all [Store.wanted]

theorem exec_adminUpdateUser (hI : Inv s) {c : Client} {chance : Chance} {v : UserId} {a : AdminUpdate}
    {r : Option (Option Password × Nat)} (hok : Timely c (.adminUpdateUser v a) s)
    (hexec : exec c chance (.adminUpdateUser v a) s = some (r, s')) :
    Inv s' ∧ Guar s s' ∧ (r = none ∨ ∃ ban, r = some (s.password v, ban) ∧
      (a.password.isSome → ∀ old, s.password v = some old → Gone v old s')) := by
  obtain ⟨hinv, hG⟩ := (Quiet.refl s).keeps hI
  simp only [exec] at hexec
  split at hexec <;> cases hexec
  next hpresent =>
    split
    next hnothing =>
      refine ⟨hinv, hG, .inr ⟨_, rfl, fun hpw => ?_⟩⟩
      simp [AdminUpdate.setsNothing, Option.isSome_iff_ne_none.mp hpw] at hnothing
    next =>
      obtain ⟨hinv, hG, hgone⟩ := inv_adminUpdateUser hI hok (Bool.and_eq_true _ _ |>.mp hpresent).1
      exact ⟨hinv, hG, .inr ⟨_, rfl, hgone⟩⟩
  next => exact ⟨hinv, hG, .inl rfl⟩

end Steps

section Programs

variable (config : Config) (c : Client)

/-- A statement that is no answer about a change of password. -/
def noChange : Op → Prop
  | .answer a => a.changed = none
  | _ => True

theorem keeps_statement (chance : Chance) (op : Op) (s : Store) (r : Reply op) (s' : Store) (hop : noChange op)
    (hI : Inv s) (hok : Timely c op s) (hexec : exec c chance op s = some (r, s')) : Inv s' ∧ Guar s s' := by
  by_cases hloud : loud op = false
  · exact (quiet_exec hloud hexec).keeps hI
  cases op <;> try exact absurd rfl hloud
  case createUser email password confirmed =>
    simp only [exec] at hexec
    split at hexec <;> cases hexec
    · exact (Quiet.refl s).keeps hI
    · exact inv_createUser hI c email password confirmed
  case updatePasswordHash v p change =>
    cases hexec
    obtain ⟨hinv, hG, -⟩ := inv_updatePasswordHash hI hok
    exact ⟨hinv, hG⟩
  case openSession v via =>
    cases hexec
    exact inv_openSession hI hok
  case adminUpdateUser v a =>
    obtain ⟨hinv, hG, -⟩ := exec_adminUpdateUser hI hok hexec
    exact ⟨hinv, hG⟩
  case answer a =>
    cases hexec
    exact inv_answer hI fun u o k ha => nomatch hop.symm.trans ha

theorem meets_only {p : Program Op Reply} (hp : p.Only noChange) (Q : Store → Prop) :
    finality.Meets (accounts config) c p Q :=
  Discipline.Meets.of_only hp (fun _ _ => trivial) (fun chance op s r s' => keeps_statement c chance op s r s') Q

/-- An answer is given from the assertion that what it says is so. -/
theorem meets_answer {a : Answer} (Q : Store → Prop)
    (ha : ∀ s, Q s → ∀ u o k, a.changed = some (u, some o, k) → Settled u o k s) :
    finality.Meets (accounts config) c (answer a) Q := by
  intro s chance r s' hI hQ _ hexec
  cases hexec
  obtain ⟨hinv, hG⟩ := inv_answer hI (ha s hQ)
  exact ⟨hinv, hG, _, Discipline.stable_true, trivial, fun _ _ _ => trivial⟩

/-- What the statements of all requests leave. -/
def Lasting (Q : Store → Prop) : Prop := ∀ s s', Guar s s' → Q s → Q s'

theorem Lasting.stable {Q : Store → Prop} (h : Lasting Q) : finality.Stable c Q :=
  fun _ _ s s' _ hG => h s s' hG

/-- A statement that is no answer about a change of password. -/
theorem meets_between {op : Op} {next : Reply op → Program Op Reply} {Q : Store → Prop} (hop : noChange op)
    (hQ : Lasting Q) (hnext : ∀ r, finality.Meets (accounts config) c (next r) Q) :
    finality.Meets (accounts config) c (.step op next) Q := by
  intro s chance r s' hI hQs hok hexec
  obtain ⟨hinv, hG⟩ := keeps_statement c chance op s r s' hop hI hok hexec
  exact ⟨hinv, hG, Q, hQ.stable c, hQ s s' hG hQs, hnext r⟩

theorem meets_sendMail {u : UserId} {secret : Secret} {recipient : Option Address} {next : Program Op Reply}
    {Q : Store → Prop} (hQ : Lasting Q) (hnext : finality.Meets (accounts config) c next Q) :
    finality.Meets (accounts config) c (sendMail u secret recipient next) Q := by
  cases recipient with
  | none => exact hnext
  | some recipient => exact meets_between config c trivial hQ fun _ => hnext

theorem meets_propose {u : UserId} {user : User} {newEmail : Address} {next : Program Op Reply} {Q : Store → Prop}
    (hQ : Lasting Q) (hnext : finality.Meets (accounts config) c next Q) :
    finality.Meets (accounts config) c (proposeEmailChange config u user newEmail next) Q := by
  refine meets_between config c trivial hQ ?_
  intro new
  apply meets_sendMail config c hQ
  split
  · refine meets_between config c trivial hQ ?_
    intro current
    exact meets_sendMail config c hQ hnext
  · exact meets_between config c trivial hQ fun _ => hnext

theorem meets_plain (Q : Store → Prop) : finality.Meets (accounts config) c plain Q :=
  meets_answer config c Q nofun

theorem meets_putEmail {bearer : Bearer} {user : User} {email : Option Address} {a : Answer} {Q : Store → Prop}
    (hQ : Lasting Q) (ha : ∀ s, Q s → ∀ u o k, a.changed = some (u, some o, k) → Settled u o k s) :
    finality.Meets (accounts config) c (putEmail config bearer user email a) Q := by
  unfold putEmail
  split
  · exact meets_answer config c Q ha
  split
  · exact meets_plain config c Q
  · exact meets_propose config c hQ (meets_answer config c Q ha)

theorem meets_putUser (bearer : Bearer) (body : UserBody) :
    finality.Meets (accounts config) c (putUser config bearer body) fun _ => True := by
  have htrue : Lasting fun _ => True := fun _ _ _ _ => trivial
  refine meets_between config c trivial htrue ?_
  rintro (_ | _)
  · exact meets_plain config c _
  refine meets_between config c trivial htrue ?_
  rintro (_ | user)
  · exact meets_plain config c _
  dsimp only
  split
  · exact meets_putEmail config c htrue nofun
  next password _ =>
    split
    · exact meets_plain config c _
    intro s chance old s' hI _ hok hexec
    obtain ⟨rfl, rfl⟩ : old = s.password bearer.userId ∧ s' = s.updatePasswordHash bearer.userId password true := by
      cases hexec
      exact ⟨rfl, rfl⟩
    obtain ⟨hinv, hG, hgone⟩ := inv_updatePasswordHash hI
      (show Timely c (.updatePasswordHash bearer.userId password true) s from hok)
    have hlasting : ∀ old, Lasting fun s => ∀ o, old = some o → Gone bearer.userId o s :=
      fun old s s' hG h o ho => (h o ho).step hG
    refine ⟨hinv, hG, _, (hlasting (s.password bearer.userId)).stable c, hgone rfl, ?_⟩
    generalize s.password bearer.userId = old
    intro s chance r s' hI hQ hok hexec
    obtain ⟨hinv, hG⟩ := keeps_statement c chance _ s r s' (show noChange _ from trivial) hI hok hexec
    have hsettled : Lasting fun s => ∀ o, old = some o → Settled bearer.userId o (some bearer.sessionId) s :=
      fun s s' hG h o ho => (h o ho).step hG
    refine ⟨hinv, hG, _, hsettled.stable c, fun o ho => ?_, meets_putEmail config c hsettled fun s h u o k ha => ?_⟩
    · cases hexec
      exact settled_revoke (hQ o ho) .others bearer.sessionId nofun
    · cases ha
      exact h o rfl

theorem meets_adminUpdate (u : UserId) (update : AdminUpdate) :
    finality.Meets (accounts config) c (adminUpdate u update) fun _ => True := by
  intro s chance r s' hI _ hok hexec
  obtain ⟨hinv, hG, hr⟩ := exec_adminUpdateUser hI hok (show exec c chance (.adminUpdateUser u update) s = _ from hexec)
  rcases hr with rfl | ⟨ban, rfl, hgone⟩
  · exact ⟨hinv, hG, _, Discipline.stable_true, trivial, meets_plain config c _⟩
  have hlasting : ∀ old, Lasting fun s => update.password.isSome → ∀ o, old = some o → Gone u o s :=
    fun old s s' hG h hpw o ho => (h hpw o ho).step hG
  refine ⟨hinv, hG, _, (hlasting (s.password u)).stable c, hgone, ?_⟩
  generalize s.password u = old
  refine meets_between config c trivial (hlasting old) ?_
  intro now
  split
  · intro s chance r s' hI hQ hok hexec
    obtain ⟨hinv, hG⟩ := keeps_statement c chance _ s r s' (show noChange _ from trivial) hI hok hexec
    have hsettled : Lasting fun s => update.password.isSome → ∀ o, old = some o → Settled u o none s :=
      fun s s' hG h hpw o ho => (h hpw o ho).step hG
    refine ⟨hinv, hG, _, hsettled.stable c, fun hpw o ho => ?_, meets_answer config c _ fun s h v o k ha => ?_⟩
    · cases hexec
      exact settled_revoke (hQ hpw o ho) .global 0 nofun
    · simp only [adminAnswer] at ha
      split at ha <;> cases ha
      exact h ‹_› o rfl
  next hno =>
    refine meets_answer config c _ fun s _ v o k ha => ?_
    simp only [adminAnswer] at ha
    split at ha <;> cases ha
    simp_all

theorem sound : finality.Sound (accounts config) where
  idle _ := Discipline.stable_true
  abort c s hI _ := by
    obtain ⟨hinv, hG⟩ := (Quiet.refl s).keeps hI
    exact ⟨hinv, hG, trivial⟩
  program c q := by
    by_cases hq : ∀ op, uses q op → noChange op
    · exact meets_only config c ((program_uses config q).mono hq) _
    · cases q with
      | putUser bearer body => exact meets_putUser config c bearer body
      | adminUpdate u update => exact meets_adminUpdate config c u update
      | signup | passwordGrant | verify | verifyEmailChange | recover | resend | refresh | logout | deleteSession
      | adminCreate | tick =>
          refine absurd (fun op hop => ?_) hq
          cases op with
          | answer a => exact congrArg Answer.changed (show a = ⟨none, none⟩ from hop)
          | _ => trivial
      | adminDelete u =>
          refine absurd (fun op hop => ?_) hq
          cases op with
          | answer a => exact hop
          | _ => trivial

end Programs

theorem inv_opened (rows : List User) : Inv (.opened rows) := by
  refine ⟨fun u p hp => ?_, fun u hu => ⟨List.getElem?_eq_none hu, fun p hp => ?_⟩, fun b u o k hmem => ?_⟩
  · obtain ⟨hash, hhash, rfl⟩ := Option.map_eq_some_iff.mp hp
    obtain ⟨x, hx, hpw⟩ := Option.bind_eq_some_iff.mp hhash
    refine List.mem_filterMap.mpr ⟨(x, u), ?_, by simp [hpw]⟩
    exact List.mem_iff_getElem?.mpr ⟨u, by simp [show rows[u]? = some x from hx]⟩
  · obtain ⟨v, q, he, hv⟩ := stored_opened hp
    cases he
    exact absurd hu (Nat.not_le_of_lt hv)
  · obtain ⟨v, q, he, -⟩ := stored_opened hmem
    cases he

/-- In a run where a verified password is written again only while it is stored, and opens a session
only until it is superseded, a password whose change has been answered is not stored again, and
no session that was opened with it is live but the one of the change. -/
theorem change_final {config : AccountFlows.Config} {rows : List User} {g : Interleaving.Config Client Store Op Reply}
    (h : (accounts config).Reachable (Protocol.Statements Timely) (.opened rows) g) {b : Option (UserId × Nat)} {u : UserId}
    {old : Password} {keep : Option SessionId} (ha : .answered ⟨b, some (u, some old, keep)⟩ ∈ g.store.history) :
    g.store.password u ≠ some old ∧ ∀ id x, g.store.sessions id = some x → x.userId = u →
      x.via = .password old → x.revoked = false → keep = some id := by
  have hholds := (sound config).reachable (Discipline.grants_statements fun _ _ => trivial) (inv_opened rows)
    (fun _ => trivial) h
  have hsettled := hholds.1.answered b u old keep ha
  exact ⟨hsettled.gone.password, hsettled.sessions⟩

section Examples

instance decidableSuperseded (u : UserId) (p : Password) : (past : List Event) → Decidable (Superseded u p past)
  | [] => inferInstanceAs (Decidable False)
  | e :: past =>
    have := decidableSuperseded u p past
    inferInstanceAs (Decidable (Superseded u p past ∨ e = .signedOut u ∧ .replaced u p ∈ past))

/-- A test of the statements that Timely is about. -/
def timely (_ : Client) : Op → Store → Bool
  | .updatePasswordHash u p true, s => .stored u p ∉ s.history
  | .updatePasswordHash u p false, s => s.password u = some p
  | .adminUpdateUser u a, s => a.password.all fun p => .stored u p ∉ s.history
  | .openSession u (.password p), s => ¬ Superseded u p s.history
  | _, _ => true

theorem timely_of (c : Client) (op : Op) (s : Store) (h : timely c op s = true) : Timely c op s := by
  cases op with
  | updatePasswordHash u p change =>
      cases change with
      | false => simpa [timely, Timely] using h
      | true => simpa [timely, Timely] using h
  | adminUpdateUser u a =>
      intro p hp
      simpa [timely, hp] using h
  | openSession u via =>
      cases via with
      | password p => simpa [timely, Timely] using h
      | link secret => trivial
  | _ => trivial

/-- A login, and an administrator who sets the password. -/
def reset : List (Move Client Chance Request) :=
  [.arrive 1 (.passwordGrant (.mailbox 0) 1), .run 1 .usual, .run 1 .usual, .run 1 .usual, .run 1 .usual, .run 1 .usual,
    .arrive 2 (.adminUpdate 0 ⟨none, some 2, none, none, false⟩), .run 2 .usual, .run 2 .usual, .run 2 .usual,
    .run 2 .usual]

theorem change_final_reset : ∃ g, (accounts strict).Reachable (Protocol.Statements Timely) (.opened [alice]) g ∧
    g.store.password 0 ≠ some 1 := by
  have h := Protocol.Reachable.start.replay (P := accounts strict) (s := .opened [alice])
    (Protocol.statements_watch timely_of) reset rfl
  exact ⟨_, h, (change_final h (show Event.answered ⟨none, some (0, some 1, none)⟩ ∈ _ from List.mem_cons_self)).1⟩

/-- The same with a login that is slow: it hashes the old password again and opens a session after
the change has been answered. -/
def slow : List (Move Client Chance Request) :=
  [.arrive 1 (.passwordGrant (.mailbox 0) 1), .run 1 .usual, .run 1 .usual,
    .arrive 2 (.adminUpdate 0 ⟨none, some 2, none, none, false⟩), .run 2 .usual, .run 2 .usual, .run 2 .usual,
    .run 2 .usual, .run 1 .usual, .run 1 .usual]

theorem not_change_final : ∃ g, (accounts strict).Reachable (fun _ _ => True) (.opened [alice]) g ∧
    .answered ⟨none, some (0, some 1, none)⟩ ∈ g.store.history ∧ g.store.password 0 = some 1 ∧
    g.store.sessions 0 = some ⟨0, false, .password 1⟩ :=
  ⟨_, Protocol.Reachable.start.free slow rfl, List.mem_cons_of_mem _ List.mem_cons_self, rfl, rfl⟩

end Examples

end Corebase.PasswordChange
