import Corebase.RefreshStore
import Mathlib.Tactic.Tauto

namespace Corebase.RefreshLineage

open ReadCommitted RefreshStore

/-- The session in which a client has killed a token and not yet ended the transaction. -/
def replaces : Phase → Option SessionId
  | .replacing _ .kill => none
  | .replacing r _ => some r.row.sessionId
  | _ => none

/-- The session of a revokeOwnSession that stands between its statements. -/
def halfway : Phase → Option SessionId
  | .own id _ .between => some id
  | .own id _ (.tokens _) => some id
  | .own id _ .stranded => some id
  | _ => none

/-- No replacement is open in a session whose revokeOwnSession stands between its statements. -/
def Separated (st : State) : Prop := ∀ c d id, replaces (st.phase c) = some id → halfway (st.phase d) ≠ some id

/-- The committed rows, and those that one client has written. -/
structure View where
  sessions : SessionId → Option Session
  tokens : TokenId → Option Token
  mySessions : SessionId → Option Session
  myTokens : TokenId → Option Token

def view (st : State) (c : Client) : View where
  sessions := st.sessions.committed
  tokens := st.tokens.committed
  mySessions := st.sessions.pending c
  myTokens := st.tokens.pending c

namespace View

def NoSessions (v : View) : Prop := ∀ id, v.mySessions id = none

def NoTokens (v : View) : Prop := ∀ k, v.myTokens k = none

def Belongs (v : View) (k : TokenId) (id : SessionId) : Prop := ∃ t, v.tokens k = some t ∧ t.sessionId = id

def Exists (v : View) (id : SessionId) : Prop := v.sessions id ≠ none

/-- The session of a revokeSessionFamily exists. -/
def Aims (v : View) : Revocation → Prop
  | .family id => v.Exists id
  | .user _ _ _ => True

def Killed (v : View) (r : Replacement) : Prop :=
  ∃ t now, v.tokens r.victim = some t ∧ t.live = true ∧ t.sessionId = r.row.sessionId ∧
    v.myTokens r.victim = some (r.kill now t)

def Inserted (v : View) (r : Replacement) (child : TokenId) : Prop :=
  v.tokens child = none ∧ v.myTokens child = some r.child

def Touched (v : View) (id : SessionId) : Prop :=
  (∃ s now, v.sessions id = some s ∧ v.mySessions id = some (s.touch now)) ∧ ∀ j, j ≠ id → v.mySessions j = none

/-- The locked sessions, marked as revoked. -/
def Holds (v : View) (hit : List SessionId) : Prop :=
  (∀ id ∈ hit, ∃ s now, v.sessions id = some s ∧ v.mySessions id = some (s.revoke now)) ∧
    ∀ id, id ∉ hit → v.mySessions id = none

/-- Every token of the sessions is revoked, or it still has its turn. -/
def Sweeps (v : View) (ids : List SessionId) (todo : List TokenId) : Prop :=
  (∀ k u, v.myTokens k = some u → ∃ t, v.tokens k = some t ∧ u = t.revoke) ∧
    ∀ k t, v.tokens k = some t → t.sessionId ∈ ids → t.revoked = false → k ∈ todo ∨ v.myTokens k ≠ none

def Opened (v : View) (id : SessionId) : Prop :=
  v.sessions id = none ∧ (∃ s, v.mySessions id = some s ∧ s.revokedAt = none) ∧ ∀ j, j ≠ id → v.mySessions j = none

def withSession (v : View) (id : SessionId) (s : Session) : View :=
  ⟨v.sessions, v.tokens, Function.update v.mySessions id (some s), v.myTokens⟩

def withToken (v : View) (k : TokenId) (t : Token) : View :=
  ⟨v.sessions, v.tokens, v.mySessions, Function.update v.myTokens k (some t)⟩

theorem withSession_self (v : View) (id : SessionId) (s : Session) : (v.withSession id s).mySessions id = some s :=
  Function.update_self ..

theorem withSession_other (v : View) {id j : SessionId} (s : Session) (h : j ≠ id) :
    (v.withSession id s).mySessions j = v.mySessions j := Function.update_of_ne h ..

theorem withToken_self (v : View) (k : TokenId) (t : Token) : (v.withToken k t).myTokens k = some t :=
  Function.update_self ..

theorem withToken_other (v : View) {k j : TokenId} (t : Token) (h : j ≠ k) :
    (v.withToken k t).myTokens j = v.myTokens j := Function.update_of_ne h ..

end View

/-- What a client knows, and what it has written, at each place of its request. -/
def Own (v : View) : Phase → Prop
  | .idle => v.NoSessions ∧ v.NoTokens
  | .lookup _ => v.NoSessions ∧ v.NoTokens
  | .gates _ row => v.NoSessions ∧ v.NoTokens ∧ v.Belongs row.id row.sessionId
  | .granted _ row => v.NoSessions ∧ v.NoTokens ∧ v.Belongs row.id row.sessionId
  | .reread _ row => v.NoSessions ∧ v.NoTokens ∧ v.Belongs row.id row.sessionId
  | .spent _ row _ => v.NoSessions ∧ v.NoTokens ∧ v.Belongs row.id row.sessionId
  | .replacing r .kill => v.Belongs r.row.id r.row.sessionId ∧ v.Belongs r.victim r.row.sessionId ∧ v.NoSessions ∧
      v.NoTokens
  | .replacing r .insert => v.Belongs r.row.id r.row.sessionId ∧ v.Killed r ∧ v.NoSessions ∧
      ∀ k, k ≠ r.victim → v.myTokens k = none
  | .replacing r (.touch child) => v.Belongs r.row.id r.row.sessionId ∧ v.Killed r ∧ v.NoSessions ∧
      v.Inserted r child ∧ ∀ k, k ≠ r.victim → k ≠ child → v.myTokens k = none
  | .replacing r (.commit child) => v.Belongs r.row.id r.row.sessionId ∧ v.Killed r ∧ v.Touched r.row.sessionId ∧
      v.Inserted r child ∧ ∀ k, k ≠ r.victim → k ≠ child → v.myTokens k = none
  | .revoking kind .start => v.NoSessions ∧ v.NoTokens ∧ v.Aims kind
  | .revoking _ (.sessions _ hit) => v.Holds hit ∧ v.NoTokens
  | .revoking _ (.between hit) => v.Holds hit ∧ v.NoTokens
  | .revoking _ (.tokens hit todo) => v.Holds hit ∧ v.Sweeps hit todo
  | .own _ _ .start => v.NoSessions ∧ v.NoTokens
  | .own id _ .written => v.Holds [id] ∧ v.NoTokens
  | .own id _ .between => v.NoSessions ∧ v.NoTokens ∧ v.Exists id
  | .own id _ .stranded => v.NoSessions ∧ v.NoTokens ∧ v.Exists id
  | .own id _ (.tokens todo) => v.NoSessions ∧ v.Exists id ∧ v.Sweeps [id] todo
  | .opening _ _ .start => v.NoSessions ∧ v.NoTokens
  | .opening _ _ (.session id) => v.Opened id ∧ v.NoTokens
  | .opening _ _ (.token id k) => v.Opened id ∧ v.tokens k = none ∧
      (∃ t, v.myTokens k = some t ∧ t.sessionId = id ∧ t.parentId = none) ∧ ∀ j, j ≠ k → v.myTokens j = none

/-- The committed rows of a state, and the sessions that are halfway revoked. -/
structure Sound (sessions : SessionId → Option Session) (tokens : TokenId → Option Token)
    (between : SessionId → Prop) : Prop where
  owned : ∀ k t, tokens k = some t → sessions t.sessionId ≠ none
  /-- A token is in the session of its parent. -/
  parent : ∀ k t j, tokens k = some t → t.parentId = some j → ∃ u, tokens j = some u ∧ u.sessionId = t.sessionId
  single : ∀ j k t u, tokens j = some t → tokens k = some u → t.live = true → u.live = true →
    t.sessionId = u.sessionId → j = k
  ended : ∀ id s, sessions id = some s → s.revokedAt ≠ none → ¬ between id →
    ∀ k t, tokens k = some t → t.sessionId = id → t.revoked = true

def Between (st : State) (id : SessionId) : Prop := ∃ c, halfway (st.phase c) = some id

structure Inv (st : State) : Prop where
  sessions : st.sessions.Exclusive
  tokens : st.tokens.Exclusive
  own : ∀ c, Own (view st c) (st.phase c)
  sound : Sound st.sessions.committed st.tokens.committed (Between st)

/-- How a commit of another client looks to a client in a phase. -/
structure Advance (p : Phase) (v w : View) : Prop where
  mySessions : w.mySessions = v.mySessions
  myTokens : w.myTokens = v.myTokens
  heldSessions : ∀ id, v.mySessions id ≠ none → w.sessions id = v.sessions id
  heldTokens : ∀ k, v.myTokens k ≠ none → w.tokens k = v.tokens k
  sessions : ∀ id, v.sessions id ≠ none → w.sessions id ≠ none
  tokens : ∀ k t, v.tokens k = some t → ∃ u, w.tokens k = some u ∧ u.sessionId = t.sessionId ∧
    (t.revoked = true → u.revoked = true)
  /-- A new token is in a new session, or in one that the client neither holds nor sweeps. -/
  fresh : ∀ k u, w.tokens k = some u → v.tokens k = none →
    v.sessions u.sessionId = none ∨ v.mySessions u.sessionId = none ∧ halfway p ≠ some u.sessionId

section Advance

variable {p : Phase} {v w : View}

theorem Advance.noSessions (h : Advance p v w) (hv : v.NoSessions) : w.NoSessions := by
  intro id
  rw [h.mySessions]
  exact hv id

theorem Advance.noTokens (h : Advance p v w) (hv : v.NoTokens) : w.NoTokens := by
  intro k
  rw [h.myTokens]
  exact hv k

theorem Advance.belongs (h : Advance p v w) {k : TokenId} {id : SessionId} (hv : v.Belongs k id) :
    w.Belongs k id := by
  obtain ⟨t, ht, hid⟩ := hv
  obtain ⟨u, hu, heq, -⟩ := h.tokens k t ht
  exact ⟨u, hu, heq.trans hid⟩

theorem Advance.killed (h : Advance p v w) {r : Replacement} (hv : v.Killed r) : w.Killed r := by
  obtain ⟨t, now, ht, hl, hid, hm⟩ := hv
  have hheld := h.heldTokens r.victim (by rw [hm]; exact Option.some_ne_none _)
  exact ⟨t, now, hheld.trans ht, hl, hid, by rw [h.myTokens]; exact hm⟩

theorem Advance.inserted (h : Advance p v w) {r : Replacement} {child : TokenId} (hv : v.Inserted r child) :
    w.Inserted r child := by
  obtain ⟨ht, hm⟩ := hv
  have hheld := h.heldTokens child (by rw [hm]; exact Option.some_ne_none _)
  exact ⟨hheld.trans ht, by rw [h.myTokens]; exact hm⟩

theorem Advance.touched (h : Advance p v w) {id : SessionId} (hv : v.Touched id) : w.Touched id := by
  obtain ⟨⟨s, now, hs, hm⟩, hother⟩ := hv
  have hheld := h.heldSessions id (by rw [hm]; exact Option.some_ne_none _)
  rw [View.Touched, h.mySessions]
  exact ⟨⟨s, now, hheld.trans hs, hm⟩, hother⟩

theorem Advance.holds (h : Advance p v w) {hit : List SessionId} (hv : v.Holds hit) : w.Holds hit := by
  obtain ⟨hhit, hother⟩ := hv
  rw [View.Holds, h.mySessions]
  refine ⟨fun id hid => ?_, hother⟩
  obtain ⟨s, now, hs, hm⟩ := hhit id hid
  have hheld := h.heldSessions id (by rw [hm]; exact Option.some_ne_none _)
  exact ⟨s, now, hheld.trans hs, hm⟩

/-- A sweep stays complete if no new token comes into its sessions. -/
theorem Advance.sweeps (h : Advance p v w) {ids : List SessionId} {todo : List TokenId} (hv : v.Sweeps ids todo)
    (hids : ∀ id ∈ ids, v.sessions id ≠ none ∧ (v.mySessions id ≠ none ∨ halfway p = some id)) :
    w.Sweeps ids todo := by
  obtain ⟨hmine, hrest⟩ := hv
  rw [View.Sweeps, h.myTokens]
  constructor
  · intro k u hu
    obtain ⟨t, ht, heq⟩ := hmine k u hu
    have hheld := h.heldTokens k (by rw [hu]; exact Option.some_ne_none _)
    exact ⟨t, hheld.trans ht, heq⟩
  · intro k u hu hid hrev
    cases ht : v.tokens k with
    | none =>
        obtain ⟨hexists, hheld⟩ := hids _ hid
        rcases h.fresh k u hu ht with hnone | ⟨hfree, hhalf⟩
        · exact absurd hnone hexists
        · exact (hheld.elim (fun h => h hfree) hhalf).elim
    | some t =>
        obtain ⟨u', hu', hsess, hmono⟩ := h.tokens k t ht
        obtain rfl : u' = u := Option.some.inj (hu'.symm.trans hu)
        refine hrest k t ht (hsess ▸ hid) ?_
        by_contra hrevoked
        rw [hmono (by simpa using hrevoked)] at hrev
        cases hrev

theorem Advance.opened (h : Advance p v w) {id : SessionId} (hv : v.Opened id) : w.Opened id := by
  obtain ⟨hnone, ⟨s, hm, hs⟩, hother⟩ := hv
  have hheld := h.heldSessions id (by rw [hm]; exact Option.some_ne_none _)
  rw [View.Opened, h.mySessions]
  exact ⟨hheld.trans hnone, ⟨s, hm, hs⟩, hother⟩

/-- What a client knows stays true when another one commits. -/
theorem Own.advance (hv : Own v p) (h : Advance p v w) : Own w p := by
  cases p with
  | idle => exact ⟨h.noSessions hv.1, h.noTokens hv.2⟩
  | lookup _ => exact ⟨h.noSessions hv.1, h.noTokens hv.2⟩
  | gates _ _ => exact ⟨h.noSessions hv.1, h.noTokens hv.2.1, h.belongs hv.2.2⟩
  | granted _ _ => exact ⟨h.noSessions hv.1, h.noTokens hv.2.1, h.belongs hv.2.2⟩
  | reread _ _ => exact ⟨h.noSessions hv.1, h.noTokens hv.2.1, h.belongs hv.2.2⟩
  | spent _ _ _ => exact ⟨h.noSessions hv.1, h.noTokens hv.2.1, h.belongs hv.2.2⟩
  | replacing r stage =>
      cases stage with
      | kill => exact ⟨h.belongs hv.1, h.belongs hv.2.1, h.noSessions hv.2.2.1, h.noTokens hv.2.2.2⟩
      | insert =>
          refine ⟨h.belongs hv.1, h.killed hv.2.1, h.noSessions hv.2.2.1, ?_⟩
          rw [h.myTokens]
          exact hv.2.2.2
      | touch child =>
          refine ⟨h.belongs hv.1, h.killed hv.2.1, h.noSessions hv.2.2.1, h.inserted hv.2.2.2.1, ?_⟩
          rw [h.myTokens]
          exact hv.2.2.2.2
      | commit child =>
          refine ⟨h.belongs hv.1, h.killed hv.2.1, h.touched hv.2.2.1, h.inserted hv.2.2.2.1, ?_⟩
          rw [h.myTokens]
          exact hv.2.2.2.2
  | revoking kind stage =>
      cases stage with
      | start =>
          refine ⟨h.noSessions hv.1, h.noTokens hv.2.1, ?_⟩
          cases kind with
          | family id => exact h.sessions id hv.2.2
          | user _ _ _ => trivial
      | sessions todo hit => exact ⟨h.holds hv.1, h.noTokens hv.2⟩
      | between hit => exact ⟨h.holds hv.1, h.noTokens hv.2⟩
      | tokens hit todo =>
          refine ⟨h.holds hv.1, h.sweeps hv.2 fun id hid => ?_⟩
          obtain ⟨s, now, hs, hm⟩ := hv.1.1 id hid
          exact ⟨by rw [hs]; exact Option.some_ne_none _, .inl (by rw [hm]; exact Option.some_ne_none _)⟩
  | own id u stage =>
      cases stage with
      | start => exact ⟨h.noSessions hv.1, h.noTokens hv.2⟩
      | written => exact ⟨h.holds hv.1, h.noTokens hv.2⟩
      | between => exact ⟨h.noSessions hv.1, h.noTokens hv.2.1, h.sessions id hv.2.2⟩
      | stranded => exact ⟨h.noSessions hv.1, h.noTokens hv.2.1, h.sessions id hv.2.2⟩
      | tokens todo =>
          refine ⟨h.noSessions hv.1, h.sessions id hv.2.1, h.sweeps hv.2.2 fun j hj => ?_⟩
          obtain rfl := List.mem_singleton.mp hj
          exact ⟨hv.2.1, .inr rfl⟩
  | opening u hash stage =>
      cases stage with
      | start => exact ⟨h.noSessions hv.1, h.noTokens hv.2⟩
      | session id => exact ⟨h.opened hv.1, h.noTokens hv.2⟩
      | token id k =>
          obtain ⟨hopen, hnone, ⟨t, hm, ht⟩, hother⟩ := hv
          have hheld := h.heldTokens k (by rw [hm]; exact Option.some_ne_none _)
          refine ⟨h.opened hopen, hheld.trans hnone, ?_⟩
          rw [h.myTokens]
          exact ⟨⟨t, hm, ht⟩, hother⟩

end Advance

section Local

variable {idleSeconds : Nat} {st : State} {c : Client} {p q : Phase}

theorem sees_noSessions (h : (view st c).NoSessions) (id : SessionId) :
    st.sessions.sees c id = st.sessions.committed id := by
  simp [Table.sees, show st.sessions.pending c id = none from h id]

theorem sees_noTokens (h : (view st c).NoTokens) (k : TokenId) : st.tokens.sees c k = st.tokens.committed k := by
  simp [Table.sees, show st.tokens.pending c k = none from h k]

theorem found_belongs {hash : Hash} {row : RefreshRow} (h : Found st hash row) :
    (view st c).Belongs row.id row.sessionId := by
  obtain ⟨t, s, ht, -, -, hrow⟩ := h
  exact ⟨t, ht, (congrArg RefreshRow.sessionId hrow).symm⟩

theorem Sound.exists_of_belongs {sessions : SessionId → Option Session} {tokens : TokenId → Option Token}
    {between : SessionId → Prop} (h : Sound sessions tokens between) {k : TokenId} {id : SessionId}
    (hb : ∃ t, tokens k = some t ∧ t.sessionId = id) : sessions id ≠ none := by
  obtain ⟨t, ht, rfl⟩ := hb
  exact h.owned k t ht

/-- A snapshot of all tokens of the sessions leaves none out. -/
theorem sweeps_start {ids : List SessionId} {todo : List TokenId} (h : (view st c).NoTokens)
    (hall : ∀ k t, st.tokens.committed k = some t → t.sessionId ∈ ids → t.revoked = false → k ∈ todo) :
    (view st c).Sweeps ids todo :=
  ⟨fun k u hu => absurd (hu.symm.trans (h k)) (Option.some_ne_none u), fun k t ht hid hrev => .inl (hall k t ht hid hrev)⟩

theorem own_reads (hr : Reads idleSeconds st c p q)
    (hs : Sound st.sessions.committed st.tokens.committed (Between st)) (h : Own (view st c) p) :
    Own (view st c) q := by
  cases hr with
  | present | signIn => exact h
  | logout => exact ⟨h.1, h.2, trivial⟩
  | revokeOwn => exact h
  | find hfound _ => exact ⟨h.1, h.2, found_belongs hfound⟩
  | refuse _ => exact h
  | expire _ _ | barred => exact ⟨h.1, h.2.1, hs.exists_of_belongs h.2.2⟩
  | pass _ _ => exact h
  | rotate _ _ => exact ⟨h.2.2, h.2.2, h.1, h.2.1⟩
  | alreadySpent _ => exact h
  | lostRotation _ _ => exact ⟨h.2.2.1, h.2.2.2, h.1⟩
  | lostGrace _ _ => exact ⟨h.2.2.1, h.2.2.2, hs.exists_of_belongs h.1⟩
  | untouched hnone =>
      rw [sees_noSessions h.2.2.1] at hnone
      exact absurd hnone (hs.exists_of_belongs h.1)
  | again _ _ => exact h
  | unspent _ => exact ⟨h.1, h.2.1⟩
  | @replay hash row usedAt child t now childHash _ hchild _ =>
      obtain ⟨ht, hparent, -⟩ := hchild
      obtain ⟨u, hu, hsess⟩ := hs.parent child t row.id ht hparent
      obtain ⟨u', hu', hid⟩ := h.2.2
      obtain rfl : u = u' := Option.some.inj (hu.symm.trans hu')
      exact ⟨h.2.2, ⟨t, ht, hsess.symm.trans hid⟩, h.1, h.2.1⟩
  | theft _ _ => exact ⟨h.1, h.2.1, hs.exists_of_belongs h.2.2⟩
  | noFamily hnone =>
      rw [sees_noSessions h.1] at hnone
      exact absurd hnone h.2.2
  | selectSessions _ => exact ⟨⟨by simp, fun id _ => h.1 id⟩, h.2.1⟩
  | skipSession _ => exact h
  | hitSessions _ => exact h
  | @selectTokens v hit todo hsel =>
      refine ⟨h.1, sweeps_start h.2 fun k t ht hid hrev => (hsel k).mpr ⟨t, ?_, hid, hrev⟩⟩
      rw [sees_noTokens h.2, ht]
  | @skipToken v hit id todo hskip =>
      refine ⟨h.1, h.2.1, fun k t ht hid hrev => ?_⟩
      rcases h.2.2 k t ht hid hrev with hk | hk
      · rcases List.mem_cons.mp hk with rfl | hk
        · right
          intro hnone
          refine hskip t ?_ ⟨hid, hrev⟩
          rw [Table.sees, show st.tokens.pending c k = none from hnone]
          exact ht
        · exact .inl hk
      · exact .inr hk
  | notOwn _ => exact h
  | @selectOwn id userId todo hsel =>
      refine ⟨h.1, h.2.2, sweeps_start h.2.1 fun k t ht hid hrev => (hsel k).mpr ⟨t, ?_, ?_⟩⟩
      · rw [sees_noTokens h.2.1, ht]
      · simpa using hid

theorem reads_halfway (hr : Reads idleSeconds st c p q) {id : SessionId} (h : halfway p = some id) :
    halfway q = some id := by
  cases hr <;> exact h

/-- The view of the client that writes a session row. -/
theorem view_writeSession {id : SessionId} {s : Session} :
    view ((st.writeSession c id s).enter c q) c = (view st c).withSession id s := by
  simp [view, View.withSession, State.writeSession, State.enter]

theorem view_writeToken {k : TokenId} {t : Token} :
    view ((st.writeToken c k t).enter c q) c = (view st c).withToken k t := by
  simp [view, View.withToken, State.writeToken, State.enter]

theorem revoke_revokedAt (s : Session) (now : Time) : (s.revoke now).revokedAt ≠ none := Option.some_ne_none _

theorem holds_hit {id : SessionId} {s : Session} {hit : List SessionId} (now : Time) (h : (view st c).Holds hit)
    (hs : st.sessions.sees c id = some s) (hfresh : id ∉ hit) :
    ((view st c).withSession id (s.revoke now)).Holds (hit ++ [id]) := by
  have hnone : st.sessions.pending c id = none := h.2 id hfresh
  rw [Table.sees, hnone] at hs
  constructor
  · intro j hj
    rcases List.mem_append.mp hj with hj | hj
    · have hne : j ≠ id := fun heq => hfresh (heq ▸ hj)
      obtain ⟨s', now', hs', hm⟩ := h.1 j hj
      exact ⟨s', now', hs', by rw [View.withSession_other _ _ hne]; exact hm⟩
    · obtain rfl := List.mem_singleton.mp hj
      exact ⟨s, now, hs, View.withSession_self ..⟩
  · intro j hj
    simp only [List.mem_append, List.mem_singleton, not_or] at hj
    rw [View.withSession_other _ _ hj.2]
    exact h.2 j hj.1

theorem holds_one {id : SessionId} {s : Session} (now : Time) (h : (view st c).NoSessions)
    (hs : st.sessions.sees c id = some s) :
    ((view st c).withSession id (s.revoke now)).Holds [id] := by
  have hnil : (view st c).Holds [] := ⟨by simp, fun j _ => h j⟩
  exact holds_hit now hnil hs (by simp)

theorem own_session {id : SessionId} {s : Session} (hw : SessionWrites st c p id s q) (h : Own (view st c) p) :
    Own (view ((st.writeSession c id s).enter c q) c) q := by
  rw [view_writeSession]
  cases hw with
  | @touch r child s now hs =>
      rw [sees_noSessions h.2.2.1] at hs
      refine ⟨h.1, h.2.1, ⟨⟨s, now, hs, View.withSession_self ..⟩, fun j hj => ?_⟩, h.2.2.2.1,
        h.2.2.2.2⟩
      rw [View.withSession_other _ _ hj]
      exact h.2.2.1 j
  | family now hs => exact ⟨holds_one now h.1 hs, h.2.1⟩
  | @user userId scope current id todo hit s now hs hwanted =>
      refine ⟨holds_hit now h.1 hs fun hid => ?_, h.2⟩
      obtain ⟨s', now', -, hm⟩ := h.1.1 id hid
      rw [Table.sees, show st.sessions.pending c id = some (s'.revoke now') from hm] at hs
      obtain rfl : s'.revoke now' = s := Option.some.inj hs
      exact revoke_revokedAt s' now' hwanted.2.1
  | own now hs _ _ => exact ⟨holds_one now h.1 hs, h.2⟩
  | @«open» userId hash id now hunused =>
      refine ⟨⟨hunused.1, ⟨_, View.withSession_self .., rfl⟩, fun j hj => ?_⟩, h.2⟩
      rw [View.withSession_other _ _ hj]
      exact h.1 j

theorem newest_unused {k : TokenId} (h : st.tokens.Newest k) : st.tokens.Unused k := by
  by_contra hused
  exact Nat.lt_irrefl k (h k hused)

theorem sweeps_hit {ids : List SessionId} {todo : List TokenId} {k : TokenId} {t : Token}
    (h : (view st c).Sweeps ids (k :: todo)) (ht : st.tokens.sees c k = some t) :
    ((view st c).withToken k t.revoke).Sweeps ids todo := by
  constructor
  · intro j u hu
    by_cases hj : j = k
    · rw [hj, View.withToken_self] at hu
      obtain rfl := Option.some.inj hu
      rw [hj]
      cases hm : st.tokens.pending c k with
      | none =>
          rw [Table.sees, hm] at ht
          exact ⟨t, ht, rfl⟩
      | some u =>
          obtain ⟨t', ht', hu'⟩ := h.1 k u hm
          rw [Table.sees, hm] at ht
          obtain rfl : u = t := Option.some.inj ht
          exact ⟨t', ht', by rw [hu']; rfl⟩
    · rw [View.withToken_other _ _ hj] at hu
      exact h.1 j u hu
  · intro j u hu hid hrev
    by_cases hj : j = k
    · right
      rw [hj, View.withToken_self]
      exact Option.some_ne_none _
    · rw [View.withToken_other _ _ hj]
      rcases h.2 j u hu hid hrev with hmem | hmine
      · exact .inl ((List.mem_cons.mp hmem).resolve_left hj)
      · exact .inr hmine

theorem own_token {k : TokenId} {t : Token} (hw : TokenWrites st c p k t q) (h : Own (view st c) p) :
    Own (view ((st.writeToken c k t).enter c q) c) q := by
  rw [view_writeToken]
  cases hw with
  | @kill r t now ht hl =>
      rw [sees_noTokens h.2.2.2] at ht
      obtain ⟨t', ht', hid⟩ := h.2.1
      obtain rfl : t = t' := Option.some.inj (ht.symm.trans ht')
      refine ⟨h.1, ⟨t, now, ht, hl, hid, View.withToken_self ..⟩, h.2.2.1, fun j hj => ?_⟩
      rw [View.withToken_other _ _ hj]
      exact h.2.2.2 j
  | @insert r _ hnew =>
      obtain ⟨t, now, ht, hl, hid, hm⟩ := h.2.1
      have hunused := (newest_unused hnew).1
      have hne : r.victim ≠ k := by
        intro heq
        rw [← heq, show st.tokens.committed r.victim = some t from ht] at hunused
        cases hunused
      refine ⟨h.1, ⟨t, now, ht, hl, hid, ?_⟩, h.2.2.1, ⟨hunused, View.withToken_self ..⟩, fun j hv hj => ?_⟩
      · rw [View.withToken_other _ _ hne]
        exact hm
      · rw [View.withToken_other _ _ hj]
        exact h.2.2.2 j hv
  | revoke ht _ _ => exact ⟨h.1, sweeps_hit h.2 ht⟩
  | own ht _ => exact ⟨h.1, h.2.1, sweeps_hit h.2.2 ht⟩
  | @«open» userId hash sessionId id hnew =>
      refine ⟨h.1, (newest_unused hnew).1, ⟨_, View.withToken_self .., rfl, rfl⟩, fun j hj => ?_⟩
      rw [View.withToken_other _ _ hj]
      exact h.2 j

theorem session_halfway {id : SessionId} {s : Session} (hw : SessionWrites st c p id s q) {j : SessionId}
    (h : halfway p = some j) : halfway q = some j := by
  cases hw <;> cases h

theorem token_halfway {k : TokenId} {t : Token} (hw : TokenWrites st c p k t q) {j : SessionId}
    (h : halfway p = some j) : halfway q = some j := by
  cases hw <;> exact h

end Local

/-- What a client's own writes amount to when it commits. -/
structure Summary (v : View) (p : Phase) : Prop where
  changed : ∀ k t u, v.tokens k = some t → v.myTokens k = some u → u.sessionId = t.sessionId ∧
    u.parentId = t.parentId ∧ (t.revoked = true → u.revoked = true) ∧ (u.live = true → t.live = true)
  /-- A new token opens its session, or takes the place of a live token of its session. -/
  fresh : ∀ k u, v.tokens k = none → v.myTokens k = some u → v.mySessions u.sessionId ≠ none ∧
    (∀ j, u.parentId = some j → ∃ t, v.tokens j = some t ∧ t.sessionId = u.sessionId) ∧
    (v.sessions u.sessionId = none ∨ replaces p = some u.sessionId ∧ ∃ j t w, v.tokens j = some t ∧
      t.live = true ∧ t.sessionId = u.sessionId ∧ v.myTokens j = some w ∧ w.live = false)
  one : ∀ j k, v.tokens j = none → v.myTokens j ≠ none → v.tokens k = none → v.myTokens k ≠ none → j = k

section Commit

variable {v : View} {p q : Phase}

theorem kill_live (r : Replacement) (now : Time) (t : Token) : (r.kill now t).live = false := by
  cases h : r.spends <;> simp [Replacement.kill, h, Token.live, Token.spend, Token.revoke]

theorem kill_changed (r : Replacement) (now : Time) (t : Token) : (r.kill now t).sessionId = t.sessionId ∧
    (r.kill now t).parentId = t.parentId ∧ (t.revoked = true → (r.kill now t).revoked = true) := by
  cases h : r.spends <;> simp [Replacement.kill, h, Token.spend, Token.revoke]

theorem summary_sweeps {ids : List SessionId} {todo : List TokenId} (h : v.Sweeps ids todo) : Summary v p := by
  have hold : ∀ k, v.tokens k = none → v.myTokens k = none := by
    intro k hk
    cases hm : v.myTokens k with
    | none => rfl
    | some u =>
        obtain ⟨t, ht, -⟩ := h.1 k u hm
        rw [hk] at ht
        cases ht
  refine ⟨fun k t u ht hu => ?_, fun k u hk hu => ?_, fun j k hj hmj => ?_⟩
  · obtain ⟨t', ht', rfl⟩ := h.1 k u hu
    obtain rfl : t = t' := Option.some.inj (ht.symm.trans ht')
    exact ⟨rfl, rfl, fun _ => rfl, by simp [Token.live, Token.revoke]⟩
  · rw [hold k hk] at hu
    cases hu
  · exact absurd (hold j hj) hmj

theorem summary_none (h : v.NoTokens) : Summary v p := by
  have hsweeps : v.Sweeps [] [] := ⟨fun k u hu => absurd (hu.symm.trans (h k)) (Option.some_ne_none u), by simp⟩
  exact summary_sweeps hsweeps

theorem summary_commit (hc : Commits p q) (h : Own v p) : Summary v p := by
  cases hc with
  | replace r child =>
      obtain ⟨⟨b, hb, hbid⟩, ⟨t, now, ht, hl, hid, hm⟩, ⟨⟨s, now', -, hs⟩, -⟩, ⟨hnone, hchild⟩, hother⟩ := h
      have hfresh : ∀ k, v.tokens k = none → v.myTokens k ≠ none → k = child := by
        intro k hk hmk
        by_contra hne
        refine hmk (hother k ?_ hne)
        rintro rfl
        rw [ht] at hk
        cases hk
      refine ⟨fun k t' u ht' hu => ?_, fun k u hk hu => ?_, fun j k hj hmj hk hmk => ?_⟩
      · have hvictim : k = r.victim := by
          by_contra hne
          by_cases hkc : k = child
          · rw [hkc, hnone] at ht'
            cases ht'
          · rw [hother k hne hkc] at hu
            cases hu
        rw [hvictim] at ht' hu
        obtain rfl : t = t' := Option.some.inj (ht.symm.trans ht')
        obtain rfl : r.kill now t = u := Option.some.inj (hm.symm.trans hu)
        obtain ⟨hsess, hparent, hrev⟩ := kill_changed r now t
        exact ⟨hsess, hparent, hrev, fun hlive => absurd (kill_live r now t) (by rw [hlive]; decide)⟩
      · rw [hfresh k hk (by rw [hu]; exact Option.some_ne_none u)] at hu
        obtain rfl : r.child = u := Option.some.inj (hchild.symm.trans hu)
        refine ⟨by rw [show r.child.sessionId = r.row.sessionId from rfl, hs]; exact Option.some_ne_none _, ?_, ?_⟩
        · rintro j ⟨⟩
          exact ⟨b, hb, hbid⟩
        · exact .inr ⟨rfl, r.victim, t, _, ht, hl, hid, hm, kill_live r now t⟩
      · rw [hfresh j hj hmj, hfresh k hk hmk]
  | revoke kind hit => exact summary_sweeps h.2
  | none kind => exact summary_none h.2
  | ownSession id u => exact summary_none h.2
  | ownTokens id u => exact summary_sweeps h.2.2
  | «open» u hash id k =>
      obtain ⟨⟨hnone, ⟨s, hs, -⟩, -⟩, hk, ⟨t, hm, rfl, hparent⟩, hother⟩ := h
      have hfresh : ∀ j, v.myTokens j ≠ none → j = k := fun j hj => by
        by_contra hne
        exact hj (hother j hne)
      refine ⟨fun j t' u ht' hu => ?_, fun j u hj hu => ?_, fun i j _ hi _ hj => ?_⟩
      · rw [hfresh j (by rw [hu]; exact Option.some_ne_none u), hk] at ht'
        cases ht'
      · rw [hfresh j (by rw [hu]; exact Option.some_ne_none u)] at hu
        obtain rfl : t = u := Option.some.inj (hm.symm.trans hu)
        refine ⟨by rw [hs]; exact Option.some_ne_none s, fun i hi => ?_, .inl hnone⟩
        rw [hparent] at hi
        cases hi
      · rw [hfresh i hi, hfresh j hj]

/-- The committed rows once the client commits. -/
def View.sessions' (v : View) (id : SessionId) : Option Session := (v.mySessions id).or (v.sessions id)

def View.tokens' (v : View) (k : TokenId) : Option Token := (v.myTokens k).or (v.tokens k)

theorem sweeps_done {ids : List SessionId} (h : v.Sweeps ids []) {k : TokenId} {t : Token} (ht : v.tokens' k = some t)
    (hid : t.sessionId ∈ ids) : t.revoked = true := by
  cases hm : v.myTokens k with
  | some u =>
      obtain ⟨t', -, rfl⟩ := h.1 k u hm
      rw [View.tokens', hm] at ht
      obtain rfl : t'.revoke = t := Option.some.inj ht
      rfl
  | none =>
      rw [View.tokens', hm] at ht
      by_contra hrev
      rcases h.2 k t ht hid (by simpa using hrev) with hk | hk
      · cases hk
      · exact hk hm

/-- Why a session is revoked after a commit. -/
theorem commit_revoked (hc : Commits p q) (h : Own v p) {id : SessionId} {s : Session}
    (hs : v.sessions' id = some s) (hrev : s.revokedAt ≠ none) :
    halfway q = some id ∨
    (halfway p ≠ some id ∧ ∃ t, v.sessions id = some t ∧ t.revokedAt ≠ none) ∨
    ∀ k t, v.tokens' k = some t → t.sessionId = id → t.revoked = true := by
  have hkeep : v.mySessions id = none → halfway p ≠ some id →
      (halfway p ≠ some id ∧ ∃ t, v.sessions id = some t ∧ t.revokedAt ≠ none) := by
    intro hnone hhalf
    rw [View.sessions', hnone] at hs
    exact ⟨hhalf, s, hs, hrev⟩
  cases hc with
  | replace r child =>
      refine .inr (.inl ?_)
      by_cases hid : id = r.row.sessionId
      · obtain ⟨⟨s', now, hs', hm⟩, -⟩ := h.2.2.1
        rw [View.sessions', hid, hm] at hs
        obtain rfl : s'.touch now = s := Option.some.inj hs
        exact ⟨nofun, s', hid ▸ hs', hrev⟩
      · exact hkeep (h.2.2.1.2 id hid) nofun
  | revoke kind hit =>
      by_cases hid : id ∈ hit
      · exact .inr (.inr fun k t ht heq => sweeps_done h.2 ht (heq ▸ hid))
      · exact .inr (.inl (hkeep (h.1.2 id hid) nofun))
  | none kind => exact .inr (.inl (hkeep (h.1.2 id (by simp)) nofun))
  | ownSession j u =>
      by_cases hid : id = j
      · exact .inl (by rw [hid]; rfl)
      · exact .inr (.inl (hkeep (h.1.2 id (by simpa using hid)) nofun))
  | ownTokens j u =>
      by_cases hid : id = j
      · exact .inr (.inr fun k t ht heq => sweeps_done h.2.2 ht (by simp [heq, hid]))
      · refine .inr (.inl (hkeep (h.1 id) fun heq => hid ?_))
        exact (Option.some.inj heq).symm
  | «open» u hash j k =>
      refine .inr (.inl (hkeep ?_ nofun))
      by_contra hm
      have hid : id = j := by
        by_contra hne
        exact hm (h.1.2.2 id hne)
      obtain ⟨s', hs', hnone⟩ := h.1.2.1
      rw [View.sessions', hid, hs'] at hs
      obtain rfl : s' = s := Option.some.inj hs
      exact hrev hnone

/-- The committed rows stay sound when a client commits. -/
theorem sound_commit {between between' : SessionId → Prop} (hsum : Summary v p)
    (h : Sound v.sessions v.tokens between)
    (hover : ∀ id s, v.sessions' id = some s → s.revokedAt ≠ none → ¬ between' id →
      (¬ between id ∧ ∃ t, v.sessions id = some t ∧ t.revokedAt ≠ none) ∨
        ∀ k t, v.tokens' k = some t → t.sessionId = id → t.revoked = true) :
    Sound v.sessions' v.tokens' between' := by
  -- a committed token either was there before, or is new
  have hcases : ∀ k u, v.tokens' k = some u → (∃ t, v.tokens k = some t ∧ u.sessionId = t.sessionId ∧
      u.parentId = t.parentId ∧ (t.revoked = true → u.revoked = true) ∧ (u.live = true → t.live = true)) ∨
      v.tokens k = none ∧ v.myTokens k = some u := by
    intro k u hu
    cases hm : v.myTokens k with
    | none =>
        rw [View.tokens', hm] at hu
        exact .inl ⟨u, hu, rfl, rfl, id, id⟩
    | some w =>
        rw [View.tokens', hm] at hu
        obtain rfl : w = u := Option.some.inj hu
        cases ht : v.tokens k with
        | none => exact .inr ⟨rfl, rfl⟩
        | some t => exact .inl ⟨t, rfl, hsum.changed k t w ht hm⟩
  have hsame : ∀ j t, v.tokens j = some t → ∃ u, v.tokens' j = some u ∧ u.sessionId = t.sessionId := by
    intro j t ht
    cases hm : v.myTokens j with
    | none => exact ⟨t, by rw [View.tokens', hm]; exact ht, rfl⟩
    | some w => exact ⟨w, by rw [View.tokens', hm]; rfl, (hsum.changed j t w ht hm).1⟩
  -- a live token beside a new one of its session is new itself
  have hbeside : ∀ j k t u, v.tokens' j = some t → v.tokens k = none → v.myTokens k = some u → t.live = true →
      t.sessionId = u.sessionId → v.tokens j = none ∧ v.myTokens j = some t := by
    intro j k t u ht hk hu hl hid
    rcases hcases j t ht with ⟨t', ht', hsess, -, -, hlive⟩ | hnew
    · rcases (hsum.fresh k u hk hu).2.2 with hnone | ⟨-, i, x, y, hx, hxl, hxid, hy, hyl⟩
      · exact absurd (by rw [← hsess, hid]; exact hnone) (h.owned j t' ht')
      · have hji : j = i := h.single j i t' x ht' hx (hlive hl) hxl (by rw [← hsess, hid, hxid])
        rw [hji, View.tokens', hy] at ht
        obtain rfl : y = t := Option.some.inj ht
        rw [hyl] at hl
        cases hl
    · exact hnew
  refine ⟨fun k t ht => ?_, fun k t j ht hj => ?_, fun j k t u ht hu hlt hlu hid => ?_,
    fun id s hs hrev hb k t ht hid => ?_⟩
  · rcases hcases k t ht with ⟨t', ht', hsess, -⟩ | ⟨hk, hm⟩
    · have hown := h.owned k t' ht'
      rw [← hsess] at hown
      cases hms : v.mySessions t.sessionId <;> simp [View.sessions', hms, hown]
    · obtain ⟨s, hs⟩ := Option.ne_none_iff_exists'.mp (hsum.fresh k t hk hm).1
      simp [View.sessions', hs]
  · rcases hcases k t ht with ⟨t', ht', hsess, hparent, -⟩ | ⟨hk, hm⟩
    · obtain ⟨u, hu, hus⟩ := h.parent k t' j ht' (hparent ▸ hj)
      obtain ⟨w, hw, hws⟩ := hsame j u hu
      exact ⟨w, hw, by rw [hws, hus, hsess]⟩
    · obtain ⟨u, hu, hus⟩ := (hsum.fresh k t hk hm).2.1 j hj
      obtain ⟨w, hw, hws⟩ := hsame j u hu
      exact ⟨w, hw, hws.trans hus⟩
  · rcases hcases j t ht with ⟨t', ht', hts, -, -, htl⟩ | ⟨hj, hmj⟩
    · rcases hcases k u hu with ⟨u', hu', hus, -, -, hul⟩ | ⟨hk, hmk⟩
      · exact h.single j k t' u' ht' hu' (htl hlt) (hul hlu) (by rw [← hts, ← hus, hid])
      · obtain ⟨hj, hmj⟩ := hbeside j k t u ht hk hmk hlt hid
        rw [hj] at ht'
        cases ht'
    · obtain ⟨hk, hmk⟩ := hbeside k j u t hu hj hmj hlu hid.symm
      exact hsum.one j k hj (by rw [hmj]; exact Option.some_ne_none t) hk (by rw [hmk]; exact Option.some_ne_none u)
  · rcases hover id s hs hrev hb with ⟨hbefore, s', hs', hrev'⟩ | hall
    · rcases hcases k t ht with ⟨t', ht', hsess, -, hmono, -⟩ | ⟨hk, hm⟩
      · exact hmono (h.ended id s' hs' hrev' hbefore k t' ht' (hsess ▸ hid))
      · -- a new token in a session that was revoked before would have a live sibling there
        rcases (hsum.fresh k t hk hm).2.2 with hnone | ⟨-, i, x, y, hx, hxl, hxid, -, -⟩
        · rw [hid, hs'] at hnone
          cases hnone
        · have hrevoked := h.ended id s' hs' hrev' hbefore i x hx (hxid.trans hid)
          simp [Token.live, hrevoked] at hxl
    · exact hall k t ht hid

end Commit

section Run

variable {idleSeconds : Nat} {st st' : State} {c : Client} {q : Phase}

theorem Sound.mono {sessions : SessionId → Option Session} {tokens : TokenId → Option Token}
    {between between' : SessionId → Prop} (h : Sound sessions tokens between)
    (hb : ∀ id, between id → between' id) : Sound sessions tokens between' :=
  ⟨h.owned, h.parent, h.single, fun id s hs hrev hnot => h.ended id s hs hrev fun hid => hnot (hb id hid)⟩

theorem phase_self (st : State) (c : Client) (q : Phase) : (st.enter c q).phase c = q := Function.update_self ..

theorem phase_other (st : State) {c d : Client} (q : Phase) (h : d ≠ c) : (st.enter c q).phase d = st.phase d :=
  Function.update_of_ne h ..

/-- A step that commits nothing keeps the invariant if its client keeps its own part. -/
theorem inv_local (h : Inv st) (hsessions : st'.sessions.committed = st.sessions.committed)
    (htokens : st'.tokens.committed = st.tokens.committed) (hes : st'.sessions.Exclusive)
    (het : st'.tokens.Exclusive) (hother : ∀ d, d ≠ c → view st' d = view st d)
    (hphase : ∀ d, d ≠ c → st'.phase d = st.phase d) (hown : Own (view st' c) (st'.phase c))
    (hhalf : ∀ id, halfway (st.phase c) = some id → halfway (st'.phase c) = some id) : Inv st' := by
  refine ⟨hes, het, fun d => ?_, ?_⟩
  · by_cases hd : d = c
    · rw [hd]
      exact hown
    · rw [hother d hd, hphase d hd]
      exact h.own d
  · rw [hsessions, htokens]
    refine h.sound.mono ?_
    rintro id ⟨d, hd⟩
    by_cases hdc : d = c
    · exact ⟨c, hhalf id (hdc ▸ hd)⟩
    · exact ⟨d, by rw [hphase d hdc]; exact hd⟩

theorem view_writeSession_other {d : Client} (hd : d ≠ c) {id : SessionId} {s : Session} :
    view ((st.writeSession c id s).enter c q) d = view st d := by
  simp [view, State.writeSession, State.enter, Table.pending_write_other hd]

theorem view_writeToken_other {d : Client} (hd : d ≠ c) {k : TokenId} {t : Token} :
    view ((st.writeToken c k t).enter c q) d = view st d := by
  simp [view, State.writeToken, State.enter, Table.pending_write_other hd]

theorem inv_read (h : Inv st) (hr : Reads idleSeconds st c (st.phase c) q) : Inv (st.enter c q) := by
  refine inv_local (c := c) h rfl rfl h.sessions h.tokens (fun d _ => rfl) (fun d hd => phase_other st q hd) ?_ ?_
  · have hown : Own (view st c) q := own_reads hr h.sound (h.own c)
    rw [phase_self]
    exact hown
  · rw [phase_self]
    exact fun id => reads_halfway hr

theorem inv_session {id : SessionId} {s : Session} (h : Inv st) (hw : SessionWrites st c (st.phase c) id s q)
    (hfree : st.sessions.Free c id) : Inv ((st.writeSession c id s).enter c q) := by
  refine inv_local (c := c) h rfl rfl (h.sessions.write hfree) h.tokens
    (fun d hd => view_writeSession_other hd) (fun d hd => phase_other _ q hd) ?_ ?_
  · rw [phase_self]
    exact own_session hw (h.own c)
  · rw [phase_self]
    exact fun id => session_halfway hw

theorem inv_token {k : TokenId} {t : Token} (h : Inv st) (hw : TokenWrites st c (st.phase c) k t q)
    (hfree : st.tokens.Free c k) : Inv ((st.writeToken c k t).enter c q) := by
  refine inv_local (c := c) h rfl rfl h.sessions (h.tokens.write hfree)
    (fun d hd => view_writeToken_other hd) (fun d hd => phase_other _ q hd) ?_ ?_
  · rw [phase_self]
    exact own_token hw (h.own c)
  · rw [phase_self]
    exact fun id => token_halfway hw

theorem inv_abort (h : Inv st) (ha : Aborts (st.phase c) q) : Inv ((st.rollback c).enter c q) := by
  have hclean : (view ((st.rollback c).enter c q) c).NoSessions ∧ (view ((st.rollback c).enter c q) c).NoTokens :=
    ⟨Table.clean_rollback, Table.clean_rollback⟩
  refine inv_local (c := c) h rfl rfl h.sessions.rollback h.tokens.rollback (fun d hd => ?_)
    (fun d hd => phase_other _ q hd) ?_ ?_
  · simp [view, State.rollback, State.enter, Table.pending_rollback_other hd]
  · have hown := h.own c
    rw [phase_self]
    generalize st.phase c = p at ha hown
    cases ha with
    | ownBetween id u => exact ⟨hclean.1, hclean.2, hown.2.2⟩
    | ownTokens id u todo => exact ⟨hclean.1, hclean.2, hown.2.1⟩
    | replace | revoke | ownStart | ownSession | «open» => exact hclean
  · rw [phase_self]
    intro id hid
    generalize st.phase c = p at ha hid
    cases ha with
    | ownBetween j u => exact hid
    | ownTokens j u todo => exact hid
    | replace r stage => cases stage <;> cases hid
    | revoke | ownStart | ownSession | «open» => cases hid

/-- How the commit of one client looks to another. -/
theorem advance_commit (h : Inv st) (hsep : Separated st) (hsum : Summary (view st c) (st.phase c)) {d : Client}
    (hd : d ≠ c) : Advance (st.phase d) (view st d) (view ((st.commit c).enter c q) d) where
  mySessions := Table.pending_commit_other hd
  myTokens := Table.pending_commit_other hd
  heldSessions id hid := h.sessions.held hd hid
  heldTokens k hk := h.tokens.held hd hk
  sessions id hid := by
    change (st.sessions.pending c id).or (st.sessions.committed id) ≠ none
    cases st.sessions.pending c id with
    | none => exact hid
    | some s => exact Option.some_ne_none s
  tokens k t ht := by
    change ∃ u, (st.tokens.pending c k).or (st.tokens.committed k) = some u ∧ _
    cases hm : st.tokens.pending c k with
    | none => exact ⟨t, ht, rfl, id⟩
    | some u =>
        obtain ⟨hsess, -, hmono, -⟩ := hsum.changed k t u ht hm
        exact ⟨u, rfl, hsess, hmono⟩
  fresh k u hu hk := by
    change (st.tokens.pending c k).or (st.tokens.committed k) = some u at hu
    have hm : st.tokens.pending c k = some u := by
      cases hm : st.tokens.pending c k with
      | none =>
          rw [hm, show st.tokens.committed k = none from hk] at hu
          cases hu
      | some w =>
          rw [hm] at hu
          exact hu
    obtain ⟨hheld, -, hnone | ⟨hrep, -⟩⟩ := hsum.fresh k u hk hm
    · exact .inl hnone
    · refine .inr ⟨?_, hsep c d u.sessionId hrep⟩
      by_contra hmine
      exact hd (h.sessions d c u.sessionId hmine hheld)

theorem inv_commit (h : Inv st) (hsep : Separated st) (hc : Commits (st.phase c) q) :
    Inv ((st.commit c).enter c q) := by
  have hsum := summary_commit hc (h.own c)
  have hown := h.own c
  have hclean : (view ((st.commit c).enter c q) c).NoSessions ∧ (view ((st.commit c).enter c q) c).NoTokens :=
    ⟨Table.clean_commit, Table.clean_commit⟩
  refine ⟨h.sessions.commit, h.tokens.commit, fun d => ?_, ?_⟩
  · by_cases hd : d = c
    · rw [hd, phase_self]
      generalize st.phase c = p at hc hown
      cases hc with
      | replace | revoke | none | ownTokens | «open» => exact hclean
      | ownSession id u =>
          refine ⟨hclean.1, hclean.2, ?_⟩
          obtain ⟨s, now, -, hm⟩ := hown.1.1 id (List.mem_singleton_self id)
          change (st.sessions.pending c id).or (st.sessions.committed id) ≠ none
          rw [show st.sessions.pending c id = some (s.revoke now) from hm]
          exact Option.some_ne_none _
    · rw [phase_other _ q hd]
      exact (h.own d).advance (advance_commit h hsep hsum hd)
  · refine sound_commit hsum h.sound fun id s hs hrev hnot => ?_
    rcases commit_revoked hc hown hs hrev with hq | ⟨hp, hbefore⟩ | hall
    · exact absurd ⟨c, by rw [phase_self]; exact hq⟩ hnot
    · refine .inl ⟨?_, hbefore⟩
      rintro ⟨d, hd⟩
      by_cases hdc : d = c
      · exact hp (hdc ▸ hd)
      · exact hnot ⟨d, by rw [phase_other _ q hdc]; exact hd⟩
    · exact .inr hall

theorem inv_step (h : Inv st) (hsep : Separated st) (hstep : Step idleSeconds st st') : Inv st' := by
  cases hstep with
  | read hr => exact inv_read h hr
  | session hw hfree => exact inv_session h hw hfree
  | token hw hfree => exact inv_token h hw hfree
  | commit hc => exact inv_commit h hsep hc
  | abort ha => exact inv_abort h ha

theorem inv_initial : Inv .initial where
  sessions := Table.exclusive_empty
  tokens := Table.exclusive_empty
  own _ := ⟨fun _ => rfl, fun _ => rfl⟩
  sound := ⟨nofun, nofun, nofun, nofun⟩

theorem inv_reachable (h : Reachable idleSeconds Separated st) : Inv st ∧ Separated st := by
  induction h with
  | initial hok => exact ⟨inv_initial, hok⟩
  | step _ hstep hok ih => exact ⟨inv_step ih.1 ih.2 hstep, hok⟩

def LiveIn (st : State) (id : SessionId) (k : TokenId) : Prop :=
  ∃ t, st.tokens.committed k = some t ∧ t.sessionId = id ∧ t.live = true

def Revoked (st : State) (id : SessionId) : Prop := ∃ s, st.sessions.committed id = some s ∧ s.revokedAt ≠ none

def Unrevoked (st : State) (id : SessionId) : Prop :=
  ∃ k t, st.tokens.committed k = some t ∧ t.sessionId = id ∧ t.revoked = false

/-- The step gives a new token to a session. -/
def Issues (st st' : State) (id : SessionId) : Prop :=
  ∃ k t, st.tokens.committed k = none ∧ st'.tokens.committed k = some t ∧ t.sessionId = id

theorem issues_live (h : Inv st) (hsep : Separated st) (hstep : Step idleSeconds st st') {id : SessionId}
    (hrev : Revoked st id) : ¬ Issues st st' id := by
  rintro ⟨k, t, hk, ht, hid⟩
  obtain ⟨s, hs, hrev⟩ := hrev
  cases hstep with
  | @commit c q hc =>
      change (st.tokens.pending c k).or (st.tokens.committed k) = some t at ht
      rw [hk, Option.or_none] at ht
      rcases ((summary_commit hc (h.own c)).fresh k t hk ht).2.2 with hnone | ⟨hrep, i, x, y, hx, hxl, hxid, -, -⟩
      · rw [hid, show (view st c).sessions id = some s from hs] at hnone
        cases hnone
      · have hnot : ¬ Between st id := fun ⟨d, hd⟩ => hsep c d id (hid ▸ hrep) hd
        have hrevoked := h.sound.ended id s hs hrev hnot i x hx (hxid.trans hid)
        simp [Token.live, hrevoked] at hxl
  | read | session | token | abort =>
      change st.tokens.committed k = some t at ht
      rw [hk] at ht
      cases ht

end Run

section Examples

/-- No client has a replacement open. -/
def Quiet (st : State) : Prop := ∀ c, replaces (st.phase c) = none

theorem Quiet.separated {st : State} (h : Quiet st) : Separated st := by
  intro c d id hc
  rw [h c] at hc
  cases hc

theorem Quiet.enter {st : State} (h : Quiet st) (c : Client) {q : Phase} (hq : replaces q = none) :
    Quiet (st.enter c q) := by
  intro d
  by_cases hd : d = c
  · rw [hd, phase_self]
    exact hq
  · rw [phase_other _ q hd]
    exact h d

def firstSession : Session := ⟨1, 0, some 0, none⟩

def firstToken : Token := ⟨10, 1, 1, none, none, false⟩

/-- The state after user 1 has signed in, in session 1 with token 1. -/
def signedIn : State where
  sessions := (Table.empty.write 0 1 firstSession).commit 0
  tokens := (Table.empty.write 0 1 firstToken).commit 0
  phase := (((State.initial.enter 0 (.opening 1 10 .start)).enter 0 (.opening 1 10 (.session 1))).enter 0
    (.opening 1 10 (.token 1 1))).enter 0 .idle |>.phase

theorem signedIn_reachable (idleSeconds : Nat) : Reachable idleSeconds Separated signedIn := by
  have q0 : Quiet .initial := fun _ => rfl
  have q1 : Quiet (State.initial.enter 0 (.opening 1 10 .start)) := q0.enter 0 rfl
  have q2 := q1.enter 0 (q := .opening 1 10 (.session 1)) rfl
  have q3 := q2.enter 0 (q := .opening 1 10 (.token 1 1)) rfl
  have r0 : Reachable idleSeconds Separated .initial := .initial q0.separated
  have r1 := r0.step (.read (c := 0) (.signIn 1 10)) q1.separated
  have r2 := r1.step (.session (c := 0) (.open 0 Table.unused_empty) fun _ _ => rfl) q2.separated
  have r3 := r2.step (.token (c := 0) (.open (show Table.Newest _ 1 from fun _ h => absurd Table.unused_empty h))
    fun _ _ => rfl) q3.separated
  exact r3.step (.commit (c := 0) (.open 1 10 1 1)) (q3.enter 0 rfl).separated

theorem signedIn_unused {k : TokenId} (h : k ≠ 1) : signedIn.tokens.Unused k := (Table.unused_empty.write h).commit

theorem signedIn_pending (c : Client) : signedIn.sessions.pending c = (fun _ => none) ∧
    signedIn.tokens.pending c = fun _ => none := by
  by_cases hc : c = 0
  · rw [hc]
    exact ⟨rfl, rfl⟩
  · simp [signedIn, Table.commit, Table.write, Table.empty]

def firstRow : RefreshRow := refreshRow 1 firstToken firstSession

end Examples

end Corebase.RefreshLineage
