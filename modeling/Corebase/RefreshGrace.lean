import Corebase.RefreshStore

namespace Corebase.RefreshGrace

open RefreshStore

/-- The rows between two requests. The ids below nextToken and nextSession have been given out. -/
structure Db where
  sessions : SessionId → Option Session
  tokens : TokenId → Option Token
  nextSession : SessionId
  nextToken : TokenId

namespace Db

def empty : Db := ⟨fun _ => none, fun _ => none, 0, 0⟩

def findToken (db : Db) (p : Token → Bool) : Option TokenId :=
  (List.range db.nextToken).find? fun id => (db.tokens id).any p

def findRefreshToken (db : Db) (hash : Hash) : Option RefreshRow := do
  let id ← db.findToken (·.hash = hash)
  let t ← db.tokens id
  let s ← db.sessions t.sessionId
  return refreshRow id t s

def findChildToken (db : Db) (parentId : TokenId) : Option (TokenId × Token) := do
  let id ← db.findToken (·.parentId = some parentId)
  let t ← db.tokens id
  return (id, t)

def setToken (db : Db) (id : TokenId) (t : Token) : Db := { db with tokens := Function.update db.tokens id (some t) }

def addToken (db : Db) (t : Token) : Db := { db.setToken db.nextToken t with nextToken := db.nextToken + 1 }

def setSession (db : Db) (id : SessionId) (s : Session) : Db :=
  { db with sessions := Function.update db.sessions id (some s) }

def touch (db : Db) (id : SessionId) (now : Time) : Db :=
  { db with sessions := Function.update db.sessions id ((db.sessions id).map (·.touch now)) }

/-- The statements of rotateRefreshToken and graceRotate. There is nothing to kill, or the new hash
breaks the unique index, or the rows are written. -/
def replace (db : Db) (now : Time) (r : Replacement) : Except Unit (Option Db) :=
  match db.tokens r.victim with
  | none => .ok none
  | some t =>
    if !t.live then .ok none
    else if (db.findToken (·.hash = r.childHash)).isSome then .error ()
    else .ok (some (((db.setToken r.victim (r.kill now t)).addToken r.child).touch r.row.sessionId now))

/-- Sessions are revoked with all their tokens. -/
def revoke (db : Db) (now : Time) (hit : SessionId → Bool) : Db :=
  { db with
    sessions := fun id => (db.sessions id).map fun s => if hit id then s.revoke now else s
    tokens := fun id => (db.tokens id).map fun t => if hit t.sessionId then t.revoke else t }

def revokeSessionFamily (db : Db) (now : Time) (sessionId : SessionId) : Db := db.revoke now (· = sessionId)

def openSession (db : Db) (userId : UserId) (now : Time) (hash : Hash) : Db :=
  { db.setSession db.nextSession ⟨userId, now, some now, none⟩ with nextSession := db.nextSession + 1 }.addToken
    ⟨hash, userId, db.nextSession, none, none, false⟩

end Db

inductive Answer
  | granted | badGrant | error
deriving DecidableEq

/-- A request for the refresh grant, and what it finds beside the rows of the session. -/
structure Grant where
  presented : Hash
  fresh : Hash
  now : Time
  /-- The user is deleted or banned. -/
  barred : Bool
deriving DecidableEq

def theft (db : Db) (q : Grant) (row : RefreshRow) : Answer × Db :=
  (.badGrant, db.revokeSessionFamily q.now row.sessionId)

/-- The part of refreshGrant after a token that is spent. -/
def alreadySpent (db : Db) (q : Grant) (row : RefreshRow) (usedAt : Time) : Answer × Db :=
  if q.now ≤ usedAt + REFRESH_GRACE_MS then
    match db.findChildToken row.id with
    | none => theft db q row
    | some (childId, child) =>
      if child.live then
        match db.replace q.now (graceRotate q.presented row childId q.fresh) with
        | .error _ => (.error, db)
        | .ok (some db') => (.granted, db')
        | .ok none => theft db q row
      else theft db q row
  else theft db q row

def refreshGrant (idleSeconds : Nat) (db : Db) (q : Grant) : Answer × Db :=
  match db.findRefreshToken q.presented with
  | none => (.badGrant, db)
  | some row =>
    if row.dead then (.badGrant, db)
    else if row.idleExpired idleSeconds q.now then (.badGrant, db.revokeSessionFamily q.now row.sessionId)
    else if q.barred then (.badGrant, db.revokeSessionFamily q.now row.sessionId)
    else match row.usedAt with
      | some usedAt => alreadySpent db q row usedAt
      | none => match db.replace q.now (rotateRefreshToken q.presented row q.fresh) with
        | .error _ => (.error, db)
        | .ok (some db') => (.granted, db')
        | .ok none => match (db.findRefreshToken q.presented).bind (·.usedAt) with
          | none => (.badGrant, db)
          | some usedAt => alreadySpent db q row usedAt

inductive Request
  | refresh (q : Grant)
  | signIn (userId : UserId) (now : Time) (hash : Hash)
  /-- A logout, or what else ends sessions. -/
  | revoke (now : Time) (hit : SessionId → Bool)

def handle (idleSeconds : Nat) (db : Db) : Request → Db
  | .refresh q => (refreshGrant idleSeconds db q).2
  | .signIn userId now hash =>
    if (db.findToken (·.hash = hash)).isSome then db else db.openSession userId now hash
  | .revoke now hit => db.revoke now hit

/-- The rows after some requests, one after the other. -/
inductive Reachable (idleSeconds : Nat) : Db → Prop
  | start : Reachable idleSeconds .empty
  | step {db : Db} (r : Request) : Reachable idleSeconds db → Reachable idleSeconds (handle idleSeconds db r)

/-- One token of a session has been issued from another. -/
def Child (db : Db) (parentId id : TokenId) (t : Token) : Prop := db.tokens id = some t ∧ t.parentId = some parentId

/-- The children of a spent token: only the latest may be in use. -/
def Issued (db : Db) (parentId : TokenId) : Prop :=
  ∃ last u, Child db parentId last u ∧ u.revoked = false ∧
    ∀ id t, Child db parentId id t → id ≠ last → id < last ∧ t.revoked = true ∧ t.usedAt = none

/-- The rows fit together. -/
structure Shape (db : Db) : Prop where
  given : ∀ id t, db.tokens id = some t → id < db.nextToken
  unopened : ∀ id, db.nextSession ≤ id → db.sessions id = none
  held : ∀ id t, db.tokens id = some t → (db.sessions t.sessionId).isSome
  unique : ∀ i j t u, db.tokens i = some t → db.tokens j = some u → t.hash = u.hash → i = j
  parent : ∀ id t p, db.tokens id = some t → t.parentId = some p → ∃ u, db.tokens p = some u ∧ u.sessionId = t.sessionId

structure Inv (db : Db) : Prop where
  shape : Shape db
  ended : ∀ id t s, db.tokens id = some t → db.sessions t.sessionId = some s → s.revokedAt.isSome → t.revoked = true
  unspent : ∀ id t j u, db.tokens id = some t → t.live = true → ¬ Child db id j u
  spent : ∀ id t s, db.tokens id = some t → t.usedAt.isSome → db.sessions t.sessionId = some s → s.revokedAt = none →
    t.revoked = false ∧ Issued db id

section Rows

variable {db : Db} {id : TokenId} {t u : Token}

@[simp] theorem setToken_tokens (id i : TokenId) : (db.setToken id t).tokens i = if i = id then some t else db.tokens i :=
  Function.update_apply ..

@[simp] theorem addToken_tokens (i : TokenId) :
    (db.addToken t).tokens i = if i = db.nextToken then some t else db.tokens i := Function.update_apply ..

theorem live_iff : t.live = true ↔ t.usedAt = none ∧ t.revoked = false := by simp [Token.live]

theorem touch_apply (sid j : SessionId) (now : Time) :
    (db.touch sid now).sessions j = (db.sessions j).map fun s => if j = sid then s.touch now else s := by
  change Function.update db.sessions sid _ j = _
  by_cases hj : j = sid
  · simp [hj]
  · simp [hj]

theorem touch_sessions {sid j : SessionId} {now : Time} {s : Session} (h : (db.touch sid now).sessions j = some s) :
    ∃ s', db.sessions j = some s' ∧ s'.revokedAt = s.revokedAt := by
  rw [touch_apply] at h
  obtain ⟨s', hs', rfl⟩ := Option.map_eq_some_iff.mp h
  refine ⟨s', hs', ?_⟩
  split <;> rfl

theorem findToken_some {p : Token → Bool} (h : db.findToken p = some id) :
    ∃ t, db.tokens id = some t ∧ p t = true ∧ ∀ j u, db.tokens j = some u → p u = true → id ≤ j := by
  obtain ⟨hp, -, hleast⟩ := List.find?_range_eq_some.mp h
  obtain ⟨t, ht, hpt⟩ := Option.any_eq_true _ _ |>.mp hp
  refine ⟨t, ht, hpt, fun j u hu hpu => ?_⟩
  by_contra hlt
  have := hleast j (Nat.lt_of_not_le hlt)
  simp [hu, hpu] at this

theorem findToken_isSome (h : Shape db) {p : Token → Bool} (ht : db.tokens id = some t) (hp : p t = true) :
    (db.findToken p).isSome = true := by
  rw [Db.findToken, List.find?_isSome]
  exact ⟨id, List.mem_range.mpr (h.given id t ht), by simp [ht, hp]⟩

theorem Shape.setToken (h : Shape db) (ht : db.tokens id = some t) (hhash : u.hash = t.hash)
    (hsession : u.sessionId = t.sessionId) (hparent : u.parentId = t.parentId) : Shape (db.setToken id u) := by
  have hold : ∀ i t', (db.setToken id u).tokens i = some t' → ∃ t₀, db.tokens i = some t₀ ∧ t'.hash = t₀.hash ∧
      t'.sessionId = t₀.sessionId ∧ t'.parentId = t₀.parentId := by
    intro i t' hi
    rw [setToken_tokens] at hi
    split at hi
    next hid => exact ⟨t, hid ▸ ht, Option.some.inj hi ▸ hhash, Option.some.inj hi ▸ hsession, Option.some.inj hi ▸ hparent⟩
    next => exact ⟨t', hi, rfl, rfl, rfl⟩
  refine ⟨fun i t' hi => ?_, h.unopened, fun i t' hi => ?_, fun i j t' u' hi hj he => ?_, fun i t' p hi hp => ?_⟩
  · obtain ⟨t₀, ht₀, -⟩ := hold i t' hi
    exact h.given i t₀ ht₀
  · obtain ⟨t₀, ht₀, -, hs, -⟩ := hold i t' hi
    rw [hs]
    exact h.held i t₀ ht₀
  · obtain ⟨t₀, ht₀, hh, -⟩ := hold i t' hi
    obtain ⟨u₀, hu₀, hh', -⟩ := hold j u' hj
    exact h.unique i j t₀ u₀ ht₀ hu₀ (hh.symm.trans (he.trans hh'))
  · obtain ⟨t₀, ht₀, -, hs, hpar⟩ := hold i t' hi
    obtain ⟨w, hw, hws⟩ := h.parent i t₀ p ht₀ (hpar ▸ hp)
    by_cases hpid : p = id
    · subst hpid
      cases ht.symm.trans hw
      exact ⟨u, by simp, hsession.trans (hws.trans hs.symm)⟩
    · exact ⟨w, by simp [hpid, hw], hws.trans hs.symm⟩

theorem Shape.fresh (h : Shape db) : db.tokens db.nextToken = none := by
  by_contra hne
  obtain ⟨t, ht⟩ := Option.ne_none_iff_exists'.mp hne
  exact absurd (h.given _ t ht) (Nat.lt_irrefl _)

theorem Shape.addToken (h : Shape db) (hhash : ∀ i u, db.tokens i = some u → u.hash ≠ t.hash)
    (hsession : (db.sessions t.sessionId).isSome)
    (hparent : ∀ p, t.parentId = some p → ∃ u, db.tokens p = some u ∧ u.sessionId = t.sessionId) :
    Shape (db.addToken t) := by
  have hsplit : ∀ i t', (db.addToken t).tokens i = some t' → i = db.nextToken ∧ t' = t ∨ db.tokens i = some t' := by
    intro i t' hi
    rw [addToken_tokens] at hi
    split at hi
    next hid => exact .inl ⟨hid, (Option.some.inj hi).symm⟩
    next => exact .inr hi
  refine ⟨fun i t' hi => ?_, h.unopened, fun i t' hi => ?_, fun i j t' u' hi hj he => ?_, fun i t' p hi hp => ?_⟩
  · rcases hsplit i t' hi with ⟨rfl, -⟩ | hi
    · exact Nat.lt_succ_self _
    · exact Nat.lt_succ_of_lt (h.given i t' hi)
  · rcases hsplit i t' hi with ⟨-, rfl⟩ | hi
    · exact hsession
    · exact h.held i t' hi
  · rcases hsplit i t' hi with ⟨hi', ht'⟩ | hi <;> rcases hsplit j u' hj with ⟨hj', hu'⟩ | hj
    · rw [hi', hj']
    · exact absurd (ht' ▸ he.symm) (hhash j u' hj)
    · exact absurd (hu' ▸ he) (hhash i t' hi)
    · exact h.unique i j t' u' hi hj he
  · have hstay : ∀ u, db.tokens p = some u → (db.addToken t).tokens p = some u := by
      intro u hu
      rw [addToken_tokens, if_neg fun hp => ?_]
      · exact hu
      · rw [hp, h.fresh] at hu
        cases hu
    rcases hsplit i t' hi with ⟨-, rfl⟩ | hi
    · obtain ⟨u, hu, hs⟩ := hparent p hp
      exact ⟨u, hstay u hu, hs⟩
    · obtain ⟨u, hu, hs⟩ := h.parent i t' p hi hp
      exact ⟨u, hstay u hu, hs⟩

theorem Shape.touch (h : Shape db) (sid : SessionId) (now : Time) : Shape (db.touch sid now) := by
  refine ⟨h.given, fun j hj => ?_, fun i t hi => ?_, h.unique, h.parent⟩
  · by_contra hne
    obtain ⟨s, hs⟩ := Option.ne_none_iff_exists'.mp hne
    obtain ⟨s', hs', -⟩ := touch_sessions hs
    rw [h.unopened j hj] at hs'
    cases hs'
  · rw [touch_apply, Option.isSome_map]
    exact h.held i t hi

theorem revoke_sessions {now : Time} {hit : SessionId → Bool} {j : SessionId} {s : Session}
    (h : (db.revoke now hit).sessions j = some s) :
    ∃ s', db.sessions j = some s' ∧ (s.revokedAt.isSome ↔ s'.revokedAt.isSome ∨ hit j = true) := by
  obtain ⟨s', hs', rfl⟩ := Option.map_eq_some_iff.mp h
  refine ⟨s', hs', ?_⟩
  split
  next hhit => simp [Session.revoke, hhit]
  next hhit => simp [hhit]

theorem revoke_tokens {now : Time} {hit : SessionId → Bool} {i : TokenId}
    (h : (db.revoke now hit).tokens i = some t) :
    ∃ t', db.tokens i = some t' ∧ t = if hit t'.sessionId then t'.revoke else t' := by
  obtain ⟨t', ht', rfl⟩ := Option.map_eq_some_iff.mp h
  exact ⟨t', ht', rfl⟩

theorem revoke_same (b : Bool) (t : Token) : (if b then t.revoke else t).hash = t.hash ∧
    (if b then t.revoke else t).sessionId = t.sessionId ∧ (if b then t.revoke else t).parentId = t.parentId ∧
    (if b then t.revoke else t).usedAt = t.usedAt := by
  split <;> exact ⟨rfl, rfl, rfl, rfl⟩

theorem Shape.revoke (h : Shape db) (now : Time) (hit : SessionId → Bool) : Shape (db.revoke now hit) := by
  refine ⟨fun i t hi => ?_, fun j hj => ?_, fun i t hi => ?_, fun i j t u hi hj he => ?_, fun i t p hi hp => ?_⟩
  · obtain ⟨t', ht', -⟩ := revoke_tokens hi
    exact h.given i t' ht'
  · exact congrArg (Option.map _) (h.unopened j hj)
  · obtain ⟨t', ht', rfl⟩ := revoke_tokens hi
    rw [Db.revoke, Option.isSome_map, (revoke_same _ t').2.1]
    exact h.held i t' ht'
  · obtain ⟨t', ht', rfl⟩ := revoke_tokens hi
    obtain ⟨u', hu', rfl⟩ := revoke_tokens hj
    rw [(revoke_same _ t').1, (revoke_same _ u').1] at he
    exact h.unique i j t' u' ht' hu' he
  · obtain ⟨t', ht', rfl⟩ := revoke_tokens hi
    rw [(revoke_same _ t').2.2.1] at hp
    obtain ⟨u, hu, hs⟩ := h.parent i t' p ht' hp
    refine ⟨_, congrArg (Option.map _) hu, ?_⟩
    rw [(revoke_same _ u).2.1, (revoke_same _ t').2.1]
    exact hs

theorem Shape.child_session (h : Shape db) {j : TokenId} (ht : db.tokens id = some t) (hu : Child db id j u) :
    u.sessionId = t.sessionId := by
  obtain ⟨t', ht', hs⟩ := h.parent j u id hu.1 hu.2
  cases ht.symm.trans ht'
  exact hs.symm

theorem Shape.setSession (h : Shape db) (s : Session) :
    Shape { db.setSession db.nextSession s with nextSession := db.nextSession + 1 } := by
  refine ⟨h.given, fun j hj => ?_, fun i t hi => ?_, h.unique, h.parent⟩
  · have hne : j ≠ db.nextSession := Nat.ne_of_gt hj
    exact (Function.update_of_ne hne _ _).trans (h.unopened j (Nat.le_of_succ_le hj))
  · have hs := h.held i t hi
    have hne : t.sessionId ≠ db.nextSession := by
      intro he
      rw [he, h.unopened _ (Nat.le_refl _)] at hs
      cases hs
    exact (congrArg Option.isSome (Function.update_of_ne hne _ _)).trans hs

end Rows

section Steps

variable {db : Db} {now : Time}

theorem Inv.revoke (h : Inv db) (now : Time) (hit : SessionId → Bool) : Inv (db.revoke now hit) := by
  refine ⟨h.shape.revoke now hit, fun i t s hi hs hr => ?_, fun i t j u hi hlive hu => ?_, fun i t s hi hused hs hr => ?_⟩
  · obtain ⟨t', ht', rfl⟩ := revoke_tokens hi
    obtain ⟨s', hs', hrev⟩ := revoke_sessions hs
    rw [(revoke_same _ t').2.1] at hs' hrev
    split
    next => rfl
    next hhit => exact h.ended i t' s' ht' hs' ((hrev.mp hr).resolve_right hhit)
  · obtain ⟨t', ht', rfl⟩ := revoke_tokens hi
    obtain ⟨u', hu', rfl⟩ := revoke_tokens hu.1
    refine h.unspent i t' j u' ht' ?_ ⟨hu', (revoke_same _ u').2.2.1 ▸ hu.2⟩
    split at hlive
    next => simp [Token.live, Token.revoke] at hlive
    next => exact hlive
  · obtain ⟨t', ht', rfl⟩ := revoke_tokens hi
    obtain ⟨s', hs', hrev⟩ := revoke_sessions hs
    rw [(revoke_same _ t').2.1] at hs' hrev
    rw [(revoke_same _ t').2.2.2] at hused
    have hhit : hit t'.sessionId = false := by
      by_contra hhit
      simp [hr, hhit] at hrev
    have hr' : s'.revokedAt = none := by
      by_contra hr'
      simp [hr, hr'] at hrev
    obtain ⟨hlive, last, u, hu, hur, hother⟩ := h.spent i t' s' ht' hused hs' hr'
    have hsame : ∀ j u, Child db i j u → Child (db.revoke now hit) i j u := by
      intro j u hu
      refine ⟨?_, hu.2⟩
      have hs := h.shape.child_session ht' hu
      simp [Db.revoke, hu.1, hs, hhit]
    refine ⟨by simp [hhit, hlive], last, u, hsame last u hu, hur, fun j w hw hne => ?_⟩
    obtain ⟨w', hw', rfl⟩ := revoke_tokens hw.1
    have hchild : Child db i j w' := ⟨hw', (revoke_same _ w').2.2.1 ▸ hw.2⟩
    obtain ⟨hlt, hwr, hwu⟩ := hother j w' hchild hne
    refine ⟨hlt, ?_, (revoke_same _ w').2.2.2.trans hwu⟩
    split
    · rfl
    · exact hwr

theorem Inv.openSession (h : Inv db) (userId : UserId) (now : Time) {hash : Hash}
    (hfresh : ∀ i u, db.tokens i = some u → u.hash ≠ hash) : Inv (db.openSession userId now hash) := by
  have htokens : ∀ i t, (db.openSession userId now hash).tokens i = some t →
      i = db.nextToken ∧ t = ⟨hash, userId, db.nextSession, none, none, false⟩ ∨ db.tokens i = some t := by
    intro i t hi
    rw [Db.openSession, addToken_tokens] at hi
    split at hi
    next hid => exact .inl ⟨hid, (Option.some.inj hi).symm⟩
    next => exact .inr hi
  have hsessions : ∀ j s, (db.openSession userId now hash).sessions j = some s →
      s.revokedAt = none ∧ j = db.nextSession ∨ j ≠ db.nextSession ∧ db.sessions j = some s := by
    intro j s hj
    change Function.update db.sessions db.nextSession _ j = _ at hj
    by_cases hne : j = db.nextSession
    · subst hne
      rw [Function.update_self] at hj
      exact .inl ⟨Option.some.inj hj ▸ rfl, rfl⟩
    · rw [Function.update_of_ne hne] at hj
      exact .inr ⟨hne, hj⟩
  have hchild : ∀ i j u, Child (db.openSession userId now hash) i j u → Child db i j u := by
    rintro i j u ⟨hu, hp⟩
    rcases htokens j u hu with ⟨-, rfl⟩ | hu
    · cases hp
    · exact ⟨hu, hp⟩
  have hkeep : ∀ i j u, Child db i j u → Child (db.openSession userId now hash) i j u := by
    rintro i j u ⟨hu, hp⟩
    refine ⟨?_, hp⟩
    rw [Db.openSession, addToken_tokens]
    exact (if_neg (Nat.ne_of_lt (h.shape.given j u hu))).trans hu
  refine ⟨(h.shape.setSession _).addToken hfresh ?_ nofun, fun i t s hi hs hr => ?_,
    fun i t j u hi hlive hu => ?_, fun i t s hi hused hs hr => ?_⟩
  · exact congrArg Option.isSome (Function.update_self db.nextSession _ db.sessions)
  · rcases hsessions _ s hs with ⟨hnone, -⟩ | ⟨hne, hs⟩
    · simp [hnone] at hr
    · rcases htokens i t hi with ⟨-, rfl⟩ | hi
      · exact absurd rfl hne
      · exact h.ended i t s hi hs hr
  · rcases htokens i t hi with ⟨rfl, -⟩ | hi
    · obtain ⟨w, hw, -⟩ := h.shape.parent j u _ (hchild _ j u hu).1 hu.2
      rw [h.shape.fresh] at hw
      cases hw
    · exact h.unspent i t j u hi hlive (hchild i j u hu)
  · rcases htokens i t hi with ⟨-, rfl⟩ | hi
    · cases hused
    · obtain ⟨s₀, hs₀⟩ := Option.isSome_iff_exists.mp (h.shape.held i t hi)
      rcases hsessions _ s hs with ⟨-, he⟩ | ⟨-, hs⟩
      · rw [he, h.shape.unopened _ (Nat.le_refl _)] at hs₀
        cases hs₀
      · obtain ⟨hlive, last, u, hu, hur, hother⟩ := h.spent i t s hi hused hs hr
        exact ⟨hlive, last, u, hkeep i last u hu, hur, fun j w hw => hother j w (hchild i j w hw)⟩

/-- A transaction that kills a live token: the one a child is issued from, or an earlier child. -/
structure Replaces (db : Db) (parentId victim : TokenId) (parent killed killed' child : Token) : Prop where
  parentRow : db.tokens parentId = some parent
  victimRow : db.tokens victim = some killed
  live : killed.live = true
  hash : killed'.hash = killed.hash
  session : killed'.sessionId = killed.sessionId
  parentage : killed'.parentId = killed.parentId
  kind : victim = parentId ∧ killed'.usedAt.isSome ∧ killed'.revoked = false ∨
    Child db parentId victim killed ∧ parent.usedAt.isSome ∧ killed'.revoked = true ∧ killed'.usedAt = none
  ofParent : child.parentId = some parentId
  ofSession : child.sessionId = parent.sessionId
  childLive : child.live = true

section Replacing

variable {parentId victim : TokenId} {parent killed killed' child : Token}

theorem replaced_lookup {i : TokenId} {t : Token} (hi : ((db.setToken victim killed').addToken child).tokens i = some t) :
    i = db.nextToken ∧ t = child ∨ i = victim ∧ t = killed' ∨ i ≠ victim ∧ db.tokens i = some t := by
  rw [addToken_tokens, setToken_tokens] at hi
  split at hi
  next hid => exact .inl ⟨hid, (Option.some.inj hi).symm⟩
  split at hi
  next hid => exact .inr (.inl ⟨hid, (Option.some.inj hi).symm⟩)
  next hne => exact .inr (.inr ⟨hne, hi⟩)

/-- The children there are now: those there were, with the killed one changed, and the new one. -/
theorem Replaces.children (r : Replaces db parentId victim parent killed killed' child) {i j : TokenId} {u : Token}
    (hu : Child ((db.setToken victim killed').addToken child) i j u) :
    j = db.nextToken ∧ i = parentId ∨ j = victim ∧ u = killed' ∧ Child db i victim killed ∨ j ≠ victim ∧ Child db i j u := by
  rcases replaced_lookup hu.1 with ⟨rfl, rfl⟩ | ⟨rfl, rfl⟩ | ⟨hne, hj⟩
  · exact .inl ⟨rfl, Option.some.inj (hu.2.symm.trans r.ofParent)⟩
  · exact .inr (.inl ⟨rfl, rfl, r.victimRow, r.parentage.symm.trans hu.2⟩)
  · exact .inr (.inr ⟨hne, hj, hu.2⟩)

/-- The new token is the latest of its parent, and the only one in use. -/
theorem Replaces.issued (h : Inv db) (r : Replaces db parentId victim parent killed killed' child)
    {s : Session} (hs : db.sessions parent.sessionId = some s) (hr : s.revokedAt = none) :
    Issued ((db.setToken victim killed').addToken child) parentId := by
  have hkrevoked := (live_iff.mp r.live).2
  have hchild : (((db.setToken victim killed').addToken child).tokens db.nextToken) = some child :=
    (addToken_tokens _).trans (if_pos rfl)
  refine ⟨db.nextToken, child, ⟨hchild, r.ofParent⟩, (live_iff.mp r.childLive).2, fun j u hu hne => ?_⟩
  rcases r.kind with ⟨hv, -⟩ | ⟨hv, hspent, hk, hku⟩
  · have hnone : ∀ k w, ¬ Child db parentId k w := fun k w => hv ▸ h.unspent _ _ k w r.victimRow r.live
    rcases r.children hu with ⟨hj, -⟩ | ⟨-, -, hold⟩ | ⟨-, hold⟩
    · exact absurd hj hne
    · exact absurd hold (hnone _ _)
    · exact absurd hold (hnone _ _)
  · obtain ⟨-, last, w, hw, -, hother⟩ := h.spent parentId parent s r.parentRow hspent hs hr
    have hlast : victim = last := by
      by_contra hvl
      have := (hother victim killed hv hvl).2.1
      rw [hkrevoked] at this
      cases this
    rcases r.children hu with ⟨hj, -⟩ | ⟨rfl, rfl, -⟩ | ⟨hjv, hju⟩
    · exact absurd hj hne
    · exact ⟨h.shape.given _ _ r.victimRow, hk, hku⟩
    · exact ⟨h.shape.given _ _ hju.1, (hother j u hju (hlast ▸ hjv)).2⟩

/-- The children of the other tokens stay as they are, but for one that is spent. -/
theorem Replaces.others (h : Inv db) (r : Replaces db parentId victim parent killed killed' child) {i : TokenId}
    (hi : i ≠ parentId) (hissued : Issued db i) : Issued ((db.setToken victim killed').addToken child) i := by
  obtain ⟨last, u, hu, hur, hother⟩ := hissued
  have hrest : ∀ j w, Child ((db.setToken victim killed').addToken child) i j w → j ≠ last →
      j < last ∧ w.revoked = true ∧ w.usedAt = none := by
    intro j w hw hne
    rcases r.children hw with ⟨-, hp⟩ | ⟨rfl, rfl, hold⟩ | ⟨-, hold⟩
    · exact absurd hp hi
    · have := (hother j killed hold hne).2.1
      rw [(live_iff.mp r.live).2] at this
      cases this
    · exact hother j w hold hne
  have hnext : last ≠ db.nextToken := Nat.ne_of_lt (h.shape.given last u hu.1)
  by_cases hv : last = victim
  · subst hv
    rcases r.kind with ⟨-, -, hk⟩ | ⟨hold, -⟩
    · cases r.victimRow.symm.trans hu.1
      refine ⟨last, killed', ⟨?_, r.parentage.trans hu.2⟩, hk, hrest⟩
      rw [addToken_tokens, setToken_tokens, if_pos rfl]
      exact if_neg hnext
    · cases r.victimRow.symm.trans hu.1
      exact absurd (Option.some.inj (hu.2.symm.trans hold.2)) hi
  · refine ⟨last, u, ⟨?_, hu.2⟩, hur, hrest⟩
    rw [addToken_tokens, setToken_tokens, if_neg hv]
    exact (if_neg hnext).trans hu.1

theorem Replaces.inv (h : Inv db) (r : Replaces db parentId victim parent killed killed' child)
    {s : Session} (hs : db.sessions parent.sessionId = some s) (hr : s.revokedAt = none)
    (hfresh : ∀ i u, db.tokens i = some u → u.hash ≠ child.hash) (now : Time) :
    Inv (((db.setToken victim killed').addToken child).touch child.sessionId now) := by
  have hvictim : killed.sessionId = parent.sessionId := by
    rcases r.kind with ⟨hv, -⟩ | ⟨hv, -⟩
    · cases (hv ▸ r.victimRow).symm.trans r.parentRow
      rfl
    · exact h.shape.child_session r.parentRow hv
  have hmap : Shape (db.setToken victim killed') := h.shape.setToken r.victimRow r.hash r.session r.parentage
  have hparent : ∀ p, child.parentId = some p → ∃ u, (db.setToken victim killed').tokens p = some u ∧
      u.sessionId = child.sessionId := by
    intro p hp
    cases r.ofParent.symm.trans hp
    by_cases hv : parentId = victim
    · exact ⟨killed', by simp [hv], r.session.trans (hvictim.trans r.ofSession.symm)⟩
    · exact ⟨parent, by simp [hv, r.parentRow], r.ofSession.symm⟩
  have hnew : ∀ i u, (db.setToken victim killed').tokens i = some u → u.hash ≠ child.hash := by
    intro i u hu
    rw [setToken_tokens] at hu
    split at hu
    · cases hu
      exact r.hash ▸ hfresh _ _ r.victimRow
    · exact hfresh i u hu
  have hopen : ∀ s', ((db.setToken victim killed').addToken child).sessions parent.sessionId = some s' →
      s'.revokedAt = none := by
    intro s' hs'
    cases hs.symm.trans hs'
    exact hr
  refine ⟨(hmap.addToken hnew (r.ofSession ▸ h.shape.held _ _ r.parentRow) hparent).touch _ _,
    fun i t s' hi hs' hr' => ?_, fun i t j u hi hlive hu => ?_, fun i t s' hi hused hs' hr' => ?_⟩
  · obtain ⟨s₀, hs₀, hsame⟩ := touch_sessions hs'
    rw [← hsame] at hr'
    rcases replaced_lookup hi with ⟨-, rfl⟩ | ⟨-, rfl⟩ | ⟨-, hi⟩
    · rw [r.ofSession] at hs₀
      simp [hopen s₀ hs₀] at hr'
    · rw [r.session, hvictim] at hs₀
      simp [hopen s₀ hs₀] at hr'
    · exact h.ended i t s₀ hi hs₀ hr'
  · have hold : ∀ {i' t'}, db.tokens i' = some t' → t'.live = true → i' ≠ parentId →
        ¬ Child ((db.setToken victim killed').addToken child) i' j u := by
      intro i' t' hi' hlive' hne hu
      rcases r.children hu with ⟨-, hp⟩ | ⟨-, -, hold⟩ | ⟨-, hold⟩
      · exact hne hp
      · exact h.unspent i' t' _ _ hi' hlive' hold
      · exact h.unspent i' t' _ _ hi' hlive' hold
    rcases replaced_lookup hi with ⟨hi', -⟩ | ⟨-, rfl⟩ | ⟨hne, hi⟩
    · have hnone : ∀ k w, ¬ Child db i k w := by
        intro k w hw
        obtain ⟨t', ht', -⟩ := h.shape.parent k w i hw.1 hw.2
        rw [hi', h.shape.fresh] at ht'
        cases ht'
      rcases r.children hu with ⟨-, hp⟩ | ⟨-, -, hold⟩ | ⟨-, hold⟩
      · have := h.shape.given _ _ r.parentRow
        rw [← hp, hi'] at this
        exact Nat.lt_irrefl _ this
      · exact hnone _ _ hold
      · exact hnone _ _ hold
    · obtain ⟨hunspent, hunrevoked⟩ := live_iff.mp hlive
      rcases r.kind with ⟨-, hspent, -⟩ | ⟨-, -, hk, -⟩
      · simp [hunspent] at hspent
      · simp [hunrevoked] at hk
    · refine hold hi hlive ?_ hu
      rintro rfl
      rcases r.kind with ⟨hv, -⟩ | ⟨-, hspent, -⟩
      · exact hne hv.symm
      · cases r.parentRow.symm.trans hi
        simp [(live_iff.mp hlive).1] at hspent
  · obtain ⟨s₀, hs₀, hsame⟩ := touch_sessions hs'
    rw [← hsame] at hr'
    have hissued : Issued ((db.setToken victim killed').addToken child) parentId := r.issued h hs hr
    rcases replaced_lookup hi with ⟨-, rfl⟩ | ⟨rfl, rfl⟩ | ⟨hne, hi⟩
    · simp [(live_iff.mp r.childLive).1] at hused
    · rcases r.kind with ⟨rfl, -, hk⟩ | ⟨-, -, -, hk⟩
      · exact ⟨hk, hissued⟩
      · simp [hk] at hused
    · obtain ⟨hunrevoked, hold⟩ := h.spent i t s₀ hi hused hs₀ hr'
      refine ⟨hunrevoked, ?_⟩
      by_cases hp : i = parentId
      · exact hp ▸ hissued
      · exact r.others h hp hold

end Replacing

end Steps

section Grants

variable {db db' : Db} {now : Time}

theorem replace_cases (h : Inv db) (now : Time) (r : Replacement) :
    db.replace now r = .ok none ∧ (∀ t, db.tokens r.victim = some t → t.live = false) ∨
      db.replace now r = .error () ∧ (∃ i t, db.tokens i = some t ∧ t.hash = r.childHash) ∨
      ∃ t, db.tokens r.victim = some t ∧ t.live = true ∧ (∀ i u, db.tokens i = some u → u.hash ≠ r.childHash) ∧
        db.replace now r =
          .ok (some (((db.setToken r.victim (r.kill now t)).addToken r.child).touch r.row.sessionId now)) := by
  unfold Db.replace
  split
  next hnone => exact .inl ⟨rfl, fun t ht => nomatch hnone.symm.trans ht⟩
  next t ht =>
    split
    next hdead =>
      refine .inl ⟨rfl, fun u hu => ?_⟩
      cases ht.symm.trans hu
      simpa using hdead
    next hlive =>
      split
      next hfound =>
        obtain ⟨i, hi⟩ := Option.isSome_iff_exists.mp hfound
        obtain ⟨u, hu, hhash, -⟩ := findToken_some hi
        exact .inr (.inl ⟨rfl, i, u, hu, by simpa using hhash⟩)
      next hfree =>
        refine .inr (.inr ⟨t, ht, by simpa using hlive, fun i u hu he => hfree ?_, rfl⟩)
        exact findToken_isSome h.shape hu (by simpa using he)

/-- The row of a token that is in the store. -/
structure Presented (db : Db) (hash : Hash) (row : RefreshRow) (t : Token) (s : Session) : Prop where
  token : db.tokens row.id = some t
  hash : t.hash = hash
  session : db.sessions t.sessionId = some s
  row : row = refreshRow row.id t s

theorem findRefreshToken_some {hash : Hash} {row : RefreshRow} (h : db.findRefreshToken hash = some row) :
    ∃ t s, Presented db hash row t s := by
  simp only [Db.findRefreshToken, Option.bind_eq_bind, Option.bind_eq_some_iff, Option.pure_def,
    Option.some.injEq] at h
  obtain ⟨id, hid, t, ht, s, hs, rfl⟩ := h
  obtain ⟨t', ht', hhash, -⟩ := findToken_some hid
  cases ht.symm.trans ht'
  exact ⟨t, s, ht, by simpa using hhash, hs, rfl⟩

theorem findChildToken_some {parentId id : TokenId} {t : Token} (h : db.findChildToken parentId = some (id, t)) :
    Child db parentId id t ∧ ∀ j u, Child db parentId j u → id ≤ j := by
  simp only [Db.findChildToken, Option.bind_eq_bind, Option.bind_eq_some_iff, Option.pure_def,
    Option.some.injEq, Prod.mk.injEq] at h
  obtain ⟨id', hid, t', ht, rfl, rfl⟩ := h
  obtain ⟨u, hu, hp, hleast⟩ := findToken_some hid
  cases ht.symm.trans hu
  exact ⟨⟨ht, by simpa using hp⟩, fun j w hw => hleast j w hw.1 (by simpa using hw.2)⟩

theorem findChildToken_isSome (h : Inv db) {parentId id : TokenId} {t : Token} (ht : Child db parentId id t) :
    ∃ first u, db.findChildToken parentId = some (first, u) := by
  obtain ⟨first, hfirst⟩ := Option.isSome_iff_exists.mp
    (findToken_isSome h.shape (p := (·.parentId = some parentId)) ht.1 (by simpa using ht.2))
  obtain ⟨u, hu, -⟩ := findToken_some hfirst
  exact ⟨first, u, by simp [Db.findChildToken, hfirst, hu]⟩

/-- A spent token has children, the latest of them is the one in use. -/
theorem Presented.issued (h : Inv db) {hash : Hash} {row : RefreshRow} {t : Token} {s : Session} {usedAt : Time}
    (hp : Presented db hash row t s) (hused : row.usedAt = some usedAt) (hs : s.revokedAt = none) :
    t.revoked = false ∧ Issued db row.id := by
  refine h.spent row.id t s hp.token ?_ hp.session hs
  rw [hp.row] at hused
  exact Option.isSome_iff_exists.mpr ⟨usedAt, hused⟩

/-- A grace rotation of a live child. -/
theorem graceRotate_replaces {hash fresh : Hash} {row : RefreshRow} {t u : Token} {s : Session} {usedAt : Time}
    {id : TokenId} (hp : Presented db hash row t s) (hused : row.usedAt = some usedAt) (hu : Child db row.id id u)
    (hlive : u.live = true) :
    Replaces db row.id id t u ((graceRotate hash row id fresh).kill now u) (graceRotate hash row id fresh).child where
  parentRow := hp.token
  victimRow := hu.1
  live := hlive
  hash := rfl
  session := rfl
  parentage := rfl
  kind := by
    rw [hp.row] at hused
    exact .inr ⟨hu, Option.isSome_iff_exists.mpr ⟨usedAt, hused⟩, rfl, (live_iff.mp hlive).1⟩
  ofParent := rfl
  ofSession := (congrArg RefreshRow.sessionId hp.row)
  childLive := rfl

theorem rotate_replaces {hash fresh : Hash} {row : RefreshRow} {t : Token} {s : Session}
    (hp : Presented db hash row t s) (hlive : t.live = true) :
    Replaces db row.id row.id t t ((rotateRefreshToken hash row fresh).kill now t)
      (rotateRefreshToken hash row fresh).child where
  parentRow := hp.token
  victimRow := hp.token
  live := hlive
  hash := rfl
  session := rfl
  parentage := rfl
  kind := .inl ⟨rfl, rfl, (live_iff.mp hlive).2⟩
  ofParent := rfl
  ofSession := (congrArg RefreshRow.sessionId hp.row)
  childLive := rfl

/-- The rows after a replacement. -/
def replaced (db : Db) (now : Time) (r : Replacement) (t : Token) : Db :=
  ((db.setToken r.victim (r.kill now t)).addToken r.child).touch r.row.sessionId now

theorem alreadySpent_cases (h : Inv db) (q : Grant) (row : RefreshRow) (usedAt : Time) :
    alreadySpent db q row usedAt = theft db q row ∧ (usedAt + REFRESH_GRACE_MS < q.now ∨
        ∀ id t, db.findChildToken row.id = some (id, t) → t.live = false) ∨
      alreadySpent db q row usedAt = (.error, db) ∧ q.now ≤ usedAt + REFRESH_GRACE_MS ∧
        (∃ id t, db.findChildToken row.id = some (id, t) ∧ t.live = true) ∧
        (∃ i t, db.tokens i = some t ∧ t.hash = q.fresh) ∨
      ∃ id t, q.now ≤ usedAt + REFRESH_GRACE_MS ∧ db.findChildToken row.id = some (id, t) ∧ t.live = true ∧
        (∀ i u, db.tokens i = some u → u.hash ≠ q.fresh) ∧
        alreadySpent db q row usedAt = (.granted, replaced db q.now (graceRotate q.presented row id q.fresh) t) := by
  unfold alreadySpent
  split
  next hgrace =>
    split
    next hnone => exact .inl ⟨rfl, .inr fun id t hid => nomatch hnone.symm.trans hid⟩
    next id t hid =>
      split
      next hlive =>
        rcases replace_cases h q.now (graceRotate q.presented row id q.fresh) with
          ⟨-, hdead⟩ | ⟨he, hcollision⟩ | ⟨u, hu, hulive, hfresh, he⟩
        · have := hdead t (findChildToken_some hid).1.1
          rw [hlive] at this
          cases this
        · rw [he]
          exact .inr (.inl ⟨rfl, hgrace, ⟨id, t, hid, hlive⟩, hcollision⟩)
        · cases (findChildToken_some hid).1.1.symm.trans hu
          rw [he]
          exact .inr (.inr ⟨id, t, hgrace, hid, hlive, hfresh, rfl⟩)
      next hdead =>
        refine .inl ⟨rfl, .inr fun id' t' hid' => ?_⟩
        cases hid.symm.trans hid'
        simpa using hdead
  next hlate => exact .inl ⟨rfl, .inl (Nat.lt_of_not_le hlate)⟩

/-- The gates that a token passes before its use is looked at. -/
structure Passes (idleSeconds : Nat) (q : Grant) (row : RefreshRow) : Prop where
  alive : row.dead = false
  fresh : row.idleExpired idleSeconds q.now = false
  user : q.barred = false

theorem refreshGrant_spent {idleSeconds : Nat} {q : Grant} {row : RefreshRow} {usedAt : Time}
    (hrow : db.findRefreshToken q.presented = some row) (hpass : Passes idleSeconds q row)
    (hused : row.usedAt = some usedAt) : refreshGrant idleSeconds db q = alreadySpent db q row usedAt := by
  simp [refreshGrant, hrow, hpass.alive, hpass.fresh, hpass.user, hused]

theorem refreshGrant_stopped {idleSeconds : Nat} {q : Grant} {row : RefreshRow}
    (hrow : db.findRefreshToken q.presented = some row) (hpass : ¬ Passes idleSeconds q row) :
    row.dead = true ∧ refreshGrant idleSeconds db q = (.badGrant, db) ∨
      refreshGrant idleSeconds db q = (.badGrant, db.revokeSessionFamily q.now row.sessionId) := by
  by_cases hdead : row.dead = true
  · exact .inl ⟨hdead, by simp [refreshGrant, hrow, hdead]⟩
  by_cases hidle : row.idleExpired idleSeconds q.now = true
  · exact .inr (by simp [refreshGrant, hrow, hdead, hidle])
  by_cases hbarred : q.barred = true
  · exact .inr (by simp [refreshGrant, hrow, hdead, hidle, hbarred])
  · exact absurd ⟨by simpa using hdead, by simpa using hidle, by simpa using hbarred⟩ hpass

theorem Presented.unrevoked {hash : Hash} {row : RefreshRow} {t : Token} {s : Session}
    (hp : Presented db hash row t s) (halive : row.dead = false) : t.revoked = false ∧ s.revokedAt = none := by
  rw [hp.row] at halive
  simpa [RefreshRow.dead, refreshRow] using halive

theorem alreadySpent_inv (h : Inv db) {q : Grant} {row : RefreshRow} {t : Token} {s : Session} {usedAt : Time}
    (hp : Presented db q.presented row t s) (hs : s.revokedAt = none) (hused : row.usedAt = some usedAt) :
    Inv (alreadySpent db q row usedAt).2 := by
  rcases alreadySpent_cases h q row usedAt with ⟨he, -⟩ | ⟨he, -⟩ | ⟨id, u, -, hid, hlive, hfresh, he⟩ <;> rw [he]
  · exact h.revoke _ _
  · exact h
  · exact (graceRotate_replaces hp hused (findChildToken_some hid).1 hlive).inv h hp.session hs hfresh q.now

theorem refreshGrant_inv (h : Inv db) (idleSeconds : Nat) (q : Grant) : Inv (refreshGrant idleSeconds db q).2 := by
  cases hrow : db.findRefreshToken q.presented with
  | none => simpa [refreshGrant, hrow] using h
  | some row =>
      by_cases hpass : Passes idleSeconds q row
      · obtain ⟨t, s, hp⟩ := findRefreshToken_some hrow
        obtain ⟨hrevoked, hs⟩ := hp.unrevoked hpass.alive
        cases hused : row.usedAt with
        | some usedAt =>
            rw [refreshGrant_spent hrow hpass hused]
            exact alreadySpent_inv h hp hs hused
        | none =>
            have hlive : t.live = true := by
              rw [hp.row] at hused
              exact live_iff.mpr ⟨hused, hrevoked⟩
            simp only [refreshGrant, hrow, hpass.alive, hpass.fresh, hpass.user, hused, Bool.false_eq_true, if_false]
            rcases replace_cases h q.now (rotateRefreshToken q.presented row q.fresh) with
              ⟨-, hdead⟩ | ⟨he, -⟩ | ⟨u, hu, -, hfresh, he⟩
            · rw [hdead t hp.token] at hlive
              cases hlive
            · rw [he]
              exact h
            · cases hp.token.symm.trans hu
              rw [he]
              exact (rotate_replaces hp hlive).inv h hp.session hs hfresh q.now
      · rcases refreshGrant_stopped hrow hpass with ⟨-, he⟩ | he <;> rw [he]
        · exact h
        · exact h.revoke _ _

end Grants

theorem inv_empty : Inv .empty := ⟨⟨nofun, fun _ _ => rfl, nofun, nofun, nofun⟩, nofun, nofun, nofun⟩

theorem Reachable.inv {idleSeconds : Nat} {db : Db} (h : Reachable idleSeconds db) : Inv db := by
  induction h with
  | start => exact inv_empty
  | step r _ ih =>
      cases r with
      | refresh q => exact refreshGrant_inv ih idleSeconds q
      | revoke now hit => exact ih.revoke now hit
      | signIn userId now hash =>
          simp only [handle]
          split
          next => exact ih
          next hfree =>
            refine ih.openSession userId now fun i u hu he => hfree ?_
            exact findToken_isSome ih.shape hu (by simpa using he)

/-- A token that the next refresh can be made with. -/
def Working (db : Db) (hash : Hash) (sessionId : SessionId) : Prop :=
  ∃ id t s, db.tokens id = some t ∧ t.hash = hash ∧ t.live = true ∧ t.sessionId = sessionId ∧
    db.sessions sessionId = some s ∧ s.revokedAt = none

/-- The whole family is revoked. -/
def Ended (db : Db) (sessionId : SessionId) : Prop :=
  (∀ s, db.sessions sessionId = some s → s.revokedAt.isSome) ∧
    ∀ id t, db.tokens id = some t → t.sessionId = sessionId → t.revoked = true

/-- The token is presented again in time, and none of its children has been spent. -/
structure Retry (idleSeconds : Nat) (db : Db) (q : Grant) (row : RefreshRow) (usedAt : Time) : Prop where
  passes : Passes idleSeconds q row
  grace : q.now ≤ usedAt + REFRESH_GRACE_MS
  unspent : ∀ id t, Child db row.id id t → t.usedAt = none
  fresh : ∀ id t, db.tokens id = some t → t.hash ≠ q.fresh

/-- The token is presented again too late, or one of its children has been spent. -/
def Replay (db : Db) (q : Grant) (row : RefreshRow) (usedAt : Time) : Prop :=
  usedAt + REFRESH_GRACE_MS < q.now ∨ ∃ id t, Child db row.id id t ∧ t.usedAt.isSome

/-- Only one token has been issued from this one. -/
def Single (db : Db) (id : TokenId) : Prop := ∀ j k t u, Child db id j t → Child db id k u → j = k

section Answers

variable {idleSeconds : Nat} {db : Db} {q : Grant} {row : RefreshRow} {t : Token} {s : Session} {usedAt : Time}

theorem ended_family (db : Db) (now : Time) (sessionId : SessionId) :
    Ended (db.revokeSessionFamily now sessionId) sessionId := by
  constructor
  · intro s hs
    obtain ⟨s', -, hrev⟩ := revoke_sessions hs
    exact hrev.mpr (.inr (by simp))
  · intro id t ht hs
    obtain ⟨t', -, rfl⟩ := revoke_tokens ht
    rw [(revoke_same _ t').2.1] at hs
    simp [hs, Token.revoke]

theorem retry_first (h : Inv db) (hp : Presented db q.presented row t s) (hused : row.usedAt = some usedAt)
    (hr : Retry idleSeconds db q row usedAt) {first : TokenId} {u : Token}
    (hfirst : db.findChildToken row.id = some (first, u)) : u.live = true ↔ Single db row.id := by
  obtain ⟨-, hs⟩ := hp.unrevoked hr.passes.alive
  obtain ⟨-, last, w, hw, hwr, hother⟩ := hp.issued h hused hs
  obtain ⟨hu, hleast⟩ := findChildToken_some hfirst
  rw [live_iff, and_iff_right (hr.unspent first u hu)]
  constructor
  · intro hur
    have hfl : first = last := by
      by_contra hne
      rw [(hother first u hu hne).2.1] at hur
      cases hur
    have hall : ∀ j v, Child db row.id j v → j = last := by
      intro j v hv
      by_contra hne
      exact absurd (hleast j v hv) (Nat.not_le_of_lt (hfl ▸ (hother j v hv hne).1))
    exact fun j k v v' hv hv' => (hall j v hv).trans (hall k v' hv').symm
  · intro hsingle
    cases hsingle first last u w hu hw
    cases hu.1.symm.trans hw.1
    exact hwr

theorem granted_working (hp : Presented db q.presented row t s) (hs : s.revokedAt = none)
    {id : TokenId} {u : Token} :
    Working (replaced db q.now (graceRotate q.presented row id q.fresh) u) q.fresh row.sessionId := by
  have hsession : row.sessionId = t.sessionId := congrArg RefreshRow.sessionId hp.row
  refine ⟨db.nextToken, (graceRotate q.presented row id q.fresh).child, s.touch q.now, ?_, rfl, rfl, rfl, ?_, hs⟩
  · exact (addToken_tokens _).trans (if_pos rfl)
  · rw [replaced, touch_apply, hsession]
    change (db.sessions t.sessionId).map _ = _
    simp [hp.session, graceRotate, hsession]

theorem not_working_theft : ¬ Working (theft db q row).2 q.fresh row.sessionId := by
  rintro ⟨id, t, s, -, -, -, -, hs, hr⟩
  have := (ended_family db q.now row.sessionId).1 s hs
  simp [hr] at this

theorem retry_answer (h : Inv db) (hp : Presented db q.presented row t s)
    (hrow : db.findRefreshToken q.presented = some row) (hused : row.usedAt = some usedAt)
    (hr : Retry idleSeconds db q row usedAt) :
    (refreshGrant idleSeconds db q).1 = .granted ∧ Working (refreshGrant idleSeconds db q).2 q.fresh row.sessionId ↔
      Single db row.id := by
  obtain ⟨-, hs⟩ := hp.unrevoked hr.passes.alive
  obtain ⟨-, last, w, hw, -⟩ := hp.issued h hused hs
  obtain ⟨first, u, hfirst⟩ := findChildToken_isSome h hw
  rw [refreshGrant_spent hrow hr.passes hused, ← retry_first h hp hused hr hfirst]
  rcases alreadySpent_cases h q row usedAt with ⟨he, hlate | hdead⟩ | ⟨-, -, -, i, v, hv, hhash⟩ |
    ⟨id, v, -, hid, hlive, -, he⟩
  · exact absurd hr.grace (Nat.not_le_of_lt hlate)
  · rw [he, hdead first u hfirst]
    exact ⟨fun hw => absurd hw.2 not_working_theft, nofun⟩
  · exact absurd hhash (hr.fresh i v hv)
  · cases hfirst.symm.trans hid
    rw [he]
    exact ⟨fun _ => hlive, fun _ => ⟨rfl, granted_working hp hs⟩⟩

theorem replay_answer (h : Inv db) (hp : Presented db q.presented row t s)
    (hrow : db.findRefreshToken q.presented = some row) (hused : row.usedAt = some usedAt)
    (hr : Replay db q row usedAt) :
    (refreshGrant idleSeconds db q).1 = .badGrant ∧ Ended (refreshGrant idleSeconds db q).2 row.sessionId := by
  have hsession : row.sessionId = t.sessionId := congrArg RefreshRow.sessionId hp.row
  by_cases hpass : Passes idleSeconds q row
  · rw [refreshGrant_spent hrow hpass hused]
    obtain ⟨-, hs⟩ := hp.unrevoked hpass.alive
    have hdead : ∀ id v, q.now ≤ usedAt + REFRESH_GRACE_MS → db.findChildToken row.id = some (id, v) →
        v.live = false := by
      intro id v hgrace hid
      rcases hr with hlate | ⟨j, x, hx, hspent⟩
      · exact absurd hgrace (Nat.not_le_of_lt hlate)
      obtain ⟨-, last, w, hw, -, hother⟩ := hp.issued h hused hs
      by_contra hlive
      obtain ⟨hunspent, hunrevoked⟩ := live_iff.mp (by simpa using hlive)
      have hlast : ∀ k y, Child db row.id k y → y.usedAt.isSome ∨ y.revoked = false → k = last := by
        intro k y hy hyk
        by_contra hne
        obtain ⟨-, hyr, hyu⟩ := hother k y hy hne
        simp [hyr, hyu] at hyk
      obtain ⟨hv, -⟩ := findChildToken_some hid
      cases hlast j x hx (.inl hspent)
      cases hlast id v hv (.inr hunrevoked)
      cases hv.1.symm.trans hx.1
      simp [hunspent] at hspent
    rcases alreadySpent_cases h q row usedAt with ⟨he, -⟩ | ⟨-, hgrace, ⟨id, v, hid, hlive⟩, -⟩ |
      ⟨id, v, hgrace, hid, hlive, -⟩
    · rw [he]
      exact ⟨rfl, ended_family _ _ _⟩
    · rw [hdead id v hgrace hid] at hlive
      cases hlive
    · rw [hdead id v hgrace hid] at hlive
      cases hlive
  · rcases refreshGrant_stopped hrow hpass with ⟨hdead, he⟩ | he <;> rw [he]
    · have hs : s.revokedAt.isSome := by
        by_contra hs
        have hs' : s.revokedAt = none := by simpa using hs
        have := (hp.issued h hused hs').1
        rw [hp.row] at hdead
        simp [RefreshRow.dead, refreshRow, this, hs'] at hdead
      refine ⟨rfl, fun s' hs' => ?_, fun id v hv hvs => ?_⟩
      · rw [hsession] at hs'
        cases hp.session.symm.trans hs'
        exact hs
      · exact h.ended id v s hv (hvs.trans hsession ▸ hp.session) hs
    · exact ⟨rfl, ended_family _ _ _⟩

end Answers

section Examples

/-- A session is opened, and its token is presented at 1 s. -/
def rotated : Db := handle 3600 (handle 3600 .empty (.signIn 1 0 10)) (.refresh ⟨10, 11, 1000, false⟩)

/-- The same token is presented again at 2 s. -/
def retried : Db := handle 3600 rotated (.refresh ⟨10, 12, 2000, false⟩)

theorem rotated_reachable : Reachable 3600 rotated := (Reachable.start.step _).step _

theorem retried_reachable : Reachable 3600 retried := rotated_reachable.step _

def presentedRow (lastRefreshedAt : Time) : RefreshRow := ⟨0, 1, 0, some 1000, false, none, some lastRefreshedAt, 0⟩

theorem rotated_tokens {id : TokenId} {t : Token} (h : rotated.tokens id = some t) :
    t = ⟨10, 1, 0, none, some 1000, false⟩ ∨ id = 1 ∧ t = ⟨11, 1, 0, some 0, none, false⟩ := by
  have hid : id < 2 := rotated_reachable.inv.shape.given id t h
  match id, hid with
  | 0, _ => exact .inl (Option.some.inj h).symm
  | 1, _ => exact .inr ⟨rfl, (Option.some.inj h).symm⟩

end Examples

end Corebase.RefreshGrace
