import Corebase.LastOwner
import Corebase.Memberships

namespace Corebase.RoleAuthority

open Interleaving RowLocks Memberships
open Organizations (Client OrgId UserId Role)

variable {c d : Client} {s s' : Store} {org : OrgId} {actor target : UserId} {role new : Role} {deed : Deed} {seen : Seen}
  {chance : Organizations.Chance} {db db' : Organizations.Store}

/-- The actor has at least the role that was read, and the target at most. -/
def Holds (seen : Seen) (roles : OrgId × UserId → Option Role) : Prop :=
  (∃ role, roles (seen.org, seen.actor) = some role ∧ rank seen.role ≤ rank role) ∧
    ∀ target role, seen.target = some (target, role) → ∀ subject, roles (seen.org, target) = some subject →
      rank subject ≤ rank role

def Permitted (e : Committed) : Prop :=
  ∃ role subject, e.actor = some role ∧ e.target = some subject ∧ canActOn role subject = true ∧ match e.deed.role with
    | some new => canAssignRole role new = true
    | none => e.deed.target = e.deed.actor ∨ can role .memberRemove = true

/-- Nobody has been demoted, removed or promoted in a way that the route would have refused to act upon. -/
def Upheld (e : Committed) : Prop :=
  ∃ seen role, e.seen = some seen ∧ e.actor = some role ∧ rank seen.role ≤ rank role ∧
    ∀ read, seen.target = some (e.deed.target, read) → ∀ subject, e.target = some subject → rank subject ≤ rank read

structure Inv (s : Store) : Prop where
  log : ∀ e ∈ s.log, Permitted e ∧ Upheld e
  seen : ∀ c seen, s.seen c = some seen → Holds seen s.db.members.committed

/-- What is committed demotes or removes no actor of another route under way, and promotes no target of one. -/
def Allowed (c : Client) : Op → Store → Prop
  | .store _ .commit, s => ∀ d, d ≠ c → ∀ seen, s.seen d = some seen → Holds seen (s.db.members.view c)
  | _, _ => True

def discipline : Discipline Client Store Op where
  Inv := Inv
  Guar c s s' := ∀ d, d ≠ c → s'.seen d = s.seen d ∧ Table.Undisturbed d s.db.members s'.db.members
  Idle c s := s.seen c = none ∧ s.db.members.Out c
  Allowed := Allowed

section Roles

theorem canActOn_mono {a a' t t' : Role} (h : canActOn a t = true) (ha : rank a ≤ rank a') (ht : rank t' ≤ rank t) :
    canActOn a' t' = true := by
  simp only [canActOn, decide_eq_true_eq] at h ⊢
  omega

theorem capabilities_mono {a a' : Role} (ha : rank a ≤ rank a') : roleCapabilities a ⊆ roleCapabilities a' := by
  have hadmin : memberCapabilities ⊆ adminCapabilities := List.subset_append_left ..
  have howner : adminCapabilities ⊆ ownerCapabilities := List.subset_append_left ..
  cases a with
  | member =>
      cases a' with
      | member => exact List.Subset.refl _
      | admin => exact hadmin
      | owner => exact List.Subset.trans hadmin howner
  | admin =>
      cases a' with
      | member => cases Nat.not_succ_le_self 1 ha
      | admin => exact List.Subset.refl _
      | owner => exact howner
  | owner =>
      cases a' with
      | owner => exact List.Subset.refl _
      | _ => simp [rank] at ha

theorem can_mono {a a' : Role} {capability : Capability} (h : can a capability = true) (ha : rank a ≤ rank a') :
    can a' capability = true := by
  simp only [can, decide_eq_true_eq] at h ⊢
  exact capabilities_mono ha h

theorem canAssignRole_mono {a a' : Role} (h : canAssignRole a new = true) (ha : rank a ≤ rank a') :
    canAssignRole a' new = true := by
  simp only [canAssignRole] at h ⊢
  split at h
  · cases h
  next hchange =>
    rw [can_mono (by simpa using hchange) ha]
    split at h
    next howner => simpa [howner] using can_mono h ha
    next howner => simp [howner]

/-- What the route has found the actor entitled to. -/
structure Entitled (deed : Deed) (seen : Seen) : Prop where
  org : seen.org = deed.org
  actor : seen.actor = deed.actor
  target : deed.target = deed.actor ∧ deed.role = none ∨
    ∃ subject, seen.target = some (deed.target, subject) ∧ canActOn seen.role subject = true ∧ match deed.role with
      | some new => canAssignRole seen.role new = true
      | none => can seen.role .memberRemove = true

theorem Entitled.authorised (h : Entitled deed seen) (hI : Inv s) (hseen : s.seen c = some seen) {subject : Role}
    (hsubject : s.db.members.committed (deed.org, deed.target) = some subject) :
    Permitted (note c s deed) ∧ Upheld (note c s deed) := by
  obtain ⟨⟨role, hrole, hrank⟩, htarget⟩ := hI.seen c seen hseen
  rw [h.org, h.actor] at hrole
  rw [h.org] at htarget
  constructor
  · refine ⟨role, subject, hrole, hsubject, ?_⟩
    rcases h.target with ⟨hself, hleave⟩ | ⟨read, hread, hact, hmay⟩
    · rw [hself] at hsubject
      obtain rfl : role = subject := Option.some.inj (hrole.symm.trans hsubject)
      refine ⟨by simp [canActOn], ?_⟩
      simp only [note, hleave]
      exact .inl hself
    · refine ⟨canActOn_mono hact hrank (htarget _ _ hread _ hsubject), ?_⟩
      simp only [note]
      split
      next new hnew =>
        rw [hnew] at hmay
        exact canAssignRole_mono hmay hrank
      next hnew =>
        rw [hnew] at hmay
        exact .inr (can_mono hmay hrank)
  · exact ⟨seen, role, hseen, hrole, hrank, fun read hread => htarget _ _ hread⟩

end Roles

section Statements

/-- A statement within a transaction changes no row but under a lock. -/
theorem writes {op : Organizations.Op} {r : Organizations.Reply op} (hop : closes op = false)
    (h : Organizations.exec c chance op db = some (r, db')) :
    db'.members = db.members ∨ ∃ k v, db.members.free c k = true ∧ db'.members = db.members.write c k v := by
  cases op with
  | insertOrg slug =>
      obtain ⟨-, rfl⟩ | ⟨-, -, rfl⟩ := LastOwner.insertOrg_cases h
      · exact .inl rfl
      · exact .inl rfl
  | insertOwner org user =>
      obtain ⟨-, rfl⟩ | ⟨-, hfree, rfl⟩ := LastOwner.insertOwner_cases chance h
      · exact .inl rfl
      · exact .inr ⟨_, _, hfree, rfl⟩
  | lockMember org user =>
      obtain ⟨-, rfl⟩ | ⟨role, -, hfree, -, rfl⟩ := LastOwner.lockMember_cases h
      · exact .inl rfl
      · exact .inr ⟨_, _, hfree, rfl⟩
  | owners org =>
      cases h
      exact .inl rfl
  | lockOwner org user =>
      obtain ⟨-, rfl⟩ | ⟨-, hfree, -, rfl⟩ := LastOwner.lockOwner_cases h
      · exact .inl rfl
      · exact .inr ⟨_, _, hfree, rfl⟩
  | updateRole org user role =>
      simp only [Organizations.exec] at h
      split at h
      next hfree =>
        cases h
        split
        · exact .inr ⟨_, _, hfree, rfl⟩
        · exact .inl rfl
      next => cases h
  | deleteMember org user =>
      simp only [Organizations.exec] at h
      split at h
      next hfree =>
        cases h
        split
        · exact .inr ⟨_, _, hfree, rfl⟩
        · exact .inl rfl
      next => cases h
  | lockInvite token =>
      obtain ⟨invites, rfl⟩ := LastOwner.lockInvite_keeps h
      exact .inl rfl
  | addMember org user role =>
      simp only [Organizations.exec] at h
      split at h
      · cases h
        exact .inl rfl
      · split at h
        next e v hlock =>
          split at h
          next he =>
            subst he
            split at h <;> cases h
            · exact .inr ⟨_, _, by simp [Table.free, hlock], rfl⟩
            · exact .inl rfl
          next =>
            split at h <;> cases h
            exact .inl rfl
        next hlock =>
          split at h <;> cases h
          · exact .inr ⟨_, _, by simp [Table.free, hlock], rfl⟩
          · exact .inl rfl
  | markAccepted id =>
      obtain ⟨invites, rfl⟩ := LastOwner.markAccepted_keeps h
      exact .inl rfl
  | commit => cases hop
  | rollback => cases hop

theorem committed_of_writes {op : Organizations.Op} {r : Organizations.Reply op} (hop : closes op = false)
    (h : Organizations.exec c chance op db = some (r, db')) : db'.members.committed = db.members.committed := by
  rcases writes hop h with heq | ⟨k, v, -, heq⟩ <;> rw [heq]
  rfl

/-- A row that the client holds stays its own. -/
theorem lock_of_writes {op : Organizations.Op} {r : Organizations.Reply op} (hop : closes op = false)
    (h : Organizations.exec c chance op db = some (r, db')) {k : OrgId × UserId} {v : Option Role}
    (hlock : db.members.lock k = some (c, v)) : ∃ v, db'.members.lock k = some (c, v) := by
  rcases writes hop h with heq | ⟨j, w, -, heq⟩
  · exact ⟨v, by rw [heq, hlock]⟩
  · by_cases hj : k = j
    · subst hj
      exact ⟨w, by rw [heq, Table.lock_write_self]⟩
    · exact ⟨v, by rw [heq, Table.lock_write_of_ne hj, hlock]⟩

end Statements

section Rely

theorem stable_out : discipline.Stable c fun s => s.db.members.Out c :=
  fun _ hd _ _ _ hguar h => h.stable (hguar c hd.symm).2

theorem stable_seen {o : Option Seen} : discipline.Stable c fun s => s.seen c = o :=
  fun _ hd _ _ _ hguar h => (hguar c hd.symm).1.trans h

/-- The target as a transaction holds it. -/
def Held (c : Client) (k : OrgId × UserId) (s : Store) : Prop :=
  ∃ v subject, s.db.members.lock k = some (c, v) ∧ s.db.members.committed k = some subject

theorem stable_held {k : OrgId × UserId} : discipline.Stable c (Held c k) := by
  intro d hd s s' _ hguar ⟨v, subject, hlock, hsubject⟩
  have hundisturbed := (hguar c hd.symm).2
  exact ⟨v, subject, (hundisturbed _ _).1.mpr hlock, ((hundisturbed _ _).2 hlock).trans hsubject⟩

theorem Inv.of_eq (h : Inv s) (hlog : s'.log = s.log) (hcommitted : s'.db.members.committed = s.db.members.committed)
    (hseen : ∀ d seen, s'.seen d = some seen → s.seen d = some seen ∨ Holds seen s.db.members.committed) : Inv s' := by
  constructor
  · rw [hlog]
    exact h.log
  · intro d seen hd
    rw [hcommitted]
    rcases hseen d seen hd with hd | hd
    · exact h.seen d seen hd
    · exact hd

theorem seen_cleared {d : Client} {seen : Seen} (h : Function.update s.seen c none d = some seen) : d ≠ c ∧ s.seen d = some seen := by
  by_cases hd : d = c
  · subst hd
    simp at h
  · rw [Function.update_of_ne hd] at h
    exact ⟨hd, h⟩

end Rely

section Transactions

/-- Nothing comes after the last statement, and it comes. -/
def Closed : Program Organizations.Op Organizations.Reply → Prop
  | .done => False
  | .step op next => ∀ r, if closes op then next r = .done else Closed (next r)

theorem meets_rollback {Q : Store → Prop} :
    discipline.Meets memberships c (transaction deed (.step .rollback fun _ => .done)) Q := by
  intro s chance r s' hI _ _ hexec
  cases hexec
  refine ⟨hI.of_eq rfl rfl fun d seen hd => .inl (seen_cleared hd).2, fun d hd => ⟨Function.update_of_ne hd .., ?_⟩,
    _, stable_seen.and stable_out, ⟨Function.update_self .., Table.out_rollback⟩, fun _ _ h => h⟩
  exact Table.undisturbed_rollback hd

/-- What holds throughout a transaction entitles to what it commits. -/
theorem meets_transaction {o : Option Deed} {A : Store → Prop} (hstable : discipline.Stable c A)
    (hkeeps : ∀ s s', A s → s'.seen = s.seen → s'.db.members.committed = s.db.members.committed →
      (∀ k v, s.db.members.lock k = some (c, v) → ∃ v, s'.db.members.lock k = some (c, v)) → A s')
    (hdeed : ∀ s deed, Inv s → A s → o = some deed → Permitted (note c s deed) ∧ Upheld (note c s deed))
    {p : Program Organizations.Op Organizations.Reply} (hp : Closed p) : discipline.Meets memberships c (transaction o p) A := by
  induction p with
  | done => cases hp
  | step op next ih =>
      intro s chance r s' hI hA hallowed hexec
      obtain ⟨⟨r', db⟩, hstore, heq⟩ := Option.map_eq_some_iff.mp hexec
      cases heq
      by_cases hop : closes op = true
      · have hdone := hp r
        rw [if_pos hop] at hdone
        have hidle : discipline.Meets memberships c (transaction o (next r)) fun s => s.seen c = none ∧ s.db.members.Out c := by
          rw [hdone]
          exact fun _ _ h => h
        cases op with
        | commit =>
            cases hstore
            refine ⟨⟨fun e he => ?_, fun d seen hd => ?_⟩, fun d hd => ⟨Function.update_of_ne hd .., Table.undisturbed_commit hd⟩,
              _, stable_seen.and stable_out, ⟨Function.update_self .., Table.out_commit⟩, hidle⟩
            · rcases List.mem_append.mp he with he | he
              · cases o with
                | none => cases he
                | some deed =>
                    obtain rfl := List.mem_singleton.mp he
                    exact hdeed s deed hI hA rfl
              · exact hI.log e he
            · obtain ⟨hne, hd⟩ := seen_cleared hd
              exact hallowed d hne seen hd
        | rollback =>
            cases hstore
            exact ⟨hI.of_eq rfl rfl fun d seen hd => .inl (seen_cleared hd).2,
              fun d hd => ⟨Function.update_of_ne hd .., Table.undisturbed_rollback hd⟩,
              _, stable_seen.and stable_out, ⟨Function.update_self .., Table.out_rollback⟩, hidle⟩
        | _ => cases hop
      · have hop : closes op = false := by simpa using hop
        have hrest := hp r
        rw [hop] at hrest
        have hcommit : op ≠ .commit := by
          rintro rfl
          cases hop
        simp only [hop, hcommit, if_false, Bool.false_eq_true]
        refine ⟨hI.of_eq rfl (committed_of_writes hop hstore) fun _ _ => .inl, fun d hd => ⟨rfl, ?_⟩, A, hstable,
          hkeeps s _ hA rfl (committed_of_writes hop hstore) fun k v => lock_of_writes hop hstore, ih r hrest⟩
        rcases writes hop hstore with heq | ⟨k, v, hfree, heq⟩
        · simp only [heq]
          exact .refl
        · simp only [heq]
          exact Table.undisturbed_write hd hfree

theorem closed_committed : Closed Organizations.committed := fun _ => rfl

theorem closed_rolledBack : Closed Organizations.rolledBack := fun _ => rfl

theorem closed_lockOwners {next : Nat → Program Organizations.Op Organizations.Reply} (hnext : ∀ count, Closed (next count))
    (users : List UserId) (count : Nat) : Closed (Organizations.lockOwners org next users count) := by
  induction users generalizing count with
  | nil => exact hnext count
  | cons user users ih => exact fun locked => ih _

theorem closed_assertNotLastOwner {next : Program Organizations.Op Organizations.Reply} (hnext : Closed next) :
    Closed (Organizations.assertNotLastOwner org next) := by
  intro users
  refine closed_lockOwners (fun count => ?_) users 0
  split
  · exact closed_rolledBack
  · exact hnext

theorem closed_create {slug : Organizations.Slug} {user : UserId} : Closed (Organizations.create slug user) := by
  intro found
  cases found with
  | none => exact closed_rolledBack
  | some org =>
      intro ok
      cases ok with
      | true => exact closed_committed
      | false => exact closed_rolledBack

theorem closed_acceptInvite {token : Organizations.TokenHash} {user : UserId} {email : Organizations.Address} :
    Closed (Organizations.acceptInvite token user email) := by
  intro found
  cases found with
  | none => exact closed_rolledBack
  | some found =>
      by_cases hemail : found.2.email = email
      · simp only [hemail, ne_eq, not_true_eq_false, if_false]
        intro ok
        cases ok with
        | true => exact fun _ => closed_committed
        | false => exact closed_rolledBack
      · simp only [ne_eq, hemail, not_false_eq_true, if_true]
        exact closed_rolledBack

/-- A transaction that is no deed. -/
theorem meets_other {p : Program Organizations.Op Organizations.Reply} (hp : Closed p) {Q : Store → Prop} :
    discipline.Meets memberships c (transaction none p) Q :=
  (meets_transaction (A := fun _ => True) Discipline.stable_true (fun _ _ _ _ _ _ => trivial) (fun _ _ _ _ h => by cases h) hp).mono
    fun _ _ _ => trivial

/-- A transaction that begins with the lock on its target. -/
theorem meets_deed (hentitled : Entitled deed seen)
    {next : Option Role → Program Organizations.Op Organizations.Reply} (hnone : next none = Organizations.rolledBack)
    (hsome : ∀ role, Closed (next (some role))) :
    discipline.Meets memberships c (transaction (some deed) (.step (.lockMember deed.org deed.target) next))
      fun s => s.seen c = some seen ∧ s.db.members.Out c := by
  intro s chance r s' hI ⟨hseen, hout⟩ _ hexec
  obtain ⟨⟨r, db⟩, hstore, heq⟩ := Option.map_eq_some_iff.mp hexec
  cases heq
  obtain ⟨rfl, rfl⟩ | ⟨role, rfl, hfree, hview, rfl⟩ := LastOwner.lockMember_cases hstore
  · refine ⟨hI, fun _ _ => ⟨rfl, .refl⟩, _, Discipline.stable_true, trivial, ?_⟩
    simp only [hnone]
    exact meets_rollback
  · have hrole : s.db.members.committed (deed.org, deed.target) = some role := hout.untouched.view.symm.trans hview
    refine ⟨hI.of_eq rfl rfl fun _ _ => .inl, fun d hd => ⟨rfl, Table.undisturbed_write hd hfree⟩,
      fun s => s.seen c = some seen ∧ Held c (deed.org, deed.target) s, stable_seen.and stable_held,
      ⟨hseen, _, role, Table.lock_write_self, hrole⟩, ?_⟩
    refine meets_transaction (stable_seen.and stable_held) ?_ ?_ (hsome role)
    · rintro s s' ⟨hseen, v, subject, hlock, hsubject⟩ hsame hcommitted hlocks
      obtain ⟨w, hw⟩ := hlocks _ _ hlock
      exact ⟨by rw [hsame, hseen], w, subject, hw, by rw [hcommitted, hsubject]⟩
    · rintro s deed hI ⟨hseen, v, subject, -, hsubject⟩ heq
      cases heq
      exact hentitled.authorised hI hseen hsubject

theorem meets_setRole (hentitled : Entitled ⟨org, actor, target, some new⟩ seen) :
    discipline.Meets memberships c (transaction (some ⟨org, actor, target, some new⟩) (Organizations.setRole org target new))
      fun s => s.seen c = some seen ∧ s.db.members.Out c := by
  refine meets_deed hentitled rfl fun previous => ?_
  have hchange : Closed (.step (.updateRole org target new) fun _ => Organizations.committed) := fun _ => closed_committed
  by_cases hdemotes : previous = .owner ∧ new ≠ .owner
  · simp only [if_pos hdemotes]
    exact closed_assertNotLastOwner hchange
  · simp only [if_neg hdemotes]
    exact hchange

theorem meets_removeMember (hentitled : Entitled ⟨org, actor, target, none⟩ seen) :
    discipline.Meets memberships c (transaction (some ⟨org, actor, target, none⟩) (Organizations.removeMember org target))
      fun s => s.seen c = some seen ∧ s.db.members.Out c := by
  refine meets_deed hentitled rfl fun role => ?_
  have hremove : Closed (.step (.deleteMember org target) fun _ => Organizations.committed) := fun _ => closed_committed
  by_cases howner : role = .owner
  · simp only [if_pos howner]
    exact closed_assertNotLastOwner hremove
  · simp only [if_neg howner]
    exact hremove

end Transactions

section Routes

variable {Q : Store → Prop} {next : Program Op Reply}

theorem meets_refuse {refusal : Refusal} :
    discipline.Meets memberships c (refuse refusal) fun s => s.db.members.Out c := by
  intro s chance r s' hI hout _ hexec
  cases hexec
  exact ⟨hI.of_eq rfl rfl fun d seen hd => .inl (seen_cleared hd).2, fun d hd => ⟨Function.update_of_ne hd .., .refl⟩,
    _, stable_seen.and stable_out, ⟨Function.update_self .., hout⟩, fun _ _ h => h⟩

/-- What a route has read, between its statements. -/
def Reading (c : Client) (seen : Seen) (s : Store) : Prop := s.seen c = some seen ∧ s.db.members.Out c

theorem meets_requireMembership {next : Role → Program Op Reply}
    (hnext : ∀ role, discipline.Meets memberships c (next role) (Reading c ⟨org, actor, role, none⟩)) :
    discipline.Meets memberships c (requireMembership org actor next) (discipline.Idle c) := by
  intro s chance r s' hI ⟨_, hout⟩ _ hexec
  have hview : s.db.members.view c (org, actor) = s.db.members.committed (org, actor) := hout.untouched.view
  cases hexec
  cases hrole : s.db.members.view c (org, actor) with
  | none =>
      refine ⟨hI.of_eq rfl rfl fun d seen hd => .inl ?_, fun d hd => ⟨Function.update_of_ne hd .., .refl⟩,
        _, stable_out, hout, meets_refuse⟩
      exact (seen_cleared (by simpa [hrole] using hd)).2
  | some role =>
      refine ⟨hI.of_eq rfl rfl fun d seen hd => ?_, fun d hd => ⟨Function.update_of_ne hd .., .refl⟩,
        Reading c ⟨org, actor, role, none⟩, stable_seen.and stable_out, ⟨?_, hout⟩, hnext role⟩
      · by_cases hdc : d = c
        · subst hdc
          have heq : (⟨org, actor, role, none⟩ : Seen) = seen := by simpa [hrole] using hd
          subst heq
          exact .inr ⟨⟨role, hview.symm.trans hrole, Nat.le_refl _⟩, fun _ _ h => by cases h⟩
        · exact .inl (by simpa only [Function.update_of_ne hdc] using hd)
      · simp

theorem meets_require {capability : Capability} (hnext : can role capability = true → discipline.Meets memberships c next Q)
    (hQ : ∀ s, Q s → s.db.members.Out c) : discipline.Meets memberships c (require role capability next) Q := by
  by_cases hcan : can role capability = true
  · simp only [require, if_pos hcan]
    exact hnext hcan
  · simp only [require, if_neg hcan]
    exact meets_refuse.mono fun s _ h => hQ s h

theorem find_some {c : Client} {s : Store} {found : UserId × Role} (h : find target (membersOf c s org) = some found) :
    found.1 = target ∧ s.db.members.view c (org, target) = some found.2 := by
  have htarget : found.1 = target := by simpa using List.find?_some h
  obtain ⟨row, hrow, rfl⟩ := List.mem_map.mp (List.mem_of_find?_eq_some h)
  obtain ⟨hmem, horg⟩ := List.mem_filter.mp hrow
  obtain ⟨⟨o, u⟩, role⟩ := row
  obtain rfl : o = org := by simpa using horg
  subst htarget
  exact ⟨rfl, Table.mem_rows.mp hmem⟩

theorem meets_requireTarget (hnext : ∀ subject, canActOn role subject = true →
      discipline.Meets memberships c next (Reading c ⟨org, actor, role, some (target, subject)⟩)) :
    discipline.Meets memberships c (requireTarget org role target next) (Reading c ⟨org, actor, role, none⟩) := by
  intro s chance members s' hI ⟨hseen, hout⟩ _ hexec
  cases hexec
  have hview : s.db.members.view c = s.db.members.committed := funext fun _ => hout.untouched.view
  have hholds := hI.seen c _ hseen
  have hinv : Inv { s with
      seen := Function.update s.seen c ((s.seen c).map fun seen => { seen with target := find target (membersOf c s org) }) } := by
    refine hI.of_eq rfl rfl fun d seen hd => ?_
    by_cases hdc : d = c
    · subst hdc
      rw [hseen] at hd
      have heq : (⟨org, actor, role, find target (membersOf d s org)⟩ : Seen) = seen := by simpa using hd
      subst heq
      refine .inr ⟨hholds.1, fun u read hread subject hsubject => ?_⟩
      obtain ⟨rfl, hrow⟩ := find_some hread
      rw [hview] at hrow
      obtain rfl : read = subject := Option.some.inj (hrow.symm.trans hsubject)
      exact Nat.le_refl _
    · exact .inl (by simpa only [Function.update_of_ne hdc] using hd)
  cases hfound : find target (membersOf c s org) with
  | none =>
      rw [hfound] at hinv
      refine ⟨hinv, fun d hd => ⟨Function.update_of_ne hd .., .refl⟩, _, stable_out, hout, ?_⟩
      simp only [hfound]
      exact meets_refuse
  | some found =>
      obtain ⟨u, subject⟩ := found
      obtain ⟨rfl, -⟩ := find_some hfound
      rw [hfound] at hinv
      by_cases hact : canActOn role subject = true
      · refine ⟨hinv, fun d hd => ⟨Function.update_of_ne hd .., .refl⟩, Reading c ⟨org, actor, role, some (u, subject)⟩,
          stable_seen.and stable_out, ⟨?_, hout⟩, ?_⟩
        · simp [hseen]
        · simp only [hfound, if_pos hact]
          exact hnext subject hact
      · refine ⟨hinv, fun d hd => ⟨Function.update_of_ne hd .., .refl⟩, _, stable_out, hout, ?_⟩
        simp only [hfound, if_neg hact]
        exact meets_refuse

theorem meets_setRole_route : discipline.Meets memberships c (Memberships.setRole org actor target new) (discipline.Idle c) := by
  refine meets_requireMembership fun role => meets_require (fun _ => ?_) fun _ h => h.2
  by_cases hassign : canAssignRole role new = true
  · simp only [if_pos hassign]
    exact meets_requireTarget fun subject hact => meets_setRole ⟨rfl, rfl, .inr ⟨subject, rfl, hact, hassign⟩⟩
  · simp only [if_neg hassign]
    exact meets_refuse.mono fun _ _ h => h.2

theorem meets_removeMember_route : discipline.Meets memberships c (Memberships.removeMember org actor target) (discipline.Idle c) := by
  refine meets_requireMembership fun role => ?_
  by_cases hself : target = actor
  · simp only [hself, ne_eq, not_true_eq_false, if_false]
    exact meets_removeMember ⟨rfl, rfl, .inl ⟨rfl, rfl⟩⟩
  · simp only [ne_eq, hself, not_false_eq_true, if_true]
    refine meets_require (fun hremove => ?_) fun _ h => h.2
    exact meets_requireTarget fun subject hact => meets_removeMember ⟨rfl, rfl, .inr ⟨subject, rfl, hact, hremove⟩⟩

theorem sound : discipline.Sound memberships where
  idle _ := stable_seen.and stable_out
  abort c s hI _ :=
    ⟨hI.of_eq rfl rfl fun d seen hd => .inl (seen_cleared hd).2,
      fun d hd => ⟨Function.update_of_ne hd .., Table.undisturbed_rollback hd⟩, Function.update_self .., Table.out_rollback⟩
  program c request := by
    cases request with
    | create slug user => exact meets_other closed_create
    | setRole org actor target new => exact meets_setRole_route
    | removeMember org actor target => exact meets_removeMember_route
    | acceptInvite token user email => exact meets_other closed_acceptInvite

end Routes

def opened (db : Organizations.Store) : Store := ⟨db, fun _ => none, []⟩

/-- As long as no commit demotes or removes the actor of another route under way, or promotes the target of one, every
change of a role and every removal is permitted by the roles at its commit. -/
theorem deeds_permitted {g : Config Client Store Op Reply} (hstill : db.still)
    (h : memberships.Reachable (Protocol.Statements Allowed) (opened db) g) : ∀ e ∈ g.store.log, Permitted e ∧ Upheld e := by
  have hI : Inv (opened db) := by
    refine ⟨fun e he => ?_, fun c seen hseen => ?_⟩
    · cases he
    · cases hseen
  have hidle : ∀ c, discipline.Idle c (opened db) := by
    refine fun c => ⟨rfl, fun k v hk => ?_⟩
    rw [show (opened db).db.members.lock k = none by exact hstill.2.1 k] at hk
    cases hk
  exact (sound.reachable (Discipline.grants_statements fun _ _ => trivial) hI hidle h).1.log

section Examples

/-- An organization with an owner, an admin and a member. -/
def team : Organizations.Store where
  organizations := .single 0 10
  members := (((Table.single (0, 1) .owner).write 0 (0, 2) (some .admin)).write 0 (0, 3) (some .member)).commit 0
  invites := .empty

theorem still_team : team.still := by
  refine ⟨fun _ => rfl, fun k => ?_, fun _ => rfl⟩
  by_cases hk : k = (0, 3)
  · simp [team, Table.commit, Table.released, Table.write, Table.single, hk]
  · by_cases hk' : k = (0, 2)
    · simp [team, Table.commit, Table.released, Table.write, Table.single, hk']
    · simp [team, Table.commit, Table.released, Table.write, Table.single, hk, hk']

def calm : Organizations.Chance := ⟨1, 0, 0, false⟩

def allowed (_ : Client) : Op → Store → Bool
  | .store _ .commit, _ => false
  | _, _ => true

theorem allowed_watch (c : Client) (op : Op) (s : Store) (h : allowed c op s = true) : Allowed c op s := by
  cases op with
  | store deed op =>
      cases op with
      | commit => cases h
      | _ => trivial
  | _ => trivial

/-- The admin promotes the member. -/
def promotion : List (Move Client Organizations.Chance Request) :=
  .arrive 5 (.setRole 0 2 3 .admin) :: List.replicate 4 (.run 5 calm)

theorem deeds_permitted_promotion : ∃ g, memberships.Reachable (Protocol.Statements Allowed) (opened team) g ∧
    g.store.db.members.committed (0, 3) = some .admin ∧ g.store.log.length = 1 ∧ ∀ e ∈ g.store.log, Permitted e ∧ Upheld e := by
  have h := Protocol.Reachable.start.replay (P := memberships) (s := opened team)
    (Protocol.statements_watch allowed_watch) promotion rfl
  have hcommit := h.step (m := .run 5 calm) ?_ rfl
  · exact ⟨_, hcommit, rfl, rfl, deeds_permitted still_team hcommit⟩
  · rintro c choice op next hmove hrunning
    cases hmove
    cases hrunning
    intro d hd seen hseen
    have htwice : Function.update (Function.update (opened team).seen 5 _) 5 _ d = some seen := hseen
    rw [Function.update_of_ne hd, Function.update_of_ne hd] at htwice
    cases htwice

/-- Between the reads of the admin's route and its transaction he is removed. -/
def ousted : List (Move Client Organizations.Chance Request) :=
  .arrive 5 (.setRole 0 2 3 .admin) :: List.replicate 2 (.run 5 calm) ++
    .arrive 6 (.removeMember 0 1 2) :: List.replicate 5 (.run 6 calm) ++ List.replicate 3 (.run 5 calm)

theorem not_deeds_permitted :
    ¬ ∀ g, memberships.Reachable (fun _ _ => True) (opened team) g → ∀ e ∈ g.store.log, Permitted e ∧ Upheld e := by
  intro h
  have hrun := Protocol.Reachable.start.free (P := memberships) (s := opened team) ousted rfl
  obtain ⟨⟨role, subject, hactor, -⟩, -⟩ := h _ hrun
    ⟨⟨0, 2, 3, some .admin⟩, some ⟨0, 2, .admin, some (3, .member)⟩, none, some .member⟩ List.mem_cons_self
  cases hactor

end Examples

end Corebase.RoleAuthority
