import Corebase.Organizations

namespace Corebase.LastOwner

open Interleaving RowLocks Organizations

def discipline : Discipline Client Store Op where
  Inv := Owned
  Guar c s s' := ∀ d, d ≠ c → Table.Undisturbed d s.organizations s'.organizations ∧
    Table.Undisturbed d s.members s'.members
  Idle c s := s.organizations.Out c ∧ s.members.Out c
  Allowed _ _ _ := True

variable {c : Client} {s s' : Store} {org : OrgId} {user : UserId} {role : Role} {role' : Role} {new : Option Role} {chance : Chance}
  {Q : Store → Prop}

section Owners

/-- Another owner of the organization, whom the client holds. -/
def OtherOwner (c : Client) (org : OrgId) (user : UserId) (t : Table Client (OrgId × UserId) Role) : Prop :=
  ∃ u, u ≠ user ∧ t.lock (org, u) = some (c, some .owner) ∧ t.committed (org, u) = some .owner

theorem OtherOwner.stable {t t' : Table Client (OrgId × UserId) Role} (h : OtherOwner c org user t)
    (hu : Table.Undisturbed c t t') : OtherOwner c org user t' := by
  obtain ⟨u, hne, hlock, hcommitted⟩ := h
  exact ⟨u, hne, (hu _ _).1.mpr hlock, ((hu _ _).2 hlock).trans hcommitted⟩

/-- A change of one member leaves an owner, if it makes one, changes no owner or leaves another one. -/
theorem owned_change (h : Owned s) (hkept : new = some .owner ∨ s.members.committed (org, user) ≠ some .owner ∨
    ∃ u, u ≠ user ∧ s.members.committed (org, u) = some .owner)
    (horgs : s'.organizations.committed = s.organizations.committed)
    (hmembers : s'.members.committed = Function.update s.members.committed (org, user) new) : Owned s' := by
  intro o ho
  rw [horgs] at ho
  obtain ⟨u, hu⟩ := h o ho
  rw [hmembers]
  by_cases hsame : (o, u) = (org, user)
  · cases hsame
    rcases hkept with hnew | hno | ⟨w, hne, hw⟩
    · exact ⟨user, by rw [Function.update_self, hnew]⟩
    · exact absurd hu hno
    · exact ⟨w, by rw [Function.update_of_ne (fun heq => hne (congrArg Prod.snd heq)), hw]⟩
  · exact ⟨u, by rw [Function.update_of_ne hsame, hu]⟩

end Owners

section Statements

theorem lockMember_cases {r : Option Role} (h : exec c chance (.lockMember org user) s = some (r, s')) :
    (r = none ∧ s' = s) ∨ ∃ role, r = some role ∧ s.members.free c (org, user) = true ∧
      s.members.view c (org, user) = some role ∧
      s' = { s with members := s.members.write c (org, user) (some role) } := by
  simp only [exec] at h
  split at h
  · cases h
    exact .inl ⟨rfl, rfl⟩
  · split at h
    next hfree =>
      split at h <;> cases h
      next role hrole => exact .inr ⟨role, rfl, hfree, hrole, rfl⟩
      next => exact .inl ⟨rfl, rfl⟩
    next => cases h

theorem lockOwner_cases {locked : Bool} (h : exec c chance (.lockOwner org user) s = some (locked, s')) :
    (locked = false ∧ s' = s) ∨ locked = true ∧ s.members.free c (org, user) = true ∧
      s.members.view c (org, user) = some .owner ∧
      s' = { s with members := s.members.write c (org, user) (some .owner) } := by
  simp only [exec] at h
  split at h
  · cases h
    exact .inl ⟨rfl, rfl⟩
  · split at h
    next hfree =>
      split at h <;> cases h
      next howner => exact .inr ⟨rfl, hfree, howner, rfl⟩
      next => exact .inl ⟨rfl, rfl⟩
    next => cases h

theorem addMember_cases (chance : Chance) {ok : Bool} (h : exec c chance (.addMember org user role) s = some (ok, s'))
    (hout : s.members.Out c) : s' = s ∨ s.members.free c (org, user) = true ∧
      s.members.committed (org, user) = none ∧
      s' = { s with members := s.members.write c (org, user) (some role) } := by
  simp only [exec] at h
  split at h
  · cases h
    exact .inl rfl
  · split at h
    next d v hlock =>
      have hd : d ≠ c := fun hd => hout _ v (hd ▸ hlock)
      simp only [hd, if_false] at h
      split at h <;> cases h
      exact .inl rfl
    next hlock =>
      split at h <;> cases h
      next hnone => exact .inr ⟨by simp [Table.free, hlock], by simpa using hnone, rfl⟩
      next => exact .inl rfl

end Statements

section Rely

theorem guar_refl : discipline.Guar c s s := fun _ _ => ⟨.refl, .refl⟩

theorem guar_member (hfree : s.members.free c (org, user) = true) :
    discipline.Guar c s { s with members := s.members.write c (org, user) new } :=
  fun _ hd => ⟨.refl, Table.undisturbed_write hd hfree⟩

theorem stable_members {A : Table Client (OrgId × UserId) Role → Prop}
    (hA : ∀ t t', A t → Table.Undisturbed c t t' → A t') : discipline.Stable c fun s => A s.members :=
  fun _ hd _ _ _ hG h => hA _ _ h (hG c hd.symm).2

theorem stable_organizations {A : Table Client OrgId Slug → Prop}
    (hA : ∀ t t', A t → Table.Undisturbed c t t' → A t') : discipline.Stable c fun s => A s.organizations :=
  fun _ hd _ _ _ hG h => hA _ _ h (hG c hd.symm).1

theorem stable_idle : discipline.Stable c (discipline.Idle c) :=
  (stable_organizations fun _ _ => Table.Out.stable).and (stable_members fun _ _ => Table.Out.stable)

theorem meets_rolledBack : discipline.Meets members c rolledBack Q := by
  intro s choice r s' hI _ _ hexec
  cases hexec
  exact ⟨hI, fun d hd => ⟨Table.undisturbed_rollback hd, Table.undisturbed_rollback hd⟩, _, stable_idle,
    ⟨Table.out_rollback, Table.out_rollback⟩, fun _ _ h => h⟩

theorem meets_committed (hQ : ∀ s, Owned s → Q s →
    Owned ⟨s.organizations.commit c, s.members.commit c, s.invites.commit c⟩) :
    discipline.Meets members c committed Q := by
  intro s choice r s' hI hs _ hexec
  cases hexec
  exact ⟨hQ s hI hs, fun d hd => ⟨Table.undisturbed_commit hd, Table.undisturbed_commit hd⟩, _, stable_idle,
    ⟨Table.out_commit, Table.out_commit⟩, fun _ _ h => h⟩

end Rely

section Programs

/-- The member that the client holds as it is, in no other transaction of the organizations. -/
def Held (c : Client) (org : OrgId) (user : UserId) (role : Role) (s : Store) : Prop :=
  s.organizations.Out c ∧ s.members.Untouched c ∧ s.members.lock (org, user) = some (c, some role)

theorem stable_held : discipline.Stable c (Held c org user role) :=
  (stable_organizations fun _ _ => Table.Out.stable).and
    ((stable_members fun _ _ => Table.Untouched.stable).and (stable_members fun _ _ h hu => (hu _ _).1.mpr h))

theorem Held.committed (h : Held c org user role s) : s.members.committed (org, user) = some role :=
  (h.2.1 _ _ h.2.2).symm

/-- An owner remains when the member gets the new role. -/
def Remains (c : Client) (org : OrgId) (user : UserId) (role : Role) (new : Option Role)
    (t : Table Client (OrgId × UserId) Role) : Prop :=
  new = some .owner ∨ role ≠ .owner ∨ OtherOwner c org user t

theorem Remains.stable {t t' : Table Client (OrgId × UserId) Role} (h : Remains c org user role new t)
    (hu : Table.Undisturbed c t t') : Remains c org user role new t' :=
  h.imp_right fun h => h.imp_right fun h => h.stable hu

/-- The client changes the member that it holds, and then commits. -/
theorem meets_change {op : Op} {next : Reply op → Program Op Reply} (hnext : ∀ r, next r = committed)
    (hop : ∀ chance s r s', exec c chance op s = some (r, s') → s.members.view c (org, user) = some role →
      s.members.free c (org, user) = true ∧ s' = { s with members := s.members.write c (org, user) new }) :
    discipline.Meets members c (.step op next)
      fun s => Held c org user role s ∧ Remains c org user role new s.members := by
  intro s chance r s' hI ⟨hheld, hremains⟩ _ hexec
  obtain ⟨hfree, rfl⟩ := hop chance s r s' hexec (Table.view_of_lock hheld.2.2)
  have hwrote : (s.members.write c (org, user) new).Wrote c (org, user) (some role) new :=
    hheld.committed ▸ hheld.2.1.write new
  have hremains' : Remains c org user role new (s.members.write c (org, user) new) := by
    refine hremains.imp_right fun h => h.imp_right fun ⟨u, hne, hlock, hcommitted⟩ => ⟨u, hne, ?_, hcommitted⟩
    exact (Table.lock_write_of_ne fun heq => hne (congrArg Prod.snd heq)).trans hlock
  refine ⟨hI, guar_member hfree, _, (stable_organizations fun _ _ => Table.Out.stable).and
    ((stable_members fun _ _ => Table.Wrote.stable).and (stable_members fun _ _ => Remains.stable)),
    ⟨hheld.1, hwrote, hremains'⟩, ?_⟩
  rw [hnext r]
  refine meets_committed fun s hI ⟨hout, hwrote, hremains⟩ => ?_
  refine owned_change hI ?_ hout.untouched.commit hwrote.commit
  rcases hremains with hnew | hno | ⟨u, hne, _, hcommitted⟩
  · exact .inl hnew
  · exact .inr (.inl fun howner => hno (Option.some.inj (hwrote.committed.symm.trans howner)))
  · exact .inr (.inr ⟨u, hne, hcommitted⟩)

theorem meets_updateRole : discipline.Meets members c (.step (.updateRole org user role') fun _ => committed)
    fun s => Held c org user role s ∧ Remains c org user role (some role') s.members := by
  refine meets_change (fun _ => rfl) fun chance s r s' hexec hview => ?_
  simp only [exec, hview] at hexec
  split at hexec
  next hfree =>
    cases hexec
    exact ⟨hfree, rfl⟩
  next => cases hexec

theorem meets_deleteMember : discipline.Meets members c (.step (.deleteMember org user) fun _ => committed)
    fun s => Held c org user role s ∧ Remains c org user role none s.members := by
  refine meets_change (fun _ => rfl) fun chance s r s' hexec hview => ?_
  simp only [exec, hview] at hexec
  split at hexec
  next hfree =>
    cases hexec
    exact ⟨hfree, rfl⟩
  next => cases hexec

/-- The owners that the client holds so far. -/
def Counted (c : Client) (org : OrgId) (users : List UserId) (t : Table Client (OrgId × UserId) Role) : Prop :=
  ∀ u ∈ users, t.lock (org, u) = some (c, some .owner)

/-- What is left to lock are other users than those that are counted, so that two of them are two owners. -/
theorem meets_lockOwners {next : Program Op Reply} (hnext : discipline.Meets members c next
      fun s => Held c org user role s ∧ OtherOwner c org user s.members)
    (users : List UserId) : ∀ held : List UserId, (users ++ held).Nodup →
    discipline.Meets members c
      (lockOwners org (fun count => if count ≤ 1 then rolledBack else next) users held.length)
      fun s => Held c org user role s ∧ Counted c org held s.members := by
  induction users with
  | nil =>
      intro held hnodup
      change discipline.Meets members c (if held.length ≤ 1 then rolledBack else next) _
      split
      next => exact meets_rolledBack
      next hcount =>
        obtain ⟨u, hu, hne⟩ : ∃ u ∈ held, u ≠ user := by
          match held, hcount, hnodup with
          | u :: v :: held, _, hnodup =>
              by_cases hu : u = user
              · refine ⟨v, by simp, fun hv => ?_⟩
                subst hu hv
                simp at hnodup
              · exact ⟨u, by simp, hu⟩
          | [], hcount, _ => exact absurd (Nat.zero_le 1) hcount
          | [u], hcount, _ => exact absurd (Nat.le_refl 1) hcount
        refine hnext.mono fun s _ ⟨hheld, hcounted⟩ => ⟨hheld, u, hne, hcounted u hu, ?_⟩
        exact (hheld.2.1 _ _ (hcounted u hu)).symm
  | cons u users ih =>
      intro held hnodup s chance locked s' hI ⟨hheld, hcounted⟩ _ hexec
      have hstable : ∀ us, discipline.Stable c fun s => Held c org user role s ∧ Counted c org us s.members :=
        fun us => stable_held.and (stable_members fun _ _ h hu v hv => (hu _ _).1.mpr (h v hv))
      obtain ⟨rfl, rfl⟩ | ⟨rfl, hfree, hview, rfl⟩ := lockOwner_cases hexec
      · exact ⟨hI, guar_refl, _, hstable held, ⟨hheld, hcounted⟩, ih held (List.nodup_cons.mp hnodup).2⟩
      · have howner : s.members.committed (org, u) = some .owner := hheld.2.1.view.symm.trans hview
        have hheld' : Held c org user role { s with members := s.members.write c (org, u) (some .owner) } := by
          refine ⟨hheld.1, howner ▸ hheld.2.1.locked, ?_⟩
          by_cases hu : u = user
          · have hrole : role = .owner := Option.some.inj (hheld.committed.symm.trans (hu ▸ howner))
            rw [hu, hrole]
            exact Table.lock_write_self
          · exact (Table.lock_write_of_ne fun heq => hu (congrArg Prod.snd heq).symm).trans hheld.2.2
        refine ⟨hI, guar_member hfree, _, hstable (u :: held), ⟨hheld', fun v hv => ?_⟩, ?_⟩
        · by_cases hvu : v = u
          · rw [hvu]
            exact Table.lock_write_self
          · exact (Table.lock_write_of_ne fun heq => hvu (congrArg Prod.snd heq)).trans
              (hcounted v (List.mem_of_ne_of_mem hvu hv))
        · exact ih (u :: held) (by simpa using List.nodup_middle.mpr hnodup)

theorem meets_assertNotLastOwner {next : Program Op Reply} (hnext : discipline.Meets members c next
      fun s => Held c org user role s ∧ OtherOwner c org user s.members) :
    discipline.Meets members c (assertNotLastOwner org next) (Held c org user role) := by
  intro s chance users s' hI hheld _ hexec
  have hnodup : (((s.members.rows c).filter fun row => row.1.1 = org && row.2 = .owner).map fun row => row.1.2).Nodup := by
    refine List.Nodup.map_on (fun x hx y hy hxy => ?_) (Table.nodup_rows.filter _)
    simp only [List.mem_filter, Bool.and_eq_true, decide_eq_true_eq] at hx hy
    exact Prod.ext (Prod.ext (hx.2.1.trans hy.2.1.symm) hxy) (hx.2.2.trans hy.2.2.symm)
  cases hexec
  exact ⟨hI, guar_refl, _, stable_held, hheld, (meets_lockOwners hnext _ [] (by simpa using hnodup)).mono
    fun s _ h => ⟨h, fun _ hv => (nomatch hv)⟩⟩

theorem meets_lockMember {next : Option Role → Program Op Reply} (hnone : next none = rolledBack)
    (hsome : ∀ role, discipline.Meets members c (next (some role)) (Held c org user role)) :
    discipline.Meets members c (.step (.lockMember org user) next) (discipline.Idle c) := by
  intro s chance r s' hI ⟨hout, hmembers⟩ _ hexec
  obtain ⟨rfl, rfl⟩ | ⟨role, rfl, hfree, hview, rfl⟩ := lockMember_cases hexec
  · exact ⟨hI, guar_refl, _, Discipline.stable_true, trivial, hnone ▸ meets_rolledBack⟩
  · have hrole : s.members.committed (org, user) = some role := hmembers.untouched.view.symm.trans hview
    exact ⟨hI, guar_member hfree, _, stable_held,
      ⟨hout, hrole ▸ hmembers.untouched.locked, Table.lock_write_self⟩, hsome role⟩

theorem meets_setRole : discipline.Meets members c (setRole org user role) (discipline.Idle c) := by
  refine meets_lockMember rfl fun previous => ?_
  change discipline.Meets members c (if previous = .owner ∧ role ≠ .owner then assertNotLastOwner org _ else _) _
  split
  next => exact meets_assertNotLastOwner (meets_updateRole.mono fun s _ h => ⟨h.1, .inr (.inr h.2)⟩)
  next hkeeps =>
    refine meets_updateRole.mono fun s _ h => ⟨h, ?_⟩
    by_cases hrole : role = .owner
    · exact .inl (congrArg some hrole)
    · exact .inr (.inl fun hprevious => hkeeps ⟨hprevious, hrole⟩)

theorem meets_removeMember : discipline.Meets members c (removeMember org user) (discipline.Idle c) := by
  refine meets_lockMember rfl fun role => ?_
  change discipline.Meets members c (if role = .owner then assertNotLastOwner org _ else _) _
  split
  next => exact meets_assertNotLastOwner (meets_deleteMember.mono fun s _ h => ⟨h.1, .inr (.inr h.2)⟩)
  next hrole => exact meets_deleteMember.mono fun s _ h => ⟨h, .inr (.inl hrole)⟩

/-- Statements on the invites do not touch the organizations. -/
theorem meets_invites {op : Op} {next : Reply op → Program Op Reply} {A : Table Client OrgId Slug → Prop}
    {B : Table Client (OrgId × UserId) Role → Prop} (hA : ∀ t t', A t → Table.Undisturbed c t t' → A t')
    (hB : ∀ t t', B t → Table.Undisturbed c t t' → B t')
    (hop : ∀ chance s r s', exec c chance op s = some (r, s') → ∃ invites, s' = { s with invites := invites })
    (hnext : ∀ r, discipline.Meets members c (next r) fun s => A s.organizations ∧ B s.members) :
    discipline.Meets members c (.step op next) fun s => A s.organizations ∧ B s.members := by
  intro s chance r s' hI hs _ hexec
  obtain ⟨invites, rfl⟩ := hop chance s r s' hexec
  exact ⟨hI, fun _ _ => ⟨.refl, .refl⟩, _, (stable_organizations hA).and (stable_members hB), hs, hnext r⟩

theorem lockInvite_keeps {token : TokenHash} {r : Option (InviteId × Invite)}
    (h : exec c chance (.lockInvite token) s = some (r, s')) : ∃ invites, s' = { s with invites := invites } := by
  simp only [exec] at h
  split at h
  next =>
    split at h
    next =>
      split at h <;> cases h <;> exact ⟨_, rfl⟩
    next =>
      cases h
      exact ⟨_, rfl⟩
  next => cases h

theorem markAccepted_keeps {id : InviteId} {r : Unit} (h : exec c chance (.markAccepted id) s = some (r, s')) :
    ∃ invites, s' = { s with invites := invites } := by
  simp only [exec] at h
  split at h <;> cases h
  exact ⟨_, rfl⟩

/-- The client has added the member, if it was not there. -/
def Joined (c : Client) (org : OrgId) (user : UserId) (role : Role) (t : Table Client (OrgId × UserId) Role) : Prop :=
  t.Out c ∨ t.Wrote c (org, user) none (some role)

theorem Joined.stable {t t' : Table Client (OrgId × UserId) Role} (h : Joined c org user role t)
    (hu : Table.Undisturbed c t t') : Joined c org user role t' := h.imp (fun h => h.stable hu) fun h => h.stable hu

/-- A new member does not take the place of an owner. -/
theorem meets_joined {id : InviteId} : discipline.Meets members c (.step (.markAccepted id) fun _ => committed)
    fun s => s.organizations.Out c ∧ Joined c org user role s.members := by
  refine meets_invites (fun _ _ => Table.Out.stable) (fun _ _ => Joined.stable) (fun chance s r s' => markAccepted_keeps) fun _ => meets_committed fun s hI ⟨hout, hmembers⟩ => ?_
  rcases hmembers with hnone | hwrote
  · intro o ho
    rw [hout.untouched.commit] at ho
    rw [hnone.untouched.commit]
    exact hI o ho
  · exact owned_change hI (.inr (.inl (by simp [hwrote.committed]))) hout.untouched.commit hwrote.commit

theorem meets_acceptInvite {token : TokenHash} {email : Address} :
    discipline.Meets members c (acceptInvite token user email) (discipline.Idle c) := by
  refine meets_invites (fun _ _ => Table.Out.stable) (fun _ _ => Table.Out.stable)
    (fun chance s r s' => lockInvite_keeps) fun found => ?_
  cases found with
  | none => exact meets_rolledBack
  | some found =>
      change discipline.Meets members c (if found.2.email ≠ email then rolledBack else _) _
      split
      next => exact meets_rolledBack
      next =>
        intro s chance ok s' hI ⟨hout, hmembers⟩ _ hexec
        have hnext : discipline.Meets members c
            (if ok then .step (.markAccepted found.1) fun _ => committed else rolledBack)
            fun s => s.organizations.Out c ∧ Joined c found.2.organizationId user found.2.role s.members := by
          split
          next => exact meets_joined
          next => exact meets_rolledBack
        have hstable : discipline.Stable c fun s => s.organizations.Out c ∧
            Joined c found.2.organizationId user found.2.role s.members :=
          (stable_organizations fun _ _ => Table.Out.stable).and (stable_members fun _ _ => Joined.stable)
        obtain rfl | ⟨hfree, hnone, rfl⟩ := addMember_cases chance hexec hmembers
        · exact ⟨hI, guar_refl, _, hstable, ⟨hout, .inl hmembers⟩, hnext⟩
        · exact ⟨hI, guar_member hfree, _, hstable, ⟨hout, .inr (hnone ▸ hmembers.untouched.write _)⟩, hnext⟩

theorem insertOrg_cases {slug : Slug} {r : Option OrgId} (h : exec c chance (.insertOrg slug) s = some (r, s')) :
    (r = none ∧ s' = s) ∨ r = some chance.id ∧ s.organizations.free c chance.id = true ∧
      s' = { s with organizations := s.organizations.write c chance.id (some slug) } := by
  simp only [exec] at h
  split at h
  next => cases h
  next hunused =>
    simp only [Bool.or_eq_true, not_or] at hunused
    split at h <;> cases h
    next => exact .inl ⟨rfl, rfl⟩
    next => exact .inr ⟨rfl, by simp [Table.free, Option.not_isSome_iff_eq_none.mp hunused.1.2], rfl⟩

theorem insertOwner_cases (chance : Chance) {ok : Bool} (h : exec c chance (.insertOwner org user) s = some (ok, s')) :
    (ok = false ∧ s' = s) ∨ ok = true ∧ s.members.free c (org, user) = true ∧
      s' = { s with members := s.members.write c (org, user) (some .owner) } := by
  simp only [exec] at h
  split at h
  next hfree =>
    split at h <;> cases h
    next => exact .inr ⟨rfl, hfree, rfl⟩
    next => exact .inl ⟨rfl, rfl⟩
  next => cases h

theorem meets_create {slug : Slug} : discipline.Meets members c (create slug user) (discipline.Idle c) := by
  intro s chance r s' hI ⟨hout, hmembers⟩ _ hexec
  obtain ⟨rfl, rfl⟩ | ⟨rfl, hfree, rfl⟩ := insertOrg_cases hexec
  · exact ⟨hI, guar_refl, _, Discipline.stable_true, trivial, meets_rolledBack⟩
  refine ⟨hI, fun d hd => ⟨Table.undisturbed_write hd hfree, .refl⟩, _,
    (stable_organizations fun _ _ => Table.Wrote.stable).and (stable_members fun _ _ => Table.Out.stable),
    ⟨hout.untouched.write _, hmembers⟩, ?_⟩
  intro s chance' ok s' hI ⟨horg, hmembers⟩ _ hexec
  obtain ⟨rfl, rfl⟩ | ⟨rfl, hfree, rfl⟩ := insertOwner_cases chance' hexec
  · exact ⟨hI, guar_refl, _, Discipline.stable_true, trivial, meets_rolledBack⟩
  refine ⟨hI, guar_member hfree, _, (stable_organizations fun _ _ => Table.Wrote.stable).and
    (stable_members fun _ _ => Table.Wrote.stable), ⟨horg, hmembers.untouched.write _⟩, ?_⟩
  refine meets_committed fun s hI ⟨horg, hwrote⟩ => ?_
  intro o ho
  rw [horg.commit] at ho
  rw [hwrote.commit]
  by_cases hid : o = chance.id
  · exact ⟨user, by rw [hid, Function.update_self]⟩
  · rw [Function.update_of_ne hid] at ho
    obtain ⟨u, hu⟩ := hI o ho
    exact ⟨u, by rw [Function.update_of_ne (fun heq => hid (congrArg Prod.fst heq)), hu]⟩

theorem sound : discipline.Sound members where
  idle _ := stable_idle
  abort c s hI _ := ⟨hI, fun _ hd => ⟨Table.undisturbed_rollback hd, Table.undisturbed_rollback hd⟩,
    Table.out_rollback, Table.out_rollback⟩
  program c q := by
    cases q with
    | create slug user => exact meets_create
    | setRole org user role => exact meets_setRole
    | removeMember org user => exact meets_removeMember
    | acceptInvite token user email => exact meets_acceptInvite

end Programs

/-- In every state that is reached every organization has an owner among its committed members. -/
theorem always_owned {g : Config Client Store Op Reply} (hs : Owned s) (hstill : s.still)
    (h : members.Reachable (fun _ _ => True) s g) : Owned g.store :=
  (sound.reachable (Discipline.grants_all (fun _ _ _ => trivial) fun _ _ => trivial) hs
    (fun _ => ⟨by simp [Table.Out, hstill.1], by simp [Table.Out, hstill.2.1]⟩) h).1

section Examples

/-- An organization with two owners. -/
def pair : Store where
  organizations := .single 0 10
  members := ((Table.single (0, 1) .owner).write 0 (0, 2) (some .owner)).commit 0
  invites := .empty

def calm : Chance := ⟨1, 0, 0, false⟩

/-- The owners demote each other: the one that comes second finds that it is the last. -/
def demotions : List (Move Client Chance Request) :=
  [.arrive 1 (.setRole 0 2 .member), .arrive 2 (.setRole 0 1 .member), .run 1 calm] ++
    List.replicate 5 (.run 1 calm) ++ List.replicate 4 (.run 2 calm)

theorem always_owned_demotions : ∃ g, members.Reachable (fun _ _ => True) pair g ∧ Owned g.store ∧
    g.store.members.committed (0, 2) = some .member ∧ g.store.members.committed (0, 1) = some .owner := by
  have h := Protocol.Reachable.start.free (P := members) (s := pair) demotions rfl
  have howned : Owned pair := by
    intro o ho
    have h0 : o = 0 := by
      by_contra h0
      simp [pair, Table.single, h0] at ho
    exact ⟨1, h0 ▸ rfl⟩
  have hstill : pair.still := by
    refine ⟨fun _ => rfl, fun k => ?_, fun _ => rfl⟩
    by_cases hk : k = (0, 2) <;> simp [pair, Table.commit, Table.released, Table.write, Table.single, hk]
  exact ⟨_, h, always_owned howned hstill h, rfl, rfl⟩

end Examples

end Corebase.LastOwner
