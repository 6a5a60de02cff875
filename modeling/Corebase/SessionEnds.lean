import Corebase.Sessions

namespace Corebase.SessionEnds

open Interleaving Sessions
open JsText (Text)

variable {key : Text → Key} {c d : Client} {s s' : Store} {k : Key} {user : UserId} {record : SessionRecord} {chance : Chance}

/-- A touch that begins after the end of its session returns none, and none returns a session past its lifetime. -/
def Sound (a : Answered) : Prop := match a.answer with
  | .touched (some session) => a.late = false ∧ session.record.lastSeenAt - session.record.createdAt ≤ absoluteTtlSeconds
  | _ => True

structure Inv (s : Store) : Prop where
  /-- Every record is one of a session that was created, and of its user. -/
  records : ∀ k e, s.data.lookup k = some e → ∃ record, e.raw = some record ∧ (k, record.userId) ∈ s.issued
  users : ∀ k u u', (k, u) ∈ s.issued → (k, u') ∈ s.issued → u = u'
  pending : ∀ c, ∀ k ∈ s.pending c, k ∈ s.issued.map Prod.fst
  covered : ∀ c, s.covered c ⊆ s.issued
  known : ∀ k ∈ s.ended, k ∈ s.issued.map Prod.fst
  ended : ∀ k ∈ s.ended, s.get k = none
  answers : ∀ a ∈ s.answers, Sound a

/-- No session comes back, and no other iteration is led astray. -/
structure Guar (c : Client) (s s' : Store) : Prop where
  issued : s.issued ⊆ s'.issued
  ended : s.ended ⊆ s'.ended
  gone : ∀ k ∈ s.issued.map Prod.fst, s.get k = none → s'.get k = none
  others : ∀ d, d ≠ c → s'.late d = s.late d ∧ s'.covered d = s.covered d ∧
    ∀ k ∈ s.pending d, k ∈ s'.pending d ∨ s'.get k = none

/-- A touch writes its record only where there is still one. -/
def Allowed (_ : Client) : Op → Store → Prop
  | .set k _, s => (s.get k).isSome = true
  | _, _ => True

def discipline : Discipline Client Store Op where
  Inv := Inv
  Guar := Guar
  Idle _ _ := True
  Allowed := Allowed

section Commands

theorem get_eq_some {raw : Option SessionRecord} (h : s.get k = some raw) : ∃ e, s.data.lookup k = some e ∧ e.raw = raw := by
  obtain ⟨e, he, hraw⟩ := Option.bind_eq_some_iff.mp h
  split at hraw
  · exact ⟨e, he, Option.some.inj hraw⟩
  · cases hraw

/-- What is under the key of a session that was created is a record of its user. -/
theorem Inv.get (h : Inv s) {raw : Option SessionRecord} (hraw : s.get k = some raw) :
    ∃ record, raw = some record ∧ (k, record.userId) ∈ s.issued := by
  obtain ⟨e, he, rfl⟩ := get_eq_some hraw
  exact h.records k e he

theorem get_set_self (s : Store) (k : Key) (record : SessionRecord) : (s.set k record).get k = some (some record) := by
  simp [Store.get, Store.set, idleTtlSeconds]

theorem get_set_of_ne {j : Key} (h : j ≠ k) : (s.set k record).get j = s.get j := by
  simp only [Store.get, Store.set, AList.lookup_insert_ne h]
  rfl

@[simp] theorem get_del_self (s : Store) (k : Key) : (s.del k).get k = none := by
  simp [Store.get, Store.del]

theorem get_del_of_ne {j : Key} (h : j ≠ k) : (s.del k).get j = s.get j := by
  simp only [Store.get, Store.del, AList.lookup_erase_ne h]
  rfl

theorem get_del_none {j : Key} (h : s.get j = none) : (s.del k).get j = none := by
  by_cases hj : j = k
  · rw [hj, get_del_self]
  · rw [get_del_of_ne hj, h]

theorem Inv.set (h : Inv s) (hlive : (s.get k).isSome = true) (hissued : (k, record.userId) ∈ s.issued) :
    Inv (s.set k record) := by
  have hpending : (s.set k record).pending = s.pending := by simp [Store.set, hlive]
  constructor
  · intro j e he
    by_cases hj : j = k
    · subst hj
      simp only [Store.set, AList.lookup_insert, Option.some.injEq] at he
      exact ⟨record, by rw [← he], hissued⟩
    · simp only [Store.set, AList.lookup_insert_ne hj] at he
      exact h.records j e he
  · exact h.users
  · rw [hpending]
    exact h.pending
  · exact h.covered
  · exact h.known
  · intro j hj
    have hnone := h.ended j hj
    by_cases heq : j = k
    · rw [heq] at hnone
      rw [hnone] at hlive
      cases hlive
    · rw [get_set_of_ne heq, hnone]
  · exact h.answers

theorem guar_set (hlive : (s.get k).isSome = true) : Guar c s (s.set k record) := by
  constructor
  · exact fun _ => id
  · exact fun _ => id
  · intro j _ hnone
    by_cases heq : j = k
    · rw [heq] at hnone
      rw [hnone] at hlive
      cases hlive
    · rw [get_set_of_ne heq, hnone]
  · intro d _
    refine ⟨rfl, rfl, fun j hj => .inl ?_⟩
    simpa [Store.set, hlive] using hj

theorem Inv.del (h : Inv s) : Inv (s.del k) := by
  constructor
  · intro j e he
    by_cases hj : j = k
    · subst hj
      simp [Store.del] at he
    · simp only [Store.del, AList.lookup_erase_ne hj] at he
      exact h.records j e he
  · exact h.users
  · exact h.pending
  · exact h.covered
  · exact h.known
  · exact fun j hj => get_del_none (h.ended j hj)
  · exact h.answers

theorem guar_del : Guar c s (s.del k) where
  issued _ := id
  ended _ := id
  gone _ _ := get_del_none
  others _ _ := ⟨rfl, rfl, fun _ => .inl⟩

theorem guar_refl : Guar c s s where
  issued _ := id
  ended _ := id
  gone _ _ := id
  others _ _ := ⟨rfl, rfl, fun _ => .inl⟩

end Commands

section Rely

theorem stable_true : discipline.Stable c fun _ => True := Discipline.stable_true

/-- What was issued stays issued. -/
theorem stable_issued {issue : Key × UserId} : discipline.Stable c fun s => issue ∈ s.issued :=
  fun _ _ _ _ _ hguar h => hguar.issued h

/-- The touch has begun while its session was not over, or with no record under its key. -/
def Begun (key : Text → Key) (c : Client) (id : Text) (s : Store) : Prop := s.late c = true → key id ∈ s.ended

theorem stable_begun {id : Text} : discipline.Stable c (Begun key c id) := by
  intro d hd s s' _ hguar h hlate
  rw [(hguar.others c hd.symm).1] at hlate
  exact hguar.ended (h hlate)

/-- The touch returns no session that was over when it began. -/
def Early (c : Client) (s : Store) : Prop := s.late c = false

theorem stable_early : discipline.Stable c (Early c) := by
  intro d hd s s' _ hguar h
  exact (hguar.others c hd.symm).1.trans h

/-- The sessions of the user are gone, but for those that the iteration has still to come to, and these keys. -/
def Left (c : Client) (user : UserId) (more : Bool) (ks : List Key) (s : Store) : Prop :=
  ∀ k, (k, user) ∈ s.covered c → s.get k = none ∨ more = true ∧ k ∈ s.pending c ∨ k ∈ ks

theorem stable_left {more : Bool} {ks : List Key} : discipline.Stable c (Left c user more ks) := by
  intro d hd s s' hI hguar h k hk
  obtain ⟨-, hcovered, hpending⟩ := hguar.others c hd.symm
  rw [hcovered] at hk
  rcases h k hk with hnone | ⟨hmore, hpend⟩ | hmem
  · exact .inl (hguar.gone k (List.mem_map_of_mem (hI.covered c hk)) hnone)
  · rcases hpending k hpend with hpend | hnone
    · exact .inr (.inl ⟨hmore, hpend⟩)
    · exact .inl hnone
  · exact .inr (.inr hmem)

end Rely

section Calls

variable {Q : Store → Prop}

/-- The call returns. -/
theorem meets_answer {a : Answer} (hsound : ∀ s, Inv s → Q s → Sound ⟨a, s.late c⟩)
    (hover : ∀ s, Inv s → Q s → ∀ k ∈ closed key c s a, k ∈ s.issued.map Prod.fst ∧ s.get k = none) :
    discipline.Meets (sessions key) c (answer a) Q := by
  intro s chance r s' hI hQ _ hexec
  cases hexec
  have hI' : Inv { s with ended := closed key c s a ++ s.ended, answers := ⟨a, s.late c⟩ :: s.answers } := by
    constructor
    · exact hI.records
    · exact hI.users
    · exact hI.pending
    · exact hI.covered
    · intro k hk
      rcases List.mem_append.mp hk with hk | hk
      · exact (hover s hI hQ k hk).1
      · exact hI.known k hk
    · intro k hk
      rcases List.mem_append.mp hk with hk | hk
      · exact (hover s hI hQ k hk).2
      · exact hI.ended k hk
    · intro a' ha'
      rcases List.mem_cons.mp ha' with rfl | ha'
      · exact hsound s hI hQ
      · exact hI.answers a' ha'
  exact ⟨hI', ⟨fun _ => id, fun _ => List.mem_append_right _, fun _ _ => id, fun _ _ => ⟨rfl, rfl, fun _ => .inl⟩⟩, _, stable_true,
    trivial, fun _ _ _ => trivial⟩

/-- The answers that end no session. -/
theorem meets_plain {a : Answer} (hsound : ∀ s, Inv s → Q s → Sound ⟨a, s.late c⟩) (hover : ∀ s, closed key c s a = []) :
    discipline.Meets (sessions key) c (answer a) Q := by
  refine meets_answer hsound fun s _ _ k hk => ?_
  rw [hover s] at hk
  cases hk

theorem meets_nothing : discipline.Meets (sessions key) c (answer (.touched none)) Q :=
  meets_plain (fun _ _ _ => trivial) fun _ => rfl

theorem meets_create : discipline.Meets (sessions key) c (create key user) fun _ => True := by
  intro s chance r s' hI _ _ hexec
  have hsame : s' = s := by
    simp only [sessions, exec] at hexec
    split at hexec <;> cases hexec
    rfl
  subst hsame
  refine ⟨hI, guar_refl, _, stable_true, trivial, ?_⟩
  intro s reading now s' hI _ _ hexec
  cases hexec
  refine ⟨hI, guar_refl, _, stable_true, trivial, ?_⟩
  intro s chance _ s' hI _ _ hexec
  simp only [sessions, exec] at hexec
  split at hexec
  · cases hexec
  next hfresh =>
    cases hexec
    have hnone : s.data.lookup (key r.1) = none := by
      cases hrow : s.data.lookup (key r.1) with
      | none => rfl
      | some e =>
          obtain ⟨record, -, hissued⟩ := hI.records _ e hrow
          exact absurd (List.mem_map_of_mem hissued) hfresh
    have hgone : s.get (key r.1) = none := by rw [Store.get, hnone]; rfl
    have hgrows : ∀ {k}, k ∈ s.issued.map Prod.fst → k ≠ key r.1 := fun hk heq => hfresh (heq ▸ hk)
    have hpending : ∀ d, ∀ k ∈ s.pending d, k ∈ ((s.set (key r.1) ⟨user, r.2, reading.clock, reading.clock⟩).pending d) := by
      intro d k hk
      simp only [Store.set, hgone, Option.isSome_none, Bool.false_eq_true, if_false, List.mem_filter]
      exact ⟨hk, by simpa using hgrows (hI.pending d k hk)⟩
    refine ⟨?_, ?_, _, stable_true, trivial, meets_plain (fun _ _ _ => trivial) fun _ => rfl⟩
    · constructor
      · intro j e he
        by_cases hj : j = key r.1
        · subst hj
          simp only [Store.set, AList.lookup_insert, Option.some.injEq] at he
          exact ⟨_, by rw [← he], List.mem_cons_self⟩
        · simp only [Store.set, AList.lookup_insert_ne hj] at he
          obtain ⟨record, hraw, hissued⟩ := hI.records j e he
          exact ⟨record, hraw, List.mem_cons_of_mem _ hissued⟩
      · intro k u u' hu hu'
        rcases List.mem_cons.mp hu with hu | hu <;> rcases List.mem_cons.mp hu' with hu' | hu'
        · cases hu
          cases hu'
          rfl
        · cases hu
          exact absurd (List.mem_map_of_mem hu') hfresh
        · cases hu'
          exact absurd (List.mem_map_of_mem hu) hfresh
        · exact hI.users k u u' hu hu'
      · intro d k hk
        refine List.mem_cons_of_mem _ (hI.pending d k ?_)
        simp only [Store.set, hgone, Option.isSome_none, Bool.false_eq_true, if_false, List.mem_filter] at hk
        exact hk.1
      · exact fun d => fun _ hk => List.mem_cons_of_mem _ (hI.covered d hk)
      · exact fun k hk => List.mem_cons_of_mem _ (hI.known k hk)
      · exact fun k hk => (get_set_of_ne (hgrows (hI.known k hk))).trans (hI.ended k hk)
      · exact hI.answers
    · exact ⟨fun _ => List.mem_cons_of_mem _, fun _ => id, fun k hk hk' => (get_set_of_ne (hgrows hk)).trans hk',
        fun d _ => ⟨rfl, rfl, fun k hk => .inl (hpending d k hk)⟩⟩

theorem meets_begin {id : Text} {next : Unit → Program Op Reply} (hnext : discipline.Meets (sessions key) c (next ()) (Begun key c id)) :
    discipline.Meets (sessions key) c (.step (.begin id) next) fun _ => True := by
  intro s chance r s' hI _ _ hexec
  cases hexec
  have hbegun : Begun key c id { s with
      late := Function.update s.late c (decide (key id ∈ s.ended))
      covered := Function.update s.covered c s.issued } := by
    intro hlate
    simpa [Function.update_self] using hlate
  refine ⟨⟨hI.records, hI.users, hI.pending, fun d => ?_, hI.known, hI.ended, hI.answers⟩,
    ⟨fun _ h => h, fun _ h => h, fun _ _ h => h, fun d hd => ⟨Function.update_of_ne hd .., Function.update_of_ne hd .., fun _ => .inl⟩⟩,
    _, stable_begun, hbegun, hnext⟩
  by_cases hd : d = c
  · subst hd
    simp
  · dsimp only
    rw [Function.update_of_ne hd]
    exact hI.covered d

theorem meets_touch {id : Text} : discipline.Meets (sessions key) c (touch key id) fun _ => True := by
  refine meets_begin ?_
  split
  · exact meets_nothing
  intro s chance raw s' hI hbegun _ hexec
  cases hexec
  cases hraw : s.get (key id) with
  | none => exact ⟨hI, guar_refl, _, stable_true, trivial, meets_nothing⟩
  | some raw =>
      obtain ⟨record, rfl, hissued⟩ := hI.get hraw
      have hearly : Early c s := by
        cases hlate : s.late c with
        | false => exact hlate
        | true => cases (hI.ended _ (hbegun hlate)).symm.trans hraw
      have hstable : discipline.Stable c fun s => (key id, record.userId) ∈ s.issued := stable_issued
      refine ⟨hI, guar_refl, _, stable_early.and hstable, ⟨hearly, hissued⟩, ?_⟩
      intro s chance now s' hI h _ hexec
      cases hexec
      refine ⟨hI, guar_refl, _, stable_early.and hstable, h, ?_⟩
      dsimp only
      split
      · intro s chance _ s' hI _ _ hexec
        cases hexec
        exact ⟨hI.del, guar_del, _, stable_true, trivial, meets_nothing⟩
      next hexpired =>
        intro s chance' _ s' hI h hlive hexec
        cases hexec
        refine ⟨hI.set hlive h.2, guar_set hlive, _, stable_early, h.1, meets_plain (fun s _ hearly => ⟨hearly, ?_⟩) fun _ => rfl⟩
        simpa [SessionRecord.expired] using hexpired

theorem meets_destroy {id : Text} : discipline.Meets (sessions key) c (destroy key id) fun _ => True := by
  refine meets_begin ?_
  split
  next hid =>
    refine meets_plain (fun _ _ _ => trivial) fun s => ?_
    rw [closed, if_pos hid]
  next hid =>
    intro s chance r s' hI _ _ hexec
    cases hexec
    refine ⟨hI.del, guar_del, fun s => key id ∈ (s.covered c).map Prod.fst → s.get (key id) = none, ?_, fun _ => get_del_self s _, ?_⟩
    · intro d hd s s' hI hguar h hcovered
      rw [(hguar.others c hd.symm).2.1] at hcovered
      obtain ⟨issue, hissue, heq⟩ := List.mem_map.mp hcovered
      exact hguar.gone _ (heq ▸ List.mem_map_of_mem (hI.covered c hissue)) (h hcovered)
    · refine meets_answer (fun _ _ _ => trivial) fun s hI h k hk => ?_
      rw [closed, if_neg hid] at hk
      obtain ⟨hcovered, heq⟩ := List.mem_filter.mp hk
      obtain rfl : k = key id := by simpa using heq
      obtain ⟨issue, hissue, heq⟩ := List.mem_map.mp hcovered
      exact ⟨heq ▸ List.mem_map_of_mem (hI.covered c hissue), h hcovered⟩

theorem Left.mono {more : Bool} {ks js : List Key} (h : Left c user more ks s) (hle : ∀ k ∈ ks, s.get k = none ∨ k ∈ js) :
    Left c user more js s := by
  intro k hk
  rcases h k hk with hnone | hpend | hmem
  · exact .inl hnone
  · exact .inr (.inl hpend)
  · rcases hle k hmem with hnone | hmem
    · exact .inl hnone
    · exact .inr (.inr hmem)

theorem meets_removeTheirs {more : Bool} {next : Nat → Program Op Reply}
    (hnext : ∀ removed, discipline.Meets (sessions key) c (next removed) (Left c user more [])) (ks : List Key) (removed : Nat) :
    discipline.Meets (sessions key) c (removeTheirs user next ks removed) (Left c user more ks) := by
  induction ks generalizing removed with
  | nil => exact hnext removed
  | cons k ks ih =>
      intro s chance raw s' hI hleft _ hexec
      cases hexec
      cases hraw : s.get k with
      | none =>
          refine ⟨hI, guar_refl, _, stable_left, hleft.mono fun j hj => ?_, ih removed⟩
          rcases List.mem_cons.mp hj with rfl | hj
          · exact .inl hraw
          · exact .inr hj
      | some raw =>
          obtain ⟨record, rfl, hissued⟩ := hI.get hraw
          by_cases huser : record.userId = user
          · refine ⟨hI, guar_refl, _, stable_left, hleft, ?_⟩
            simp only [if_pos huser]
            intro s chance _ s' hI hleft _ hexec
            cases hexec
            refine ⟨hI.del, guar_del, _, stable_left, fun j hj => ?_, ih (removed + 1)⟩
            rcases hleft j hj with hnone | hpend | hmem
            · exact .inl (get_del_none hnone)
            · exact .inr (.inl hpend)
            · rcases List.mem_cons.mp hmem with rfl | hmem
              · exact .inl (get_del_self s j)
              · exact .inr (.inr hmem)
          · refine ⟨hI, guar_refl, Left c user more ks, stable_left, fun j hj => ?_, ?_⟩
            · rcases hleft j hj with hnone | hpend | hmem
              · exact .inl hnone
              · exact .inr (.inl hpend)
              · rcases List.mem_cons.mp hmem with rfl | hmem
                -- the record under a key of theirs would be theirs
                · exact absurd (hI.users j _ _ hissued (hI.covered c hj)) huser
                · exact .inr (.inr hmem)
            · simp only [if_neg huser]
              exact ih removed

/-- The keys that the iteration has still to come to, before its next batch. -/
theorem left_scan {cursor : Nat} (hI : Inv s) (hleft : cursor ≠ 0 → Left c user true [] s) :
    let s' := if cursor = 0 then s.started c else s
    Inv s' ∧ Guar c s s' ∧ Left c user true [] s' := by
  by_cases hcursor : cursor = 0
  · simp only [if_pos hcursor]
    refine ⟨⟨hI.records, hI.users, fun d => ?_, fun d => ?_, hI.known, hI.ended, hI.answers⟩,
      ⟨fun _ h => h, fun _ h => h, fun _ _ h => h, fun d hd => ?_⟩, fun k _ => ?_⟩
    · by_cases hd : d = c
      · subst hd
        intro k hk
        simp only [Store.started, Function.update_self] at hk
        obtain ⟨e, he⟩ := Option.isSome_iff_exists.mp (AList.lookup_isSome.mpr (AList.mem_keys.mpr hk))
        obtain ⟨record, -, hissued⟩ := hI.records k e he
        exact List.mem_map_of_mem hissued
      · simp only [Store.started, Function.update_of_ne hd]
        exact hI.pending d
    · by_cases hd : d = c
      · subst hd
        simp [Store.started]
      · simp only [Store.started, Function.update_of_ne hd]
        exact hI.covered d
    · simp only [Store.started, Function.update_of_ne hd]
      exact ⟨trivial, trivial, fun _ => .inl⟩
    · cases hget : s.get k with
      | none => exact .inl hget
      | some raw =>
          obtain ⟨e, he, -⟩ := get_eq_some hget
          refine .inr (.inl ⟨rfl, ?_⟩)
          simp only [Store.started, Function.update_self]
          exact AList.mem_keys.mp (AList.lookup_isSome.mp (by rw [he]; rfl))
  · simp only [if_neg hcursor]
    exact ⟨hI, guar_refl, hleft hcursor⟩

theorem meets_sweep (rounds cursor removed : Nat) :
    discipline.Meets (sessions key) c (sweep user rounds cursor removed) fun s => cursor ≠ 0 → Left c user true [] s := by
  induction rounds generalizing cursor removed with
  | zero => exact fun _ _ _ => trivial
  | succ rounds ih =>
      intro s chance r s' hI hleft _ hexec
      have hscan := left_scan hI hleft
      simp only [sessions, exec] at hexec
      generalize (if cursor = 0 then s.started c else s) = s₁ at hscan hexec
      obtain ⟨hI₁, hguar₁, hleft₁⟩ := hscan
      split at hexec
      · cases hexec
      next hdone =>
        cases hexec
        refine ⟨?_, ?_, Left c user (decide (chance.cursor ≠ 0)) chance.batch, stable_left, ?_, ?_⟩
        · refine ⟨hI₁.records, hI₁.users, fun d k hk => ?_, hI₁.covered, hI₁.known, hI₁.ended, hI₁.answers⟩
          by_cases hd : d = c
          · subst hd
            simp only [Function.update_self] at hk
            exact hI₁.pending d k (List.mem_filter.mp hk).1
          · simp only [Function.update_of_ne hd] at hk
            exact hI₁.pending d k hk
        · refine ⟨hguar₁.issued, hguar₁.ended, hguar₁.gone, fun d hd => ?_⟩
          simp only [Function.update_of_ne hd]
          exact hguar₁.others d hd
        · intro k hk
          rcases hleft₁ k hk with hnone | ⟨-, hpend⟩ | hmem
          · exact .inl hnone
          · by_cases hbatch : k ∈ chance.batch
            · exact .inr (.inr hbatch)
            have hrest : k ∈ (s₁.pending c).filter (· ∉ chance.batch) := List.mem_filter.mpr ⟨hpend, by simpa using hbatch⟩
            by_cases hcursor : chance.cursor = 0
            -- an iteration that is over has left no record that was there all along
            · refine .inl (Option.not_isSome_iff_eq_none.mp fun hlive => hdone ?_)
              simp only [hcursor, decide_true, Bool.true_and]
              exact List.any_eq_true.mpr ⟨k, hrest, hlive⟩
            · exact .inr (.inl ⟨by simpa using hcursor, by simpa [Function.update_self] using hrest⟩)
          · cases hmem
        · apply meets_removeTheirs
          intro removed
          split
          next hcursor =>
            simp only [hcursor]
            refine meets_answer (fun _ _ _ => trivial) fun s hI hleft k hk => ?_
            obtain ⟨issue, hissue, rfl⟩ := List.mem_map.mp hk
            obtain ⟨hcovered, huser⟩ := List.mem_filter.mp hissue
            obtain ⟨k, u⟩ := issue
            obtain rfl : u = user := by simpa using huser
            refine ⟨List.mem_map_of_mem (hI.covered c hcovered), ?_⟩
            rcases hleft k hcovered with hnone | ⟨hmore, -⟩ | hmem
            · exact hnone
            · cases hmore
            · cases hmem
          next hcursor =>
            refine (ih chance.cursor removed).mono fun s _ h => ?_
            simpa [hcursor] using h

theorem meets_call {call : Call} {rounds : Nat} : discipline.Meets (sessions key) c (call.program key rounds) fun _ => True := by
  cases call with
  | create user => exact meets_create
  | touch id => exact meets_touch
  | destroy id => exact meets_destroy
  | destroyAllFor user => exact (meets_sweep rounds 0 0).mono fun _ _ _ h => absurd rfl h

theorem meets_pass {d : Time} : discipline.Meets (sessions key) c (.step (.pass d) fun _ => .done) fun _ => True := by
  intro s chance r s' hI _ _ hexec
  cases hexec
  have hgone : ∀ k, s.get k = none → Store.get { s with now := s.now + d } k = none := by
    intro k hk
    simp only [Store.get, Option.bind_eq_none_iff] at hk ⊢
    intro e he
    specialize hk e he
    split at hk
    · cases hk
    next hlapsed => exact if_neg fun hlive => hlapsed (Nat.le_trans (Nat.le_add_right _ _) hlive)
  exact ⟨⟨hI.records, hI.users, hI.pending, hI.covered, hI.known, fun k hk => hgone k (hI.ended k hk), hI.answers⟩,
    ⟨fun _ => id, fun _ => id, fun k _ => hgone k, fun _ _ => ⟨rfl, rfl, fun _ => .inl⟩⟩, _, stable_true, trivial,
    fun _ _ _ => trivial⟩

theorem sound : discipline.Sound (sessions key) where
  idle _ := stable_true
  abort _ _ hI _ := ⟨hI, guar_refl, trivial⟩
  program c request := by
    cases request with
    | call call rounds => exact meets_call
    | pass d => exact meets_pass

end Calls

end Corebase.SessionEnds
