import Corebase.SessionEnds
import Mathlib.Data.Finset.Card

namespace Corebase.SessionStores

open Interleaving Sessions SessionEnds
open JsText (Text)

def empty (now : Time) : Store := ⟨∅, now, fun _ => [], [], fun _ => [], [], fun _ => false, []⟩

/-- A call that runs alone, so long after the one before it, with what it draws. -/
structure Turn where
  wait : Time
  id : Text
  csrf : Text
  call : Call

section Runs

variable (key : Text → Key)

/-- The process has the clock of the store. -/
def alone (id csrf : Text) : Protocol Client Store Op Chance Request Reply :=
  { sessions key with exec := fun c chance op s => exec key c { chance with id := id, csrf := csrf, clock := s.now } op s }

/-- The store may answer so, one call after the other. -/
def Serves (c : Client) : List Turn → Store → List Answer → Prop
  | [], _, answers => answers = []
  | turn :: turns, s, answers => ∃ rounds late a rest s', answers = a :: rest ∧ s'.answers = ⟨a, late⟩ :: s.answers ∧
      (alone key turn.id turn.csrf).Ends c (turn.call.program key rounds) { s with now := s.now + turn.wait } s' ∧
      Serves c turns s' rest

def serveAll : List Turn → Time → Memory → List Answer
  | [], _, _ => []
  | turn :: turns, now, m =>
      let (a, m) := m.serve key (now + turn.wait) turn.id turn.csrf turn.call
      a :: serveAll turns (now + turn.wait) m

/-- No session that the call is about has been idle for too long. -/
def Recent (m : Memory) (now : Time) : Call → Prop
  | .touch id => ∀ record, unusable id = false → m.lookup (key id) = some record → record.expired now = false →
      now ≤ record.lastSeenAt + idleTtlSeconds
  | .destroyAllFor user => ∀ k record, m.lookup k = some record → record.userId = user →
      now ≤ record.lastSeenAt + idleTtlSeconds
  | .create _ | .destroy _ => True

def Attended : List Turn → Time → Memory → Prop
  | [], _, _ => True
  | turn :: turns, now, m => Recent key m (now + turn.wait) turn.call ∧
      Attended turns (now + turn.wait) (m.serve key (now + turn.wait) turn.id turn.csrf turn.call).2

end Runs

variable {key : Text → Key} {c : Client} {s s' : Store} {m : Memory} {k : Key} {user : UserId} {record : SessionRecord}
  {id csrf sought : Text} {a : Answer}

/-- The memory has the records of the store, and those that have been idle for too long. -/
structure Agree (key : Text → Key) (s : Store) (m : Memory) : Prop where
  fresh : ∀ k e, s.data.lookup k = some e → ∃ record, e = ⟨some record, record.lastSeenAt + idleTtlSeconds⟩
  same : ∀ k record, s.get k = some (some record) ↔ m.lookup k = some record ∧ s.now ≤ record.lastSeenAt + idleTtlSeconds
  nameless : m.lookup (key []) = none

namespace Agree

theorem get_cases (h : Agree key s m) (k : Key) : s.get k = none ∨ ∃ record, s.get k = some (some record) := by
  cases hraw : s.get k with
  | none => exact .inl rfl
  | some raw =>
      obtain ⟨e, he, rfl⟩ := get_eq_some hraw
      obtain ⟨record, rfl⟩ := h.fresh k e he
      exact .inr ⟨record, rfl⟩

theorem wait (h : Agree key s m) (d : Time) : Agree key { s with now := s.now + d } m := by
  refine ⟨h.fresh, fun k record => ?_, h.nameless⟩
  have hsame := h.same k record
  constructor
  · intro hget
    obtain ⟨e, he, hraw⟩ := get_eq_some hget
    obtain ⟨record', rfl⟩ := h.fresh k e he
    obtain rfl : record' = record := Option.some.inj hraw
    have hlive : s.now + d ≤ record'.lastSeenAt + idleTtlSeconds := by
      by_contra hlapsed
      simp [Store.get, he, hlapsed] at hget
    exact ⟨(hsame.mp (by simp [Store.get, he, Nat.le_trans (Nat.le_add_right _ _) hlive])).1, hlive⟩
  · rintro ⟨hlookup, hlive⟩
    dsimp only at hlive
    obtain ⟨e, he, hraw⟩ := get_eq_some (hsame.mpr ⟨hlookup, Nat.le_trans (Nat.le_add_right _ _) hlive⟩)
    obtain ⟨record', rfl⟩ := h.fresh k e he
    obtain rfl : record' = record := Option.some.inj hraw
    simp [Store.get, he, hlive]

/-- Only the records and the time count. -/
theorem of_eq (h : Agree key s m) (hdata : s'.data = s.data) (hnow : s'.now = s.now) : Agree key s' m := by
  have hget : ∀ k, s'.get k = s.get k := fun k => by rw [Store.get, Store.get, hdata, hnow]
  refine ⟨?_, fun k record => ?_, h.nameless⟩
  · rw [hdata]
    exact h.fresh
  · rw [hget, hnow]
    exact h.same k record

theorem insert (h : Agree key s m) (hname : k ≠ key []) (hseen : record.lastSeenAt = s.now) :
    Agree key (s.set k record) (m.insert k record) := by
  refine ⟨fun j e he => ?_, fun j r => ?_, ?_⟩
  · by_cases hj : j = k
    · subst hj
      simp only [Store.set, AList.lookup_insert, Option.some.injEq] at he
      exact ⟨record, by rw [← he, hseen]⟩
    · simp only [Store.set, AList.lookup_insert_ne hj] at he
      exact h.fresh j e he
  · by_cases hj : j = k
    · subst hj
      rw [get_set_self, AList.lookup_insert]
      constructor
      · intro heq
        obtain rfl : record = r := by simpa using heq
        refine ⟨rfl, ?_⟩
        rw [hseen]
        exact Nat.le_add_right _ _
      · rintro ⟨heq, -⟩
        rw [Option.some.inj heq]
    · rw [get_set_of_ne hj, AList.lookup_insert_ne hj]
      exact h.same j r
  · rw [AList.lookup_insert_ne hname.symm]
    exact h.nameless

theorem erase (h : Agree key s m) (k : Key) : Agree key (s.del k) (m.erase k) := by
  refine ⟨fun j e he => ?_, fun j r => ?_, ?_⟩
  · by_cases hj : j = k
    · subst hj
      simp [Store.del] at he
    · simp only [Store.del, AList.lookup_erase_ne hj] at he
      exact h.fresh j e he
  · by_cases hj : j = k
    · subst hj
      simp
    · rw [get_del_of_ne hj, AList.lookup_erase_ne hj]
      exact h.same j r
  · by_cases hj : key [] = k
    · rw [hj, AList.lookup_erase]
    · rw [AList.lookup_erase_ne hj]
      exact h.nameless

/-- The memory may also drop what the store has let lapse. -/
theorem drop (h : Agree key s m) (hnone : s.get k = none) : Agree key s (m.erase k) := by
  refine ⟨h.fresh, fun j r => ?_, ?_⟩
  · by_cases hj : j = k
    · subst hj
      simp [hnone]
    · rw [AList.lookup_erase_ne hj]
      exact h.same j r
  · by_cases hj : key [] = k
    · rw [hj, AList.lookup_erase]
    · rw [AList.lookup_erase_ne hj]
      exact h.nameless

end Agree

section Commands

/-- What a call leaves of the store. -/
def Leaves (s s' : Store) (data : AList fun _ : Key => Entry) (a : Answer) : Prop :=
  s'.data = data ∧ s'.now = s.now ∧ ∃ late, s'.answers = ⟨a, late⟩ :: s.answers

theorem ends_answer (h : (alone key id csrf).Ends c (answer a) s s') : Leaves s s' s.data a := by
  obtain ⟨chance, r, s₁, hexec, hdone⟩ := h
  cases hexec
  cases hdone
  exact ⟨rfl, rfl, _, rfl⟩

theorem ends_create (h : (alone key id csrf).Ends c (create key user) s s') :
    key id ≠ key [] ∧ Leaves s s' (s.set (key id) ⟨user, csrf, s.now, s.now⟩).data (.created ⟨id, ⟨user, csrf, s.now, s.now⟩⟩) := by
  obtain ⟨chance, r, s₁, hexec, h⟩ := h
  simp only [alone, exec] at hexec
  split at hexec
  · cases hexec
  next hname =>
    cases hexec
    obtain ⟨chance, r, s₁, hexec, h⟩ := h
    cases hexec
    obtain ⟨chance, r, s₁, hexec, h⟩ := h
    simp only [alone, exec] at hexec
    split at hexec
    · cases hexec
    · cases hexec
      have hleaves := ends_answer h
      exact ⟨hname, hleaves⟩

theorem ends_touch (h : (alone key id csrf).Ends c (touch key sought) s s') :
    (unusable sought = true ∨ s.get (key sought) = none ∨ s.get (key sought) = some none) ∧ Leaves s s' s.data (.touched none) ∨
    ∃ record, unusable sought = false ∧ s.get (key sought) = some (some record) ∧
      if record.expired s.now then Leaves s s' (s.del (key sought)).data (.touched none)
      else Leaves s s' (s.set (key sought) { record with lastSeenAt := s.now }).data
        (.touched (some ⟨sought, { record with lastSeenAt := s.now }⟩)) := by
  obtain ⟨chance, r, s₁, hexec, h⟩ := h
  cases hexec
  by_cases hid : unusable sought = true
  · simp only [if_pos hid] at h
    have hleaves := ends_answer h
    exact .inl ⟨.inl hid, hleaves⟩
  simp only [if_neg hid] at h
  obtain ⟨chance, r, s₁, hexec, h⟩ := h
  obtain ⟨hraw, rfl⟩ := Prod.mk.inj (Option.some.inj hexec)
  rcases r with _ | _ | record
  · have hleaves := ends_answer h
    exact .inl ⟨.inr (.inl hraw), hleaves⟩
  · have hleaves := ends_answer h
    exact .inl ⟨.inr (.inr hraw), hleaves⟩
  · obtain ⟨chance, r, s₁, hexec, h⟩ := h
    cases hexec
    refine .inr ⟨record, by simpa using hid, hraw, ?_⟩
    dsimp only at h
    split at h
    next hexpired =>
      obtain ⟨chance, r, s₁, hexec, h⟩ := h
      cases hexec
      have hleaves := ends_answer h
      rw [if_pos hexpired]
      exact hleaves
    next hexpired =>
      obtain ⟨chance, r, s₁, hexec, h⟩ := h
      cases hexec
      have hleaves := ends_answer h
      rw [if_neg hexpired]
      exact hleaves

theorem ends_destroy (h : (alone key id csrf).Ends c (destroy key sought) s s') :
    Leaves s s' (if sought = [] then s else s.del (key sought)).data (.destroyed sought) := by
  obtain ⟨chance, r, s₁, hexec, h⟩ := h
  cases hexec
  split at h
  next hid =>
    have hleaves := ends_answer h
    rw [if_pos hid]
    exact hleaves
  next hid =>
    obtain ⟨chance, r, s₁, hexec, h⟩ := h
    cases hexec
    have hleaves := ends_answer h
    rw [if_neg hid]
    exact hleaves

/-- The keys of the records of a user. -/
def theirs (s : Store) (user : UserId) : Finset Key :=
  s.data.keys.toFinset.filter fun k => (s.get k).any fun raw => raw.any fun record => record.userId = user

theorem mem_theirs : k ∈ theirs s user ↔ ∃ record, s.get k = some (some record) ∧ record.userId = user := by
  simp only [theirs, Finset.mem_filter, List.mem_toFinset]
  constructor
  · rintro ⟨-, hraw⟩
    cases hget : s.get k with
    | none => simp [hget] at hraw
    | some raw =>
        cases raw with
        | none => simp [hget] at hraw
        | some record => exact ⟨record, rfl, by simpa [hget] using hraw⟩
  · rintro ⟨record, hget, huser⟩
    obtain ⟨e, he, -⟩ := get_eq_some hget
    refine ⟨AList.mem_keys.mp (AList.lookup_isSome.mp ?_), ?_⟩
    · rw [he]
      rfl
    · simp [hget, huser]

/-- An iteration under way has removed so many of the records of the user, and nothing else. -/
structure Swept (user : UserId) (s : Store) (removed : Nat) (t : Store) : Prop where
  now : t.now = s.now
  answers : t.answers = s.answers
  rest : ∀ k, t.data.lookup k = s.data.lookup k ∨ k ∈ theirs s user ∧ t.data.lookup k = none
  count : removed + (theirs t user).card = (theirs s user).card

theorem Swept.del {t : Store} {removed : Nat} (h : Swept user s removed t) (hk : k ∈ theirs t user) :
    Swept user s (removed + 1) (t.del k) := by
  have htheirs : theirs (t.del k) user = (theirs t user).erase k := by
    ext j
    rw [Finset.mem_erase, mem_theirs, mem_theirs]
    by_cases hj : j = k
    · simp [hj]
    · rw [get_del_of_ne hj]
      simp [hj]
  refine ⟨h.now, h.answers, fun j => ?_, ?_⟩
  · by_cases hj : j = k
    · subst hj
      refine .inr ⟨?_, AList.lookup_erase ..⟩
      obtain ⟨record, hraw, huser⟩ := mem_theirs.mp hk
      refine mem_theirs.mpr ⟨record, ?_, huser⟩
      rcases h.rest j with hsame | ⟨-, hnone⟩
      · rw [← hraw, Store.get, Store.get, hsame, h.now]
      · simp [Store.get, hnone] at hraw
    · simpa only [Store.del, AList.lookup_erase_ne hj] using h.rest j
  · have hcard := Finset.card_erase_add_one hk
    have hcount := h.count
    rw [htheirs]
    omega

theorem ends_removeTheirs {next : Nat → Program Op Reply} {more : List Key} (ks : List Key) {removed : Nat} {t : Store}
    (hswept : Swept user s removed t) (hks : ∀ k ∈ theirs t user, k ∈ more ∨ k ∈ ks)
    (h : (alone key id csrf).Ends c (removeTheirs user next ks removed) t s') :
    ∃ removed t', Swept user s removed t' ∧ (∀ k ∈ theirs t' user, k ∈ more) ∧ t'.pending c = t.pending c ∧
      (alone key id csrf).Ends c (next removed) t' s' := by
  induction ks generalizing removed t with
  | nil =>
      refine ⟨removed, t, hswept, fun k hk => ?_, rfl, h⟩
      rcases hks k hk with hk | hk
      · exact hk
      · cases hk
  | cons k ks ih =>
      obtain ⟨chance, r, t₁, hexec, h⟩ := h
      obtain ⟨hraw, rfl⟩ := Prod.mk.inj (Option.some.inj hexec)
      have hskip : k ∉ theirs t user → ∀ j ∈ theirs t user, j ∈ more ∨ j ∈ ks := by
        intro hk j hj
        rcases hks j hj with hj' | hj'
        · exact .inl hj'
        · rcases List.mem_cons.mp hj' with rfl | hj'
          · exact absurd hj hk
          · exact .inr hj'
      rcases r with _ | _ | record
      · refine ih hswept (hskip fun hk => ?_) h
        obtain ⟨record, hget, -⟩ := mem_theirs.mp hk
        cases hraw.symm.trans hget
      · refine ih hswept (hskip fun hk => ?_) h
        obtain ⟨record, hget, -⟩ := mem_theirs.mp hk
        cases hraw.symm.trans hget
      · by_cases huser : record.userId = user
        · simp only [if_pos huser] at h
          obtain ⟨chance, r, t₁, hexec, h⟩ := h
          cases hexec
          have hk : k ∈ theirs t user := mem_theirs.mpr ⟨record, hraw, huser⟩
          refine ih (t := t.del k) (hswept.del hk) (fun j hj => ?_) h
          obtain ⟨record', hget, huser'⟩ := mem_theirs.mp hj
          have hne : j ≠ k := by
            rintro rfl
            rw [get_del_self] at hget
            cases hget
          rw [get_del_of_ne hne] at hget
          rcases hks j (mem_theirs.mpr ⟨record', hget, huser'⟩) with hj' | hj'
          · exact .inl hj'
          · exact .inr ((List.mem_cons.mp hj').resolve_left hne)
        · simp only [if_neg huser] at h
          refine ih hswept (hskip fun hk => ?_) h
          obtain ⟨record', hget, huser'⟩ := mem_theirs.mp hk
          cases hraw.symm.trans hget
          exact huser huser'

theorem ends_sweep (rounds : Nat) {cursor removed : Nat} {t : Store} (hswept : Swept user s removed t)
    (hpending : cursor ≠ 0 → ∀ k ∈ theirs t user, k ∈ t.pending c)
    (h : (alone key id csrf).Ends c (sweep user rounds cursor removed) t s') :
    s'.answers = s.answers ∨ s'.now = s.now ∧ (∃ late, s'.answers = ⟨.destroyedAll user (theirs s user).card, late⟩ :: s.answers) ∧
      ∀ k, s'.data.lookup k = if k ∈ theirs s user then none else s.data.lookup k := by
  induction rounds generalizing cursor removed t with
  | zero =>
      cases h
      exact .inl hswept.answers
  | succ rounds ih =>
      obtain ⟨chance, r, t₁, hexec, h⟩ := h
      simp only [alone, exec] at hexec
      have hstarted : Swept user s removed (if cursor = 0 then t.started c else t) ∧
          ∀ k ∈ theirs (if cursor = 0 then t.started c else t) user, k ∈ (if cursor = 0 then t.started c else t).pending c := by
        by_cases hcursor : cursor = 0
        · simp only [if_pos hcursor]
          refine ⟨⟨hswept.now, hswept.answers, hswept.rest, hswept.count⟩, fun k hk => ?_⟩
          simp only [Store.started, Function.update_self]
          exact List.mem_toFinset.mp (Finset.mem_filter.mp hk).1
        · simp only [if_neg hcursor]
          exact ⟨hswept, hpending hcursor⟩
      generalize (if cursor = 0 then t.started c else t) = t at hstarted hexec
      obtain ⟨hswept, hpending⟩ := hstarted
      split at hexec
      · cases hexec
      next hdone =>
        cases hexec
        have hswept' : Swept user s removed { t with
            pending := Function.update t.pending c ((t.pending c).filter (· ∉ chance.batch)) } :=
          ⟨hswept.now, hswept.answers, hswept.rest, hswept.count⟩
        have hbatch : ∀ k ∈ theirs t user,
            k ∈ (if chance.cursor = 0 then [] else (t.pending c).filter (· ∉ chance.batch)) ∨ k ∈ chance.batch := by
          intro k hk
          by_cases hbatch : k ∈ chance.batch
          · exact .inr hbatch
          have hrest : k ∈ (t.pending c).filter (· ∉ chance.batch) := List.mem_filter.mpr ⟨hpending k hk, by simpa using hbatch⟩
          by_cases hcursor : chance.cursor = 0
          · refine absurd ?_ hdone
            simp only [hcursor, decide_true, Bool.true_and]
            obtain ⟨record, hget, -⟩ := mem_theirs.mp hk
            exact List.any_eq_true.mpr ⟨k, hrest, by rw [hget]; rfl⟩
          · rw [if_neg hcursor]
            exact .inl hrest
        obtain ⟨removed, t', hswept', hleft, hrest, h⟩ := ends_removeTheirs chance.batch hswept' hbatch h
        split at h
        next hcursor =>
          have hnone : theirs t' user = ∅ := by
            refine Finset.eq_empty_of_forall_notMem fun k hk => ?_
            have hmem := hleft k hk
            rw [if_pos hcursor] at hmem
            cases hmem
          have hcount := hswept'.count
          rw [hnone, Finset.card_empty, Nat.add_zero] at hcount
          obtain ⟨hdata, hnow, late, hanswers⟩ := ends_answer h
          refine .inr ⟨hnow.trans hswept'.now, ⟨late, by rw [hanswers, hcount, hswept'.answers]⟩, fun k => ?_⟩
          rw [hdata]
          by_cases hk : k ∈ theirs s user
          · rw [if_pos hk]
            rcases hswept'.rest k with hsame | ⟨-, hnone'⟩
            · -- a record that is still there would be one of theirs
              obtain ⟨record, hget, huser⟩ := mem_theirs.mp hk
              have hk' : k ∈ theirs t' user := mem_theirs.mpr ⟨record, by rw [← hget, Store.get, Store.get, hsame, hswept'.now], huser⟩
              rw [hnone] at hk'
              cases hk'
            · exact hnone'
          · rw [if_neg hk]
            exact (hswept'.rest k).resolve_right fun h => hk h.1
        next hcursor =>
          refine ih hswept' (fun _ k hk => ?_) h
          rw [hrest]
          have hmem := hleft k hk
          rw [if_neg hcursor] at hmem
          simpa [Function.update_self] using hmem

end Commands

section Answers

theorem mem_memory_theirs : k ∈ m.theirs user ↔ ∃ record, m.lookup k = some record ∧ record.userId = user := by
  simp only [Memory.theirs, List.mem_map, List.mem_filter]
  constructor
  · rintro ⟨⟨j, record⟩, ⟨hmem, huser⟩, rfl⟩
    exact ⟨record, AList.mem_lookup_iff.mpr hmem, by simpa using huser⟩
  · rintro ⟨record, hlookup, huser⟩
    exact ⟨⟨k, record⟩, ⟨AList.mem_lookup_iff.mp hlookup, by simpa using huser⟩, rfl⟩

theorem length_theirs (m : Memory) (user : UserId) : (m.theirs user).length = (m.theirs user).toFinset.card := by
  refine (List.toFinset_card_of_nodup ?_).symm
  exact (List.filter_sublist.map Sigma.fst).nodup m.keys_nodup

theorem lookup_eraseAll (ks : List Key) (m : Memory) (k : Key) :
    (ks.foldl (fun m k => m.erase k) m).lookup k = if k ∈ ks then none else m.lookup k := by
  induction ks generalizing m with
  | nil => simp
  | cons j ks ih =>
      rw [List.foldl_cons, ih]
      by_cases hj : k = j
      · subst hj
        simp
      · rw [AList.lookup_erase_ne hj]
        simp [hj]

/-- The store counts the records that have not lapsed. -/
theorem Agree.theirs_subset (h : Agree key s m) : theirs s user ⊆ (m.theirs user).toFinset := by
  intro k hk
  obtain ⟨record, hget, huser⟩ := mem_theirs.mp hk
  exact List.mem_toFinset.mpr (mem_memory_theirs.mpr ⟨record, ((h.same k record).mp hget).1, huser⟩)

theorem Agree.theirs_eq (h : Agree key s m) (hrecent : Recent key m s.now (.destroyAllFor user)) :
    theirs s user = (m.theirs user).toFinset := by
  refine Finset.Subset.antisymm h.theirs_subset fun k hk => ?_
  obtain ⟨record, hlookup, huser⟩ := mem_memory_theirs.mp (List.mem_toFinset.mp hk)
  exact mem_theirs.mpr ⟨record, (h.same k record).mpr ⟨hlookup, hrecent k record hlookup huser⟩, huser⟩

theorem Agree.recent_iff (h : Agree key s m) :
    Recent key m s.now (.destroyAllFor user) ↔ (theirs s user).card = (m.theirs user).length := by
  rw [length_theirs]
  constructor
  · exact fun hrecent => congrArg Finset.card (h.theirs_eq hrecent)
  · intro hcard k record hlookup huser
    have heq := Finset.eq_of_subset_of_card_le h.theirs_subset hcard.ge
    have hk : k ∈ theirs s user := heq ▸ List.mem_toFinset.mpr (mem_memory_theirs.mpr ⟨record, hlookup, huser⟩)
    obtain ⟨record', hget, -⟩ := mem_theirs.mp hk
    obtain ⟨hlookup', hlive⟩ := (h.same k record').mp hget
    obtain rfl : record = record' := Option.some.inj (hlookup.symm.trans hlookup')
    exact hlive

/-- What one call answers, and what it leaves. -/
def Served (key : Text → Key) (id csrf : Text) (s : Store) (m : Memory) (call : Call) (s' : Store) (a : Answer) : Prop :=
  (a = (m.serve key s.now id csrf call).1 ↔ Recent key m s.now call) ∧
    (Recent key m s.now call → Agree key s' (m.serve key s.now id csrf call).2 ∧ s'.now = s.now)

theorem Leaves.eq {data : AList fun _ : Key => Entry} {b : Answer} {late : Bool} (h : Leaves s s' data b)
    (ha : s'.answers = ⟨a, late⟩ :: s.answers) : a = b := by
  obtain ⟨-, -, late', hb⟩ := h
  have heq := (List.cons.inj (ha.symm.trans hb)).1
  exact congrArg Answered.answer heq

/-- A call that the memory answers as the store does. -/
theorem Served.same {call : Call} (hrecent : Recent key m s.now call) (ha : a = (m.serve key s.now id csrf call).1)
    (hagree : Agree key s' (m.serve key s.now id csrf call).2) (hnow : s'.now = s.now) : Served key id csrf s m call s' a :=
  ⟨⟨fun _ => hrecent, fun _ => ha⟩, fun _ => ⟨hagree, hnow⟩⟩

theorem served_create (h : Agree key s m) {late : Bool} (ha : s'.answers = ⟨a, late⟩ :: s.answers)
    (hends : (alone key id csrf).Ends c (create key user) s s') : Served key id csrf s m (.create user) s' a := by
  obtain ⟨hname, hleaves⟩ := ends_create hends
  have hset : Agree key (s.set (key id) ⟨user, csrf, s.now, s.now⟩) (m.insert (key id) ⟨user, csrf, s.now, s.now⟩) :=
    h.insert hname rfl
  exact .same trivial (hleaves.eq ha) (hset.of_eq hleaves.1 hleaves.2.1) hleaves.2.1

theorem served_destroy (h : Agree key s m) {late : Bool} (ha : s'.answers = ⟨a, late⟩ :: s.answers)
    (hends : (alone key id csrf).Ends c (destroy key sought) s s') : Served key id csrf s m (.destroy sought) s' a := by
  have hleaves := ends_destroy hends
  refine .same trivial (hleaves.eq ha) ?_ hleaves.2.1
  by_cases hid : sought = []
  · subst hid
    have hsame : s'.data = s.data := hleaves.1
    refine Agree.of_eq ?_ hsame hleaves.2.1
    refine ⟨h.fresh, fun k r => ?_, AList.lookup_erase ..⟩
    by_cases hk : k = key []
    · subst hk
      rw [h.same, h.nameless]
      simp [Memory.serve, Memory.destroy]
    · simp only [Memory.serve, Memory.destroy, AList.lookup_erase_ne hk]
      exact h.same k r
  · have hdata := hleaves.1
    rw [if_neg hid] at hdata
    exact (h.erase (key sought)).of_eq hdata hleaves.2.1

theorem served_touch (h : Agree key s m) {late : Bool} (ha : s'.answers = ⟨a, late⟩ :: s.answers)
    (hends : (alone key id csrf).Ends c (touch key sought) s s') : Served key id csrf s m (.touch sought) s' a := by
  rcases ends_touch hends with ⟨hnone, hleaves⟩ | ⟨record, hid, hraw, hleaves⟩
  · have hkeeps := h.of_eq hleaves.1 hleaves.2.1
    obtain rfl := hleaves.eq ha
    by_cases hid : unusable sought = true
    · have hmemory : m.touch key s.now sought = (none, m) := if_pos hid
      refine .same (fun _ hid' => ?_) ?_ ?_ hleaves.2.1
      · rw [hid] at hid'
        cases hid'
      · simp only [Memory.serve, hmemory]
      · simpa only [Memory.serve, hmemory] using hkeeps
    have hnone : s.get (key sought) = none := by
      rcases hnone with hid' | hnone | hnone
      · exact absurd hid' hid
      · exact hnone
      · rcases h.get_cases (key sought) with hget | ⟨record, hget⟩ <;> cases hnone.symm.trans hget
    cases hlookup : m.lookup (key sought) with
    | none =>
        have hmemory : m.touch key s.now sought = (none, m) := by
          simp only [Memory.touch, if_neg hid, hlookup]
        refine .same (fun record _ hrecord => ?_) ?_ ?_ hleaves.2.1
        · cases hlookup.symm.trans hrecord
        · simp only [Memory.serve, hmemory]
        · simpa only [Memory.serve, hmemory] using hkeeps
    | some record =>
        have hidle : ¬ s.now ≤ record.lastSeenAt + idleTtlSeconds := by
          intro hlive
          cases hnone.symm.trans ((h.same _ record).mpr ⟨hlookup, hlive⟩)
        by_cases hexpired : record.expired s.now = true
        · have hmemory : m.touch key s.now sought = (none, m.erase (key sought)) := by
            simp only [Memory.touch, if_neg hid, hlookup, if_pos hexpired]
          refine .same (fun record' _ hrecord hexpired' => ?_) ?_ ?_ hleaves.2.1
          · obtain rfl : record = record' := Option.some.inj (hlookup.symm.trans hrecord)
            cases hexpired.symm.trans hexpired'
          · simp only [Memory.serve, hmemory]
          · simpa only [Memory.serve, hmemory] using (h.drop hnone).of_eq hleaves.1 hleaves.2.1
        -- the memory returns what the store has let lapse
        · have hmemory : (m.touch key s.now sought).1 = some ⟨sought, { record with lastSeenAt := s.now }⟩ := by
            simp only [Memory.touch, if_neg hid, hlookup, if_neg hexpired]
          have hrecent : ¬ Recent key m s.now (.touch sought) := fun hrecent =>
            hidle (hrecent record (by simpa using hid) hlookup (by simpa using hexpired))
          refine ⟨⟨fun heq => ?_, fun hrecent' => absurd hrecent' hrecent⟩, fun hrecent' => absurd hrecent' hrecent⟩
          simp [Memory.serve, hmemory] at heq
  · obtain ⟨hlookup, hlive⟩ := (h.same _ record).mp hraw
    have hrecent : Recent key m s.now (.touch sought) := by
      intro record' _ hrecord _
      obtain rfl : record = record' := Option.some.inj (hlookup.symm.trans hrecord)
      exact hlive
    have hname : key sought ≠ key [] := by
      intro heq
      rw [heq, h.nameless] at hlookup
      cases hlookup
    split at hleaves
    next hexpired =>
      have hmemory : m.touch key s.now sought = (none, m.erase (key sought)) := by
        simp only [Memory.touch, hid, hlookup, if_pos hexpired, Bool.false_eq_true, if_false]
      refine .same hrecent ?_ ?_ hleaves.2.1
      · simp only [Memory.serve, hmemory, hleaves.eq ha]
      · simpa only [Memory.serve, hmemory] using (h.erase (key sought)).of_eq hleaves.1 hleaves.2.1
    next hexpired =>
      have hmemory : m.touch key s.now sought = (some ⟨sought, { record with lastSeenAt := s.now }⟩,
          m.insert (key sought) { record with lastSeenAt := s.now }) := by
        simp only [Memory.touch, hid, hlookup, if_neg hexpired, Bool.false_eq_true, if_false]
      refine .same hrecent ?_ ?_ hleaves.2.1
      · simp only [Memory.serve, hmemory, hleaves.eq ha]
      · have hset : Agree key (s.set (key sought) { record with lastSeenAt := s.now })
            (m.insert (key sought) { record with lastSeenAt := s.now }) := h.insert hname rfl
        simpa only [Memory.serve, hmemory] using hset.of_eq hleaves.1 hleaves.2.1

theorem served_destroyAllFor (h : Agree key s m) {rounds : Nat} {late : Bool} (ha : s'.answers = ⟨a, late⟩ :: s.answers)
    (hends : (alone key id csrf).Ends c (destroyAllFor user rounds) s s') :
    Served key id csrf s m (.destroyAllFor user) s' a := by
  have hswept : Swept user s 0 s := ⟨rfl, rfl, fun _ => .inl rfl, Nat.zero_add _⟩
  rcases ends_sweep rounds hswept (fun hzero => absurd rfl hzero) hends with hnone | ⟨hnow, ⟨late', hanswers⟩, hdata⟩
  · rw [ha] at hnone
    exact absurd (congrArg List.length hnone) (Nat.succ_ne_self _)
  have heq : a = .destroyedAll user (theirs s user).card := by
    have hhead := (List.cons.inj (ha.symm.trans hanswers)).1
    exact congrArg Answered.answer hhead
  refine ⟨?_, fun hrecent => ⟨?_, hnow⟩⟩
  · rw [h.recent_iff, heq]
    simp only [Memory.serve, Memory.destroyAllFor, Answer.destroyedAll.injEq, true_and]
  · have htheirs := h.theirs_eq hrecent
    have hget : ∀ k, s'.get k = if k ∈ theirs s user then none else s.get k := by
      intro k
      rw [Store.get, hdata k, hnow]
      split
      · rfl
      · rfl
    have hlookup : ∀ k, (m.serve key s.now id csrf (.destroyAllFor user)).2.lookup k =
        if k ∈ theirs s user then none else m.lookup k := by
      intro k
      simp only [Memory.serve, Memory.destroyAllFor]
      rw [lookup_eraseAll, htheirs]
      simp only [List.mem_toFinset]
    refine ⟨fun k e he => ?_, fun k r => ?_, ?_⟩
    · rw [hdata k] at he
      split at he
      · cases he
      · exact h.fresh k e he
    · rw [hget, hlookup, hnow]
      by_cases hk : k ∈ theirs s user
      · simp [if_pos hk]
      · rw [if_neg hk, if_neg hk]
        exact h.same k r
    · rw [hlookup, h.nameless]
      split <;> rfl

/-- One call after another, the memory answers as the store does for as long as it is asked about recent sessions. -/
theorem serves_iff (h : Agree key s m) {turns : List Turn} {answers : List Answer} (hserves : Serves key c turns s answers) :
    answers = serveAll key turns s.now m ↔ Attended key turns s.now m := by
  induction turns generalizing s m answers with
  | nil => exact ⟨fun _ => trivial, fun _ => hserves⟩
  | cons turn turns ih =>
      obtain ⟨rounds, late, a, rest, s', rfl, ha, hends, hrest⟩ := hserves
      have hwait := h.wait turn.wait
      have hserved : Served key turn.id turn.csrf { s with now := s.now + turn.wait } m turn.call s' a := by
        cases hcall : turn.call with
        | create user => exact served_create hwait ha (hcall ▸ hends)
        | touch sought => exact served_touch hwait ha (hcall ▸ hends)
        | destroy sought => exact served_destroy hwait ha (hcall ▸ hends)
        | destroyAllFor user => exact served_destroyAllFor hwait ha (hcall ▸ hends)
      obtain ⟨hanswer, hnext⟩ := hserved
      simp only [serveAll, Attended, List.cons.injEq]
      constructor
      · rintro ⟨heq, hrests⟩
        have hrecent := hanswer.mp heq
        obtain ⟨hagree, hnow⟩ := hnext hrecent
        refine ⟨hrecent, ?_⟩
        have hlater := ih hagree hrest
        rw [hnow] at hlater
        exact hlater.mp hrests
      · rintro ⟨hrecent, hattended⟩
        obtain ⟨hagree, hnow⟩ := hnext hrecent
        refine ⟨hanswer.mpr hrecent, ?_⟩
        have hlater := ih hagree hrest
        rw [hnow] at hlater
        exact hlater.mpr hattended

end Answers

theorem agree_empty (start : Time) : Agree key (empty start) ∅ := by
  refine ⟨fun k e he => ?_, fun k record => ?_, AList.lookup_empty _⟩
  · simp [empty] at he
  · simp [empty, Store.get]

/-- No session that was ended has a record, and no touch returned one, or one past its lifetime. -/
def Final (s : Store) : Prop := (∀ k ∈ s.ended, s.get k = none) ∧ ∀ a ∈ s.answers, Sound a

theorem inv_empty (start : Time) : Inv (empty start) := by
  constructor
  · intro k e he
    simp [empty] at he
  all_goals simp [empty]

/-- The end of a session is final as long as each touch writes its record where there still is one, and the memory
answers as the store does exactly where no session was idle for too long. -/
theorem sessions_end (key : Text → Key) (start : Time) :
    (∀ g, (sessions key).Reachable (Protocol.Statements Allowed) (empty start) g → Final g.store) ∧
    ∀ c turns answers, Serves key c turns (empty start) answers →
      (answers = serveAll key turns start ∅ ↔ Attended key turns start ∅) := by
  constructor
  · intro g hg
    obtain ⟨hI, -⟩ := sound.reachable (Discipline.grants_statements fun _ _ => trivial) (inv_empty start) (fun _ => trivial) hg
    exact ⟨hI.ended, hI.answers⟩
  · intro c turns answers hserves
    exact serves_iff (agree_empty start) hserves

section Examples

def hashed (id : Text) : Key := "sh:session:".toList ++ id

def drawn (id : Text) (clock : Time) (batch : List Key) : Chance := ⟨id, ['c'], clock, 0, batch⟩

/-- Statements of a call, one after the other. -/
def runs (c : Client) (choices : List Chance) : List (Move Client Chance Request) := choices.map (.run c)

def signIn (c : Client) (user : UserId) (id : Text) : List (Move Client Chance Request) :=
  .arrive c (.call (.create user) 0) :: runs c (List.replicate 4 (drawn id 0 []))

def allowed (_ : Client) : Op → Store → Bool
  | .set k _, s => (s.get k).isSome
  | _, _ => true

theorem allowed_watch (c : Client) (op : Op) (s : Store) (h : allowed c op s = true) : Allowed c op s := by
  cases op with
  | set k record => exact h
  | _ => trivial

/-- A user signs in twice, one session is touched and ended, and then all of them are. -/
def endings : List (Move Client Chance Request) :=
  signIn 0 7 ['a'] ++ signIn 0 7 ['b'] ++
    .arrive 1 (.call (.touch ['a']) 0) :: runs 1 (List.replicate 5 (drawn [] 60 [])) ++
    .arrive 2 (.call (.destroy ['a']) 0) :: runs 2 (List.replicate 3 (drawn [] 60 [])) ++
    .arrive 2 (.call (.destroyAllFor 7) 1) :: runs 2 (List.replicate 4 (drawn [] 60 [hashed ['b']])) ++
    .arrive 1 (.call (.touch ['b']) 0) :: runs 1 (List.replicate 3 (drawn [] 60 []))

/-- A session is touched once, so long after its start. -/
def visit (wait : Time) : List Turn := [⟨0, ['a'], ['c'], .create 7⟩, ⟨wait, [], [], .touch ['a']⟩]

theorem sessions_end_endings :
    (∃ g, (sessions hashed).Reachable (Protocol.Statements Allowed) (empty 0) g ∧
      g.store.ended = [hashed ['b'], hashed ['a'], hashed ['a']] ∧ Final g.store) ∧
    ∃ answers, Serves hashed 0 (visit 60) (empty 0) answers ∧ Attended hashed (visit 60) 0 ∅ ∧
      answers = serveAll hashed (visit 60) 0 ∅ := by
  constructor
  · have h := Protocol.Reachable.start.replay (P := sessions hashed) (s := empty 0)
      (Protocol.statements_watch allowed_watch) endings rfl
    exact ⟨_, h, rfl, (sessions_end hashed 0).1 _ h⟩
  · have hserves : Serves hashed 0 (visit 60) (empty 0)
        [.created ⟨['a'], ⟨7, ['c'], 0, 0⟩⟩, .touched (some ⟨['a'], ⟨7, ['c'], 0, 60⟩⟩)] :=
      ⟨0, _, _, _, _, rfl, rfl, ⟨default, _, _, rfl, default, _, _, rfl, default, _, _, rfl, default, _, _, rfl, rfl⟩,
        0, _, _, _, _, rfl, rfl,
        ⟨default, _, _, rfl, default, _, _, rfl, default, _, _, rfl, default, _, _, rfl, default, _, _, rfl, rfl⟩, rfl⟩
    have hattended : Attended hashed (visit 60) 0 ∅ := by
      refine ⟨trivial, fun record _ hlookup _ => ?_, trivial⟩
      obtain rfl : (⟨7, ['c'], 0, 0⟩ : SessionRecord) = record := Option.some.inj hlookup
      decide
    exact ⟨_, hserves, hattended, ((sessions_end hashed 0).2 _ _ _ hserves).mpr hattended⟩

/-- A session is ended between the two commands of a touch, which brings it back for the next one. -/
def resurrection : List (Move Client Chance Request) :=
  signIn 0 7 ['a'] ++
    .arrive 1 (.call (.touch ['a']) 0) :: runs 1 (List.replicate 2 (drawn [] 60 [])) ++
    .arrive 2 (.call (.destroy ['a']) 0) :: runs 2 (List.replicate 3 (drawn [] 60 [])) ++
    runs 1 (List.replicate 3 (drawn [] 60 [])) ++
    .arrive 1 (.call (.touch ['a']) 0) :: runs 1 (List.replicate 5 (drawn [] 60 []))

theorem not_sessions_end :
    (¬ ∀ g, (sessions hashed).Reachable (fun _ _ => True) (empty 0) g → Final g.store) ∧
    ¬ ∀ c turns answers, Serves hashed c turns (empty 0) answers → answers = serveAll hashed turns 0 ∅ := by
  constructor
  · intro h
    have hrun := Protocol.Reachable.start.free (P := sessions hashed) (s := empty 0) resurrection rfl
    have hanswer := (h _ hrun).2 ⟨.touched (some ⟨['a'], ⟨7, ['c'], 0, 60⟩⟩), true⟩ List.mem_cons_self
    cases hanswer.1
  · intro h
    have hserves : Serves hashed 0 (visit (idleTtlSeconds + 1)) (empty 0)
        [.created ⟨['a'], ⟨7, ['c'], 0, 0⟩⟩, .touched none] :=
      ⟨0, _, _, _, _, rfl, rfl, ⟨drawn ['a'] 0 [], _, _, rfl, default, _, _, rfl, default, _, _, rfl, default, _, _, rfl, rfl⟩,
        0, _, _, _, _, rfl, rfl, ⟨default, _, _, rfl, default, _, _, rfl, default, _, _, rfl, rfl⟩, rfl⟩
    exact absurd (h _ _ _ hserves) (by decide)

end Examples

end Corebase.SessionStores
