import Corebase.InsertionMap
import Mathlib.Algebra.Order.Field.Rat
import Mathlib.Data.List.Induction
import Mathlib.Data.NNRat.Defs
import Mathlib.Tactic.Linarith

namespace Corebase.TrafficMeter

open InsertionMap

inductive Outcome
  | pending
  | written
  | failed
deriving DecidableEq

/-- A write that has been sent, with the clock as the request read it. -/
structure Write (Project : Type) where
  project : Project
  now : ℚ
  outcome : Outcome
deriving DecidableEq

/-! The order of the writes -/

section Writes

variable {Project : Type} {ws : List Project} {p q r : Project}

/-- The second has been written since the first was written last. -/
def Since (writes : List Project) (q r : Project) : Prop := ∃ a b, writes = a ++ b ∧ r ∈ b ∧ q ∉ b

theorem Since.snoc (h : Since ws q r) (hq : q ≠ p) : Since (ws ++ [p]) q r := by
  obtain ⟨a, b, rfl, hr, hnone⟩ := h
  refine ⟨a, b ++ [p], List.append_assoc a b [p], List.mem_append_left [p] hr, ?_⟩
  intro hmem
  rcases List.mem_append.mp hmem with hmem | hmem
  · exact hnone hmem
  · exact hq (List.mem_singleton.mp hmem)

theorem since_last (ws : List Project) (hq : q ≠ p) : Since (ws ++ [p]) q p :=
  ⟨ws, [p], rfl, List.mem_singleton_self p, fun hmem => hq (List.mem_singleton.mp hmem)⟩

theorem pairwise_snoc {keys : List Project} (h : keys.Pairwise (Since ws)) (hp : p ∉ keys) :
    (keys ++ [p]).Pairwise (Since (ws ++ [p])) := by
  have hne : ∀ q ∈ keys, q ≠ p := by
    rintro q hq rfl
    exact hp hq
  rw [List.pairwise_append]
  refine ⟨h.imp_of_mem fun hq _ hsince => hsince.snoc (hne _ hq), List.pairwise_singleton _ p, ?_⟩
  intro q hq r hr
  obtain rfl := List.mem_singleton.mp hr
  exact since_last ws (hne q hq)

theorem project_set {ws : List (Write Project)} {w : Write Project} {i : Nat} (h : ws[i]? = some w)
    (outcome : Outcome) :
    (ws.set i { w with outcome }).map Write.project = ws.map Write.project := by
  obtain ⟨hi, rfl⟩ := List.getElem?_eq_some_iff.mp h
  have hmap : i < (ws.map Write.project).length := by rwa [List.length_map]
  rw [List.map_set]
  exact (congrArg _ (List.getElem_map Write.project).symm).trans (List.set_getElem_self hmap)

theorem not_since (ws : List Project) : ¬ Since (ws ++ [q]) q r := by
  rintro ⟨a, b, hws, hr, hnone⟩
  obtain ⟨b, y, rfl⟩ := (List.eq_nil_or_concat' b).resolve_left (List.ne_nil_of_mem hr)
  rw [← List.append_assoc] at hws
  obtain ⟨-, hy⟩ := List.append_inj' hws rfl
  cases hy
  exact hnone (List.mem_append_right b (List.mem_singleton_self q))

end Writes

structure State (Project : Type) [DecidableEq Project] where
  lastWritten : Map Project ℚ
  writes : List (Write Project)

/-- Writes are settled in any order. -/
inductive Event (Project : Type)
  | seen (projectId : Project) (now : ℚ)
  | settled (write : Nat) (ok : Bool)
deriving DecidableEq

def MAX_TRACKED : Nat := 10000

variable {Project : Type} [DecidableEq Project]

def sends (interval : ℚ≥0) (s : State Project) (projectId : Project) (now : ℚ) : Bool :=
  match s.lastWritten.lookup projectId with
  | some previous => ¬ now - previous < interval
  | none => true

/-- The entry is recorded, and where the map has become too large its first entries are deleted. -/
def record (projectId : Project) (now : ℚ) (lastWritten : Map Project ℚ) : Map Project ℚ :=
  let lastWritten := set projectId now lastWritten
  if MAX_TRACKED < lastWritten.keys.length then evict MAX_TRACKED lastWritten.keys lastWritten else lastWritten

def step (interval : ℚ≥0) (s : State Project) : Event Project → State Project
  | .seen projectId now =>
      if sends interval s projectId now then
        { lastWritten := record projectId now s.lastWritten
          writes := s.writes ++ [⟨projectId, now, .pending⟩] }
      else s
  | .settled write ok =>
      match s.writes[write]? with
      | some ⟨projectId, now, .pending⟩ =>
          { lastWritten := if ok then s.lastWritten else s.lastWritten.erase projectId
            writes := s.writes.set write ⟨projectId, now, if ok then .written else .failed⟩ }
      | _ => s

def runFrom (interval : ℚ≥0) (s : State Project) (events : List (Event Project)) : State Project :=
  events.foldl (step interval) s

def run (interval : ℚ≥0) (events : List (Event Project)) : State Project :=
  runFrom interval ⟨∅, []⟩ events

/-! What the meter promises -/

section Promises

variable (interval : ℚ≥0) (events : List (Event Project))

def Fits : Prop := (run interval events).lastWritten.keys.length ≤ MAX_TRACKED

/-- Two writes of a project that stays tracked are an interval apart. -/
def Apart : Prop :=
  ∀ before p t between t' rest, events = before ++ .seen p t :: (between ++ .seen p t' :: rest) →
    sends interval (run interval before) p t = true →
    (∀ part, part <+: between → p ∈ (run interval (before ++ .seen p t :: part)).lastWritten) →
    sends interval (run interval (before ++ .seen p t :: between)) p t' = true → interval ≤ t' - t

/-- The next request after a write has failed sends one again. -/
def Retried : Prop :=
  ∀ before i between p now t rest, events = before ++ .settled i false :: (between ++ .seen p t :: rest) →
    (run interval before).writes[i]? = some ⟨p, now, .pending⟩ → (∀ t, .seen p t ∉ between) →
    sends interval (run interval (before ++ .settled i false :: between)) p t = true

/-- The entry that a request displaces is the one that was written longest ago. -/
def OldestEvicted : Prop :=
  ∀ before p t rest, events = before ++ .seen p t :: rest →
    ∀ q ∈ (run interval before).lastWritten, q ∉ (run interval (before ++ [.seen p t])).lastWritten →
      ∀ r ∈ (run interval before).lastWritten, r ≠ q →
        Since ((run interval before).writes.map Write.project) q r

structure Bounded : Prop where
  fits : Fits interval events
  apart : Apart interval events
  retried : Retried interval events
  oldest : OldestEvicted interval events

/-- No request sends a write for a project that is tracked already, other than the one whose entry is the last. -/
def Forward : Prop :=
  ∀ before p t rest, events = before ++ .seen p t :: rest → sends interval (run interval before) p t = true →
    p ∈ (run interval before).lastWritten → (run interval before).lastWritten.keys.getLast? = some p

end Promises

/-! What one step does to the map -/

section Steps

variable {interval : ℚ≥0} {s : State Project} {m : Map Project ℚ} {p q : Project} {t v : ℚ}

theorem record_cases (h : m.keys.length ≤ MAX_TRACKED) :
    record p t m = set p t m ∧ (set p t m).keys.length ≤ MAX_TRACKED ∨
      p ∉ m ∧ ∃ k ks, m.keys ++ [p] = k :: ks ∧ record p t m = (set p t m).erase k := by
  rw [record]
  by_cases hlarge : MAX_TRACKED < (set p t m).keys.length
  · have hp : p ∉ m := by
      intro hp
      rw [keys_set_of_mem hp] at hlarge
      omega
    have hkeys := keys_set_of_notMem hp t
    have hlength : (set p t m).keys.length ≤ MAX_TRACKED + 1 := by
      rw [hkeys, List.length_append]
      exact Nat.succ_le_succ h
    have hne : m.keys ++ [p] ≠ [] := List.append_ne_nil_of_right_ne_nil m.keys (List.cons_ne_nil p [])
    obtain ⟨k, ks, hcons⟩ := List.exists_cons_of_ne_nil hne
    rw [if_pos hlarge]
    exact .inr ⟨hp, k, ks, hcons, evict_first (hkeys.trans hcons) hlength⟩
  · rw [if_neg hlarge]
    exact .inl ⟨rfl, not_lt.mp hlarge⟩

theorem fits_record (h : m.keys.length ≤ MAX_TRACKED) : (record p t m).keys.length ≤ MAX_TRACKED := by
  rcases record_cases h with ⟨hrecord, hle⟩ | ⟨hp, k, ks, hcons, hrecord⟩
  · rwa [hrecord]
  · have hlength := congrArg List.length hcons
    rw [List.length_append, List.length_cons, List.length_cons, List.length_nil] at hlength
    rw [hrecord, AList.keys_erase, keys_set_of_notMem hp, hcons, List.erase_cons_head]
    omega

theorem lookup_record (h : m.keys.length ≤ MAX_TRACKED) (hq : q ∈ record p t m) :
    (record p t m).lookup q = if q = p then some t else m.lookup q := by
  rcases record_cases h with ⟨hrecord, -⟩ | ⟨-, k, ks, -, hrecord⟩
  · rw [hrecord, lookup_set]
  · rw [hrecord] at hq ⊢
    rw [AList.lookup_erase_ne (AList.mem_erase.mp hq).1, lookup_set]

theorem mem_record (h : m.keys.length ≤ MAX_TRACKED) (hq : q ∈ record p t m) : q = p ∨ q ∈ m := by
  rcases record_cases h with ⟨hrecord, -⟩ | ⟨-, k, ks, -, hrecord⟩
  · rw [hrecord] at hq
    exact mem_set.mp hq
  · rw [hrecord] at hq
    exact mem_set.mp (AList.mem_erase.mp hq).2

/-- What a settled write leaves. -/
theorem settled_cases (s : State Project) (i : Nat) (ok : Bool) :
    step interval s (.settled i ok) = s ∨
      ∃ p now, s.writes[i]? = some ⟨p, now, .pending⟩ ∧
        step interval s (.settled i ok) = ⟨if ok then s.lastWritten else s.lastWritten.erase p,
          s.writes.set i ⟨p, now, if ok then .written else .failed⟩⟩ := by
  rw [step]
  split
  · next p now hwrite => exact .inr ⟨p, now, hwrite, rfl⟩
  · exact .inl rfl

theorem fits_step (e : Event Project) (h : s.lastWritten.keys.length ≤ MAX_TRACKED) :
    (step interval s e).lastWritten.keys.length ≤ MAX_TRACKED := by
  cases e with
  | seen p t =>
      rw [step]
      split
      · exact fits_record h
      · exact h
  | settled i ok =>
      rcases settled_cases s i ok with heq | ⟨p, now, -, heq⟩
      · rwa [heq]
      · rw [heq]
        cases ok with
        | true => exact h
        | false =>
            change (s.lastWritten.erase p).keys.length ≤ MAX_TRACKED
            rw [AList.keys_erase]
            exact (List.length_erase_le).trans h

/-- The entry of a project that stays tracked is the last write's. -/
theorem entry_step (e : Event Project) (hfits : s.lastWritten.keys.length ≤ MAX_TRACKED)
    (hentry : s.lastWritten.lookup p = some v) (htracked : p ∈ (step interval s e).lastWritten) :
    ∃ v', (step interval s e).lastWritten.lookup p = some v' ∧ (v' = v ∨ interval ≤ v' - v) := by
  cases e with
  | seen q t =>
      by_cases hsends : sends interval s q t = true
      · rw [step, if_pos hsends] at htracked ⊢
        rw [lookup_record hfits htracked]
        by_cases hq : p = q
        · subst q
          rw [sends, hentry] at hsends
          exact ⟨t, if_pos rfl, .inr (not_lt.mp (of_decide_eq_true hsends))⟩
        · exact ⟨v, by rw [if_neg hq, hentry], .inl rfl⟩
      · rw [step, if_neg hsends]
        exact ⟨v, hentry, .inl rfl⟩
  | settled i ok =>
      rcases settled_cases s i ok with heq | ⟨q, now, -, heq⟩
      · exact ⟨v, by rw [heq]; exact hentry, .inl rfl⟩
      · rw [heq] at htracked ⊢
        cases ok with
        | true => exact ⟨v, hentry, .inl rfl⟩
        | false => exact ⟨v, (AList.lookup_erase_ne (AList.mem_erase.mp htracked).1).trans hentry, .inl rfl⟩

/-- A project is only tracked again by a request of its own. -/
theorem untracked_step (e : Event Project) (hfits : s.lastWritten.keys.length ≤ MAX_TRACKED)
    (hp : p ∉ s.lastWritten) (he : ∀ t, e ≠ .seen p t) : p ∉ (step interval s e).lastWritten := by
  cases e with
  | seen q t =>
      rw [step]
      split
      · intro hmem
        rcases mem_record hfits hmem with rfl | hmem
        · exact he t rfl
        · exact hp hmem
      · exact hp
  | settled i ok =>
      rcases settled_cases s i ok with heq | ⟨q, now, -, heq⟩
      · rwa [heq]
      · rw [heq]
        cases ok with
        | true => exact hp
        | false => exact fun hmem => hp (AList.mem_erase.mp hmem).2

end Steps

/-! What a whole run does to it -/

section Runs

variable {interval : ℚ≥0} {s : State Project} {p : Project} {t v : ℚ}

theorem run_after (before : List (Event Project)) (e : Event Project) (between : List (Event Project)) :
    run interval (before ++ e :: between) = runFrom interval (step interval (run interval before) e) between :=
  List.foldl_append

theorem run_snoc (before : List (Event Project)) (e : Event Project) :
    run interval (before ++ [e]) = step interval (run interval before) e :=
  run_after before e []

theorem fits_along (events : List (Event Project)) (h : s.lastWritten.keys.length ≤ MAX_TRACKED) :
    (runFrom interval s events).lastWritten.keys.length ≤ MAX_TRACKED := by
  induction events generalizing s with
  | nil => exact h
  | cons e events ih => exact ih (fits_step e h)

theorem fits_run (interval : ℚ≥0) (events : List (Event Project)) : Fits interval events :=
  fits_along events (Nat.zero_le _)

theorem entry_along (between : List (Event Project)) (hfits : s.lastWritten.keys.length ≤ MAX_TRACKED)
    (hentry : s.lastWritten.lookup p = some v)
    (htracked : ∀ part, part <+: between → p ∈ (runFrom interval s part).lastWritten) :
    ∃ v', (runFrom interval s between).lastWritten.lookup p = some v' ∧ (v' = v ∨ interval ≤ v' - v) := by
  induction between generalizing s v with
  | nil => exact ⟨v, hentry, .inl rfl⟩
  | cons e between ih =>
      have hstep : p ∈ (step interval s e).lastWritten := htracked [e] (by simp)
      obtain ⟨v₁, hentry₁, hv₁⟩ := entry_step e hfits hentry hstep
      have hrest : ∀ part, part <+: between → p ∈ (runFrom interval (step interval s e) part).lastWritten :=
        fun part hpart => htracked (e :: part) (List.prefix_cons_inj e |>.mpr hpart)
      obtain ⟨v₂, hentry₂, hv₂⟩ := ih (fits_step e hfits) hentry₁ hrest
      refine ⟨v₂, hentry₂, ?_⟩
      have hinterval : (0 : ℚ) ≤ interval := interval.2
      rcases hv₁ with rfl | hv₁
      · exact hv₂
      · rcases hv₂ with rfl | hv₂
        · exact .inr hv₁
        · exact .inr (by linarith)

theorem untracked_along (between : List (Event Project)) (hfits : s.lastWritten.keys.length ≤ MAX_TRACKED)
    (hp : p ∉ s.lastWritten) (hnone : ∀ t, .seen p t ∉ between) :
    p ∉ (runFrom interval s between).lastWritten := by
  induction between generalizing s with
  | nil => exact hp
  | cons e between ih =>
      have he : ∀ t, e ≠ .seen p t := by
        rintro t rfl
        exact hnone t List.mem_cons_self
      exact ih (fits_step e hfits) (untracked_step e hfits hp he) fun t hmem =>
        hnone t (List.mem_cons_of_mem e hmem)

theorem lookup_seen (hfits : s.lastWritten.keys.length ≤ MAX_TRACKED) (hsends : sends interval s p t = true)
    (htracked : p ∈ (step interval s (.seen p t)).lastWritten) :
    (step interval s (.seen p t)).lastWritten.lookup p = some t := by
  rw [step, if_pos hsends] at htracked ⊢
  rw [lookup_record hfits htracked, if_pos rfl]

theorem sends_untracked (hp : p ∉ s.lastWritten) : sends interval s p t = true := by
  rw [sends, AList.lookup_eq_none.mpr hp]

theorem apart_run (events : List (Event Project)) : Apart interval events := by
  intro before p t between t' rest _ hsends htracked hsends'
  rw [run_after] at hsends'
  have htracked' : ∀ part, part <+: between →
      p ∈ (runFrom interval (step interval (run interval before) (.seen p t)) part).lastWritten := by
    intro part hpart
    have h := htracked part hpart
    rwa [run_after] at h
  have hfits := fits_run interval before
  have hentry := lookup_seen hfits hsends (htracked' [] List.nil_prefix)
  obtain ⟨v, hv, hlater⟩ := entry_along between (fits_step _ hfits) hentry htracked'
  rw [sends, hv] at hsends'
  have hafter : (interval : ℚ) ≤ t' - v := not_lt.mp (of_decide_eq_true hsends')
  rcases hlater with rfl | hlater
  · exact hafter
  · have hinterval : (0 : ℚ) ≤ interval := interval.2
    linarith

theorem retried_run (events : List (Event Project)) : Retried interval events := by
  intro before i between p now t rest _ hwrite hnone
  rw [run_after]
  apply sends_untracked
  apply untracked_along between (fits_step _ (fits_run interval before)) _ hnone
  rw [step, hwrite]
  exact fun hmem => (AList.mem_erase.mp hmem).1 rfl

end Runs

/-! The order of the entries -/

section Order

variable {interval : ℚ≥0} {s : State Project} {m : Map Project ℚ} {p q r : Project} {t : ℚ}

/-- The entries stand in the order of the last writes. -/
def Ordered (s : State Project) : Prop := s.lastWritten.keys.Pairwise (Since (s.writes.map Write.project))

/-- The key set last stands last, where only the last key is set again. -/
theorem keys_set_last (hlast : p ∈ m → m.keys.getLast? = some p) :
    ∃ keys, (set p t m).keys = keys ++ [p] ∧ keys.Sublist m.keys ∧ p ∉ keys := by
  by_cases hp : p ∈ m
  · obtain ⟨keys, hkeys⟩ := List.getLast?_eq_some_iff.mp (hlast hp)
    have hnodup := m.keys_nodup
    rw [hkeys] at hnodup
    refine ⟨keys, (keys_set_of_mem hp t).trans hkeys, hkeys ▸ List.sublist_append_left keys [p], ?_⟩
    exact fun hmem => (List.nodup_append.mp hnodup).2.2 p hmem p (List.mem_singleton_self p) rfl
  · exact ⟨m.keys, keys_set_of_notMem hp t, List.Sublist.refl _, hp⟩

theorem keys_record (hfits : m.keys.length ≤ MAX_TRACKED) : (record p t m).keys.Sublist (set p t m).keys := by
  rcases record_cases hfits with ⟨hrecord, -⟩ | ⟨-, k, ks, -, hrecord⟩
  · rw [hrecord]
  · rw [hrecord, AList.keys_erase]
    exact List.erase_sublist

theorem ordered_seen (h : Ordered s) (hfits : s.lastWritten.keys.length ≤ MAX_TRACKED)
    (hlast : sends interval s p t = true → p ∈ s.lastWritten → s.lastWritten.keys.getLast? = some p) :
    Ordered (step interval s (.seen p t)) := by
  by_cases hsends : sends interval s p t = true
  · rw [step, if_pos hsends]
    obtain ⟨keys, hset, hsub, hp⟩ := keys_set_last (t := t) (hlast hsends)
    rw [Ordered, List.map_append, List.map_cons, List.map_nil]
    apply List.Pairwise.sublist (keys_record hfits)
    rw [hset]
    exact pairwise_snoc (h.sublist hsub) hp
  · rwa [step, if_neg hsends]

theorem ordered_settled (h : Ordered s) (i : Nat) (ok : Bool) : Ordered (step interval s (.settled i ok)) := by
  rcases settled_cases s i ok with heq | ⟨p, now, hwrite, heq⟩
  · rwa [heq]
  · have hwrites := project_set hwrite (if ok then .written else .failed)
    rw [heq, Ordered]
    dsimp only at hwrites ⊢
    rw [hwrites]
    cases ok with
    | true => exact h
    | false =>
        change (s.lastWritten.erase p).keys.Pairwise _
        rw [AList.keys_erase]
        exact h.sublist List.erase_sublist

theorem ordered_run {events : List (Event Project)} (h : Forward interval events) :
    ∀ {before rest}, events = before ++ rest → Ordered (run interval before) := by
  intro before
  induction before using List.reverseRecOn with
  | nil => exact fun _ => List.Pairwise.nil
  | append_singleton before e ih =>
      intro rest hevents
      have hsplit : events = before ++ e :: rest := by rw [hevents, List.append_assoc]; rfl
      rw [run_snoc]
      cases e with
      | seen p t => exact ordered_seen (ih hsplit) (fits_run interval before) (h before p t rest hsplit)
      | settled i ok => exact ordered_settled (ih hsplit) i ok

theorem oldest_run {events : List (Event Project)} (h : Forward interval events) :
    OldestEvicted interval events := by
  intro before p t rest hevents q hq hgone r hr hne
  have hordered := ordered_run h hevents
  rw [run_snoc] at hgone
  by_cases hsends : sends interval (run interval before) p t = true
  · rw [step, if_pos hsends] at hgone
    rcases record_cases (p := p) (t := t) (fits_run interval before) with
      ⟨hrecord, -⟩ | ⟨hp, k, ks, hcons, hrecord⟩
    · rw [hrecord] at hgone
      exact absurd (mem_set.mpr (.inr hq)) hgone
    · -- what is displaced is the first key
      rw [hrecord] at hgone
      obtain rfl : q = k := by
        by_contra hqk
        exact hgone (AList.mem_erase.mpr ⟨hqk, mem_set.mpr (.inr hq)⟩)
      obtain ⟨x, xs, hkeys⟩ := List.exists_cons_of_ne_nil (List.ne_nil_of_mem (AList.mem_keys.mp hq))
      rw [hkeys, List.cons_append, List.cons.injEq] at hcons
      obtain ⟨rfl, -⟩ := hcons
      rw [AList.mem_keys, hkeys] at hr
      rw [Ordered, hkeys, List.pairwise_cons] at hordered
      exact hordered.1 r ((List.mem_cons.mp hr).resolve_left hne)
  · rw [step, if_neg hsends] at hgone
    exact absurd hq hgone

end Order

theorem meter_bounds (interval : ℚ≥0) (events : List (Event Project)) (h : Forward interval events) :
    Bounded interval events where
  fits := fits_run interval events
  apart := apart_run events
  retried := retried_run events
  oldest := oldest_run h

theorem sampled_meter :
    Bounded 60000 ([.seen 0 0, .settled 0 false, .seen 0 1, .seen 0 60001] : List (Event Nat)) := by
  apply meter_bounds
  intro before p t rest h hsends hp
  rcases before with _ | ⟨e₁, _ | ⟨e₂, _ | ⟨e₃, _ | ⟨e₄, before⟩⟩⟩⟩
  · cases h
    exact absurd hp (by decide)
  · cases h
  · cases h
    exact absurd hp (by decide)
  · cases h
    decide
  · simp at h

/-! An entry that is overwritten in place -/

section InPlace

variable {interval : ℚ≥0} {p q r : Project} {t : ℚ}

/-- Requests for projects that are all new. -/
theorem fresh_run (interval : ℚ≥0) (t : ℚ) {ks : List Project} (hnodup : ks.Nodup)
    (hlength : ks.length ≤ MAX_TRACKED) :
    (run interval (ks.map (.seen · t))).lastWritten.keys = ks ∧
      (run interval (ks.map (.seen · t))).writes.map Write.project = ks ∧
      ∀ q ∈ ks, (run interval (ks.map (.seen · t))).lastWritten.lookup q = some t := by
  induction ks using List.reverseRecOn with
  | nil => exact ⟨rfl, rfl, by simp⟩
  | append_singleton ks p ih =>
      rw [List.length_append, List.length_singleton] at hlength
      rw [List.nodup_append] at hnodup
      obtain ⟨hkeys, hwrites, hlookup⟩ := ih hnodup.1 (Nat.le_of_succ_le hlength)
      have hp : p ∉ (run interval (ks.map (.seen · t))).lastWritten := by
        rw [AList.mem_keys, hkeys]
        exact fun hmem => hnodup.2.2 p hmem p (List.mem_singleton_self p) rfl
      have hset := keys_set_of_notMem hp t
      rw [hkeys] at hset
      rw [List.map_append, List.map_singleton, run_snoc, step, if_pos (sends_untracked hp), record, if_neg]
      · refine ⟨hset, by rw [List.map_append, hwrites]; rfl, ?_⟩
        intro q hq
        rw [lookup_set]
        split
        · rfl
        · next hne =>
            exact hlookup q ((List.mem_append.mp hq).resolve_right fun h => hne (List.mem_singleton.mp h))
      · rw [hset, List.length_append, List.length_singleton]
        exact not_lt.mpr hlength

/-- The first project is written again and stays the first. -/
theorem overwrite_step {s : State Project} {ks : List Project} (hkeys : s.lastWritten.keys = q :: ks)
    (hfits : s.lastWritten.keys.length ≤ MAX_TRACKED) (hentry : s.lastWritten.lookup q = some t) :
    (step interval s (.seen q (t + interval))).lastWritten.keys = q :: ks ∧
      (step interval s (.seen q (t + interval))).writes.map Write.project = s.writes.map Write.project ++ [q] := by
  have hq : q ∈ s.lastWritten := by
    rw [AList.mem_keys, hkeys]
    exact List.mem_cons_self
  have hset := keys_set_of_mem hq (t + interval)
  have hsends : sends interval s q (t + interval) = true := by
    rw [sends, hentry]
    simp
  rw [step, if_pos hsends]
  constructor
  · rw [record, if_neg, hset, hkeys]
    rw [hset]
    exact not_lt.mpr hfits
  · rw [List.map_append]
    rfl

/-- A new project displaces the first entry of a full map. -/
theorem displace_step {s : State Project} {ks : List Project} (hkeys : s.lastWritten.keys = q :: ks)
    (hfull : s.lastWritten.keys.length = MAX_TRACKED) (hp : p ∉ s.lastWritten) :
    q ∉ (step interval s (.seen p t)).lastWritten := by
  rw [step, if_pos (sends_untracked hp)]
  rcases record_cases (p := p) (t := t) hfull.le with ⟨-, hlarge⟩ | ⟨-, k, ks', hcons, hrecord⟩
  · rw [keys_set_of_notMem hp, List.length_append, hfull] at hlarge
    exact absurd hlarge (Nat.not_succ_le_self MAX_TRACKED)
  · rw [hkeys, List.cons_append, List.cons.injEq] at hcons
    rw [hrecord, hcons.1]
    exact fun hmem => (AList.mem_erase.mp hmem).1 rfl

theorem displaced (ks : List Project) (hnodup : (q :: r :: ks).Nodup)
    (hlength : (q :: r :: ks).length = MAX_TRACKED) (hp : p ∉ q :: r :: ks) :
    ¬ OldestEvicted interval ((q :: r :: ks).map (.seen · t) ++ [.seen q (t + interval)] ++ [.seen p t]) := by
  intro h
  obtain ⟨hkeys, hwrites, hlookup⟩ := fresh_run interval t hnodup hlength.le
  have hfull := (congrArg List.length hkeys).trans hlength
  obtain ⟨hkeys', hwrites'⟩ := overwrite_step hkeys hfull.le (hlookup q List.mem_cons_self)
  have hfull' := (congrArg List.length hkeys').trans hlength
  rw [← run_snoc] at hkeys' hwrites' hfull'
  have hmem (x : Project) :
      x ∈ (run interval ((q :: r :: ks).map (.seen · t) ++ [.seen q (t + interval)])).lastWritten ↔
        x ∈ q :: r :: ks := by
    rw [AList.mem_keys, hkeys']
  have hgone : q ∉ (step interval _ (.seen p t)).lastWritten := displace_step hkeys' hfull' ((hmem p).not.mpr hp)
  rw [← run_snoc] at hgone
  have hne : r ≠ q := fun he => (List.nodup_cons.mp hnodup).1 (he ▸ List.mem_cons_self)
  have hsince := h _ p t [] rfl q ((hmem q).mpr (by simp)) hgone r ((hmem r).mpr (by simp)) hne
  rw [hwrites'] at hsince
  exact not_since _ hsince

theorem in_place : ¬ ∀ events : List (Event Nat), Bounded 60000 events := by
  intro h
  refine displaced (List.range' 2 9998) (q := 0) (r := 1) (p := 10000) (t := 0) ?_ ?_ ?_ (h _).oldest
  · simp [List.nodup_range']
  · rw [List.length_cons, List.length_cons, List.length_range']
    rfl
  · simp

end InPlace

end Corebase.TrafficMeter
