import Corebase.MailCaps
import Mathlib.Data.List.Dedup
import Mathlib.Data.List.Perm.Subperm

namespace Corebase.CapBounds

open Interleaving MailCaps

variable {caps : ProjectId → EmailCaps} {c d : Client} {s s' : Store} {k j : Key} {send : Send} {cap : Cap} {Q : Store → Prop}
  {spent : List Key}

/-- The allowed sends that a counter is about. -/
def allowedSends (s : Store) (k : Key) : Nat := s.log.countP fun e => e.verdict = .allowed && k ∈ e.send.keys

def onKey (k : Key) (l : List (Client × Key)) : Nat := l.countP fun r => r.2 = k

/-- The recipients of a day that an allowed check has found new. -/
def newcomers (s : Store) (p : ProjectId) (day : Day) : List Recipient :=
  (s.log.filter fun e => e.verdict = .allowed && e.added && (e.send.project = p && e.send.day = day)).map fun e => e.send.recipient

structure Inv (caps : ProjectId → EmailCaps) (s : Store) : Prop where
  account : ∀ k, s.counters k = allowedSends s k + onKey k s.reserved + s.lost.count k
  within : ∀ k, allowedSends s k + onKey k s.passed ≤ limit caps k
  passed : s.passed.Subperm s.reserved
  newcomers : ∀ p day, ∀ r ∈ newcomers s p day, r ∈ (s.sets (p, day)).take (caps p).distinctRecipientsPerDay
  added : ∀ e ∈ s.log, e.added = true → e.verdict = .allowed ∨ e.verdict = .rateLimited .distinctRecipientsPerDay

structure Guar (c : Client) (s s' : Store) : Prop where
  own : ∀ d, d ≠ c → s'.added d = s.added d ∧ ∀ k, s'.reserved.count (d, k) = s.reserved.count (d, k) ∧
    s'.passed.count (d, k) = s.passed.count (d, k)
  sets : ∀ q, s.sets q <+: s'.sets q

/-- The increments that the check has made, and whether it has found its recipient new. -/
def Spent (c : Client) (spent : List Key) (added : Bool) (s : Store) : Prop :=
  s.added c = added ∧ ∀ k, s.reserved.count (c, k) = spent.count k

def Within (c : Client) (spent : List Key) (s : Store) : Prop := ∀ k ∈ spent, 0 < s.passed.count (c, k)

def discipline (caps : ProjectId → EmailCaps) : Discipline Client Store Op where
  Inv := Inv caps
  Guar := Guar
  Idle c := Spent c [] false
  Allowed _ _ _ := True

section Counting

theorem count_others (c d : Client) (k : Key) (l : List (Client × Key)) :
    (others c l).count (d, k) = if d = c then 0 else l.count (d, k) := by
  split
  next hd =>
    subst hd
    refine List.count_eq_zero.mpr fun hmem => ?_
    simp [others] at hmem
  next hd =>
    rw [others, List.count_filter]
    simpa using hd

/-- The entries of one client, apart. -/
theorem onKey_others (c : Client) (k : Key) (l : List (Client × Key)) : onKey k l = onKey k (others c l) + l.count (c, k) := by
  induction l with
  | nil => rfl
  | cons r l ih =>
      obtain ⟨d, j⟩ := r
      simp only [onKey, others, List.countP_cons, List.count_cons, List.filter_cons] at ih ⊢
      by_cases hd : d = c
      · by_cases hj : j = k
        · simp [hd, hj, ih]
          omega
        · simp [hd, hj, ih]
      · simp [hd, ih, List.countP_cons]
        omega

theorem onKey_erase (hmem : (c, j) ∈ s.reserved) (k : Key) :
    onKey k s.reserved = onKey k (s.reserved.erase (c, j)) + if k = j then 1 else 0 := by
  have hperm := (List.perm_cons_erase hmem).countP_eq (fun r => decide (r.2 = k))
  rw [onKey, hperm, List.countP_cons]
  by_cases hk : j = k
  · simp [onKey, hk]
  · simp [onKey, hk, Ne.symm hk]

theorem onKey_le {l l' : List (Client × Key)} (h : l.Subperm l') (k : Key) : onKey k l ≤ onKey k l' := h.countP_le _

theorem nodup_keys (send : Send) : send.keys.Nodup := by simp [Send.keys]

end Counting

section Rely

theorem guar_refl : Guar c s s := ⟨fun _ _ => ⟨rfl, fun _ => ⟨rfl, rfl⟩⟩, fun _ => List.prefix_rfl⟩

theorem stable_spent {added : Bool} : (discipline caps).Stable c (Spent c spent added) := by
  intro d hd s s' _ hguar ⟨hadded, hspent⟩
  obtain ⟨hadded', hcounts⟩ := hguar.own c hd.symm
  exact ⟨hadded'.trans hadded, fun k => (hcounts k).1.trans (hspent k)⟩

theorem stable_within : (discipline caps).Stable c (Within c spent) := by
  intro d hd s s' _ hguar h k hk
  rw [((hguar.own c hd.symm).2 k).2]
  exact h k hk

/-- The recipient is among the first ones. -/
def Early (caps : ProjectId → EmailCaps) (send : Send) (s : Store) : Prop :=
  send.recipient ∈ (s.sets (send.project, send.day)).take (caps send.project).distinctRecipientsPerDay

theorem take_of_prefix {l l' : List Recipient} (h : l <+: l') (n : Nat) : l.take n ⊆ l'.take n := by
  obtain ⟨rest, rfl⟩ := h
  rw [List.take_append]
  exact List.subset_append_left ..

theorem stable_early : (discipline caps).Stable c (Early caps send) :=
  fun _ _ _ _ _ hguar h => take_of_prefix (hguar.sets _) _ h

end Rely

section Answers

/-- The check has what its verdict takes. -/
structure Due (caps : ProjectId → EmailCaps) (c : Client) (send : Send) (v : Verdict) (s : Store) : Prop where
  spent : ∀ k, s.reserved.count (c, k) = if v = .allowed then send.keys.count k else 0
  within : v = .allowed → Within c send.keys s
  early : s.added c = true → v = .allowed → Early caps send s
  added : s.added c = true → v = .allowed ∨ v = .rateLimited .distinctRecipientsPerDay

theorem meets_answer {v : Verdict} (hQ : ∀ s, Q s → Due caps c send v s) : (discipline caps).Meets (checks caps) c (answer send v) Q := by
  intro s fails r s' hI hs _ hexec
  obtain ⟨hspent, hwithin, hearly, hadded⟩ := hQ s hs
  cases hexec
  have hallowed : ∀ k, allowedSends { s with
      reserved := others c s.reserved
      passed := others c s.passed
      added := Function.update s.added c false
      log := ⟨send, v, s.added c⟩ :: s.log } k = allowedSends s k + if v = .allowed ∧ k ∈ send.keys then 1 else 0 := by
    intro k
    simp [allowedSends, List.countP_cons]
  refine ⟨⟨fun k => ?_, fun k => ?_, hI.passed.filter _, fun p day r hr => ?_, fun e he => ?_⟩,
    ⟨fun d hd => ⟨Function.update_of_ne hd .., fun k => ⟨?_, ?_⟩⟩, fun _ => List.prefix_rfl⟩, _, stable_spent,
    ⟨Function.update_self .., fun k => ?_⟩, fun _ _ h => h⟩
  · have haccount := hI.account k
    rw [onKey_others c, hspent k] at haccount
    rw [hallowed]
    by_cases hv : v = .allowed
    · rw [if_pos hv] at haccount
      by_cases hk : k ∈ send.keys
      · rw [List.count_eq_one_of_mem (nodup_keys send) hk] at haccount
        simp only [hv, hk, and_self, if_true]
        omega
      · rw [List.count_eq_zero_of_not_mem hk] at haccount
        simp only [hk, and_false, if_false]
        omega
    · rw [if_neg hv] at haccount
      simp only [hv, false_and, if_false]
      omega
  · have hle := hI.within k
    rw [onKey_others c] at hle
    rw [hallowed]
    by_cases hv : v = .allowed ∧ k ∈ send.keys
    · have hpos := hwithin hv.1 k hv.2
      rw [if_pos hv]
      dsimp only
      omega
    · rw [if_neg hv]
      dsimp only
      omega
  · simp only [newcomers, List.filter_cons] at hr
    split at hr
    next hnew =>
      simp only [Bool.and_eq_true, decide_eq_true_eq] at hnew
      obtain ⟨⟨hv, hnew⟩, rfl, rfl⟩ := hnew
      rcases List.mem_cons.mp hr with rfl | hr
      · exact hearly hnew hv
      · exact hI.newcomers _ _ r hr
    next => exact hI.newcomers p day r hr
  · rcases List.mem_cons.mp he with rfl | he
    · exact hadded
    · exact hI.added e he
  · rw [count_others, if_neg hd]
  · rw [count_others, if_neg hd]
  · rw [count_others, if_pos rfl]
    rfl

/-- Each increment is taken back, or is lost. -/
theorem meets_refuse {added : Bool} (hadded : added = true → cap = .distinctRecipientsPerDay) (spent : List Key) :
    (discipline caps).Meets (checks caps) c (refuse send cap spent) (Spent c spent added) := by
  induction spent with
  | nil =>
      refine meets_answer fun s ⟨hs, hspent⟩ => ⟨fun k => ?_, fun h => (by cases h), fun _ h => (by cases h), fun h => .inr ?_⟩
      · rw [hspent k, if_neg (by simp)]
        rfl
      · rw [hadded (hs.symm.trans h)]
  | cons k spent ih =>
      intro s fails r s' hI ⟨hs, hspent⟩ _ hexec
      have hmem : (c, k) ∈ s.reserved := List.count_pos_iff.mp (by rw [hspent k]; simp)
      have herase : ∀ j, (s.reserved.erase (c, k)).count (c, j) = spent.count j := by
        intro j
        have hj := hspent j
        rw [List.count_erase, hj]
        by_cases hjk : k = j
        · simp [hjk]
        · simp [hjk]
      have hother : ∀ d, d ≠ c → ∀ (l : List (Client × Key)) j, (l.erase (c, k)).count (d, j) = l.count (d, j) := by
        intro d hd l j
        exact List.count_erase_of_ne fun heq => hd (congrArg Prod.fst heq)
      have hwithin : ∀ j, allowedSends s j + onKey j (s.passed.erase (c, k)) ≤ limit caps j := by
        intro j
        have hle := hI.within j
        have hsub : onKey j (s.passed.erase (c, k)) ≤ onKey j s.passed := (List.erase_sublist).countP_le
        omega
      simp only [checks, exec] at hexec
      split at hexec
      · cases hexec
        refine ⟨⟨fun j => ?_, hwithin, hI.passed.erase _, hI.newcomers, hI.added⟩,
          ⟨fun d hd => ⟨rfl, fun j => ⟨hother d hd _ j, hother d hd _ j⟩⟩, fun _ => List.prefix_rfl⟩, _, stable_spent, ⟨hs, herase⟩, ih⟩
        have haccount := hI.account j
        rw [onKey_erase hmem] at haccount
        simp only [allowedSends, List.count_cons, beq_iff_eq] at haccount ⊢
        by_cases hjk : k = j
        · simp only [hjk, if_true] at haccount ⊢
          omega
        · simp only [hjk, Ne.symm hjk, if_false] at haccount ⊢
          omega
      · cases hexec
        refine ⟨⟨fun j => ?_, hwithin, hI.passed.erase _, hI.newcomers, hI.added⟩,
          ⟨fun d hd => ⟨rfl, fun j => ⟨hother d hd _ j, hother d hd _ j⟩⟩, fun _ => List.prefix_rfl⟩, _, stable_spent, ⟨hs, herase⟩, ih⟩
        have haccount := hI.account j
        rw [onKey_erase hmem] at haccount
        by_cases hjk : j = k
        · subst hjk
          simp only [allowedSends, Function.update_self, if_true] at haccount ⊢
          omega
        · simp only [allowedSends, Function.update_of_ne hjk, if_neg hjk] at haccount ⊢
          omega

end Answers

section Spending

/-- An increment that is within its cap goes on, with that. -/
theorem meets_bump {exceeded within : Program Op Reply}
    (hover : (discipline caps).Meets (checks caps) c exceeded (Spent c (spent ++ [k]) false))
    (hwithin : (discipline caps).Meets (checks caps) c within fun s => Spent c (spent ++ [k]) false s ∧ Within c (spent ++ [k]) s) :
    (discipline caps).Meets (checks caps) c (bump caps k exceeded within) fun s => Spent c spent false s ∧ Within c spent s := by
  intro s fails n s' hI ⟨⟨hs, hspent⟩, hpassed⟩ _ hexec
  cases hexec
  have haccount := hI.account k
  have hle := hI.within k
  have hsub := onKey_le hI.passed k
  have hspent' : ∀ j, ((c, k) :: s.reserved).count (c, j) = (spent ++ [k]).count j := by
    intro j
    rw [List.count_cons, List.count_append, hspent j]
    by_cases hj : k = j
    · simp [hj]
    · simp [hj]
  have hother : ∀ d, d ≠ c → ∀ j (l : List (Client × Key)), ((c, k) :: l).count (d, j) = l.count (d, j) := by
    intro d hd j l
    exact List.count_cons_of_ne fun heq => hd (congrArg Prod.fst heq).symm
  have haccount' : ∀ j, Function.update s.counters k (s.counters k + 1) j =
      allowedSends s j + onKey j ((c, k) :: s.reserved) + s.lost.count j := by
    intro j
    by_cases hj : j = k
    · subst hj
      simp only [Function.update_self, onKey, List.countP_cons, decide_true, if_true] at haccount ⊢
      omega
    · have haccount := hI.account j
      simp only [Function.update_of_ne hj, onKey, List.countP_cons, Ne.symm hj, decide_false, if_false, Nat.add_zero,
        Bool.false_eq_true] at haccount ⊢
      exact haccount
  by_cases hn : s.counters k + 1 ≤ limit caps k
  · have hnext : (discipline caps).Meets (checks caps) c (if limit caps k < s.counters k + 1 then exceeded else within)
        fun s => Spent c (spent ++ [k]) false s ∧ Within c (spent ++ [k]) s := by
      rw [if_neg (by omega)]
      exact hwithin
    refine ⟨⟨haccount', fun j => ?_, ?_, hI.newcomers, hI.added⟩,
      ⟨fun d hd => ⟨rfl, fun j => ⟨hother d hd j _, ?_⟩⟩, fun _ => List.prefix_rfl⟩,
      fun s => Spent c (spent ++ [k]) false s ∧ Within c (spent ++ [k]) s, stable_spent.and stable_within,
      ⟨⟨hs, hspent'⟩, fun j hj => ?_⟩, ?_⟩
    · simp only [if_pos hn, onKey, List.countP_cons]
      by_cases hj : j = k
      · subst hj
        simp only [allowedSends, onKey] at haccount hle hsub ⊢
        simp only [decide_true, if_true]
        omega
      · have hle := hI.within j
        simpa [Ne.symm hj, allowedSends, onKey] using hle
    · simp only [if_pos hn]
      exact (List.subperm_cons _).mpr hI.passed
    · simp only [if_pos hn]
      exact hother d hd j _
    · simp only [if_pos hn]
      rcases List.mem_append.mp hj with hj | hj
      · have hpos := hpassed j hj
        rw [List.count_cons]
        omega
      · obtain rfl := List.mem_singleton.mp hj
        rw [List.count_cons_self]
        omega
    · dsimp only
      split
      · intro s fails r s' hI hs _ hexec
        cases hexec
        exact ⟨hI, guar_refl, _, stable_spent.and stable_within, hs, hnext⟩
      · exact hnext
  · have hnext : (discipline caps).Meets (checks caps) c (if limit caps k < s.counters k + 1 then exceeded else within)
        (Spent c (spent ++ [k]) false) := by
      rw [if_pos (by omega)]
      exact hover
    refine ⟨⟨haccount', fun j => ?_, ?_, hI.newcomers, hI.added⟩,
      ⟨fun d hd => ⟨rfl, fun j => ⟨hother d hd j _, ?_⟩⟩, fun _ => List.prefix_rfl⟩, _, stable_spent, ⟨hs, hspent'⟩, ?_⟩
    · simp only [if_neg hn]
      exact hI.within j
    · simp only [if_neg hn]
      exact hI.passed.trans (List.sublist_cons_self ..).subperm
    · simp only [if_neg hn]
    · dsimp only
      split
      · intro s fails r s' hI hs _ hexec
        cases hexec
        exact ⟨hI, guar_refl, _, stable_spent, hs, hnext⟩
      · exact hnext

theorem meets_allowed {added : Bool} (hQ : ∀ s, Q s → Spent c send.keys added s ∧ Within c send.keys s ∧
    (added = true → Early caps send s)) : (discipline caps).Meets (checks caps) c (answer send .allowed) Q := by
  refine meets_answer fun s hs => ?_
  obtain ⟨⟨hadded, hspent⟩, hwithin, hearly⟩ := hQ s hs
  exact ⟨fun k => by rw [if_pos rfl, hspent k], fun _ => hwithin, fun h _ => hearly (hadded.symm.trans h), fun _ => .inl rfl⟩

theorem meets_distinct : (discipline caps).Meets (checks caps) c (distinct caps send send.keys)
    fun s => Spent c send.keys false s ∧ Within c send.keys s := by
  intro s fails added s' hI ⟨⟨hs, hspent⟩, hpassed⟩ _ hexec
  simp only [checks, exec] at hexec
  split at hexec
  · cases hexec
    exact ⟨hI, guar_refl, _, stable_spent.and stable_within, ⟨⟨hs, hspent⟩, hpassed⟩,
      meets_allowed fun _ h => ⟨h.1, h.2, fun h => (by cases h)⟩⟩
  · cases hexec
    have hgrown : ∀ q, s.sets q <+: Function.update s.sets (send.project, send.day)
        (s.sets (send.project, send.day) ++ [send.recipient]) q := by
      intro q
      by_cases hq : q = (send.project, send.day)
      · subst hq
        rw [Function.update_self]
        exact List.prefix_append ..
      · simp [Function.update_of_ne hq]
    -- a recipient that is in the set when it is counted is early, if the count is within the cap
    have hthere : (discipline caps).Stable c fun s => send.recipient ∈ s.sets (send.project, send.day) :=
      fun _ _ _ _ _ hguar h => (hguar.sets _).subset h
    refine ⟨⟨hI.account, hI.within, hI.passed, fun p day r hr => take_of_prefix (hgrown _) _ (hI.newcomers p day r hr), hI.added⟩,
      ⟨fun d hd => ⟨Function.update_of_ne hd .., fun _ => ⟨rfl, rfl⟩⟩, hgrown⟩, _, (stable_spent.and stable_within).and hthere,
      ⟨⟨⟨Function.update_self .., hspent⟩, hpassed⟩, by simp [Function.update_self]⟩, ?_⟩
    intro s fails r s' hI hs _ hexec
    cases hexec
    refine ⟨hI, guar_refl, _, (stable_spent.and stable_within).and hthere, hs, ?_⟩
    intro s fails n s' hI ⟨hs, hmem⟩ _ hexec
    cases hexec
    dsimp only
    split
    next hover =>
      exact ⟨hI, guar_refl, _, stable_spent, hs.1, meets_refuse (fun _ => rfl) _⟩
    next hover =>
      refine ⟨hI, guar_refl, _, (stable_spent.and stable_within).and stable_early, ⟨hs, ?_⟩,
        meets_allowed fun _ h => ⟨h.1.1, h.1.2, fun _ => h.2⟩⟩
      rw [Early, List.take_of_length_le (Nat.le_of_not_lt hover)]
      exact hmem

theorem meets_spend : (discipline caps).Meets (checks caps) c (spend caps send) (Spent c [] false) := by
  have hrefuse : ∀ {cap : Cap} (spent : List Key), (discipline caps).Meets (checks caps) c (refuse send cap spent) (Spent c spent false) :=
    fun spent => meets_refuse (fun h => by cases h) spent
  have hspend : (discipline caps).Meets (checks caps) c (spend caps send) fun s => Spent c [] false s ∧ Within c [] s :=
    meets_bump (hrefuse _) <| meets_bump (hrefuse _) <| meets_bump (hrefuse _) <| meets_bump (hrefuse _) meets_distinct
  exact hspend.mono fun s _ h => ⟨h, fun _ hk => (by cases hk)⟩

theorem sound : (discipline caps).Sound (checks caps) where
  idle _ := stable_spent
  abort c s hI _ := by
    have hother : ∀ d, d ≠ c → ∀ k l, (others c l).count (d, k) = l.count (d, k) := by
      intro d hd k l
      rw [count_others, if_neg hd]
    refine ⟨⟨fun k => ?_, fun k => ?_, hI.passed.filter _, hI.newcomers, hI.added⟩,
      ⟨fun d hd => ⟨Function.update_of_ne hd .., fun k => ⟨hother d hd k _, hother d hd k _⟩⟩, fun _ => List.prefix_rfl⟩,
      Function.update_self .., fun k => ?_⟩
    · have hown : ∀ l : List (Client × Key), ((l.filter fun r => r.1 = c).map Prod.snd).count k = l.count (c, k) := by
        intro l
        induction l with
        | nil => rfl
        | cons r l ih =>
            obtain ⟨d, j⟩ := r
            by_cases hd : d = c
            · simp only [hd, List.filter_cons, decide_true, if_true, List.map_cons, List.count_cons, ih]
              simp
            · simp only [hd, List.filter_cons, decide_false, Bool.false_eq_true, if_false, ih]
              exact (List.count_cons_of_ne fun heq => hd (congrArg Prod.fst heq)).symm
      have haccount := hI.account k
      rw [onKey_others c] at haccount
      simp only [checks, MailCaps.abort, List.count_append, hown, allowedSends] at haccount ⊢
      omega
    · have hle := hI.within k
      rw [onKey_others c] at hle
      simp only [checks, MailCaps.abort, allowedSends] at hle ⊢
      omega
    · simp [checks, MailCaps.abort, count_others]
  program c q := by
    have hsuppressed : ∀ {scope : Scope}, (discipline caps).Meets (checks caps) c (answer q.send (.suppressed scope)) (Spent c [] false) :=
      meets_answer fun s ⟨hadded, hspent⟩ => ⟨fun k => (by rw [hspent k, if_neg (by simp)]; rfl), fun h => (by cases h),
        fun _ h => (by cases h), fun h => (by cases hadded.symm.trans h)⟩
    change (discipline caps).Meets (checks caps) c (checkAndConsume caps q.send q.suppression) (Spent c [] false)
    rw [checkAndConsume]
    split
    · exact hsuppressed
    · split
      · exact hsuppressed
      · exact meets_spend

end Spending

section Retries

/-- No DECR fails. -/
def steady (caps : ProjectId → EmailCaps) : Protocol Client Store Op Bool Request Reply :=
  { checks caps with exec := fun c _ => exec caps c false }

/-- The first counter cap that is used up. -/
def refusal (caps : ProjectId → EmailCaps) (s : Store) (send : Send) : Option Cap :=
  let full k := limit caps k < s.counters k + 1
  if full (.recipientHour send.project send.recipient send.hour) then some .perRecipientPerHour
  else if full (.recipientDay send.project send.recipient send.day) then some .perRecipientPerDay
  else if full (.hour send.project send.hour) then some .perHour
  else if full (.day send.project send.day) then some .perDay
  else none

/-- A check under way that runs alone, after these increments. -/
structure After (spent : List Key) (s t : Store) : Prop where
  counters : ∀ k, t.counters k = s.counters k + spent.count k
  sets : t.sets = s.sets
  log : t.log = s.log

variable {t : Store}

theorem ends_answer {v : Verdict} (h : (steady caps).Ends c (answer send v) s s') :
    s'.counters = s.counters ∧ s'.sets = s.sets ∧ s'.log = ⟨send, v, s.added c⟩ :: s.log := by
  obtain ⟨_, _, _, hexec, hdone⟩ := h
  cases hexec
  cases hdone
  exact ⟨rfl, rfl, rfl⟩

/-- What a check leaves that a counter cap refuses. -/
def Refused (send : Send) (cap : Cap) (s s' : Store) : Prop :=
  s'.counters = s.counters ∧ s'.sets = s.sets ∧ ∃ added, s'.log = ⟨send, .rateLimited cap, added⟩ :: s.log

theorem ends_refuse (spent : List Key) (hafter : After spent s t) (h : (steady caps).Ends c (refuse send cap spent) t s') :
    Refused send cap s s' := by
  induction spent generalizing t with
  | nil =>
      obtain ⟨hcounters, hsets, hlog⟩ := ends_answer h
      refine ⟨?_, hsets.trans hafter.sets, _, hlog.trans (by rw [hafter.log])⟩
      funext k
      rw [hcounters, hafter.counters k]
      rfl
  | cons k spent ih =>
      obtain ⟨_, _, _, hexec, h⟩ := h
      cases hexec
      have hnext : After spent s { t with
          reserved := t.reserved.erase (c, k)
          passed := t.passed.erase (c, k)
          counters := Function.update t.counters k (t.counters k - 1) } := by
        refine ⟨fun j => ?_, hafter.sets, hafter.log⟩
        have hj := hafter.counters j
        rw [List.count_cons] at hj
        by_cases hjk : j = k
        · subst hjk
          simp only [Function.update_self, beq_self_eq_true, if_true] at hj ⊢
          omega
        · simp only [Function.update_of_ne hjk, beq_iff_eq, Ne.symm hjk, if_false] at hj ⊢
          exact hj
      exact ih hnext h

theorem log_refuse (spent : List Key) (h : (steady caps).Ends c (refuse send cap spent) t s') :
    ∃ added, s'.log = ⟨send, .rateLimited cap, added⟩ :: t.log := by
  induction spent generalizing t with
  | nil => exact ⟨_, (ends_answer h).2.2⟩
  | cons k spent ih =>
      obtain ⟨_, _, _, hexec, h⟩ := h
      cases hexec
      have hrest := ih h
      exact hrest

theorem ends_bump {exceeded within : Program Op Reply} (hafter : After spent s t) (hk : k ∉ spent)
    (h : (steady caps).Ends c (bump caps k exceeded within) t s') :
    ∃ t', After (spent ++ [k]) s t' ∧
      (steady caps).Ends c (if limit caps k < s.counters k + 1 then exceeded else within) t' s' := by
  obtain ⟨_, _, t', hexec, h⟩ := h
  have hcounter : t.counters k = s.counters k := by rw [hafter.counters k, List.count_eq_zero_of_not_mem hk]; rfl
  cases hexec
  rw [hcounter] at h
  have hafter' : After (spent ++ [k]) s { t with
      counters := Function.update t.counters k (s.counters k + 1)
      reserved := (c, k) :: t.reserved
      passed := if s.counters k + 1 ≤ limit caps k then (c, k) :: t.passed else t.passed } := by
    refine ⟨fun j => ?_, hafter.sets, hafter.log⟩
    by_cases hj : j = k
    · subst hj
      simp [List.count_eq_zero_of_not_mem hk]
    · rw [List.count_append, List.count_singleton]
      simp [Function.update_of_ne hj, hafter.counters j, Ne.symm hj]
  simp only at h
  split at h
  · obtain ⟨_, _, _, hexec, h⟩ := h
    cases hexec
    exact ⟨_, hafter', h⟩
  · exact ⟨_, hafter', h⟩

theorem ends_distinct (hafter : After spent s t) (h : (steady caps).Ends c (distinct caps send spent) t s') :
    ∃ v added, s'.log = ⟨send, v, added⟩ :: s.log ∧ (v = .allowed ∨ v = .rateLimited .distinctRecipientsPerDay) := by
  have hallowed : ∀ {t : Store}, (steady caps).Ends c (answer send .allowed) t s' → t.log = s.log →
      ∃ v added, s'.log = ⟨send, v, added⟩ :: s.log ∧ (v = .allowed ∨ v = .rateLimited .distinctRecipientsPerDay) := by
    intro t h hlog
    exact ⟨_, _, (ends_answer h).2.2.trans (by rw [hlog]), .inl rfl⟩
  obtain ⟨_, added, t', hexec, h⟩ := h
  simp only [steady, exec] at hexec
  split at hexec
  · cases hexec
    exact hallowed h hafter.log
  · cases hexec
    obtain ⟨_, _, _, hexec, h⟩ := h
    cases hexec
    obtain ⟨_, _, _, hexec, h⟩ := h
    cases hexec
    dsimp only at h
    split at h
    · obtain ⟨added, hlog⟩ := log_refuse spent h
      exact ⟨_, added, hlog.trans (by rw [← hafter.log]), .inr rfl⟩
    · exact hallowed h hafter.log

theorem ends_spend (h : (steady caps).Ends c (spend caps send) s s') : match refusal caps s send with
    | some cap => Refused send cap s s'
    | none => ∃ v added, s'.log = ⟨send, v, added⟩ :: s.log ∧ (v = .allowed ∨ v = .rateLimited .distinctRecipientsPerDay) := by
  have hafter : After [] s s := ⟨fun _ => rfl, rfl, rfl⟩
  simp only [refusal]
  obtain ⟨t, hafter, h⟩ := ends_bump hafter (by simp) h
  split at h
  next hfull =>
    rw [if_pos hfull]
    exact ends_refuse _ hafter h
  next hfull =>
    rw [if_neg hfull]
    obtain ⟨t, hafter, h⟩ := ends_bump hafter (by simp) h
    split at h
    next hfull =>
      rw [if_pos hfull]
      exact ends_refuse _ hafter h
    next hfull =>
      rw [if_neg hfull]
      obtain ⟨t, hafter, h⟩ := ends_bump hafter (by simp) h
      split at h
      next hfull =>
        rw [if_pos hfull]
        exact ends_refuse _ hafter h
      next hfull =>
        rw [if_neg hfull]
        obtain ⟨t, hafter, h⟩ := ends_bump hafter (by simp) h
        split at h
        next hfull =>
          rw [if_pos hfull]
          exact ends_refuse _ hafter h
        next hfull =>
          rw [if_neg hfull]
          exact ends_distinct hafter h

theorem ends_check {suppression : Suppression} (h : (steady caps).Ends c (checkAndConsume caps send suppression) s s') {added : Bool}
    (hlog : s'.log = ⟨send, .rateLimited cap, added⟩ :: s.log) :
    suppression = ⟨false, false⟩ ∧ (steady caps).Ends c (spend caps send) s s' := by
  have hsuppressed : ∀ {scope : Scope}, ¬ (steady caps).Ends c (answer send (.suppressed scope)) s s' := by
    intro scope h
    have hcons := (ends_answer h).2.2.symm.trans hlog
    simp at hcons
  obtain ⟨global, project⟩ := suppression
  cases global with
  | true => exact absurd h hsuppressed
  | false =>
      cases project with
      | true => exact absurd h hsuppressed
      | false => exact ⟨rfl, h⟩

/-- A check that a counter cap refuses leaves all as it was, and is refused again. -/
theorem refused_again {suppression : Suppression} (hcap : cap ≠ .distinctRecipientsPerDay)
    (h : (steady caps).Ends c (checkAndConsume caps send suppression) s s')
    (hlog : ∃ added, s'.log = ⟨send, .rateLimited cap, added⟩ :: s.log) :
    s'.counters = s.counters ∧ s'.sets = s.sets ∧
      ∀ s'', (steady caps).Ends c (checkAndConsume caps send suppression) s' s'' →
        ∃ added, s''.log = ⟨send, .rateLimited cap, added⟩ :: s'.log := by
  obtain ⟨added, hlog⟩ := hlog
  obtain ⟨rfl, hspend⟩ := ends_check h hlog
  have hends := ends_spend hspend
  cases hrefusal : refusal caps s send with
  | none =>
      rw [hrefusal] at hends
      obtain ⟨v, added', hlog', hv⟩ := hends
      have heq := (List.cons.inj (hlog.symm.trans hlog')).1
      have hverdict : Verdict.rateLimited cap = v := congrArg Checked.verdict heq
      rcases hv with rfl | rfl
      · cases hverdict
      · exact absurd (Verdict.rateLimited.inj hverdict) hcap
  | some cap' =>
      rw [hrefusal] at hends
      obtain ⟨hcounters, hsets, added', hlog'⟩ := hends
      have heq := (List.cons.inj (hlog.symm.trans hlog')).1
      have hverdict : cap = cap' := Verdict.rateLimited.inj (congrArg Checked.verdict heq)
      refine ⟨hcounters, hsets, fun s'' h' => ?_⟩
      have hends' := ends_spend (show (steady caps).Ends c (spend caps send) s' s'' from h')
      have hsame : refusal caps s' send = some cap := by
        rw [hverdict, ← hrefusal]
        simp only [refusal, hcounters]
      rw [hsame] at hends'
      exact hends'.2.2

end Retries

def empty : Store := ⟨fun _ => 0, fun _ => [], [], [], [], fun _ => false, []⟩

theorem inv_empty : Inv caps empty := by
  refine ⟨fun k => rfl, fun k => Nat.zero_le _, List.nil_subperm, fun p day r hr => ?_, fun e he => ?_⟩
  · cases hr
  · cases he

section Examples

/-- The recipients of all the sends of a day that were allowed. -/
def recipients (s : Store) (p : ProjectId) (day : Day) : List Recipient :=
  (s.log.filter fun e => e.verdict = .allowed && (e.send.project = p && e.send.day = day)).map fun e => e.send.recipient

def check (c : Client) (send : Send) (steps : Nat) : List (Move Client Bool Request) :=
  .arrive c ⟨send, ⟨false, false⟩⟩ :: List.replicate steps (.run c false)

/-- Two checks of one send, one after the other, for a recipient that may get one an hour. -/
def single : EmailCaps := { capsFor .free (some 0) with perRecipientPerHour := 1 }

def twice : List (Move Client Bool Request) := check 1 ⟨0, 7, 100⟩ 12 ++ check 1 ⟨0, 7, 100⟩ 3

/-- One distinct recipient a day. -/
def narrow : EmailCaps := ⟨10, 10, 1, 10, 10⟩

/-- The second recipient is refused, and allowed when it is tried again. -/
def insistent : List (Move Client Bool Request) :=
  check 1 ⟨0, 7, 100⟩ 12 ++ check 1 ⟨0, 8, 100⟩ 14 ++ check 1 ⟨0, 8, 100⟩ 8

/-- The store as the first of them leaves it. -/
def used : Store :=
  (((checks fun _ => narrow).replay (fun _ _ => true) ⟨empty, fun _ => .done⟩ (check 1 ⟨0, 7, 100⟩ 12)).map fun g => g.store).getD empty

end Examples

end Corebase.CapBounds
