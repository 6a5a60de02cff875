import Corebase.NodeRanking

namespace Corebase.PlacementAttempts

open Interleaving RowLocks Placement PlacementSteps PortAllocation NodeRanking

/-! The checks of the node table hold in every run -/

def Checked (t : Table Client NodeId Node) : Prop :=
  (∀ n v, t.committed n = some v → v.valid = true) ∧ ∀ n c v, t.lock n = some (c, some v) → v.valid = true

variable {c : Client} {s s' : Store} {n : NodeId} {p : ProjectId} {v : Node}

theorem Checked.view {t : Table Client NodeId Node} (h : Checked t) (hv : t.view c n = some v) : v.valid = true := by
  by_cases hk : ∃ w, t.lock n = some (c, w)
  · obtain ⟨w, hw⟩ := hk
    rw [Table.view_of_lock hw] at hv
    exact h.2 n c v (hv ▸ hw)
  · rw [Table.view_of_other fun w hw => hk ⟨w, hw⟩] at hv
    exact h.1 n v hv

theorem Checked.write {t : Table Client NodeId Node} (h : Checked t) (hv : v.valid = true) :
    Checked (t.write c n (some v)) := by
  refine ⟨h.1, fun m d w hw => ?_⟩
  by_cases hm : m = n
  · subst hm
    rw [Table.lock_write_self] at hw
    cases hw
    exact hv
  · rw [Table.lock_write_of_ne hm] at hw
    exact h.2 m d w hw

theorem Checked.commit {t : Table Client NodeId Node} (h : Checked t) : Checked (t.commit c) :=
  ⟨fun _ _ hv => h.view hv, fun m d w hw => h.2 m d w (Table.released_eq.mp hw).1⟩

theorem Checked.rollback {t : Table Client NodeId Node} (h : Checked t) : Checked (t.rollback c) :=
  ⟨h.1, fun m d w hw => h.2 m d w (Table.released_eq.mp hw).1⟩

theorem checked_updateNode {f : Node → Node} {ok : Bool} (h : Checked s.nodes)
    (hu : updateNode c n f s = some (ok, s')) : Checked s'.nodes := by
  simp only [updateNode] at hu
  split at hu
  next =>
    split at hu
    next =>
      split at hu <;> cases hu
      next hvalid => exact h.write hvalid
      next => exact h
    next =>
      cases hu
      exact h
  next => cases hu

theorem checked_exec (c : Client) (chance : Chance) (op : Op) (s : Store) (r : Reply op) (s' : Store)
    (h : Checked s.nodes) (hexec : exec c chance op s = some (r, s')) : Checked s'.nodes := by
  cases op with
  | placement p | candidates region | rowsOn n =>
      cases hexec
      exact h
  | lockNode n =>
      obtain ⟨-, rfl⟩ | ⟨v, -, -, hv, rfl⟩ := lockNode_cases chance hexec
      · exact h
      · exact h.write (h.view hv)
  | insert p row =>
      obtain ⟨-, rfl⟩ | ⟨-, -, -, rfl⟩ := insert_cases chance hexec
      · exact h
      · exact h
  | book n ramMb diskGb => exact checked_updateNode h hexec
  | creditRam n mb => exact checked_updateNode h hexec
  | creditDisk n gb => exact checked_updateNode h hexec
  | delete p =>
      obtain ⟨-, rfl⟩ | ⟨_, -, -, -, rfl⟩ := delete_cases hexec
      · exact h
      · exact h
  | lockBooked p =>
      obtain ⟨-, rfl⟩ | ⟨_, -, -, -, -, rfl⟩ := lockBooked_cases hexec
      · exact h
      · exact h
  | setBooked p mb =>
      obtain ⟨-, rfl⟩ | ⟨_, -, -, rfl⟩ := setBooked_cases chance hexec
      · exact h
      · exact h
  | commit =>
      cases hexec
      exact h.commit
  | rollback =>
      cases hexec
      exact h.rollback

/-! What an attempt is answered -/

abbrev Log := List (Turn Store Op Reply)

def Locks (log : Log) (n : NodeId) : Prop := ∃ b r a, ⟨b, .lockNode n, r, a⟩ ∈ log

/-- The booking fits on the node at the time it is locked. -/
def StillFits (want : Booking) (log : Log) (n : NodeId) : Prop :=
  ∃ b v a, ⟨b, .lockNode n, some v, a⟩ ∈ log ∧ v.active = true ∧ fits v want = true

/-- The node that is chosen has a port of each kind left, within the bounds of the columns. -/
def PortsLeft (config : Placement.Config) (ref : String) (plan : Plan) (log : Log) : Prop :=
  ∀ n b rows a, ⟨b, .rowsOn n, rows, a⟩ ∈ log → ∃ row, newRow config ref plan n rows = some row ∧ row.valid = true

/-- The attempt is committed with a placement on a node that still fitted. -/
def Placed (want : Booking) (p : ProjectId) (log : Log) : Prop :=
  ∃ n row b a, StillFits want log n ∧ ⟨b, .commit, (), a⟩ ∈ log ∧ (fleet a).databases p = some row ∧ row.nodeId = n

/-- Another attempt has placed the project in the meantime. -/
def Overtaken (p : ProjectId) (log : Log) : Prop :=
  ∃ b row a, ⟨b, .insert p row, false, a⟩ ∈ log ∧ (fleet b).databases p ≠ none

/-- The project had a placement at the start. -/
def Replayed (p : ProjectId) (log : Log) : Prop := ∃ b d a, ⟨b, .placement p, some d, a⟩ ∈ log

/-- The walk over a ranking: no node of it is passed over without being locked and looked at, unless
an earlier one still fitted, and if one still fits the project is placed, as far as there are ports. -/
structure Walked (config : Placement.Config) (p : ProjectId) (ref : String) (plan : Plan) (rows : List NodeCandidate)
    (log : Log) : Prop where
  visited : ∀ k ∈ rankNodes config rows (bookingOf plan), Locks log k.1 ∨ ∃ n, StillFits (bookingOf plan) log n
  places : PortsLeft config ref plan log → (∃ n, StillFits (bookingOf plan) log n) →
    Placed (bookingOf plan) p log ∨ Overtaken p log

def Outcome (config : Placement.Config) (p : ProjectId) (ref : String) (plan : Plan) (region : String) (log : Log) :
    Prop :=
  Replayed p log ∨ ∃ b rows a, ⟨b, .candidates region, rows, a⟩ ∈ log ∧ Walked config p ref plan rows log

section Attempt

variable {config : Placement.Config} {chance : Chance} {row : ProjectDatabase} {rows : List ProjectDatabase}
  {plan : Plan} {ref : String} {R : Log → Prop} {log : Log} {Q : Store → Prop}

/-- What the program yields next to any other transactions. -/
abbrev Yield (config : Placement.Config) (c : Client) (R : Log → Prop) (q : Program Op Reply) (log : Log)
    (Q : Store → Prop) : Prop :=
  (discipline config False).Yields (protocol config) c (fun s => Checked s.nodes) R q log Q

theorem insert_refused (chance : Chance) (h : exec c chance (.insert p row) s = some (false, s')) (hvalid : row.valid = true)
    (hfree : ∀ e ∈ s.databases.rows c, row.clashes e.2 = false) : s.databases.view c p ≠ none := by
  intro hnone
  simp only [exec] at h
  split at h
  next =>
    have hall : (s.databases.rows c).all (fun e => !row.clashes e.2) = true := by
      apply List.all_eq_true.mpr
      intro e he
      rw [hfree e he]
      rfl
    simp [hnone, hvalid, hall] at h
  next => cases h

theorem not_clashes_of_apart {r e : ProjectDatabase} (h : PortAllocation.Apart row r) (hports : ports r = ports e) :
    row.clashes e = false := by
  have hapart : PortAllocation.Apart row e := h.of_ports rfl hports.symm
  have hpair : ∀ x, x ∈ pairOf row → x ∉ pairOf e := hapart.pair
  have hone : ¬ (row.postgrestPort.isSome = true ∧ row.postgrestPort = e.postgrestPort) := by
    rintro ⟨hsome, heq⟩
    obtain ⟨x, hx⟩ := Option.isSome_iff_exists.mp hsome
    exact hpair x (by simp [pairOf, hx]) (by simp [pairOf, ← heq, hx])
  have htwo : ¬ (row.postgrestAdminPort.isSome = true ∧ row.postgrestAdminPort = e.postgrestAdminPort) := by
    rintro ⟨hsome, heq⟩
    obtain ⟨x, hx⟩ := Option.isSome_iff_exists.mp hsome
    exact hpair x (by simp [pairOf, hx]) (by simp [pairOf, ← heq, hx])
  rw [ProjectDatabase.clashes]
  by_contra hc
  simp only [Bool.not_eq_false, Bool.and_eq_true, Bool.or_eq_true, decide_eq_true_eq] at hc
  obtain ⟨-, ((hpg | hpo) | hp) | ha⟩ := hc
  · exact hapart.pg hpg
  · exact hapart.pooler hpo
  · exact hone hp
  · exact htwo ha

/-- A node on which the booking fits stays within the checks of the table. -/
theorem grown_valid (hvalid : v.valid = true) (hfit : fits v (bookingOf plan) = true) :
    (grown v plan.ramMb (diskBookingGbFor plan)).valid = true := by
  have hram := plan.ramMb_pos
  have hdisk : 0 < diskBookingGbFor plan := wholeGb_pos _
  rw [fits, Bool.and_eq_true, decide_eq_true_eq, decide_eq_true_eq, ceilingOf, ceilingOf] at hfit
  simp only [bookingOf] at hfit
  simp only [Node.valid, Bool.and_eq_true, decide_eq_true_eq] at hvalid
  rw [Node.valid, Bool.and_eq_true, Bool.and_eq_true, decide_eq_true_eq, decide_eq_true_eq, decide_eq_true_eq]
  simp only [grown]
  omega

theorem book_done {f : Node → Node} {ok : Bool} (h : updateNode c n f s = some (ok, s'))
    (hv : s.nodes.view c n = some v) (hvalid : (f v).valid = true) :
    ok = true ∧ s.nodes.free c n = true ∧ s' = { s with nodes := s.nodes.write c n (some (f v)) } := by
  simp only [updateNode, hv] at h
  split at h
  next hfree =>
    cases h
    exact ⟨rfl, hfree, rfl⟩
  next => cases h

theorem yields_rolledBack (h : ∀ b a, R (log ++ [⟨b, .rollback, (), a⟩])) : Yield config c R rolledBack log Q := by
  intro s choice r s' _ _ _ _ _
  exact ⟨_, Discipline.stable_true, trivial, h s s'⟩

/-- On a node that fits the project is placed, unless the ports are used up or another attempt was faster. -/
theorem yields_place (hactive : v.active = true) (hvalid : v.valid = true) (hfit : fits v (bookingOf plan) = true)
    (hlock : ∃ b a, (⟨b, .lockNode n, some v, a⟩ : Turn Store Op Reply) ∈ log)
    (hR : ∀ more, (PortsLeft config ref plan (log ++ more) →
      Placed (bookingOf plan) p (log ++ more) ∨ Overtaken p (log ++ more)) → R (log ++ more)) :
    Yield config c R (place config p ref plan n) log fun s => Locked c n v s.nodes ∧ s.databases.Out c := by
  have hstill : ∀ more, StillFits (bookingOf plan) (log ++ more) n := by
    intro more
    obtain ⟨b, a, hm⟩ := hlock
    exact ⟨b, v, a, List.mem_append_left _ hm, hactive, hfit⟩
  rintro s chance rows s' hI _ ⟨hlocked, hout⟩ _ hexec
  cases hexec
  have hseen : Watched c n (((s.databases.rows c).map Prod.snd).filter fun d => d.nodeId = n) s := by
    refine ⟨⟨_, hlocked.1⟩, fun q d hd hn => ⟨d, ?_, rfl⟩⟩
    have hrow : (q, d) ∈ s.databases.rows c := Table.mem_rows.mpr (hout.untouched.view.trans hd)
    simp only [List.mem_filter, List.mem_map, decide_eq_true_eq]
    exact ⟨⟨_, hrow, rfl⟩, hn⟩
  revert hseen
  generalize ((s.databases.rows c).map Prod.snd).filter _ = rows
  intro hseen
  refine ⟨_, ((stable_nodes fun _ _ => Locked.stable).and
    (stable_databases fun _ _ => Table.Out.stable)).and stable_watched, ⟨⟨hlocked, hout⟩, hseen⟩, ?_⟩
  beta_reduce
  cases hnew : newRow config ref plan n rows with
  | none =>
      apply yields_rolledBack
      intro b a
      rw [List.append_assoc]
      apply hR
      intro hports
      obtain ⟨row, hrow, -⟩ := hports n s rows s (by simp)
      rw [hnew] at hrow
      cases hrow
  | some row =>
      rintro s₁ chance ok s₁' hI _ ⟨⟨hlocked, hout⟩, hseen⟩ _ hexec
      obtain ⟨rfl, rfl⟩ | ⟨rfl, hfree, hview, rfl⟩ := insert_cases chance hexec
      · refine ⟨_, Discipline.stable_true, trivial, yields_rolledBack fun b a => ?_⟩
        rw [List.append_assoc, List.append_assoc]
        apply hR
        intro hports
        obtain ⟨row', hrow, hvalid'⟩ := hports n s rows s (by simp)
        obtain rfl : row = row' := Option.some.inj (hnew.symm.trans hrow)
        refine .inr ⟨s₁', row, s₁', by simp, ?_⟩
        have hclash : ∀ e ∈ s₁'.databases.rows c, row.clashes e.2 = false := by
          rintro ⟨q, e⟩ he
          have hcommitted : s₁'.databases.committed q = some e :=
            hout.untouched.view.symm.trans (Table.mem_rows.mp he)
          by_cases hn : e.nodeId = n
          · obtain ⟨r, hr, hsame⟩ := hseen.2 q e hcommitted hn
            exact not_clashes_of_apart ((newRow_ports hnew).2 r hr) hsame
          · have hne : row.nodeId ≠ e.nodeId := by
              rw [newRow_nodeId hnew]
              exact Ne.symm hn
            simp [ProjectDatabase.clashes, hne]
        have := insert_refused chance hexec hvalid' hclash
        rwa [hout.untouched.view] at this
      · refine ⟨_, ((stable_nodes fun _ _ => Locked.stable).and
          (stable_databases fun _ _ => Table.Wrote.stable)).and stable_watched,
          ⟨⟨hlocked, hout.untouched.write (some row)⟩, hseen⟩, ?_⟩
        rintro s₂ chance ok s₂' hI _ ⟨⟨hlocked, hwrote⟩, hseen⟩ _ hexec
        obtain ⟨rfl, hfree, rfl⟩ := book_done hexec (Table.view_of_lock hlocked.1) (grown_valid hvalid hfit)
        refine ⟨_, stable_databases fun _ _ => Table.Wrote.stable, hwrote, ?_⟩
        intro s₃ chance r s₃' _ _ hwrote _ hexec
        cases hexec
        refine ⟨_, Discipline.stable_true, trivial, ?_⟩
        simp only [List.append_assoc]
        apply hR
        intro _
        refine .inl ⟨n, row, s₃, ⟨s₃.nodes.commit c, s₃.databases.commit c⟩, hstill _, by simp, ?_, newRow_nodeId hnew⟩
        rw [fleet]
        simp only [hwrote.commit, Function.update_self]

/-- The walk, after the nodes before have been locked in vain. -/
theorem yields_pickNode {whole before : List NodeCandidate} (ranked : List NodeCandidate)
    (hwhole : whole = before ++ ranked) (hvisited : ∀ k ∈ before, Locks log k.1)
    (hnone : ∀ n, ¬ StillFits (bookingOf plan) log n)
    (hR : ∀ more, (∀ k ∈ whole, Locks (log ++ more) k.1 ∨ ∃ n, StillFits (bookingOf plan) (log ++ more) n) →
      (PortsLeft config ref plan (log ++ more) → (∃ n, StillFits (bookingOf plan) (log ++ more) n) →
        Placed (bookingOf plan) p (log ++ more) ∨ Overtaken p (log ++ more)) → R (log ++ more)) :
    Yield config c R (pickNode (bookingOf plan) (fun n _ => place config p ref plan n) ranked) log
      fun s => s.nodes.Untouched c ∧ s.databases.Out c := by
  have hkept : ∀ (log' : Log) more k, Locks log' k → Locks (log' ++ more) k := by
    rintro log' more k ⟨b, r, a, hm⟩
    exact ⟨b, r, a, List.mem_append_left _ hm⟩
  have hlate : ∀ (t : Turn Store Op Reply) n, StillFits (bookingOf plan) (log ++ [t]) n →
      ∃ b v a, t = ⟨b, .lockNode n, some v, a⟩ ∧ v.active = true ∧ fits v (bookingOf plan) = true := by
    rintro t n ⟨b, v, a, hm, hv⟩
    rcases List.mem_append.mp hm with hm | hm
    · exact absurd ⟨b, v, a, hm, hv⟩ (hnone n)
    · exact ⟨b, v, a, (List.mem_singleton.mp hm).symm, hv⟩
  induction ranked generalizing log before with
  | nil =>
      apply yields_rolledBack
      intro b a
      apply hR
      · intro k hk
        rw [hwhole, List.append_nil] at hk
        exact .inl (hkept _ _ _ (hvisited k hk))
      · rintro - ⟨n, hn⟩
        obtain ⟨_, _, _, ht, -⟩ := hlate _ n hn
        cases ht
  | cons candidate ranked ih =>
      intro s chance r s' hI hchecked ⟨hnodes, hout⟩ _ hexec
      have hvisited' : ∀ (t : Turn Store Op Reply), t = ⟨s, .lockNode candidate.1, r, s'⟩ →
          ∀ k ∈ before ++ [candidate], Locks (log ++ [t]) k.1 := by
        rintro t rfl k hk
        rcases List.mem_append.mp hk with hk | hk
        · exact hkept _ _ _ (hvisited k hk)
        · rw [List.mem_singleton.mp hk]
          exact ⟨s, r, s', by simp⟩
      have hgo : ∀ Q, (∀ v, r = some v → (v.active && fits v (bookingOf plan)) = false) →
          (∀ s, Q s → s.nodes.Untouched c ∧ s.databases.Out c) →
          Yield config c R (pickNode (bookingOf plan) (fun n _ => place config p ref plan n) ranked)
            (log ++ [⟨s, .lockNode candidate.1, r, s'⟩]) Q := by
        intro Q hunfit hQ
        have hnone' : ∀ n, ¬ StillFits (bookingOf plan) (log ++ [⟨s, .lockNode candidate.1, r, s'⟩]) n := by
          intro n hn
          obtain ⟨b, v, a, ht, hactive, hfit⟩ := hlate _ n hn
          cases ht
          have := hunfit v rfl
          rw [hactive, hfit] at this
          cases this
        refine (ih (by rw [hwhole, List.append_assoc]; rfl) (hvisited' _ rfl) hnone' (fun more => ?_) ?_).mono
          fun s _ h => hQ s h
        · rw [List.append_assoc]
          exact hR _
        · rintro t n ⟨b, v, a, hm, hv⟩
          rcases List.mem_append.mp hm with hm | hm
          · exact absurd ⟨b, v, a, hm, hv⟩ (hnone' n)
          · exact ⟨b, v, a, (List.mem_singleton.mp hm).symm, hv⟩
      obtain ⟨rfl, rfl⟩ | ⟨v, rfl, hfree, hview, rfl⟩ := lockNode_cases chance hexec
      · exact ⟨_, (stable_nodes fun _ _ => Table.Untouched.stable).and
          (stable_databases fun _ _ => Table.Out.stable), ⟨hnodes, hout⟩, hgo _ (fun v hv => by cases hv) fun _ h => h⟩
      · have hcommitted : s.nodes.committed candidate.1 = some v := hnodes.view.symm.trans hview
        have hlocked : Locked c candidate.1 v (s.nodes.write c candidate.1 (some v)) :=
          ⟨Table.lock_write_self, hcommitted ▸ hnodes.locked⟩
        refine ⟨_, (stable_nodes fun _ _ => Locked.stable).and
          (stable_databases fun _ _ => Table.Out.stable), ⟨hlocked, hout⟩, ?_⟩
        change Yield config c R
          (if v.active && fits v (bookingOf plan) then place config p ref plan candidate.1
            else pickNode (bookingOf plan) _ ranked) _ _
        by_cases hok : (v.active && fits v (bookingOf plan)) = true
        · rw [if_pos hok]
          obtain ⟨hactive, hfit⟩ := Bool.and_eq_true_iff.mp hok
          apply yields_place hactive (hchecked.view hview) hfit ⟨s, _, List.mem_append_right _ (List.mem_singleton_self _)⟩
          intro more hplaced
          rw [List.append_assoc] at hplaced ⊢
          apply hR
          · intro k _
            exact .inr ⟨candidate.1, s, v, _, List.mem_append_right _ (List.mem_cons_self ..), hactive, hfit⟩
          · intro hports _
            exact hplaced hports
        · rw [if_neg hok]
          refine hgo _ (fun w hw => ?_) fun _ h => ⟨h.1.2, h.2⟩
          rw [← Option.some.inj hw]
          simpa using hok

theorem yields_allocateNode {region : String} :
    Yield config c (Outcome config p ref plan region) (allocateNode config p ref plan region) []
      ((discipline config False).Idle c) := by
  intro s chance r s' _ _ hidle _ hexec
  cases hexec
  refine ⟨_, stable_idle, hidle, ?_⟩
  generalize (s.databases.view c p).filter (fun d => (s.nodes.view c d.nodeId).isSome) = found
  cases found with
  | some d =>
      intro s₁ chance r s₁' _ _ _ _ hexec
      exact ⟨_, Discipline.stable_true, trivial, .inl ⟨s, d, s, by simp⟩⟩
  | none =>
      intro s₁ chance rows s₁' _ _ hidle _ hexec
      cases hexec
      refine ⟨_, stable_idle, hidle, ?_⟩
      generalize (s₁.nodes.rows c).filter _ = rows
      refine Discipline.Yields.mono (yields_pickNode (rankNodes config rows (bookingOf plan)) (List.nil_append _).symm
        (List.forall_mem_nil _) ?_ ?_) fun _ _ h => ⟨h.1.untouched, h.2⟩
      · rintro n ⟨b, v, a, hm, -⟩
        simp at hm
      · intro more hvisited hplaces
        exact .inr ⟨s₁, rows, s₁, by simp, hvisited, hplaces⟩

end Attempt

def roomy : Node := ⟨"data-1", "eu-central", true, 65536, 700, 200, 2⟩

def small : Node := ⟨"data-2", "eu-central", true, 1024, 350, 200, 1⟩

def narrow : PortRanges := ⟨(5433, 6432), (6433, 7432), (7433, 7436)⟩

def shorter (a b : String) : Bool := a.length ≤ b.length

def resident (n : NodeId) (k : Nat) : ProjectDatabase :=
  ⟨n, "sh-abc-pgdata", 5433 + k, 6433 + k, some (7433 + 2 * k), some (7434 + 2 * k), 512, 350, 500⟩

def twoNodes : Store where
  nodes := {
    committed := fun n => if n = 0 then some roomy else if n = 1 then some small else none
    lock := fun _ => none
    keys := [0, 1]
    mem_keys := by
      rintro k (hk | hk)
      · by_contra hout
        simp only [List.mem_cons, List.not_mem_nil, or_false, not_or] at hout
        simp [hout] at hk
      · exact absurd rfl hk }
  databases := {
    committed := fun p => if p = 0 then some (resident 0 0) else if p = 1 then some (resident 0 1)
      else if p = 2 then some (resident 1 0) else none
    lock := fun _ => none
    keys := [0, 1, 2]
    mem_keys := by
      rintro k (hk | hk)
      · by_contra hout
        simp only [List.mem_cons, List.not_mem_nil, or_false, not_or] at hout
        simp [hout] at hk
      · exact absurd rfl hk }

def heard : Chance := ⟨fun _ => true, false⟩

theorem roomy_first : emptierBy shorter (0, roomy) (1, small) = true := by
  apply (emptierBy_iff _ _).mpr
  left
  have hroomy : fillRatio roomy = ((700 / (65536 * (17 / 20)) : Rat) : WithTop Rat) := by
    rw [fillRatio, axis, axis, if_pos (by norm_num [roomy]), if_pos (by norm_num [roomy]), ← WithTop.coe_max]
    congr 1
    norm_num [roomy]
  have hsmall : fillRatio small = ((350 / (1024 * (17 / 20)) : Rat) : WithTop Rat) := by
    rw [fillRatio, axis, axis, if_pos (by norm_num [small]), if_pos (by norm_num [small]), ← WithTop.coe_max]
    congr 1
    norm_num [small]
  rw [hroomy, hsmall, WithTop.coe_lt_coe]
  norm_num

theorem ranked_twoNodes : rankNodes (ranking narrow shorter) [(0, roomy), (1, small)] (bookingOf .free) =
    [(0, roomy), (1, small)] := by
  have hfit : [(0, roomy), (1, small)].filter (fun n : NodeCandidate => fits n.2 (bookingOf .free)) =
      [(0, roomy), (1, small)] := by decide
  have hfirst : (ranking narrow shorter).emptier (0, roomy) (1, small) = true := roomy_first
  rw [rankNodes, hfit]
  simp only [List.insertionSort, List.foldr, List.orderedInsert]
  exact if_pos hfirst

def heldRoomy : Store := { twoNodes with nodes := twoNodes.nodes.write 0 0 (some roomy) }

def attempt : Program Op Reply := allocateNode (ranking narrow shorter) 7 "xyz" .free "eu-central"

def atNode (n : NodeId) : Program Op Reply := place (ranking narrow shorter) 7 "xyz" .free n

/-- The attempt by itself, up to a program that is left of it. -/
def Alone (log : Log) (s : Store) (q : Program Op Reply) : Prop :=
  (protocol (ranking narrow shorter)).Runs (fun _ _ => True) 0 ⟨twoNodes, Function.update (fun _ => .done) 0 attempt⟩
    log ⟨s, Function.update (fun _ => .done) 0 q⟩

theorem Alone.step {log : Log} {op : Op} {next : Reply op → Program Op Reply} {r : Reply op}
    (h : Alone log s (.step op next)) (hexec : exec 0 heard op s = some (r, s')) :
    Alone (log ++ [⟨s, op, r, s'⟩]) s' (next r) := by
  have hnow : Function.update (fun _ : Client => (.done : Program Op Reply)) 0 (.step op next) 0 = .step op next :=
    Function.update_self ..
  have hrun := Protocol.Runs.own h trivial hnow hexec
  rwa [Function.update_idem] at hrun

def attemptLog : Log :=
  [⟨twoNodes, .placement 7, none, twoNodes⟩,
    ⟨twoNodes, .candidates "eu-central", [(0, roomy), (1, small)], twoNodes⟩,
    ⟨twoNodes, .lockNode 0, some roomy, heldRoomy⟩,
    ⟨heldRoomy, .rowsOn 0, [resident 0 0, resident 0 1], heldRoomy⟩,
    ⟨heldRoomy, .rollback, (), abort 0 heldRoomy⟩]

theorem attempt_alone : Alone attemptLog (abort 0 heldRoomy) .done := by
  have hstart : Alone [] twoNodes attempt := .start
  have hfound := hstart.step (show exec 0 heard (.placement 7) twoNodes = some (none, twoNodes) from rfl)
  have hranked := hfound.step
    (show exec 0 heard (.candidates "eu-central") twoNodes = some ([(0, roomy), (1, small)], twoNodes) from rfl)
  have hwalk : Alone _ twoNodes (pickNode (bookingOf .free) (fun n _ => atNode n)
      (rankNodes (ranking narrow shorter) [(0, roomy), (1, small)] (bookingOf .free))) := hranked
  rw [ranked_twoNodes] at hwalk
  have hlocked := hwalk.step (show exec 0 heard (.lockNode 0) twoNodes = some (some roomy, heldRoomy) from rfl)
  have hplace : Alone _ heldRoomy (atNode 0) := hlocked
  have hrows := hplace.step
    (show exec 0 heard (.rowsOn 0) heldRoomy = some ([resident 0 0, resident 0 1], heldRoomy) from rfl)
  have hgiven : Alone _ heldRoomy rolledBack := hrows
  exact hgiven.step (show exec 0 heard .rollback heldRoomy = some ((), abort 0 heldRoomy) from rfl)

theorem roomy_fits : StillFits (bookingOf .free) attemptLog 0 :=
  ⟨twoNodes, roomy, heldRoomy, by simp [attemptLog], rfl, by decide⟩

theorem twoNodes_housed : Housed (fleet twoNodes) := by
  intro p d hd
  simp only [fleet, twoNodes] at hd ⊢
  split at hd
  next => exact ⟨roomy, by rw [← Option.some.inj hd]; rfl⟩
  next =>
    split at hd
    next => exact ⟨roomy, by rw [← Option.some.inj hd]; rfl⟩
    next =>
      split at hd
      next => exact ⟨small, by rw [← Option.some.inj hd]; rfl⟩
      next => cases hd

theorem twoNodes_valid (n : NodeId) (v : Node) (h : twoNodes.nodes.committed n = some v) : v.valid = true := by
  simp only [twoNodes] at h
  split at h
  next =>
    rw [← Option.some.inj h]
    decide
  next =>
    split at h
    next =>
      rw [← Option.some.inj h]
      decide
    next => cases h

theorem shorter_total (a b : String) : shorter a b = true ∨ shorter b a = true := by
  simp only [shorter, decide_eq_true_eq]
  omega

theorem shorter_trans (a b c : String) (hab : shorter a b = true) (hbc : shorter b c = true) :
    shorter a c = true := by
  simp only [shorter, decide_eq_true_eq] at *
  omega

end Corebase.PlacementAttempts
