import Corebase.Placement

namespace Corebase.PlacementSteps

open Interleaving RowLocks Placement

/-- The committed rows. -/
structure Fleet where
  nodes : NodeId → Option Node
  databases : ProjectId → Option ProjectDatabase

def fleet (s : Store) : Fleet := ⟨s.nodes.committed, s.databases.committed⟩

def ports (d : ProjectDatabase) : Nat × Nat × Option Nat × Option Nat :=
  (d.port, d.poolerPort, d.postgrestPort, d.postgrestAdminPort)

/-- The ports of every placement on the node are among those of the rows. -/
def Seen (f : Fleet) (n : NodeId) (rows : List ProjectDatabase) : Prop :=
  ∀ p d, f.databases p = some d → d.nodeId = n → ∃ r ∈ rows, ports r = ports d

def credited (v : Node) (d : ProjectDatabase) : Node :=
  withDisk (if 0 < d.ramBookedMb then withRam v d.ramBookedMb else v) d.diskBookedGb

/-- What a transaction does to the committed rows as one step. Where bookRam is not strict about
the placement that it has read, it may book it twice, on a node it has left, or no longer there. -/
inductive Effect (config : Config) (strict : Prop) (held : NodeId → Prop) (f : Fleet) : Fleet → Prop
  | none : Effect config strict held f f
  | place {p : ProjectId} {ref : String} {plan : Plan} {n : NodeId} {v : Node} {rows : List ProjectDatabase}
      {row : ProjectDatabase} (unplaced : f.databases p = none) (node : f.nodes n = some v)
      (fit : fits v (bookingOf plan) = true) (hold : held n) (seen : Seen f n rows)
      (new : newRow config ref plan n rows = some row) :
      Effect config strict held f ⟨Function.update f.nodes n (some (grown v plan.ramMb (diskBookingGbFor plan))),
        Function.update f.databases p (some row)⟩
  | release {p : ProjectId} {row : ProjectDatabase} {v : Node} (placed : f.databases p = some row)
      (node : f.nodes row.nodeId = some v) :
      Effect config strict held f ⟨Function.update f.nodes row.nodeId (some (credited v row)),
        Function.update f.databases p none⟩
  | pause {p : ProjectId} {row : ProjectDatabase} {v : Node} (placed : f.databases p = some row)
      (node : f.nodes row.nodeId = some v) (running : 0 < row.ramBookedMb) :
      Effect config strict held f ⟨Function.update f.nodes row.nodeId (some (withRam v row.ramBookedMb)),
        Function.update f.databases p (some (rebooked row 0))⟩
  | book {p : ProjectId} {row : ProjectDatabase} {n : NodeId} {v : Node} {plan : Plan}
      (placed : f.databases p = some row) (node : f.nodes n = some v) (fit : canFit v plan.ramMb = true)
      (fresh : strict → row.nodeId = n ∧ row.ramBookedMb = 0) :
      Effect config strict held f ⟨Function.update f.nodes n (some (grown v plan.ramMb 0)),
        Function.update f.databases p (some (rebooked row plan.ramMb))⟩
  | leak {n : NodeId} {v : Node} {plan : Plan} (loose : ¬ strict) (node : f.nodes n = some v)
      (fit : canFit v plan.ramMb = true) :
      Effect config strict held f ⟨Function.update f.nodes n (some (grown v plan.ramMb 0)), f.databases⟩

/-- Every placement is on a node of the fleet. -/
def Housed (f : Fleet) : Prop := ∀ p d, f.databases p = some d → ∃ v, f.nodes d.nodeId = some v

/-- A booking is made for a project that has none, on a node that its client holds. -/
def fresh (c : Client) : Op → Store → Bool
  | .setBooked p mb, s => mb = 0 || (s.databases.view c p).any fun row =>
      row.ramBookedMb = 0 && (s.nodes.lock row.nodeId).any fun held => held.1 = c
  | _, _ => true

/-- The moves of runs in which every booking is fresh. -/
def FreshBookings : Interleaving.Config Client Store Op Reply → Move Client Chance Request → Prop :=
  Protocol.Statements fun c op s => fresh c op s = true

def discipline (config : Config) (strict : Prop) : Discipline Client Store Op where
  Inv s := Housed (fleet s)
  Guar c s s' := (∀ d, d ≠ c → Table.Undisturbed d s.nodes s'.nodes ∧ Table.Undisturbed d s.databases s'.databases) ∧
    Effect config strict (fun n => ∃ v, s.nodes.lock n = some (c, v)) (fleet s) (fleet s')
  Idle c s := s.nodes.Out c ∧ s.databases.Out c
  Allowed c op s := strict → fresh c op s = true

variable {config : Config} {strict : Prop} {held : NodeId → Prop} {f f' : Fleet} {c d : Client} {s s' : Store}
  {n : NodeId} {p : ProjectId} {v : Node} {chance : Chance}

section Fleets

theorem Housed.node (h : Housed f) (w : Node) : Housed ⟨Function.update f.nodes n (some w), f.databases⟩ := by
  intro p d hd
  by_cases hn : d.nodeId = n
  · exact ⟨w, by simp [hn]⟩
  · simpa [Function.update_of_ne hn] using h p d hd

theorem Housed.database {e : ProjectDatabase} (h : Housed f) (he : ∃ v, f.nodes e.nodeId = some v) :
    Housed ⟨f.nodes, Function.update f.databases p (some e)⟩ := by
  intro q d hd
  by_cases hq : q = p
  · subst hq
    obtain rfl : e = d := by simpa using hd
    exact he
  · exact h q d (by simpa [Function.update_of_ne hq] using hd)

theorem newRow_nodeId {ref : String} {plan : Plan} {rows : List ProjectDatabase} {row : ProjectDatabase}
    (h : newRow config ref plan n rows = some row) : row.nodeId = n := by
  simp only [newRow, Option.bind_eq_bind, Option.bind_eq_some_iff] at h
  obtain ⟨_, _, _, _, _, _, h⟩ := h
  cases h
  rfl

theorem Effect.housed (he : Effect config strict held f f') (h : Housed f) : Housed f' := by
  cases he with
  | none => exact h
  | @place p ref plan n v rows row unplaced node fit hold seen new =>
      refine (h.node _).database ⟨grown v plan.ramMb (diskBookingGbFor plan), ?_⟩
      rw [newRow_nodeId new]
      exact Function.update_self ..
  | @release p row v placed node =>
      intro q d hd
      have hq : q ≠ p := by
        rintro rfl
        simp at hd
      exact h.node _ q d (by simpa [Function.update_of_ne hq] using hd)
  | pause placed node running => exact (h.node _).database ⟨_, Function.update_self ..⟩
  | @book p row n v plan placed node fit fresh =>
      exact (h.node (grown v plan.ramMb 0)).database ((h.node (grown v plan.ramMb 0)) p row placed)
  | leak loose node fit => exact h.node _

/-- The ports that are in use on a node change only under the lock of the node. -/
theorem Effect.seen {rows : List ProjectDatabase} (he : Effect config strict held f f') (hn : ¬ held n)
    (h : Seen f n rows) : Seen f' n rows := by
  cases he with
  | none => exact h
  | @place p ref plan m v rows' row unplaced node fit hold seen new =>
      intro q d hd hdn
      by_cases hq : q = p
      · subst hq
        obtain rfl : row = d := by simpa using hd
        rw [← hdn, newRow_nodeId new] at hn
        exact absurd hold hn
      · exact h q d (by simpa [Function.update_of_ne hq] using hd) hdn
  | @release p row v placed node =>
      intro q d hd hdn
      by_cases hq : q = p
      · simp [hq] at hd
      · exact h q d (by simpa [Function.update_of_ne hq] using hd) hdn
  | @pause p row v placed node running =>
      intro q d hd hdn
      by_cases hq : q = p
      · subst hq
        obtain rfl : rebooked row 0 = d := by simpa using hd
        exact h q row placed hdn
      · exact h q d (by simpa [Function.update_of_ne hq] using hd) hdn
  | @book p row m v plan placed node fit fresh =>
      intro q d hd hdn
      by_cases hq : q = p
      · subst hq
        obtain rfl : rebooked row plan.ramMb = d := by simpa using hd
        exact h q row placed hdn
      · exact h q d (by simpa [Function.update_of_ne hq] using hd) hdn
  | leak loose node fit => exact h

end Fleets

section Statements

variable {f : Node → Node}

theorem fresh_cases {mb : Int} (h : fresh c (.setBooked p mb) s = true) (hmb : 0 < mb) :
    ∃ row, s.databases.view c p = some row ∧ row.ramBookedMb = 0 ∧ ∃ v, s.nodes.lock row.nodeId = some (c, v) := by
  simp only [fresh, Bool.or_eq_true, decide_eq_true_eq, Option.any_eq_true, Bool.and_eq_true] at h
  obtain hzero | ⟨row, hrow, hbooked, ⟨d, v⟩, hlock, rfl⟩ := h
  · omega
  · exact ⟨row, hrow, hbooked, v, hlock⟩

theorem updateNode_cases {ok : Bool} (h : updateNode c n f s = some (ok, s')) (hv : s.nodes.view c n = some v) :
    s.nodes.free c n = true ∧ (ok = true ∧ s' = { s with nodes := s.nodes.write c n (some (f v)) } ∨
      ok = false ∧ s' = s) := by
  simp only [updateNode, hv] at h
  split at h
  next hfree =>
    refine ⟨hfree, ?_⟩
    split at h <;> cases h
    · exact .inl ⟨rfl, rfl⟩
    · exact .inr ⟨rfl, rfl⟩
  next => cases h

theorem lockNode_cases (chance : Chance) {r : Option Node} (h : exec c chance (.lockNode n) s = some (r, s')) :
    (r = none ∧ s' = s) ∨ ∃ v, r = some v ∧ s.nodes.free c n = true ∧ s.nodes.view c n = some v ∧
      s' = { s with nodes := s.nodes.write c n (some v) } := by
  simp only [exec] at h
  split at h
  next hfree =>
    split at h <;> cases h
    next v hv => exact .inr ⟨v, rfl, hfree, hv, rfl⟩
    next => exact .inl ⟨rfl, rfl⟩
  next => cases h

theorem insert_cases (chance : Chance) {row : ProjectDatabase} {ok : Bool} (h : exec c chance (.insert p row) s = some (ok, s')) :
    (ok = false ∧ s' = s) ∨ ok = true ∧ s.databases.free c p = true ∧ s.databases.view c p = none ∧
      s' = { s with databases := s.databases.write c p (some row) } := by
  simp only [exec] at h
  split at h
  next hfree =>
    split at h <;> cases h
    next hnew =>
      simp only [Bool.and_eq_true] at hfree hnew
      exact .inr ⟨rfl, hfree.1, by simpa using hnew.1.1, rfl⟩
    next => exact .inl ⟨rfl, rfl⟩
  next => cases h

theorem delete_cases {r : Option ProjectDatabase} (h : exec c chance (.delete p) s = some (r, s')) :
    (r = none ∧ s' = s) ∨ ∃ row, r = some row ∧ s.databases.free c p = true ∧ s.databases.view c p = some row ∧
      s' = { s with databases := s.databases.write c p none } := by
  simp only [exec] at h
  split at h
  · cases h
    exact .inl ⟨rfl, rfl⟩
  · split at h
    next hfree =>
      split at h <;> cases h
      next row hrow => exact .inr ⟨row, rfl, hfree, hrow, rfl⟩
      next => exact .inl ⟨rfl, rfl⟩
    next => cases h

theorem lockBooked_cases {r : Option ProjectDatabase} (h : exec c chance (.lockBooked p) s = some (r, s')) :
    (r = none ∧ s' = s) ∨ ∃ row, r = some row ∧ 0 < row.ramBookedMb ∧ s.databases.free c p = true ∧
      s.databases.view c p = some row ∧ s' = { s with databases := s.databases.write c p (some row) } := by
  simp only [exec] at h
  split at h
  · cases h
    exact .inl ⟨rfl, rfl⟩
  · split at h
    next hfree =>
      split at h
      next row hrow =>
        split at h <;> cases h
        next hbooked => exact .inr ⟨row, rfl, hbooked, hfree, hrow, rfl⟩
        next => exact .inl ⟨rfl, rfl⟩
      next =>
        cases h
        exact .inl ⟨rfl, rfl⟩
    next => cases h

theorem setBooked_cases (chance : Chance) {mb : Int} {r : Unit} (h : exec c chance (.setBooked p mb) s = some (r, s')) :
    (s.databases.view c p = none ∧ s' = s) ∨ ∃ row, s.databases.free c p = true ∧
      s.databases.view c p = some row ∧
      s' = { s with databases := s.databases.write c p (some (rebooked row mb)) } := by
  simp only [exec] at h
  split at h
  next hfree =>
    split at h <;> cases h
    next row hrow => exact .inr ⟨row, hfree, hrow, rfl⟩
    next hrow => exact .inl ⟨hrow, rfl⟩
  next => cases h

end Statements

section Rely

variable {Q : Store → Prop} {old new : Option ProjectDatabase} {oldNode newNode : Option Node}

theorem guar_refl : (discipline config strict).Guar c s s := ⟨fun _ _ => ⟨.refl, .refl⟩, .none⟩

theorem guar_node {w : Option Node} (hfree : s.nodes.free c n = true) :
    (discipline config strict).Guar c s { s with nodes := s.nodes.write c n w } :=
  ⟨fun _ hd => ⟨Table.undisturbed_write hd hfree, .refl⟩, .none⟩

theorem guar_database {w : Option ProjectDatabase} (hfree : s.databases.free c p = true) :
    (discipline config strict).Guar c s { s with databases := s.databases.write c p w } :=
  ⟨fun _ hd => ⟨.refl, Table.undisturbed_write hd hfree⟩, .none⟩

theorem stable_nodes {A : Table Client NodeId Node → Prop}
    (hA : ∀ t t', A t → Table.Undisturbed c t t' → A t') : (discipline config strict).Stable c fun s => A s.nodes :=
  fun _ hd _ _ _ hG h => hA _ _ h (hG.1 c hd.symm).1

theorem stable_databases {A : Table Client ProjectId ProjectDatabase → Prop}
    (hA : ∀ t t', A t → Table.Undisturbed c t t' → A t') :
    (discipline config strict).Stable c fun s => A s.databases :=
  fun _ hd _ _ _ hG h => hA _ _ h (hG.1 c hd.symm).2

/-- The client has locked the node and has not changed it or another one. -/
def Locked (c : Client) (n : NodeId) (v : Node) (t : Table Client NodeId Node) : Prop :=
  t.lock n = some (c, some v) ∧ t.Untouched c

theorem Locked.stable {t t' : Table Client NodeId Node} (h : Locked c n v t) (hu : Table.Undisturbed c t t') :
    Locked c n v t' := ⟨(hu n (some v)).1.mpr h.1, h.2.stable hu⟩

/-- The client holds the node, and the rows still have the ports that are in use on it. -/
def Watched (c : Client) (n : NodeId) (rows : List ProjectDatabase) (s : Store) : Prop :=
  (∃ w, s.nodes.lock n = some (c, w)) ∧ Seen (fleet s) n rows

theorem stable_watched {rows : List ProjectDatabase} :
    (discipline config strict).Stable c (Watched c n rows) := by
  intro d hd s s' _ hG ⟨⟨w, hw⟩, hseen⟩
  refine ⟨⟨w, ((hG.1 c hd.symm).1 n w).1.mpr hw⟩, hG.2.seen ?_ hseen⟩
  rintro ⟨w', hw'⟩
  rw [hw] at hw'
  cases hw'
  exact hd rfl

theorem stable_idle : (discipline config strict).Stable c ((discipline config strict).Idle c) :=
  (stable_nodes fun _ _ => Table.Out.stable).and (stable_databases fun _ _ => Table.Out.stable)

theorem stable_wrote : (discipline config strict).Stable c fun s => s.nodes.Wrote c n oldNode newNode ∧
    s.databases.Wrote c p old new :=
  (stable_nodes fun _ _ => Table.Wrote.stable).and (stable_databases fun _ _ => Table.Wrote.stable)

theorem keeps_ending (he : Effect config strict (fun n => ∃ v, s.nodes.lock n = some (c, v)) (fleet s) (fleet s'))
    (hu : ∀ d, d ≠ c → Table.Undisturbed d s.nodes s'.nodes ∧ Table.Undisturbed d s.databases s'.databases)
    (hout : s'.nodes.Out c ∧ s'.databases.Out c) (hI : Housed (fleet s)) :
    (discipline config strict).Inv s' ∧ (discipline config strict).Guar c s s' ∧ ∃ Q,
      (discipline config strict).Stable c Q ∧ Q s' ∧ (discipline config strict).Meets (protocol config) c .done Q :=
  ⟨he.housed hI, ⟨hu, he⟩, _, stable_idle, hout, fun _ _ h => h⟩

theorem meets_rolledBack : (discipline config strict).Meets (protocol config) c rolledBack Q := by
  intro s choice r s' hI _ _ hexec
  cases hexec
  exact keeps_ending .none (fun d hd => ⟨Table.undisturbed_rollback hd, Table.undisturbed_rollback hd⟩)
    ⟨Table.out_rollback, Table.out_rollback⟩ hI

/-- A transaction takes its effect when it is committed. -/
theorem meets_committed (hQ : ∀ s, Q s → Effect config strict (fun n => ∃ v, s.nodes.lock n = some (c, v))
    (fleet s) (fleet ⟨s.nodes.commit c, s.databases.commit c⟩)) :
    (discipline config strict).Meets (protocol config) c committed Q := by
  intro s choice r s' hI hs _ hexec
  cases hexec
  exact keeps_ending (hQ s hs) (fun d hd => ⟨Table.undisturbed_commit hd, Table.undisturbed_commit hd⟩)
    ⟨Table.out_commit, Table.out_commit⟩ hI

theorem meets_unchanged : (discipline config strict).Meets (protocol config) c committed
    fun s => s.nodes.Untouched c ∧ s.databases.Out c := by
  refine meets_committed fun s hs => ?_
  rw [fleet, fleet, hs.1.commit, hs.2.untouched.commit]
  exact .none

/-- An update of a node either fails, and the transaction with it, or goes on with what it has written. -/
theorem keeps_updateNode {f : Node → Node} {next : Program Op Reply} {ok : Bool}
    (h : updateNode c n f s = some (ok, s')) (hI : Housed (fleet s)) (hv : s.nodes.view c n = some v)
    (hst : (discipline config strict).Stable c Q) (hQ : Q { s with nodes := s.nodes.write c n (some (f v)) })
    (hnext : (discipline config strict).Meets (protocol config) c next Q) :
    (discipline config strict).Inv s' ∧ (discipline config strict).Guar c s s' ∧ ∃ Q',
      (discipline config strict).Stable c Q' ∧ Q' s' ∧
      (discipline config strict).Meets (protocol config) c (andThen next ok) Q' := by
  obtain ⟨hfree, ⟨rfl, rfl⟩ | ⟨rfl, rfl⟩⟩ := updateNode_cases h hv
  · exact ⟨hI, guar_node hfree, Q, hst, hQ, hnext⟩
  · exact ⟨hI, guar_refl, _, Discipline.stable_true, trivial, meets_rolledBack⟩

end Rely

section Programs

variable {row : ProjectDatabase} {plan : Plan} {ref : String}

theorem meets_pickNode {want : Booking} {found : NodeId → Node → Program Op Reply}
    (hfound : ∀ n v, fits v want = true → (discipline config strict).Meets (protocol config) c (found n v)
      fun s => Locked c n v s.nodes ∧ s.databases.Out c) (ranked : List NodeCandidate) :
    (discipline config strict).Meets (protocol config) c (pickNode want found ranked)
      fun s => s.nodes.Untouched c ∧ s.databases.Out c := by
  induction ranked with
  | nil => exact meets_rolledBack
  | cons candidate ranked ih =>
      intro s chance r s' hI ⟨hnodes, hout⟩ _ hexec
      obtain ⟨rfl, rfl⟩ | ⟨v, rfl, hfree, hview, rfl⟩ := lockNode_cases chance hexec
      · exact ⟨hI, guar_refl, _, (stable_nodes fun _ _ => Table.Untouched.stable).and
          (stable_databases fun _ _ => Table.Out.stable), ⟨hnodes, hout⟩, ih⟩
      · have hcommitted : s.nodes.committed candidate.1 = some v := hnodes.view.symm.trans hview
        have hlocked : Locked c candidate.1 v (s.nodes.write c candidate.1 (some v)) :=
          ⟨Table.lock_write_self, hcommitted ▸ hnodes.locked⟩
        refine ⟨hI, guar_node hfree, _, (stable_nodes fun _ _ => Locked.stable).and
          (stable_databases fun _ _ => Table.Out.stable), ⟨hlocked, hout⟩, ?_⟩
        change (discipline config strict).Meets (protocol config) c
          (if v.active && fits v want then found candidate.1 v else pickNode want found ranked) _
        split
        next hok =>
          rw [Bool.and_eq_true] at hok
          exact hfound candidate.1 v hok.2
        next => exact ih.mono fun _ _ h => ⟨h.1.2, h.2⟩

theorem meets_place (hfit : fits v (bookingOf plan) = true) :
    (discipline config strict).Meets (protocol config) c (place config p ref plan n)
      fun s => Locked c n v s.nodes ∧ s.databases.Out c := by
  rintro s chance rows s' hI ⟨hlocked, hout⟩ _ hexec
  cases hexec
  have hseen : Watched c n (((s.databases.rows c).map Prod.snd).filter fun d => d.nodeId = n) s := by
    refine ⟨⟨_, hlocked.1⟩, fun q d hd hn => ⟨d, ?_, rfl⟩⟩
    have hrow : (q, d) ∈ s.databases.rows c := Table.mem_rows.mpr (hout.untouched.view.trans hd)
    simp only [List.mem_filter, List.mem_map, decide_eq_true_eq]
    exact ⟨⟨_, hrow, rfl⟩, hn⟩
  revert hseen
  generalize ((s.databases.rows c).map Prod.snd).filter _ = rows
  intro hseen
  refine ⟨hI, guar_refl, _, ((stable_nodes fun _ _ => Locked.stable).and
    (stable_databases fun _ _ => Table.Out.stable)).and stable_watched, ⟨⟨hlocked, hout⟩, hseen⟩, ?_⟩
  beta_reduce
  cases hnew : newRow config ref plan n rows with
  | none => exact meets_rolledBack
  | some row =>
      intro s chance ok s' hI ⟨⟨hlocked, hout⟩, hseen⟩ _ hexec
      obtain ⟨rfl, rfl⟩ | ⟨rfl, hfree, hview, rfl⟩ := insert_cases chance hexec
      · exact ⟨hI, guar_refl, _, Discipline.stable_true, trivial, meets_rolledBack⟩
      have hunplaced : s.databases.committed p = none := hout.untouched.view.symm.trans hview
      refine ⟨hI, guar_database hfree, _, ((stable_nodes fun _ _ => Locked.stable).and
        (stable_databases fun _ _ => Table.Wrote.stable)).and stable_watched,
        ⟨⟨hlocked, hout.untouched.write (some row)⟩, hseen⟩, ?_⟩
      intro s chance ok s' hI ⟨⟨hlocked, hwrote⟩, hseen⟩ _ hexec
      refine keeps_updateNode hexec hI (Table.view_of_lock hlocked.1) (stable_wrote.and stable_watched)
        ⟨⟨hlocked.2.write _, hwrote⟩, ⟨_, Table.lock_write_self⟩, hseen.2⟩ (meets_committed fun s hs => ?_)
      obtain ⟨⟨hnode, hdatabase⟩, hhold, hseen⟩ := hs
      rw [fleet, fleet, hnode.commit, hdatabase.commit]
      refine .place (hdatabase.committed.trans hunplaced) (hnode.committed.trans ?_) hfit hhold hseen hnew
      exact hlocked.2 n _ hlocked.1 ▸ rfl

theorem meets_allocateNode {region : String} :
    (discipline config strict).Meets (protocol config) c (allocateNode config p ref plan region)
      ((discipline config strict).Idle c) := by
  intro s chance r s' hI hidle _ hexec
  cases hexec
  refine ⟨hI, guar_refl, _, stable_idle, hidle, ?_⟩
  cases (s.databases.view c p).filter fun d => (s.nodes.view c d.nodeId).isSome with
  | some d => exact meets_unchanged.mono fun _ _ h => ⟨h.1.untouched, h.2⟩
  | none =>
      intro s chance r s' hI hidle _ hexec
      cases hexec
      exact ⟨hI, guar_refl, _, stable_idle, hidle,
        (meets_pickNode (fun n v hfit => meets_place hfit) _).mono fun _ _ h => ⟨h.1.untouched, h.2⟩⟩

theorem meets_released : (discipline config strict).Meets (protocol config) c committed
    fun s => s.nodes.Wrote c row.nodeId (some v) (some (credited v row)) ∧ s.databases.Wrote c p (some row) none := by
  refine meets_committed fun s ⟨hnode, hdatabase⟩ => ?_
  rw [fleet, fleet, hnode.commit, hdatabase.commit]
  exact .release hdatabase.committed hnode.committed

theorem meets_releaseNode : (discipline config strict).Meets (protocol config) c (releaseNode p)
    ((discipline config strict).Idle c) := by
  intro s chance r s' hI ⟨hnodes, hout⟩ _ hexec
  obtain ⟨rfl, rfl⟩ | ⟨row, rfl, hfree, hview, rfl⟩ := delete_cases hexec
  · exact ⟨hI, guar_refl, _, stable_idle, ⟨hnodes, hout⟩, meets_unchanged.mono fun _ _ h => ⟨h.1.untouched, h.2⟩⟩
  have hrow : s.databases.committed p = some row := hout.untouched.view.symm.trans hview
  refine ⟨hI, guar_database hfree, _, (stable_nodes fun _ _ => Table.Out.stable).and
    (stable_databases fun _ _ => Table.Wrote.stable), ⟨hnodes, hrow ▸ hout.untouched.write none⟩, ?_⟩
  change (discipline config strict).Meets (protocol config) c (if 0 < row.ramBookedMb then _ else _) _
  split
  next hbooked =>
    intro s chance ok s' hI ⟨hnodes, hwrote⟩ _ hexec
    obtain ⟨v, hv⟩ := hI p row hwrote.committed
    refine keeps_updateNode hexec hI (hnodes.untouched.view.trans hv) stable_wrote
      ⟨hnodes.untouched.write _, hwrote⟩ ?_
    rw [show s.nodes.committed row.nodeId = some v from hv]
    intro s chance ok s' hI ⟨hnode, hwrote⟩ _ hexec
    have hcredited : credited v row = withDisk (withRam v row.ramBookedMb) row.diskBookedGb := by
      rw [credited, if_pos hbooked]
    exact keeps_updateNode hexec hI (Table.view_of_lock hnode.lock) stable_wrote ⟨hnode.write _, hwrote⟩
      (meets_released.mono fun s _ h => hcredited ▸ h)
  next hbooked =>
    intro s chance ok s' hI ⟨hnodes, hwrote⟩ _ hexec
    obtain ⟨v, hv⟩ := hI p row hwrote.committed
    have hcredited : credited v row = withDisk v row.diskBookedGb := by rw [credited, if_neg hbooked]
    refine keeps_updateNode hexec hI (hnodes.untouched.view.trans hv) stable_wrote
      ⟨hnodes.untouched.write _, hwrote⟩ ?_
    rw [show s.nodes.committed row.nodeId = some v from hv]
    exact meets_released.mono fun s _ h => hcredited ▸ h

theorem meets_releaseRam : (discipline config strict).Meets (protocol config) c (releaseRam p)
    ((discipline config strict).Idle c) := by
  intro s chance r s' hI ⟨hnodes, hout⟩ _ hexec
  obtain ⟨rfl, rfl⟩ | ⟨row, rfl, hbooked, hfree, hview, rfl⟩ := lockBooked_cases hexec
  · exact ⟨hI, guar_refl, _, stable_idle, ⟨hnodes, hout⟩, meets_unchanged.mono fun _ _ h => ⟨h.1.untouched, h.2⟩⟩
  have hrow : s.databases.committed p = some row := hout.untouched.view.symm.trans hview
  refine ⟨hI, guar_database hfree, _, (stable_nodes fun _ _ => Table.Out.stable).and
    (stable_databases fun _ _ => Table.Wrote.stable), ⟨hnodes, hrow ▸ hout.untouched.write (some row)⟩, ?_⟩
  intro s chance r s' hI ⟨hnodes, hwrote⟩ _ hexec
  obtain ⟨hview, _⟩ | ⟨row', hfree, hview, rfl⟩ := setBooked_cases chance hexec
  · cases hview.symm.trans (Table.view_of_lock hwrote.lock)
  obtain rfl : row = row' := Option.some.inj ((Table.view_of_lock hwrote.lock).symm.trans hview)
  refine ⟨hI, guar_database hfree, _, (stable_nodes fun _ _ => Table.Out.stable).and
    (stable_databases fun _ _ => Table.Wrote.stable), ⟨hnodes, hwrote.write _⟩, ?_⟩
  intro s chance ok s' hI ⟨hnodes, hwrote⟩ _ hexec
  obtain ⟨v, hv⟩ := hI p row hwrote.committed
  refine keeps_updateNode hexec hI (hnodes.untouched.view.trans hv) stable_wrote
    ⟨hnodes.untouched.write _, hwrote⟩ (meets_committed fun s hs => ?_)
  rw [fleet, fleet, hs.1.commit, hs.2.commit]
  exact .pause hs.2.committed (hs.1.committed.trans hv) hbooked

/-- A resume from where it has locked the node and has found that the booking fits. -/
theorem meets_booking (hfit : canFit v plan.ramMb = true) :
    (discipline config strict).Meets (protocol config) c
      (.step (.setBooked p plan.ramMb) fun _ => .step (.book n plan.ramMb 0) (andThen committed))
      fun s => (Locked c n v s.nodes ∧ s.nodes.Only c n) ∧ s.databases.Out c := by
  intro s chance r s' hI ⟨⟨hlocked, honly⟩, hout⟩ hfresh hexec
  have hv : s.nodes.committed n = some v := (hlocked.2 n _ hlocked.1).symm
  obtain ⟨hview, rfl⟩ | ⟨row, hfree, hview, rfl⟩ := setBooked_cases chance hexec
  · have hloose : ¬ strict := by
      intro hstrict
      obtain ⟨row, hrow, _⟩ := fresh_cases (hfresh hstrict) plan.ramMb_pos
      cases hview.symm.trans hrow
    refine ⟨hI, guar_refl, _, (stable_nodes fun _ _ => Locked.stable).and
      (stable_databases fun _ _ => Table.Out.stable), ⟨hlocked, hout⟩, ?_⟩
    intro s chance ok s' hI ⟨hlocked, hout⟩ _ hexec
    refine keeps_updateNode hexec hI (Table.view_of_lock hlocked.1) ((stable_nodes fun _ _ => Table.Wrote.stable).and
      (stable_databases fun _ _ => Table.Out.stable)) ⟨hlocked.2.write _, hout⟩ (meets_committed fun s hs => ?_)
    rw [fleet, fleet, hs.1.commit, hs.2.untouched.commit]
    exact .leak hloose (hs.1.committed.trans (hlocked.2 n _ hlocked.1).symm) hfit
  · have hrow : s.databases.committed p = some row := hout.untouched.view.symm.trans hview
    have hsame : strict → row.nodeId = n ∧ row.ramBookedMb = 0 := by
      intro hstrict
      obtain ⟨row', hrow', hbooked, w, hw⟩ := fresh_cases (hfresh hstrict) plan.ramMb_pos
      obtain rfl : row = row' := Option.some.inj (hview.symm.trans hrow')
      exact ⟨honly _ w hw, hbooked⟩
    refine ⟨hI, guar_database hfree, _, (stable_nodes fun _ _ => Locked.stable).and
      (stable_databases fun _ _ => Table.Wrote.stable), ⟨hlocked, hrow ▸ hout.untouched.write _⟩, ?_⟩
    intro s chance ok s' hI ⟨hlocked, hwrote⟩ _ hexec
    refine keeps_updateNode hexec hI (Table.view_of_lock hlocked.1) stable_wrote
      ⟨hlocked.2.write _, hwrote⟩ (meets_committed fun s hs => ?_)
    rw [fleet, fleet, hs.1.commit, hs.2.commit]
    exact .book hs.2.committed (hs.1.committed.trans (hlocked.2 n _ hlocked.1).symm) hfit hsame

theorem meets_bookRam : (discipline config strict).Meets (protocol config) c (bookRam p plan)
    ((discipline config strict).Idle c) := by
  intro s chance r s' hI hidle _ hexec
  cases hexec
  refine ⟨hI, guar_refl, _, stable_idle, hidle, ?_⟩
  cases (s.databases.view c p).filter fun d => (s.nodes.view c d.nodeId).isSome with
  | none => exact meets_rolledBack
  | some d =>
      intro s chance r s' hI ⟨hnodes, hout⟩ _ hexec
      obtain ⟨rfl, rfl⟩ | ⟨v, rfl, hfree, hview, rfl⟩ := lockNode_cases chance hexec
      · exact ⟨hI, guar_refl, _, Discipline.stable_true, trivial, meets_rolledBack⟩
      have hv : s.nodes.committed d.nodeId = some v := hnodes.untouched.view.symm.trans hview
      refine ⟨hI, guar_node hfree, _, ((stable_nodes fun _ _ => Locked.stable).and
        (stable_nodes fun _ _ => Table.Only.stable)).and (stable_databases fun _ _ => Table.Out.stable),
        ⟨⟨⟨Table.lock_write_self, hv ▸ hnodes.untouched.locked⟩, hnodes.only (some v)⟩, hout⟩, ?_⟩
      change (discipline config strict).Meets (protocol config) c
        (if 0 < d.ramBookedMb then _ else if canFit v plan.ramMb then _ else _) _
      split
      next => exact meets_unchanged.mono fun _ _ h => ⟨h.1.1.2, h.2⟩
      next =>
        split
        next hfit => exact meets_booking hfit
        next => exact meets_rolledBack

theorem sound : (discipline config strict).Sound (protocol config) where
  idle _ := stable_idle
  abort c s hI _ := ⟨hI, ⟨fun _ hd => ⟨Table.undisturbed_rollback hd, Table.undisturbed_rollback hd⟩, .none⟩,
    Table.out_rollback, Table.out_rollback⟩
  program c q := by
    cases q with
    | allocateNode p ref plan region => exact meets_allocateNode
    | releaseNode p => exact meets_releaseNode
    | releaseRam p => exact meets_releaseRam
    | bookRam p plan => exact meets_bookRam

end Programs

section Runs

variable {ok : Interleaving.Config Client Store Op Reply → Move Client Chance Request → Prop}
  {g g' : Interleaving.Config Client Store Op Reply} {m : Move Client Chance Request}

theorem grants_fresh : (discipline config True).Grants FreshBookings where
  allowed _ c choice op next hr hok _ := hok c choice op next rfl hr
  mortal _ _ _ := trivial

theorem freshBookings_watch (g : Interleaving.Config Client Store Op Reply) (m : Move Client Chance Request)
    (hm : Protocol.watch fresh g m = true) : FreshBookings g m := Protocol.statements_watch (fun _ _ _ => id) g m hm

theorem holds (hok : (discipline config strict).Grants ok) (hs : Housed (fleet s)) (hstill : s.still)
    (h : (protocol config).Reachable ok s g) : (discipline config strict).Holds (protocol config) g :=
  sound.reachable hok hs (fun _ => ⟨by simp [Table.Out, hstill.1], by simp [Table.Out, hstill.2]⟩) h

theorem effect_of_move (hok : (discipline config strict).Grants ok) (hs : Housed (fleet s)) (hstill : s.still)
    (h : (protocol config).Reachable ok s g) (hm : ok g m) (hg : (protocol config).move g m = some g') :
    ∃ held, Effect config strict held (fleet g.store) (fleet g'.store) := by
  obtain ⟨_, heq | ⟨c, hG⟩⟩ := (holds hok hs hstill h).move sound hok hm hg
  · exact ⟨fun _ => False, heq ▸ .none⟩
  · exact ⟨_, hG.2⟩

/-- What every effect keeps holds in every run. -/
theorem effects_keep {I : Fleet → Prop} (hkeep : ∀ held f f', Effect config strict held f f' → I f → I f')
    (hok : (discipline config strict).Grants ok) (hs : Housed (fleet s)) (hstill : s.still) (hI : I (fleet s))
    (h : (protocol config).Reachable ok s g) : I (fleet g.store) := by
  induction h with
  | start => exact hI
  | step h hm hg ih =>
      obtain ⟨held, he⟩ := effect_of_move hok hs hstill h hm hg
      exact hkeep held _ _ he ih

/-- Between all transactions no row is locked. -/
theorem still_of_done (hok : (discipline config strict).Grants ok) (hs : Housed (fleet s)) (hstill : s.still)
    (h : (protocol config).Reachable ok s g) (hdone : ∀ c, g.running c = .done) : g.store.still := by
  have hidle : ∀ c, (discipline config strict).Idle c g.store := by
    intro c
    have hholds := holds hok hs hstill h
    obtain ⟨Q, _, hQ, hmeets⟩ := hholds.2 c
    rw [hdone c] at hmeets
    exact hmeets _ hholds.1 hQ
  constructor
  · intro n
    by_contra hn
    obtain ⟨⟨c, v⟩, hv⟩ := Option.ne_none_iff_exists'.mp hn
    exact (hidle c).1 n v hv
  · intro p
    by_contra hp
    obtain ⟨⟨c, v⟩, hv⟩ := Option.ne_none_iff_exists'.mp hp
    exact (hidle c).2 p v hv

end Runs

end Corebase.PlacementSteps
