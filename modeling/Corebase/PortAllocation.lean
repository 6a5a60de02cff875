import Corebase.PlacementSteps

namespace Corebase.PortAllocation

open Interleaving RowLocks Placement PlacementSteps

def Within (range : Nat × Nat) (x : Nat) : Prop := range.1 ≤ x ∧ x ≤ range.2

/-- The two ports of the data API, where the placement has them. -/
def pairOf (d : ProjectDatabase) : List Nat := d.postgrestPort.toList ++ d.postgrestAdminPort.toList

def portsOf (d : ProjectDatabase) : List Nat := d.port :: d.poolerPort :: pairOf d

/-- The pair is one of those that the range is cut into, if the placement has one. -/
def Paired (range : Nat × Nat) (d : ProjectDatabase) : Prop :=
  pairOf d = [] ∨ ∃ k, d.postgrestPort = some (range.1 + 2 * k) ∧ d.postgrestAdminPort = some (range.1 + 2 * k + 1) ∧
    range.1 + 2 * k + 1 ≤ range.2

structure InRanges (ranges : PortRanges) (d : ProjectDatabase) : Prop where
  pg : Within ranges.pg d.port
  pooler : Within ranges.pooler d.poolerPort
  pair : Paired ranges.postgrest d

/-- The placements have no port of the same kind in common. -/
structure Apart (d e : ProjectDatabase) : Prop where
  pg : d.port ≠ e.port
  pooler : d.poolerPort ≠ e.poolerPort
  pair : (pairOf d).Disjoint (pairOf e)

structure Ported (ranges : PortRanges) (f : Fleet) : Prop where
  ranged : ∀ p d, f.databases p = some d → InRanges ranges d
  apart : ∀ p q d e, p ≠ q → f.databases p = some d → f.databases q = some e → d.nodeId = e.nodeId → Apart d e

/-- No port is in two of the ranges. -/
def Separate (ranges : PortRanges) : Prop :=
  ∀ x, ¬ (Within ranges.pg x ∧ Within ranges.pooler x) ∧ ¬ (Within ranges.pg x ∧ Within ranges.postgrest x) ∧
    ¬ (Within ranges.pooler x ∧ Within ranges.postgrest x)

/-- All ports that are held on a node are different. -/
def Distinct (f : Fleet) : Prop :=
  (∀ p d, f.databases p = some d → (portsOf d).Nodup) ∧
  ∀ p q d e, p ≠ q → f.databases p = some d → f.databases q = some e → d.nodeId = e.nodeId →
    (portsOf d).Disjoint (portsOf e)

section Picking

variable {used : List Nat} {range : Nat × Nat} {x : Nat}

theorem pickPort_some (h : pickPort used range = some x) : Within range x ∧ x ∉ used := by
  have hfree := List.find?_some h
  obtain ⟨i, hi, rfl⟩ := List.mem_range'.mp (List.mem_of_find?_eq_some h)
  simp only [decide_eq_true_eq] at hfree
  exact ⟨⟨by omega, by omega⟩, hfree⟩

/-- No port is free where none is picked. -/
theorem pickPort_none (h : pickPort used range = none) (hx : Within range x) : x ∈ used := by
  have hx' : x ∈ List.range' range.1 (range.2 + 1 - range.1) :=
    List.mem_range'.mpr ⟨x - range.1, by have := hx.1; have := hx.2; omega, by have := hx.1; omega⟩
  simpa using List.find?_eq_none.mp h x hx'

theorem pickPortPair_some (h : pickPortPair used range = some x) :
    (∃ k, x = range.1 + 2 * k) ∧ x + 1 ≤ range.2 ∧ x ∉ used ∧ x + 1 ∉ used := by
  have hfree := List.find?_some h
  obtain ⟨k, hk, rfl⟩ := List.mem_range'.mp (List.mem_of_find?_eq_some h)
  simp only [decide_eq_true_eq] at hfree
  exact ⟨⟨k, rfl⟩, by omega, hfree⟩

theorem pickPortPair_none (h : pickPortPair used range = none) {k : Nat} (hk : range.1 + 2 * k + 1 ≤ range.2) :
    range.1 + 2 * k ∈ used ∨ range.1 + 2 * k + 1 ∈ used := by
  have hx : range.1 + 2 * k ∈ List.range' range.1 ((range.2 + 1 - range.1) / 2) 2 :=
    List.mem_range'.mpr ⟨k, by omega, rfl⟩
  have hused := List.find?_eq_none.mp h _ hx
  simp only [decide_eq_true_eq] at hused
  tauto

end Picking

section Fleets

variable {config : Placement.Config} {ranges : PortRanges} {strict : Prop} {held : NodeId → Prop} {f f' : Fleet}
  {n : NodeId} {p q : ProjectId} {d e row : ProjectDatabase} {rows : List ProjectDatabase} {x : Nat}

theorem pairOf_of_ports (h : ports d = ports e) : pairOf d = pairOf e := by
  simp only [ports, Prod.mk.injEq] at h
  rw [pairOf, pairOf, h.2.2.1, h.2.2.2]

theorem InRanges.of_ports (h : InRanges ranges e) (hd : ports d = ports e) : InRanges ranges d := by
  have hpair := pairOf_of_ports hd
  simp only [ports, Prod.mk.injEq] at hd
  refine ⟨hd.1 ▸ h.pg, hd.2.1 ▸ h.pooler, ?_⟩
  rw [Paired, hpair, hd.2.2.1, hd.2.2.2]
  exact h.pair

theorem Apart.symm (h : Apart d e) : Apart e d := ⟨h.pg.symm, h.pooler.symm, h.pair.symm⟩

theorem Apart.of_ports {d' e' : ProjectDatabase} (h : Apart d e) (hd : ports d' = ports d) (he : ports e' = ports e) :
    Apart d' e' := by
  have hpair := h.pair
  rw [← pairOf_of_ports hd, ← pairOf_of_ports he] at hpair
  simp only [ports, Prod.mk.injEq] at hd he
  exact ⟨by rw [hd.1, he.1]; exact h.pg, by rw [hd.2.1, he.2.1]; exact h.pooler, hpair⟩

theorem mem_postgrestPorts : x ∈ postgrestPorts rows ↔ ∃ r ∈ rows, x ∈ pairOf r := by
  simp [postgrestPorts, pairOf]

/-- What a placement is given next to rows that have all the ports in use. -/
theorem newRow_ports {ref : String} {plan : Plan} (h : newRow config ref plan n rows = some row) :
    InRanges config.ranges row ∧ ∀ r ∈ rows, Apart row r := by
  simp only [newRow, Option.bind_eq_bind, Option.bind_eq_some_iff] at h
  obtain ⟨port, hport, poolerPort, hpooler, postgrestPort, hpair, h⟩ := h
  cases h
  obtain ⟨hpg, hpgFree⟩ := pickPort_some hport
  obtain ⟨hpo, hpoFree⟩ := pickPort_some hpooler
  obtain ⟨⟨k, rfl⟩, hle, hfree, hfree'⟩ := pickPortPair_some hpair
  refine ⟨⟨hpg, hpo, .inr ⟨k, rfl, rfl, hle⟩⟩, fun r hr => ⟨fun heq => hpgFree ?_, fun heq => hpoFree ?_, ?_⟩⟩
  · exact List.mem_map.mpr ⟨r, hr, heq.symm⟩
  · exact List.mem_map.mpr ⟨r, hr, heq.symm⟩
  · intro x hx hxr
    have hused : x ∈ postgrestPorts rows := mem_postgrestPorts.mpr ⟨r, hr, hxr⟩
    simp only [pairOf, Option.toList_some, List.singleton_append, List.mem_cons, List.not_mem_nil, or_false] at hx
    rcases hx with rfl | rfl
    · exact hfree hused
    · exact hfree' hused

/-- A row after an effect has the ports of the row before it, but for one that has been placed. -/
theorem effect_ports (he : Effect config strict held f f') (hd : f'.databases p = some d) :
    (∃ e, f.databases p = some e ∧ ports d = ports e ∧ d.nodeId = e.nodeId) ∨
    InRanges config.ranges d ∧ ∀ q e, q ≠ p → f'.databases q = some e → e.nodeId = d.nodeId → Apart d e := by
  have hkept : f.databases p = some d → ∃ e, f.databases p = some e ∧ ports d = ports e ∧ d.nodeId = e.nodeId :=
    fun h => ⟨d, h, rfl, rfl⟩
  cases he with
  | none => exact .inl (hkept hd)
  | @place p' ref plan m v rows row unplaced node fit hold seen new =>
      by_cases hp : p = p'
      · subst hp
        obtain rfl : row = d := by simpa using hd
        obtain ⟨hranges, hapart⟩ := newRow_ports new
        refine .inr ⟨hranges, fun q e hq he hnode => ?_⟩
        obtain ⟨r, hr, hports⟩ := seen q e (by simpa [Function.update_of_ne hq] using he)
          (hnode.trans (newRow_nodeId new))
        exact (hapart r hr).of_ports rfl hports.symm
      · exact .inl (hkept (by simpa [Function.update_of_ne hp] using hd))
  | @release p' row v placed node =>
      have hp : p ≠ p' := by
        rintro rfl
        simp at hd
      exact .inl (hkept (by simpa [Function.update_of_ne hp] using hd))
  | @pause p' row v placed node running =>
      by_cases hp : p = p'
      · subst hp
        obtain rfl : rebooked row 0 = d := by simpa using hd
        exact .inl ⟨row, placed, rfl, rfl⟩
      · exact .inl (hkept (by simpa [Function.update_of_ne hp] using hd))
  | @book p' row m v plan placed node fit fresh =>
      by_cases hp : p = p'
      · subst hp
        obtain rfl : rebooked row plan.ramMb = d := by simpa using hd
        exact .inl ⟨row, placed, rfl, rfl⟩
      · exact .inl (hkept (by simpa [Function.update_of_ne hp] using hd))
  | leak loose node fit => exact .inl (hkept hd)

theorem Ported.effect (h : Ported config.ranges f) (he : Effect config strict held f f') :
    Ported config.ranges f' := by
  refine ⟨fun p d hd => ?_, fun p q d e hpq hd he' hnode => ?_⟩
  · obtain ⟨e, hold, hports, _⟩ | ⟨hranges, _⟩ := effect_ports he hd
    · exact (h.ranged p e hold).of_ports hports
    · exact hranges
  · obtain ⟨d₀, hd₀, hdports, hdnode⟩ | ⟨_, hapart⟩ := effect_ports he hd
    · obtain ⟨e₀, he₀, heports, henode⟩ | ⟨_, hapart⟩ := effect_ports he he'
      · exact (h.apart p q d₀ e₀ hpq hd₀ he₀ (by rw [← hdnode, ← henode, hnode])).of_ports hdports heports
      · exact (hapart p d hpq hd hnode).symm
    · exact hapart q e hpq.symm he' hnode.symm

theorem Paired.within (h : Paired ranges.postgrest d) (hx : x ∈ pairOf d) : Within ranges.postgrest x := by
  rcases h with h | ⟨k, hport, hadmin, hle⟩
  · rw [h] at hx
    cases hx
  · simp only [pairOf, hport, hadmin, Option.toList_some, List.singleton_append, List.mem_cons,
      List.not_mem_nil, or_false] at hx
    rcases hx with rfl | rfl <;> exact ⟨by omega, by omega⟩

/-- Ranges that have no port in common keep the kinds of ports apart. -/
theorem Ported.distinct (h : Ported ranges f) (hsep : Separate ranges) : Distinct f := by
  have hpg : ∀ {p q d e}, f.databases p = some d → f.databases q = some e →
      d.port ≠ e.poolerPort ∧ d.port ∉ pairOf e ∧ d.poolerPort ∉ pairOf e := by
    intro p q d e hd he
    have hrd := h.ranged p d hd
    have hre := h.ranged q e he
    exact ⟨fun heq => (hsep d.port).1 ⟨hrd.pg, heq ▸ hre.pooler⟩,
      fun hx => (hsep d.port).2.1 ⟨hrd.pg, hre.pair.within hx⟩,
      fun hx => (hsep d.poolerPort).2.2 ⟨hrd.pooler, hre.pair.within hx⟩⟩
  refine ⟨fun p d hd => ?_, fun p q d e hpq hd he hnode x hx hx' => ?_⟩
  · obtain ⟨hports, hpair, hpair'⟩ := hpg hd hd
    have hnodup : (pairOf d).Nodup := by
      rcases (h.ranged p d hd).pair with hnil | ⟨k, hport, hadmin, _⟩
      · simp [hnil]
      · simp [pairOf, hport, hadmin]
    simp [portsOf, hports, hpair, hpair', hnodup]
  · have hapart := h.apart p q d e hpq hd he hnode
    have hde := hpg hd he
    have hed := hpg he hd
    simp only [portsOf, List.mem_cons] at hx hx'
    rcases hx with rfl | rfl | hx
    · rcases hx' with heq | heq | hx'
      · exact hapart.pg heq
      · exact hde.1 heq
      · exact hde.2.1 hx'
    · rcases hx' with heq | heq | hx'
      · exact hed.1 heq.symm
      · exact hapart.pooler heq
      · exact hde.2.2 hx'
    · rcases hx' with rfl | rfl | hx'
      · exact hed.2.1 hx
      · exact hed.2.2 hx
      · exact hapart.pair hx hx'

/-- Pairs that are cut from the start of the range leave no other pair free than one of theirs. -/
theorem Ported.no_free_pair (h : Ported ranges f)
    (hrows : ∀ r, r ∈ rows ↔ ∃ p, f.databases p = some r ∧ r.nodeId = n)
    (hnone : pickPortPair (postgrestPorts rows) ranges.postgrest = none)
    (hx : ranges.postgrest.1 ≤ x) (hx' : x + 1 ≤ ranges.postgrest.2) :
    x ∈ postgrestPorts rows ∨ x + 1 ∈ postgrestPorts rows := by
  have hwhole : ∀ k, ranges.postgrest.1 + 2 * k + 1 ≤ ranges.postgrest.2 →
      ranges.postgrest.1 + 2 * k ∈ postgrestPorts rows ∧ ranges.postgrest.1 + 2 * k + 1 ∈ postgrestPorts rows := by
    intro k hk
    have hused : ∃ y ∈ postgrestPorts rows, y = ranges.postgrest.1 + 2 * k ∨ y = ranges.postgrest.1 + 2 * k + 1 := by
      rcases pickPortPair_none hnone hk with hused | hused
      · exact ⟨_, hused, .inl rfl⟩
      · exact ⟨_, hused, .inr rfl⟩
    obtain ⟨y, hy, hk'⟩ := hused
    obtain ⟨r, hr, hyr⟩ := mem_postgrestPorts.mp hy
    obtain ⟨p, hp, _⟩ := (hrows r).mp hr
    rcases (h.ranged p r hp).pair with hnil | ⟨j, hport, hadmin, _⟩
    · rw [hnil] at hyr
      cases hyr
    · have hpair : pairOf r = [ranges.postgrest.1 + 2 * j, ranges.postgrest.1 + 2 * j + 1] := by
        simp [pairOf, hport, hadmin]
      simp only [hpair, List.mem_cons, List.not_mem_nil, or_false] at hyr
      obtain rfl : j = k := by omega
      exact ⟨mem_postgrestPorts.mpr ⟨r, hr, by simp [hpair]⟩, mem_postgrestPorts.mpr ⟨r, hr, by simp [hpair]⟩⟩
  obtain ⟨k, hk | hk⟩ : ∃ k, x = ranges.postgrest.1 + 2 * k ∨ x = ranges.postgrest.1 + 2 * k + 1 :=
    ⟨(x - ranges.postgrest.1) / 2, by omega⟩
  · exact .inl (hk ▸ (hwhole k (by omega)).1)
  · exact .inl (hk ▸ (hwhole k (by omega)).2)

end Fleets

section Runs

variable {config : Placement.Config} {s : Store} {g : Interleaving.Config Client Store Op Reply}
  {ok : Interleaving.Config Client Store Op Reply → Move Client Chance Request → Prop}

theorem grants_any : (discipline config False).Grants ok where
  allowed _ _ _ _ _ _ _ := False.elim
  mortal _ _ _ := trivial

/-- In every run the ports of a kind are different on a node and in their range, the pairs are whole,
and no pair is free where none is picked; ranges without a common port keep all ports different. -/
theorem ports_hold (hs : Ported config.ranges (fleet s)) (hhoused : Housed (fleet s)) (hstill : s.still)
    (h : (protocol config).Reachable (fun _ _ => True) s g) :
    Ported config.ranges (fleet g.store) ∧
    (Separate config.ranges → Distinct (fleet g.store)) ∧
    ∀ n rows, (∀ r, r ∈ rows ↔ ∃ p, g.store.databases.committed p = some r ∧ r.nodeId = n) →
      (pickPortPair (postgrestPorts rows) config.ranges.postgrest = none →
        ∀ x, config.ranges.postgrest.1 ≤ x → x + 1 ≤ config.ranges.postgrest.2 →
          x ∈ postgrestPorts rows ∨ x + 1 ∈ postgrestPorts rows) ∧
      (pickPort (rows.map (·.port)) config.ranges.pg = none →
        ∀ x, Within config.ranges.pg x → x ∈ rows.map (·.port)) ∧
      (pickPort (rows.map (·.poolerPort)) config.ranges.pooler = none →
        ∀ x, Within config.ranges.pooler x → x ∈ rows.map (·.poolerPort)) := by
  have hported : Ported config.ranges (fleet g.store) :=
    effects_keep (I := Ported config.ranges) (fun _ _ _ he hf => hf.effect he) grants_any hhoused hstill hs h
  exact ⟨hported, hported.distinct, fun n rows hrows =>
    ⟨fun hnone x hx hx' => hported.no_free_pair hrows hnone hx hx', fun hnone _ => pickPort_none hnone,
      fun hnone _ => pickPort_none hnone⟩⟩

end Runs

section Examples

def freshNode : Node := ⟨"data-1", "eu-central", true, 4096, 0, 200, 0⟩

def unplaced : Store := ⟨.single 0 freshNode, .empty⟩

theorem ported_unplaced (ranges : PortRanges) : Ported ranges (fleet unplaced) ∧ Housed (fleet unplaced) ∧ unplaced.still :=
  ⟨⟨fun _ _ hd => (nomatch hd), fun _ _ _ _ _ hd => (nomatch hd)⟩, fun _ _ hd => (nomatch hd), fun _ => rfl, fun _ => rfl⟩

def defaultRanges : PortRanges := ⟨(5433, 6432), (6433, 7432), (7433, 7492)⟩

/-- A worker whose database range is set to run into the one of the poolers. -/
def overlapping : PortRanges := ⟨(6433, 6462), (6433, 7432), (7433, 7492)⟩

def byId (m n : NodeCandidate) : Bool := m.1 ≤ n.1

def allocation : List (Move Client Chance Request) :=
  .arrive 0 (.allocateNode 7 "abc" .free "eu-central") :: List.replicate 7 (.run 0 ⟨fun _ => true, false⟩)

theorem ports_hold_default : ∃ g, (protocol ⟨defaultRanges, byId⟩).Reachable (fun _ _ => True) unplaced g ∧
    (g.store.databases.committed 7).map portsOf = some [5433, 6433, 7433, 7434] ∧ Distinct (fleet g.store) := by
  obtain ⟨hported, hhoused, hstill⟩ := ported_unplaced defaultRanges
  have h := Protocol.Reachable.start.free (P := protocol ⟨defaultRanges, byId⟩) (s := unplaced) allocation rfl
  refine ⟨_, h, rfl, (ports_hold hported hhoused hstill h).2.1 fun x => ?_⟩
  simp only [Within, defaultRanges]
  omega

theorem not_ports_distinct : ∃ g, (protocol ⟨overlapping, byId⟩).Reachable (fun _ _ => True) unplaced g ∧
    ¬ Distinct (fleet g.store) := by
  have h := Protocol.Reachable.start.free (P := protocol ⟨overlapping, byId⟩) (s := unplaced) allocation rfl
  refine ⟨_, h, fun hdistinct => ?_⟩
  have hnodup : [6433, 6433, 7433, 7434].Nodup := hdistinct.1 7 _ rfl
  exact absurd hnodup (by decide)

end Examples

end Corebase.PortAllocation
