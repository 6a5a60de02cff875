import Corebase.PortAllocation
import Corebase.Transcripts
import Mathlib.Algebra.Order.Field.Rat
import Mathlib.Algebra.Order.Ring.Cast
import Mathlib.Data.Rat.Cast.Order
import Mathlib.Order.WithBot
import Mathlib.Tactic.Linarith

namespace Corebase.NodeRanking

open Interleaving RowLocks Placement PlacementSteps PortAllocation

/-! The ranking -/

/-- One axis as a fraction of the placement stop; without capacity it is infinite. -/
def axis (reserved total : Int) : WithTop Rat :=
  if 0 < (total : Rat) * (17 / 20) then ((reserved / (total * (17 / 20)) : Rat) : WithTop Rat) else ⊤

def fillRatio (n : Node) : WithTop Rat :=
  max (axis n.ramReservedMb n.ramTotalMb) (axis n.diskReservedGb n.diskTotalGb)

/-- The comparison of the sort, where `before` says of two host names that localeCompare does not put
the second one first. The difference of two infinite ratios is no number, which the sort takes for equal. -/
def emptierBy (before : String → String → Bool) (x y : NodeCandidate) : Bool :=
  if fillRatio x.2 < fillRatio y.2 then true
  else if fillRatio y.2 < fillRatio x.2 then false
  else fillRatio x.2 = ⊤ || before x.2.hostname y.2.hostname

def ranking (ranges : PortRanges) (before : String → String → Bool) : Placement.Config := ⟨ranges, emptierBy before⟩

/-- By fill ratio and then host name. -/
def Ranked (before : String → String → Bool) (x y : NodeCandidate) : Prop :=
  fillRatio x.2 < fillRatio y.2 ∨ fillRatio x.2 = fillRatio y.2 ∧ before x.2.hostname y.2.hostname = true

section

variable {before : String → String → Bool}

theorem emptierBy_iff (x y : NodeCandidate) : emptierBy before x y = true ↔
    fillRatio x.2 < fillRatio y.2 ∨
      fillRatio x.2 = fillRatio y.2 ∧ (fillRatio x.2 = ⊤ ∨ before x.2.hostname y.2.hostname = true) := by
  rw [emptierBy]
  rcases lt_trichotomy (fillRatio x.2) (fillRatio y.2) with h | h | h
  · simp [h]
  · simp [h]
  · simp [h, not_lt.mpr h.le, h.ne']

theorem emptierBy_total (htotal : ∀ a b, before a b = true ∨ before b a = true) (x y : NodeCandidate) :
    emptierBy before x y = true ∨ emptierBy before y x = true := by
  rw [emptierBy_iff, emptierBy_iff]
  rcases lt_trichotomy (fillRatio x.2) (fillRatio y.2) with h | h | h
  · exact .inl (.inl h)
  · rcases htotal x.2.hostname y.2.hostname with hb | hb
    · exact .inl (.inr ⟨h, .inr hb⟩)
    · exact .inr (.inr ⟨h.symm, .inr hb⟩)
  · exact .inr (.inl h)

theorem emptierBy_trans (htrans : ∀ a b c, before a b = true → before b c = true → before a c = true)
    (x y z : NodeCandidate) (hxy : emptierBy before x y = true) (hyz : emptierBy before y z = true) :
    emptierBy before x z = true := by
  rw [emptierBy_iff] at *
  rcases hxy with hxy | ⟨hxy, hb⟩
  · rcases hyz with hyz | ⟨hyz, -⟩
    · exact .inl (hxy.trans hyz)
    · exact .inl (hyz ▸ hxy)
  · rcases hyz with hyz | ⟨hyz, hb'⟩
    · exact .inl (hxy ▸ hyz)
    · refine .inr ⟨hxy.trans hyz, ?_⟩
      rcases hb with hb | hb
      · exact .inl hb
      · rcases hb' with hb' | hb'
        · exact .inl (hxy.trans hb')
        · exact .inr (htrans _ _ _ hb hb')

/-- A node on which a booking fits has capacity on both axes. -/
theorem fillRatio_ne_top {n : Node} {b : Booking} (hvalid : n.valid = true) (hfit : fits n b = true) :
    fillRatio n ≠ ⊤ := by
  rw [fits, Bool.and_eq_true, decide_eq_true_eq, decide_eq_true_eq, ceilingOf, ceilingOf] at hfit
  simp only [Node.valid, Bool.and_eq_true, decide_eq_true_eq] at hvalid
  have hram := b.ramPos
  have hdisk := b.diskPos
  have hr : 0 < n.ramTotalMb := by omega
  have hd : 0 < n.diskTotalGb := by omega
  have hrq : (0 : Rat) < n.ramTotalMb := by exact_mod_cast hr
  have hdq : (0 : Rat) < n.diskTotalGb := by exact_mod_cast hd
  rw [fillRatio, axis, axis, if_pos (by linarith), if_pos (by linarith), ← WithTop.coe_max]
  exact WithTop.coe_ne_top

/-- The ranking has exactly the nodes on which the booking fits, in its order. -/
theorem rankNodes_exact (ranges : PortRanges) (htotal : ∀ a b, before a b = true ∨ before b a = true)
    (htrans : ∀ a b c, before a b = true → before b c = true → before a c = true) {nodes : List NodeCandidate}
    (hvalid : ∀ n ∈ nodes, n.2.valid = true) (b : Booking) :
    (rankNodes (ranking ranges before) nodes b).Perm (nodes.filter fun n => fits n.2 b) ∧
      (rankNodes (ranking ranges before) nodes b).Pairwise (Ranked before) := by
  have hperm : (rankNodes (ranking ranges before) nodes b).Perm (nodes.filter fun n => fits n.2 b) :=
    List.perm_insertionSort _ _
  refine ⟨hperm, ?_⟩
  have : Std.Total fun m n : NodeCandidate => emptierBy before m n = true := ⟨emptierBy_total htotal⟩
  have : IsTrans NodeCandidate fun m n => emptierBy before m n = true := ⟨emptierBy_trans htrans⟩
  have hsorted : (rankNodes (ranking ranges before) nodes b).Pairwise fun m n => emptierBy before m n = true :=
    List.pairwise_insertionSort _ _
  refine hsorted.imp_of_mem fun {m n} hm _ h => ?_
  obtain ⟨hm, hfit⟩ := List.mem_filter.mp (hperm.mem_iff.mp hm)
  rcases (emptierBy_iff m n).mp h with h | ⟨h, htop | hb⟩
  · exact .inl h
  · exact absurd htop (fillRatio_ne_top (hvalid m hm) hfit)
  · exact .inr ⟨h, hb⟩

end

end Corebase.NodeRanking
