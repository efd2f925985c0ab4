import Mcts.ArenaInvariant
import Mathlib.Algebra.BigOperators.Group.List.Lemmas
import Mathlib.Tactic.Ring

/-!
The backed-up value in closed form. `recompute_value` folds over the expanded
edges of a node and treats a node without visits apart; both branches are the
one mean of the estimate and the children, taken over visits and virtual losses.
-/
namespace Mcts.Recomputation

open Environments Nodes Engine Arena ArenaInvariant

variable {A F : Type} [Act A] [Field F]

def linkedVisits (n : Node A F) : ℕ := ((MCTS.childData n).map (·.2.1)).sum

/-- What an expanded edge adds to the mean: nothing if the child is not stored. -/
def edgeTotal (m : MCTS A F) (d : NodeId × ℕ × F) : F :=
  match m.getNode d.1 with
  | some child => (d.2.1 : F) * (child.value + d.2.2)
  | none => 0

def childTotal (m : MCTS A F) (n : Node A F) : F := ((MCTS.childData n).map (edgeTotal m)).sum

/-- The visits in the denominator, those of pending simulations included. -/
def weight (n : Node A F) : ℕ := linkedVisits n + n.totalLosses

def mean (m : MCTS A F) (n : Node A F) : F :=
  (n.valueEstimate + childTotal m n) / ((1 + weight n : ℕ) : F)

variable {m : MCTS A F} {n n' : Node A F} {id : NodeId}

theorem linkedVisits_eq (n : Node A F) : linkedVisits n =
    (n.validActions.filterMap fun a => (n.child a).map fun _ => n.visits a).sum := by
  simp [linkedVisits, MCTS.childData, List.map_filterMap, Function.comp_def]

/-- A total over the expanded edges is one over all actions, if the others add nothing. -/
theorem sum_childData {M : Type} [AddMonoid M] (n : Node A F) (w : NodeId × ℕ × F → M) (t : A → M)
    (hlinked : ∀ a c, n.child a = some c → w (c, n.visits a, n.penalty a) = t a)
    (hrest : ∀ a ∈ n.validActions, n.child a = none → t a = 0) :
    ((MCTS.childData n).map w).sum = (n.validActions.map t).sum := by
  unfold MCTS.childData
  generalize n.validActions = actions at hrest ⊢
  induction actions with
  | nil => rfl
  | cons a rest ih =>
    have hsum := ih fun b hb => hrest b (List.mem_cons_of_mem a hb)
    cases hc : n.child a with
    | none => simp [hc, hsum, hrest a List.mem_cons_self hc]
    | some c => simp [hc, hsum, hlinked a c hc]

/-- The weight is read off the counters and the children. -/
theorem weight_congr (hvalid : n'.validActions = n.validActions)
    (hchildren : n'.children = n.children) (hvisits : n'.edgeVisits = n.edgeVisits)
    (hlosses : n'.virtualLosses = n.virtualLosses) : weight n' = weight n := by
  simp only [weight, linkedVisits_eq, Node.totalLosses, Node.child, Node.visits, hvalid, hchildren,
    hvisits, hlosses]

omit [Act A] in
private theorem foldl_edges (m : MCTS A F) (step : F → NodeId × ℕ × F → F)
    (hstep : ∀ acc d, step acc d = acc + edgeTotal m d) (data : List (NodeId × ℕ × F)) (acc : F) :
    data.foldl step acc = acc + (data.map (edgeTotal m)).sum := by
  induction data generalizing acc with
  | nil => simp
  | cons d rest ih => rw [List.foldl_cons, hstep, ih, List.map_cons, List.sum_cons, add_assoc]

/-- Edges without visits add nothing. -/
theorem childTotal_eq_zero (m : MCTS A F) (h : linkedVisits n = 0) : childTotal m n = 0 := by
  apply List.sum_eq_zero
  intro x hx
  obtain ⟨d, hd, rfl⟩ := List.mem_map.mp hx
  have hzero : d.2.1 = 0 :=
    List.sum_eq_zero_iff_forall_eq_nat.mp h d.2.1 (List.mem_map_of_mem hd)
  unfold edgeTotal
  cases m.getNode d.1 <;> simp [hzero]

/-- The mean reads nothing of the children but their values. -/
theorem mean_congr {m' : MCTS A F} (h : ∀ a c, n.child a = some c →
    (m'.getNode c).map (·.value) = (m.getNode c).map (·.value)) : mean m' n = mean m n := by
  have hedges : (MCTS.childData n).map (edgeTotal m') = (MCTS.childData n).map (edgeTotal m) := by
    refine List.map_congr_left fun d hd => ?_
    obtain ⟨a, _, hc⟩ := List.mem_filterMap.mp hd
    obtain ⟨c, hchild, rfl⟩ := Option.map_eq_some_iff.mp hc
    have hvalue := h a c hchild
    unfold edgeTotal
    cases hleft : m'.getNode c <;> cases hright : m.getNode c <;> simp_all
  rw [mean, mean, childTotal, childTotal, hedges]

/-- Both branches of `recompute_value` store the mean. -/
theorem recomputeValue_some (hn : m.getNode id = some n) :
    m.recomputeValue id = m.updateNode id (·.setValue (1 + weight n) (mean m n)) := by
  unfold MCTS.recomputeValue
  simp only [hn]
  split
  · rename_i hzero
    have hweight : weight n = 0 := hzero
    have hlinked : linkedVisits n = 0 := by
      unfold weight at hweight
      omega
    simp [mean, hweight, childTotal_eq_zero m hlinked]
  · rw [foldl_edges m _ fun acc d => ?_, zero_add]
    · rfl
    · unfold edgeTotal
      by_cases hzero : d.2.1 = 0
      · rw [if_pos hzero, hzero]
        cases m.getNode d.1 <;> simp
      · rw [if_neg hzero]
        cases m.getNode d.1 <;> simp

theorem recomputeValue_none (hn : m.getNode id = none) : m.recomputeValue id = m := by
  simp [MCTS.recomputeValue, hn]

end Mcts.Recomputation
