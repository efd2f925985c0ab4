import Mcts.Updates
import Mcts.Recomputation
import Mathlib.Tactic.Linarith
import Mathlib.Algebra.BigOperators.Ring.Finset
import Mathlib.Algebra.Order.BigOperators.Group.List

/-!
Node values stay bounded at every point of every run. The mean is taken over
the visits and the virtual losses, so it can only shrink towards zero while
simulations are pending; penalties push values down, never up.
-/
namespace Mcts.ValueBounds

open Program Prog Environments Nodes Engine Arena SearchRun ArenaInvariant Updates Recomputation

variable {E A O F : Type} [Act A] [Field F] [LinearOrder F] [IsStrictOrderedRing F]

structure Capped (n : Node A F) : Prop where
  value_le : n.value ≤ 1
  le_estimate : -1 ≤ n.valueEstimate
  estimate_le : n.valueEstimate ≤ 1
  penalty_le : ∀ i, n.edgePenalties.getD i 0 ≤ 0

structure Floored (n : Node A F) : Prop where
  le_value : -1 ≤ n.value
  no_penalty : ∀ i, n.edgePenalties.getD i 0 = 0

variable {m m' : MCTS A F} {id : NodeId} {n : Node A F}

section Mean

omit [LinearOrder F] [IsStrictOrderedRing F] in
theorem childData_penalty {d : NodeId × ℕ × F} (hd : d ∈ MCTS.childData n) :
    ∃ i, d.2.2 = n.edgePenalties.getD i 0 := by
  unfold MCTS.childData at hd
  obtain ⟨a, _, hedge⟩ := List.mem_filterMap.mp hd
  rw [Option.map_eq_some_iff] at hedge
  obtain ⟨c, _, rfl⟩ := hedge
  exact ⟨toActionIndex a, rfl⟩

/-- The children's share of the mean is at most the number of their visits. -/
theorem childTotal_le (h : Everywhere Capped m) (hn : m.getNode id = some n) :
    childTotal m n ≤ (linkedVisits n : F) := by
  unfold childTotal linkedVisits
  rw [Nat.cast_list_sum, List.map_map]
  apply List.sum_le_sum
  intro d hd
  obtain ⟨i, hi⟩ := childData_penalty hd
  have hpenalty : d.2.2 ≤ 0 := hi ▸ (h id n hn).penalty_le i
  unfold edgeTotal
  split
  · rename_i child hchild
    have hvalue : child.value + d.2.2 ≤ 1 := by linarith [(h d.1 child hchild).value_le]
    exact mul_le_of_le_one_right (Nat.cast_nonneg _) hvalue
  · exact Nat.cast_nonneg _

theorem le_childTotal (h : Everywhere Floored m) (hn : m.getNode id = some n) :
    (linkedVisits n : F) * (-1) ≤ childTotal m n := by
  unfold childTotal linkedVisits
  rw [Nat.cast_list_sum, ← List.sum_map_mul_right, List.map_map]
  apply List.sum_le_sum
  intro d hd
  obtain ⟨i, hi⟩ := childData_penalty hd
  have hpenalty : d.2.2 = 0 := hi ▸ (h id n hn).no_penalty i
  simp only [Function.comp_apply, edgeTotal]
  split
  · rename_i child hchild
    have hvalue : -1 ≤ child.value + d.2.2 := by linarith [(h d.1 child hchild).le_value]
    exact mul_le_mul_of_nonneg_left hvalue (Nat.cast_nonneg _)
  · linarith [Nat.cast_nonneg (α := F) d.2.1]

/-- Virtual losses only enlarge the denominator, so they cannot lift the mean over 1. -/
theorem mean_le_one (h : Everywhere Capped m) (hn : m.getNode id = some n) : mean m n ≤ 1 := by
  have hchildren := childTotal_le h hn
  have hestimate := (h id n hn).estimate_le
  have hlosses : (0 : F) ≤ (n.totalLosses : F) := Nat.cast_nonneg _
  have hlinked : (0 : F) ≤ (linkedVisits n : F) := Nat.cast_nonneg _
  unfold mean weight
  push_cast
  rw [div_le_one (by linarith)]
  linarith

theorem neg_one_le_mean (hc : Everywhere Capped m) (h : Everywhere Floored m)
    (hn : m.getNode id = some n) : -1 ≤ mean m n := by
  have hchildren := le_childTotal h hn
  have hestimate := (hc id n hn).le_estimate
  have hlosses : (0 : F) ≤ (n.totalLosses : F) := Nat.cast_nonneg _
  have hlinked : (0 : F) ≤ (linkedVisits n : F) := Nat.cast_nonneg _
  unfold mean weight
  push_cast
  rw [le_div_iff₀ (by linarith)]
  linarith

end Mean

section Updates

variable [Environment E A O] {te : E → F} {log : List (Event A E F)}

omit [Act A] in
private theorem clampValue_bounds (v : F) :
    -1 ≤ MCTS.clampValue v ∧ MCTS.clampValue v ≤ 1 :=
  ⟨le_max_left _ _, max_le (by linarith [zero_lt_one (α := F)]) (min_le_right _ _)⟩

/-- Every update keeps the upper bound. -/
theorem Update.capped (hte : ∀ e, -1 ≤ te e ∧ te e ≤ 1) (hm : Indexed m)
    (hu : Update te log m m') (h : Everywhere Capped m) : Everywhere Capped m' := by
  have hsame : ∀ (f : Node A F → Node A F) (id : NodeId), (∀ n, (f n).value = n.value) →
      (∀ n, (f n).valueEstimate = n.valueEstimate) →
      (∀ n, (f n).edgePenalties = n.edgePenalties) → Everywhere Capped (m.updateNode id f) := by
    intro f id hvalue hestimate hpenalties
    refine h.updateNode hm fun n hn => ?_
    obtain ⟨hv, hlow, hhigh, hp⟩ := h id n hn
    constructor
    · rwa [hvalue]
    · rwa [hestimate]
    · rwa [hestimate]
    · rwa [hpenalties]
  cases hu with
  | clearNoise => exact h
  | create order env priors value hfresh _ hvalue =>
    obtain ⟨n, heq, hn⟩ := createNode_fresh order env priors value m
    have hbounds : -1 ≤ n.valueEstimate ∧ n.valueEstimate ≤ 1 := by
      rw [hn.estimate]
      split
      · rename_i hdone
        exact hvalue hdone ▸ hte env
      · exact clampValue_bounds value
    rw [heq]
    exact h.insertNode hm ⟨hn.value_eq ▸ hbounds.2, hbounds.1, hbounds.2,
      fun i => (hn.penalties i).le⟩
  | addLoss id a _ => exact hsame _ id (fun _ => rfl) (fun _ => rfl) fun _ => rfl
  | revertLoss id a _ => exact hsame _ id (fun _ => rfl) (fun _ => rfl) fun _ => rfl
  | visit id a _ => exact hsame _ id (fun _ => rfl) (fun _ => rfl) fun _ => rfl
  | link id a leaf _ _ => exact hsame _ id (fun _ => rfl) (fun _ => rfl) fun _ => rfl
  | penalise id a _ _ =>
    refine h.updateNode hm fun n hn => ?_
    obtain ⟨hv, hlow, hhigh, hp⟩ := h id n hn
    refine ⟨hv, hlow, hhigh, fun i => ?_⟩
    rw [Node.applyPenalty_edgePenalties, Dense.getD_modify]
    have hstep : -1 / (n.validActions.length : F) ≤ 0 :=
      div_nonpos_of_nonpos_of_nonneg (by linarith [zero_lt_one (α := F)]) (Nat.cast_nonneg _)
    split
    · linarith [hp i]
    · exact hp i
  | recompute id =>
    cases hn : m.getNode id with
    | none => rwa [recomputeValue_none hn]
    | some n =>
      rw [recomputeValue_some hn]
      refine h.updateNode hm fun found hfound => ?_
      obtain ⟨_, hlow, hhigh, hp⟩ := h id found hfound
      exact ⟨mean_le_one h hn, hlow, hhigh, hp⟩

/-- Until a repeat is penalised, every update keeps the lower bound too. -/
theorem Update.floored (hte : ∀ e, -1 ≤ te e ∧ te e ≤ 1) (hm : Indexed m)
    (hu : Update te log m m') (hlog : ∀ id a, Event.penalised id a ∉ log)
    (hc : Everywhere Capped m) (h : Everywhere Floored m) : Everywhere Floored m' := by
  have hsame : ∀ (f : Node A F → Node A F) (id : NodeId), (∀ n, (f n).value = n.value) →
      (∀ n, (f n).edgePenalties = n.edgePenalties) → Everywhere Floored (m.updateNode id f) := by
    intro f id hvalue hpenalties
    refine h.updateNode hm fun n hn => ?_
    obtain ⟨hv, hp⟩ := h id n hn
    constructor
    · rwa [hvalue]
    · rwa [hpenalties]
  cases hu with
  | clearNoise => exact h
  | create order env priors value hfresh _ hvalue =>
    obtain ⟨n, heq, hn⟩ := createNode_fresh order env priors value m
    have hbound : -1 ≤ n.valueEstimate := by
      rw [hn.estimate]
      split
      · rename_i hdone
        exact hvalue hdone ▸ (hte env).1
      · exact (clampValue_bounds value).1
    rw [heq]
    exact h.insertNode hm ⟨hn.value_eq ▸ hbound, hn.penalties⟩
  | addLoss id a _ => exact hsame _ id (fun _ => rfl) fun _ => rfl
  | revertLoss id a _ => exact hsame _ id (fun _ => rfl) fun _ => rfl
  | visit id a _ => exact hsame _ id (fun _ => rfl) fun _ => rfl
  | link id a leaf _ _ => exact hsame _ id (fun _ => rfl) fun _ => rfl
  | penalise id a _ hpen => exact absurd hpen (hlog id a)
  | recompute id =>
    cases hn : m.getNode id with
    | none => rwa [recomputeValue_none hn]
    | some n =>
      rw [recomputeValue_some hn]
      exact h.updateNode hm fun found hfound =>
        ⟨neg_one_le_mean hc h hn, (h id found hfound).no_penalty⟩

end Updates

section Runs

variable [Environment E A O] {te : E → F}

def Bounded (log : List (Event A E F)) (m : MCTS A F) : Prop :=
  (∀ n ∈ m.nodes, n.value ≤ 1 ∧ ∀ p ∈ n.edgePenalties, p ≤ 0) ∧
    ((∀ id a, Event.penalised id a ∉ log) → ∀ n ∈ m.nodes, -1 ≤ n.value)

/-- The invariant behind `Bounded`, with the bounds of all engines in the log. -/
structure Guarded (s : Search A E F) : Prop where
  arena : Indexed s.mcts
  capped : Everywhere Capped s.mcts
  floored : (∀ id a, Event.penalised id a ∉ s.log) → Everywhere Floored s.mcts
  past : ∀ before m after, s.log = before ++ .passed m :: after → Bounded before m

omit [Act A] [IsStrictOrderedRing F] [Environment E A O] in
theorem Guarded.bounded {s : Search A E F} (h : Guarded s) : Bounded s.log s.mcts := by
  have hfind : ∀ n ∈ s.mcts.nodes, s.mcts.getNode n.id = some n :=
    fun n hn => getNode_of_mem h.arena hn
  refine ⟨fun n hn => ⟨(h.capped _ n (hfind n hn)).value_le, fun p hp => ?_⟩,
    fun hlog n hn => (h.floored hlog _ n (hfind n hn)).le_value⟩
  obtain ⟨i, hi⟩ := List.mem_iff_getElem?.mp hp
  simpa [hi] using (h.capped _ n (hfind n hn)).penalty_le i

omit [Act A] [IsStrictOrderedRing F] [Environment E A O] in
/-- Logging an engine that keeps the bounds. -/
theorem Guarded.pass {s : Search A E F} (h : Guarded s) {m : MCTS A F} (harena : Indexed m)
    (hcapped : Everywhere Capped m)
    (hfloored : (∀ id a, Event.penalised id a ∉ s.log) → Everywhere Floored m) :
    Guarded ⟨m, s.log ++ [.passed m]⟩ := by
  have hnow : Guarded (⟨m, s.log⟩ : Search A E F) := ⟨harena, hcapped, hfloored, h.past⟩
  refine ⟨harena, hcapped, fun hlog => hfloored fun id a hmem => hlog id a (by simp [hmem]), ?_⟩
  intro before x after heq
  rcases List.eq_nil_or_concat after with rfl | ⟨rest, last, rfl⟩
  · obtain ⟨hbefore, hx⟩ := List.append_inj' heq rfl
    simp only [List.cons.injEq, Event.passed.injEq, and_true] at hx
    exact hbefore ▸ hx ▸ hnow.bounded
  · rw [List.concat_eq_append, ← List.cons_append, ← List.append_assoc] at heq
    exact h.past before x rest (List.append_inj' heq rfl).1

omit [Act A] [IsStrictOrderedRing F] [Environment E A O] in
theorem Guarded.note {s : Search A E F} (h : Guarded s) (e : Event A E F)
    (he : ∀ m, e ≠ .passed m) : Guarded { s with log := s.log ++ [e] } := by
  refine ⟨h.arena, h.capped, fun hlog => h.floored fun id a hmem => hlog id a (by simp [hmem]), ?_⟩
  intro before x after heq
  rcases List.eq_nil_or_concat after with rfl | ⟨rest, last, rfl⟩
  · have hlast := (List.append_inj' heq rfl).2
    simp only [List.cons.injEq, and_true] at hlast
    exact absurd hlast (he x)
  · rw [List.concat_eq_append, ← List.cons_append, ← List.append_assoc] at heq
    exact h.past before x rest (List.append_inj' heq rfl).1

theorem Trail.guarded (hte : ∀ e, -1 ≤ te e ∧ te e ≤ 1)
    {s t : Search A E F} (htrail : Trail te s t) (h : Guarded s) : Guarded t := by
  induction htrail with
  | start => exact h
  | note e he _ ih => exact ih.note e he
  | update _ hu ih =>
    exact ih.pass (hu.indexed ih.arena) (Update.capped hte ih.arena hu ih.capped)
      fun hlog => Update.floored hte ih.arena hu hlog ih.capped (ih.floored hlog)

omit [Act A] [IsStrictOrderedRing F] in
theorem Guarded.rooted {s : Search A E F} (h : Guarded s) (i : RunInput E A O F) :
    Guarded (rooted i s) :=
  h.pass h.arena (h.capped.congr rfl rfl)
    fun hlog => (h.floored hlog).congr rfl rfl

variable [DecidableEq A] [Roots F]

theorem session_guarded {C : RunInput E A O F → Prop}
    (hte : ∀ i, C i → ∀ e, -1 ≤ i.terminalEvaluator e ∧ i.terminalEvaluator e ≤ 1)
    {s : Search A E F} (h : Session C s) : Guarded s := by
  have harena := session_indexed h
  induction h with
  | new batchSize hpos =>
    refine ⟨harena, fun id n hn => ?_, fun _ id n hn => ?_, fun before m after heq => ?_⟩
    · exact absurd hn (by simp [MCTS.getNode, MCTS.new])
    · exact absurd hn (by simp [MCTS.getNode, MCTS.new])
    · exact absurd heq (by simp)
  | run hs hi hrun ih =>
    rename_i s t i node
    have htrail := run_trail i (session_indexed hs)
    rw [hrun] at htrail
    exact Trail.guarded (hte i hi) htrail.trail ((ih (session_indexed hs)).rooted i)
  | advanceRoot a hs ih =>
    have hguarded := ih (session_indexed hs)
    exact ⟨harena, hguarded.capped.advanceRoot hguarded.arena a,
      fun hlog => (hguarded.floored hlog).advanceRoot hguarded.arena a, hguarded.past⟩
  | perturbRootPrior noise epsilon hs ih =>
    have hguarded := ih (session_indexed hs)
    exact ⟨harena, hguarded.capped.congr rfl rfl,
      fun hlog => (hguarded.floored hlog).congr rfl rfl, hguarded.past⟩

/-- At every point of every run, between the calls and after them: values at
most 1, penalties at most 0, and values at least -1 until a repeat is penalised. -/
theorem values_bounded {C : RunInput E A O F → Prop}
    (hte : ∀ i, C i → ∀ e, -1 ≤ i.terminalEvaluator e ∧ i.terminalEvaluator e ≤ 1)
    {s : Search A E F} (h : Attained C s) :
    Bounded s.log s.mcts ∧
      ∀ before m after, s.log = before ++ .passed m :: after → Bounded before m := by
  cases h with
  | between hs =>
    have hguarded := session_guarded hte hs
    exact ⟨hguarded.bounded, hguarded.past⟩
  | inside i hs hi =>
    have htrail := (run_trail i (session_indexed hs)).trail
    have hguarded := Trail.guarded (hte i hi) htrail ((session_guarded hte hs).rooted i)
    exact ⟨hguarded.bounded, hguarded.past⟩

theorem values_bounded_heapSearch : Bounded heapSearch.log heapSearch.mcts :=
  (values_bounded (fun _ hi e => hi e)
    (.between (heapSearch_session (fun i => ∀ e, -1 ≤ i.terminalEvaluator e ∧
      i.terminalEvaluator e ≤ 1) fun _ => ⟨by norm_num [heapInput], by norm_num [heapInput]⟩))).1

end Runs

end Mcts.ValueBounds
