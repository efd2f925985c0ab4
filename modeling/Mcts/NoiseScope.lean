import Mcts.PolicyTarget

/-!
The scope of the root noise. A run changes nothing that the network said of a
node, noise or no noise. The noise itself goes at the end of the batch loop, so
it is gone after a run on a live state and outlives one on a terminal state.
-/
namespace Mcts.NoiseScope

open Program Prog Environments Nodes Engine Arena SearchRun ArenaInvariant Updates PolicyTarget

variable {E A O F : Type} [Environment E A O] [Act A] [Field F] [LinearOrder F]

/-- Every node is still there with its priors, its estimate and its actions. -/
def Keeps (m m' : MCTS A F) : Prop :=
  ∀ id n, m.getNode id = some n → ∃ n', m'.getNode id = some n' ∧
    n'.priorProbs = n.priorProbs ∧ n'.valueEstimate = n.valueEstimate ∧
    n'.validActions = n.validActions

section Frame

variable {te : E → F} {log : List (Event A E F)} {m m' m'' : MCTS A F}

omit [Act A] [Field F] [LinearOrder F] in
theorem Keeps.trans (h : Keeps m m') (h' : Keeps m' m'') : Keeps m m'' := by
  intro id n hn
  obtain ⟨n', hn', hpriors, hestimate, hvalid⟩ := h id n hn
  obtain ⟨n'', hn'', hpriors', hestimate', hvalid'⟩ := h' id n' hn'
  exact ⟨n'', hn'', hpriors'.trans hpriors, hestimate'.trans hestimate, hvalid'.trans hvalid⟩

omit [Act A] [Field F] [LinearOrder F] in
theorem keeps_updateNode (hm : Indexed m) (id : NodeId) {f : Node A F → Node A F}
    (hf : ∀ n, (f n).priorProbs = n.priorProbs ∧ (f n).valueEstimate = n.valueEstimate ∧
      (f n).validActions = n.validActions) : Keeps m (m.updateNode id f) := by
  intro key n hn
  rw [updateNode_getNode hm, hn]
  by_cases hkey : id = key
  · rw [if_pos hkey]
    exact ⟨f n, rfl, hf n⟩
  · rw [if_neg hkey]
    exact ⟨n, rfl, rfl, rfl, rfl⟩

/-- No update touches what the network said. -/
theorem Update.keeps (hu : Update te log m m') (hm : Indexed m) : Keeps m m' := by
  cases hu with
  | clearNoise => exact fun id n hn => ⟨n, hn, rfl, rfl, rfl⟩
  | create order env priors value hfresh _ _ =>
    obtain ⟨node, heq, _⟩ := createNode_fresh order env priors value m
    intro id n hn
    refine ⟨n, ?_, rfl, rfl, rfl⟩
    rw [heq, getNode_insertNode hm, if_neg, hn]
    rintro rfl
    rw [(getNode_eq_none_iff hm).mpr hfresh] at hn
    exact absurd hn (by simp)
  | addLoss id a _ => exact keeps_updateNode hm id fun _ => ⟨rfl, rfl, rfl⟩
  | revertLoss id a _ => exact keeps_updateNode hm id fun _ => ⟨rfl, rfl, rfl⟩
  | penalise id a _ _ => exact keeps_updateNode hm id fun _ => ⟨rfl, rfl, rfl⟩
  | visit id a _ => exact keeps_updateNode hm id fun _ => ⟨rfl, rfl, rfl⟩
  | link id a leaf _ _ => exact keeps_updateNode hm id fun _ => ⟨rfl, rfl, rfl⟩
  | recompute id =>
    rcases recomputeValue_eq m id with heq | ⟨k, v, heq⟩
    · rw [heq]
      exact fun id n hn => ⟨n, hn, rfl, rfl, rfl⟩
    · rw [heq]
      exact keeps_updateNode hm id fun _ => ⟨rfl, rfl, rfl⟩

theorem Trail.keeps {s t : Search A E F} (h : Trail te s t) (hs : Indexed s.mcts) :
    Indexed t.mcts ∧ Keeps s.mcts t.mcts := by
  induction h with
  | start => exact ⟨hs, fun id n hn => ⟨n, hn, rfl, rfl, rfl⟩⟩
  | note e _ _ ih => exact ih
  | update _ hu ih => exact ⟨hu.indexed ih.1, ih.2.trans (Update.keeps hu ih.1)⟩

end Frame

section Scope

variable [DecidableEq A] [Roots F] {i : RunInput E A O F}

/-- A run on a live state ends with the noise cleared. -/
theorem run_clears (hlive : done i.env = false) :
    Triple (fun _ => True) (run i) (fun _ (t : Search A E F) => t.mcts.clearNoise = t.mcts)
      (fun _ => True) := by
  unfold run
  refine Triple.seq Triple.anyway fun _ => Triple.seq Triple.anyway fun _ => ?_
  rw [hlive, if_neg Bool.false_ne_true]
  refine Triple.read fun s _ => Triple.seq Triple.anyway fun _ =>
    Triple.seq (R := fun _ t => t.mcts.clearNoise = t.mcts) (Triple.update fun _ _ => rfl) fun _ => ?_
  unfold rootNode
  refine Triple.read fun t ht => ?_
  split
  · exact Triple.ret fun u hu => hu ▸ ht
  · exact Triple.halt fun _ _ => trivial

/-- A run on a terminal state leaves it as it was. -/
theorem run_spares (hdone : done i.env = true) (noise : Option (HashMap A F)) :
    Triple (fun s : Search A E F => s.mcts.rootNoise = noise) (run i)
      (fun _ t => t.mcts.rootNoise = noise) (fun _ => True) := by
  unfold run
  refine Triple.seq (R := fun _ t => t.mcts.rootNoise = noise) (Triple.update fun _ hs => hs)
    fun _ => Triple.seq (R := fun _ t => t.mcts.rootNoise = noise) ?_ fun _ => ?_
  · unfold ensureRoot
    refine Triple.read fun s hs => ?_
    split
    · refine Triple.update fun t ht => ?_
      show (MCTS.createNode i.order i.env ∅ (i.terminalEvaluator i.env) t.mcts).rootNoise = noise
      rw [ht]
      exact hs
    · exact Triple.ret fun t ht => ht ▸ hs
  · rw [hdone, if_pos rfl]
    unfold rootNode
    refine Triple.read fun t ht => ?_
    split
    · exact Triple.ret fun u hu => hu ▸ ht
    · exact Triple.halt fun _ _ => trivial

variable [FloorSemiring F]

/-- No noise is registered, and scores, training targets and further runs come
out as if none had been. -/
structure Forgotten (t : Search A E F) : Prop where
  none : t.mcts.rootNoise = none
  scores : ∀ id cPuct isRoot forced, t.mcts.puctScores id cPuct isRoot forced =
    t.mcts.clearNoise.puctScores id cPuct isRoot forced
  target : ∀ cPuct, policyTarget t.mcts cPuct = policyTarget t.mcts.clearNoise cPuct
  runs : ∀ j : RunInput E A O F, run j t = run j { t with mcts := t.mcts.clearNoise }

/-- Whatever the client and however it ends, a run keeps priors, estimates and
actions; if it returns, the noise registered before it is forgotten exactly when
the state it was given was not terminal. -/
theorem noise_scoped_iff {C : RunInput E A O F → Prop} {s : Search A E F}
    (h : Session C s) (noise : HashMap A F) (epsilon : F) (i : RunInput E A O F) :
    Keeps s.mcts (run i { s with mcts := s.mcts.perturbRootPrior noise epsilon }).2.mcts ∧
    ∀ node t, run i { s with mcts := s.mcts.perturbRootPrior noise epsilon } = (some node, t) →
      (Forgotten t ↔ done i.env = false) := by
  have hindexed : Indexed (s.mcts.perturbRootPrior noise epsilon) := session_indexed h
  have hheld : Holding i.terminalEvaluator
      (rooted i { s with mcts := s.mcts.perturbRootPrior noise epsilon }) []
      (run i { s with mcts := s.mcts.perturbRootPrior noise epsilon }).2 := run_trail i hindexed
  refine ⟨(Trail.keeps hheld.trail hindexed).2, fun node t hrun => ?_⟩
  constructor
  · intro hforgotten
    by_contra hdone
    rw [Bool.not_eq_false] at hdone
    have hstill := (run_spares hdone (some noise)).returned rfl hrun
    exact absurd (hstill.symm.trans hforgotten.none) (by simp)
  · intro hlive
    have hclear := (run_clears hlive).returned trivial hrun
    refine ⟨?_, fun id cPuct isRoot forced => ?_, fun cPuct => ?_, fun j => ?_⟩
    · rw [← hclear]
      rfl
    · rw [hclear]
    · rw [hclear]
    · rw [hclear]

theorem noise_scoped_iff_heapSearch :
    ∃ node t, run (heapInput 2)
      { heapSearch with mcts := heapSearch.mcts.perturbRootPrior (AList.singleton true 1) 1 } =
        (some node, t) ∧ Forgotten t := by
  have hreturns : (run (heapInput 2) { heapSearch with
      mcts := heapSearch.mcts.perturbRootPrior (AList.singleton true 1) 1 }).1.isSome = true := by
    decide +kernel
  obtain ⟨node, hnode⟩ := Option.isSome_iff_exists.mp hreturns
  have hsession := heapSearch_session (fun _ => True) trivial
  obtain ⟨_, hscoped⟩ := noise_scoped_iff hsession (AList.singleton true 1) 1 (heapInput 2)
  exact ⟨node, _, Prod.ext hnode rfl, (hscoped node _ (Prod.ext hnode rfl)).mpr (by decide)⟩

def deadInput : RunInput HeapGame Bool ℕ ℚ := { heapInput 4 with env := ⟨3⟩ }

/-- The noise survives the run from the terminal state and steers the next one. -/
theorem noise_survives :
    ∃ node t, run deadInput
      { heapSearch with mcts := heapSearch.mcts.perturbRootPrior (AList.singleton true 1) 1 } =
        (some node, t) ∧ t.mcts.rootNoise ≠ none ∧
      t.mcts.puctScores 0 1 true false ≠ t.mcts.clearNoise.puctScores 0 1 true false ∧
      (run (heapInput 2) t).1.map (·.edgeVisits) ≠
        (run (heapInput 2) { t with mcts := t.mcts.clearNoise }).1.map (·.edgeVisits) := by
  have hreturns : (run deadInput { heapSearch with
      mcts := heapSearch.mcts.perturbRootPrior (AList.singleton true 1) 1 }).1.isSome = true := by
    decide +kernel
  obtain ⟨node, hnode⟩ := Option.isSome_iff_exists.mp hreturns
  refine ⟨node, _, Prod.ext hnode rfl, ?_, ?_, ?_⟩
  · rw [← Option.isSome_iff_ne_none]
    decide +kernel
  · decide +kernel
  · decide +kernel

end Scope

end Mcts.NoiseScope
