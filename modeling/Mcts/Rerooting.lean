import Mcts.Arena
import Mcts.Worklist
import Mathlib.Data.List.GetD

/-!
`advance_root`: move the root to a child and prune what it does not reach.
-/
namespace Mcts.Rerooting

open Environments Nodes Engine Arena Worklist

variable {A F : Type} [Act A]

def successors (m : MCTS A F) (id : NodeId) : List NodeId :=
  match m.getNode id with
  | some node => node.children.filterMap fun slot => slot
  | none => []

omit [Act A] in
theorem mem_successors {m : MCTS A F} {id c : NodeId} {n : Node A F} {k : ℕ}
    (hn : m.getNode id = some n) (hc : n.children.getD k none = some c) : c ∈ successors m id := by
  simp only [successors, hn, List.mem_filterMap]
  refine ⟨some c, ?_, rfl⟩
  by_cases hlt : k < n.children.length
  · rw [← hc, List.getD_eq_getElem _ _ hlt]
    exact List.getElem_mem hlt
  · rw [List.getD_eq_default _ _ (Nat.le_of_not_lt hlt)] at hc
    exact absurd hc (by simp)

omit [Act A] in
theorem successors_support (m : MCTS A F) :
    ∀ id ∉ m.transpositionTable.keys.toFinset, successors m id = [] := by
  intro id hid
  have hnone : m.transpositionTable.lookup id = none :=
    AList.lookup_eq_none.mpr fun h => hid (List.mem_toFinset.mpr h)
  simp [successors, MCTS.getNode, hnone]

def reachable (m : MCTS A F) (newRootId : NodeId) : Finset NodeId :=
  explore (successors m) m.transpositionTable.keys.toFinset (successors_support m) [newRootId] ∅

/-- The arena rebuilt from the kept nodes in their old order. -/
def rebuild (keep : Finset NodeId) (nodes : List (Node A F)) :
    List (Node A F) × HashMap NodeId ℕ :=
  nodes.foldl (fun acc node =>
    if node.id ∈ keep then (acc.1 ++ [node], acc.2.insert node.id acc.1.length) else acc) ([], ∅)

def advanceRoot (action : A) (m : MCTS A F) : MCTS A F :=
  match m.rootId with
  | none => m
  | some oldRootId =>
    match m.getNode oldRootId with
    | none => m.setRoot none
    | some oldRootNode =>
      match oldRootNode.child action with
      | some newRootId =>
        let rebuilt := rebuild (reachable m newRootId) m.nodes
        { m with
          rootId := some newRootId
          nodes := rebuilt.1
          transpositionTable := rebuilt.2 }
      | none => m.setRoot none

omit [Act A]

theorem mem_reachable_iff (m : MCTS A F) (root id : NodeId) :
    id ∈ reachable m root ↔ Reaches (successors m) root id :=
  mem_explore_iff (successors m) _ (successors_support m) root id

/-- What the rebuild loop has made of a prefix of the old arena. -/
private theorem rebuild_spec (keep : Finset NodeId) (nodes : List (Node A F))
    (hnodup : (nodes.map (·.id)).Nodup) :
    (rebuild keep nodes).1 = nodes.filter (fun node => node.id ∈ keep) ∧
      ∀ id index, (rebuild keep nodes).2.lookup id = some index ↔
        ((rebuild keep nodes).1[index]?).map (·.id) = some id := by
  induction nodes using List.reverseRecOn with
  | nil => simp [rebuild]
  | append_singleton nodes node ih =>
    have hsplit : (nodes.map (·.id)).Nodup ∧ node.id ∉ nodes.map (·.id) := by
      rw [List.map_append, List.nodup_append] at hnodup
      exact ⟨hnodup.1, fun h => hnodup.2.2 _ h _ (by simp) rfl⟩
    obtain ⟨hnodes, htable⟩ := ih hsplit.1
    have hstep : rebuild keep (nodes ++ [node]) =
        if node.id ∈ keep then
          ((rebuild keep nodes).1 ++ [node],
            (rebuild keep nodes).2.insert node.id (rebuild keep nodes).1.length)
        else rebuild keep nodes := by simp [rebuild]
    rw [hstep]
    by_cases hkeep : node.id ∈ keep
    · rw [if_pos hkeep]
      refine ⟨by simp [hnodes, hkeep], ?_⟩
      have hindexed : Indexed (⟨none, (rebuild keep nodes).2, (rebuild keep nodes).1, 0,
          node.value, node.value, node.value, none, node.value⟩ : MCTS A F) := htable
      have hfresh : ((rebuild keep nodes).2.lookup node.id).isSome = false := by
        rw [← Bool.not_eq_true]
        intro hsome
        obtain ⟨found, hfound⟩ := (nodeExists_iff hindexed).mp hsome
        obtain ⟨hmem, hid⟩ := (getNode_eq_some_iff hindexed).mp hfound
        have hold : found ∈ nodes := List.mem_of_mem_filter (hnodes ▸ hmem)
        exact hsplit.2 (hid ▸ List.mem_map_of_mem (f := (·.id)) hold)
      exact insertNode_indexed hindexed hfresh rfl
    · rw [if_neg hkeep]
      exact ⟨by simp [hnodes, hkeep], htable⟩

variable {m : MCTS A F}

/-- The outcome of `advance_root` on an expanded child. -/
theorem advanceRoot_child [Act A] (h : Indexed m) {a : A} {old new : NodeId} {n : Node A F}
    (hroot : m.rootId = some old) (hn : m.getNode old = some n) (hchild : n.child a = some new) :
    (advanceRoot a m).rootId = some new ∧ Indexed (advanceRoot a m) ∧
      (advanceRoot a m).nodes = m.nodes.filter (fun node => node.id ∈ reachable m new) ∧
      (advanceRoot a m).batchSize = m.batchSize := by
  obtain ⟨hnodes, htable⟩ := rebuild_spec (reachable m new) m.nodes (ids_nodup h)
  have heq : advanceRoot a m = { m with
      rootId := some new
      nodes := (rebuild (reachable m new) m.nodes).1
      transpositionTable := (rebuild (reachable m new) m.nodes).2 } := by
    simp [advanceRoot, hroot, hn, hchild]
  rw [heq]
  exact ⟨rfl, htable, hnodes, rfl⟩

/-- Without an expanded child nothing but the root id changes. -/
theorem advanceRoot_miss [Act A] {a : A}
    (h : ∀ old n new, m.rootId = some old → m.getNode old = some n → n.child a ≠ some new) :
    advanceRoot a m = m.setRoot none := by
  unfold advanceRoot
  cases hroot : m.rootId with
  | none => simp [MCTS.setRoot, ← hroot]
  | some old =>
    cases hn : m.getNode old with
    | none => simp [hn]
    | some n =>
      cases hchild : n.child a with
      | none => simp [hn, hchild]
      | some new => exact absurd hchild (h old n new hroot hn)

/-- Either the root has an expanded child for the action or the root is given up. -/
theorem advanceRoot_cases [Act A] (a : A) (m : MCTS A F) :
    advanceRoot a m = m.setRoot none ∨ ∃ old n new, m.rootId = some old ∧
      m.getNode old = some n ∧ n.child a = some new := by
  by_cases hmiss : ∀ old n new, m.rootId = some old → m.getNode old = some n →
      n.child a ≠ some new
  · exact Or.inl (advanceRoot_miss hmiss)
  · simp only [not_forall, not_ne_iff] at hmiss
    obtain ⟨old, n, new, hroot, hn, hchild⟩ := hmiss
    exact Or.inr ⟨old, n, new, hroot, hn, hchild⟩

theorem advanceRoot_indexed [Act A] (h : Indexed m) (a : A) : Indexed (advanceRoot a m) := by
  rcases advanceRoot_cases a m with heq | ⟨old, n, new, hroot, hn, hchild⟩
  · rw [heq]
    exact h
  · exact (advanceRoot_child h hroot hn hchild).2.1

/-- After advancing, a node is found iff it was found and its id is reachable. -/
theorem advanceRoot_getNode [Act A] (h : Indexed m) {a : A} {old new : NodeId} {n : Node A F}
    (hroot : m.rootId = some old) (hn : m.getNode old = some n) (hchild : n.child a = some new)
    (id : NodeId) (found : Node A F) :
    (advanceRoot a m).getNode id = some found ↔
      m.getNode id = some found ∧ Reaches (successors m) new id := by
  obtain ⟨_, hindexed, hnodes, _⟩ := advanceRoot_child h hroot hn hchild
  rw [getNode_eq_some_iff hindexed, getNode_eq_some_iff h, hnodes, List.mem_filter,
    decide_eq_true_eq, ← mem_reachable_iff]
  constructor
  · rintro ⟨⟨hmem, hreach⟩, rfl⟩
    exact ⟨⟨hmem, rfl⟩, hreach⟩
  · rintro ⟨⟨hmem, rfl⟩, hreach⟩
    exact ⟨⟨hmem, hreach⟩, rfl⟩

end Mcts.Rerooting
