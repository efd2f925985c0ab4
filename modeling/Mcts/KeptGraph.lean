import Mcts.Updates

/-!
What is left after `advance_root`: the part of the arena that the new root
reaches, node by node and in the old order, behind a table of its own. The
queue search that finds it ends on every graph, cycles and self-loops included.
-/
namespace Mcts.KeptGraph

open Environments Nodes Engine Arena Worklist Rerooting SearchRun ArenaInvariant Updates

variable {A F : Type} {m : MCTS A F}

/-- Every child id stored in a node is the id of a node. -/
def Undangling (m : MCTS A F) : Prop :=
  ∀ id n i c, m.getNode id = some n → n.children.getD i none = some c → m.nodeExists c = true

theorem successor_exists (h : Undangling m) {id c : NodeId} (hc : c ∈ successors m id) :
    m.nodeExists c = true := by
  unfold successors at hc
  split at hc
  · rename_i n hn
    obtain ⟨slot, hslot, hsome⟩ := List.mem_filterMap.mp hc
    have hsome : slot = some c := hsome
    obtain ⟨i, hi⟩ := List.mem_iff_getElem?.mp hslot
    apply h id n i c hn
    rw [List.getD_eq_getElem?_getD, hi, hsome]
    rfl
  · exact absurd hc List.not_mem_nil

/-- From a node that is there, only nodes that are there are reached. -/
theorem reaches_exists (h : Undangling m) {root id : NodeId} (hroot : m.nodeExists root = true)
    (hreach : Reaches (successors m) root id) : m.nodeExists id = true := by
  induction hreach with
  | refl => exact hroot
  | tail _ hedge _ => exact successor_exists h hedge

variable [Act A]

/-- The new table has an entry for each id reached and for no other. -/
theorem advanceRoot_keys (hm : Indexed m) (h : Undangling m) {a : A} {old new : NodeId}
    {n : Node A F} (hroot : m.rootId = some old) (hn : m.getNode old = some n)
    (hchild : n.child a = some new) (id : NodeId) :
    id ∈ (advanceRoot a m).transpositionTable ↔ Reaches (successors m) new id := by
  have hindexed := (advanceRoot_child hm hroot hn hchild).2.1
  rw [← AList.lookup_isSome]
  show (advanceRoot a m).nodeExists id = true ↔ _
  rw [nodeExists_iff hindexed]
  constructor
  · rintro ⟨found, hfound⟩
    exact ((advanceRoot_getNode hm hroot hn hchild id found).mp hfound).2
  · intro hreach
    have hnew : m.nodeExists new = true := h old n _ new hn hchild
    obtain ⟨found, hfound⟩ := (nodeExists_iff hm).mp (reaches_exists h hnew hreach)
    exact ⟨found, (advanceRoot_getNode hm hroot hn hchild id found).mpr ⟨hfound, hreach⟩⟩

/-- With an expanded child, `advance_root` keeps what the child reaches and
nothing else; without one it only gives up the root. -/
theorem advanceRoot_exact (hm : Indexed m) (h : Undangling m) (a : A) :
    (∀ old n new, m.rootId = some old → m.getNode old = some n → n.child a = some new →
      (advanceRoot a m).rootId = some new ∧
      (∀ id, id ∈ reachable m new ↔ Reaches (successors m) new id) ∧
      (advanceRoot a m).nodes = m.nodes.filter (fun node => node.id ∈ reachable m new) ∧
      (∀ id, id ∈ (advanceRoot a m).transpositionTable ↔ Reaches (successors m) new id) ∧
      (∀ id index, (advanceRoot a m).transpositionTable.lookup id = some index ↔
        ((advanceRoot a m).nodes[index]?).map (·.id) = some id) ∧
      ∃ rounds, (round (successors m))^[rounds] ([new], ∅) = ([], reachable m new)) ∧
    ((∀ old n new, m.rootId = some old → m.getNode old = some n → n.child a ≠ some new) →
      (advanceRoot a m).nodes = m.nodes ∧
      (advanceRoot a m).transpositionTable = m.transpositionTable ∧
      (advanceRoot a m).rootId = none) := by
  constructor
  · intro old n new hroot hn hchild
    obtain ⟨hnew, hindexed, hnodes, _⟩ := advanceRoot_child hm hroot hn hchild
    exact ⟨hnew, mem_reachable_iff m new, hnodes, advanceRoot_keys hm h hroot hn hchild,
      hindexed, explore_rounds _ _ (successors_support m) [new] ∅⟩
  · intro hmiss
    rw [advanceRoot_miss hmiss]
    exact ⟨rfl, rfl, rfl⟩

theorem advanceRoot_exact_heapSearch :
    (advanceRoot false heapSearch.mcts).rootId = some 1 ∧
      3 ∈ (advanceRoot false heapSearch.mcts).transpositionTable ∧
      2 ∉ (advanceRoot false heapSearch.mcts).transpositionTable := by
  have hm := (session_wellFormed heapGame_lawful (heapSearch_session (fun _ => True) trivial)).1
  have hnode : ((heapSearch.mcts.getNode 0).bind (·.child false)) = some 1 := by decide +kernel
  obtain ⟨n, hn, hchild⟩ := Option.bind_eq_some_iff.mp hnode
  obtain ⟨hroot, _, _, hkeys, _, _⟩ :=
    (advanceRoot_exact hm.indexed hm.linked false).1 0 n 1 (by decide +kernel) hn hchild
  have hone : successors heapSearch.mcts 1 = [3] := by decide +kernel
  have hthree : successors heapSearch.mcts 3 = [] := by decide +kernel
  refine ⟨hroot, (hkeys 3).mpr (.single (by rw [Edge, hone]; simp)), fun htwo => ?_⟩
  -- the new root's only child is terminal
  have hclosed : ∀ id, Reaches (successors heapSearch.mcts) 1 id → id = 1 ∨ id = 3 := by
    intro id hreach
    induction hreach with
    | refl => exact Or.inl rfl
    | tail _ hedge ih =>
      rcases ih with rfl | rfl
      · rw [Edge, hone] at hedge
        exact Or.inr (List.mem_singleton.mp hedge)
      · rw [Edge, hthree] at hedge
        exact absurd hedge List.not_mem_nil
  rcases hclosed 2 ((hkeys 2).mp htwo) with heq | heq
  · exact absurd heq (by decide)
  · exact absurd heq (by decide)

end Mcts.KeptGraph
