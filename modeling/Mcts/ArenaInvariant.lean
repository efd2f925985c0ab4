import Mcts.SearchRun
import Mathlib.Data.List.GetD

/-!
The representation invariant of the arena and the operations that keep it:
updating one node, inserting a fresh one, recomputing a value, rerooting.
Later modules reason about the engine through these lemmas only.
-/
namespace Mcts.ArenaInvariant

open Environments Nodes Engine Arena Rerooting SearchRun

variable {E A O F : Type} [Act A] [Field F]

/-- Table and nodes in bijection, every node well formed, no dangling child. -/
structure WellFormed (m : MCTS A F) : Prop where
  indexed : Indexed m
  node : ∀ id n, m.getNode id = some n → n.WellFormed
  linked : ∀ id n i c, m.getNode id = some n → n.children.getD i none = some c →
    m.nodeExists c = true

def Offers (m : MCTS A F) (id : NodeId) (a : A) : Prop :=
  ∃ n, m.getNode id = some n ∧ a ∈ n.validActions

def Everywhere (p : Node A F → Prop) (m : MCTS A F) : Prop :=
  ∀ id n, m.getNode id = some n → p n

variable {m m' : MCTS A F} {id : NodeId} {a : A} {f : Node A F → Node A F}

section Everywhere

variable {p : Node A F → Prop}

omit [Act A] [Field F]

theorem Everywhere.updateNode (hindexed : Indexed m) (h : Everywhere p m)
    (hf : ∀ n, m.getNode id = some n → p (f n)) : Everywhere p (m.updateNode id f) := by
  intro key n hn
  rcases updateNode_found hindexed hn with ⟨old, _, hold, rfl⟩ | ⟨_, hn⟩
  · exact hf old hold
  · exact h key n hn

theorem Everywhere.insertNode (hindexed : Indexed m) (h : Everywhere p m) {n : Node A F}
    (hn : p n) : Everywhere p (m.insertNode id n) := by
  intro key found hfound
  rcases insertNode_found hindexed hfound with ⟨_, rfl⟩ | ⟨_, hfound⟩
  · exact hn
  · exact h key found hfound

/-- Changing neither table nor nodes changes no node. -/
theorem Everywhere.congr (h : Everywhere p m)
    (htable : m'.transpositionTable = m.transpositionTable)
    (hnodes : m'.nodes = m.nodes) : Everywhere p m' := by
  intro id n hn
  apply h id n
  simpa [MCTS.getNode, htable, hnodes] using hn

theorem Everywhere.advanceRoot [Act A] (hindexed : Indexed m) (h : Everywhere p m) (a : A) :
    Everywhere p (advanceRoot a m) := by
  intro id n hn
  rcases advanceRoot_cases a m with heq | ⟨old, root, new, hroot, hold, hchild⟩
  · rw [heq] at hn
    exact h id n hn
  · exact h id n ((advanceRoot_getNode hindexed hroot hold hchild id n).mp hn).1

end Everywhere

/-- Updating one node keeps the invariant if the new node is well formed and
its children exist. -/
theorem WellFormed.updateNode (h : WellFormed m) (hid : ∀ n, (f n).id = n.id)
    (hnode : ∀ n, m.getNode id = some n → (f n).WellFormed)
    (hlinked : ∀ n i c, m.getNode id = some n → (f n).children.getD i none = some c →
      m.nodeExists c = true) : WellFormed (m.updateNode id f) where
  indexed := updateNode_indexed h.indexed hid
  node key n hn := by
    rcases updateNode_found h.indexed hn with ⟨old, _, hold, rfl⟩ | ⟨_, hn⟩
    · exact hnode old hold
    · exact h.node key n hn
  linked key n i c hn hc := by
    rw [updateNode_nodeExists]
    rcases updateNode_found h.indexed hn with ⟨old, _, hold, rfl⟩ | ⟨_, hn⟩
    · exact hlinked old i c hold hc
    · exact h.linked key n i c hn hc

/-- The case of an update that leaves the children alone. -/
theorem WellFormed.updateNode_same (h : WellFormed m) (hid : ∀ n, (f n).id = n.id)
    (hchildren : ∀ n, (f n).children = n.children)
    (hnode : ∀ n, m.getNode id = some n → (f n).WellFormed) : WellFormed (m.updateNode id f) :=
  h.updateNode hid hnode fun n i c hn hc => h.linked id n i c hn (hchildren n ▸ hc)

/-- A new node with a fresh id and no children yet. -/
theorem WellFormed.insertNode (h : WellFormed m) (hfresh : m.nodeExists id = false)
    {node : Node A F} (hid : node.id = id) (hnode : node.WellFormed)
    (hchildren : ∀ i, node.children.getD i none = none) : WellFormed (m.insertNode id node) where
  indexed := insertNode_indexed h.indexed hfresh hid
  node key n hn := by
    rcases insertNode_found h.indexed hn with ⟨_, rfl⟩ | ⟨_, hn⟩
    · exact hnode
    · exact h.node key n hn
  linked key n i c hn hc := by
    rw [insertNode_nodeExists, Bool.or_eq_true]
    rcases insertNode_found h.indexed hn with ⟨_, rfl⟩ | ⟨_, hn⟩
    · rw [hchildren i] at hc
      exact absurd hc (by simp)
    · exact Or.inr (h.linked key n i c hn hc)

omit [Act A] [Field F] in
/-- An offered action is listed by the node found. -/
theorem Offers.mem (h : Offers m id a) {n : Node A F} (hn : m.getNode id = some n) :
    a ∈ n.validActions := by
  obtain ⟨found, hfound, ha⟩ := h
  rw [hn] at hfound
  exact Option.some.inj hfound ▸ ha

omit [Act A] [Field F] in
theorem Offers.updateNode (hindexed : Indexed m) (hf : ∀ n, (f n).validActions = n.validActions)
    {key : NodeId} (h : Offers m key a) : Offers (m.updateNode id f) key a := by
  obtain ⟨n, hn, ha⟩ := h
  by_cases hkey : id = key
  · exact ⟨f n, by rw [updateNode_getNode hindexed, if_pos hkey, hn]; rfl, (hf n).symm ▸ ha⟩
  · exact ⟨n, by rw [updateNode_getNode hindexed, if_neg hkey, hn], ha⟩

omit [Act A] [Field F] in
theorem Offers.insertNode (hindexed : Indexed m) (hfresh : m.nodeExists id = false)
    {node : Node A F} {key : NodeId} (h : Offers m key a) : Offers (m.insertNode id node) key a := by
  obtain ⟨n, hn, ha⟩ := h
  refine ⟨n, ?_, ha⟩
  rw [getNode_insertNode hindexed, if_neg, hn]
  rintro rfl
  rw [(getNode_eq_none_iff hindexed).mpr hfresh] at hn
  exact absurd hn (by simp)

/-- The value recomputation is one update of the node, if it is anything. -/
theorem recomputeValue_eq (m : MCTS A F) (id : NodeId) :
    m.recomputeValue id = m ∨
      ∃ k v, m.recomputeValue id = m.updateNode id (·.setValue k v) := by
  unfold MCTS.recomputeValue
  split
  · exact Or.inl rfl
  · right
    dsimp only
    split
    · exact ⟨_, _, rfl⟩
    · exact ⟨_, _, rfl⟩

omit [Act A] [Field F] in
private theorem foldl_keys (step : HashMap A F → A → HashMap A F)
    (hstep : ∀ acc b, a ∈ step acc b → a ∈ acc ∨ a = b) (actions : List A) (acc : HashMap A F)
    (ha : a ∈ actions.foldl step acc) : a ∈ acc ∨ a ∈ actions := by
  induction actions generalizing acc with
  | nil => exact Or.inl ha
  | cons b rest ih =>
    rcases ih _ ha with h | h
    · rcases hstep acc b h with h | rfl
      · exact Or.inl h
      · exact Or.inr List.mem_cons_self
    · exact Or.inr (List.mem_cons_of_mem b h)

omit [Act A] in
theorem normalizePrior_keys [DecidableEq A] [LinearOrder F] (priors : HashMap A F) (actions : List A)
    (ha : a ∈ MCTS.normalizePrior priors actions) : a ∈ actions := by
  unfold MCTS.normalizePrior at ha
  dsimp only at ha
  split at ha
  · refine (foldl_keys _ (fun acc b h => ?_) actions ∅ ha).resolve_left (AList.notMem_empty a)
    exact ((AList.mem_insert _).mp h).symm
  · refine (foldl_keys _ (fun acc b h => ?_) actions ∅ ha).resolve_left (AList.notMem_empty a)
    split at h
    · exact ((AList.mem_insert _).mp h).symm
    · exact Or.inl h

/-- A node as created for a state: without visits, children or penalties, its
estimate clamped unless the state is terminal. -/
structure Fresh [Environment E A O] [LinearOrder F] (env : E) (priors : HashMap A F) (value : F)
    (n : Node A F) : Prop where
  id : n.id = hash env
  value_eq : n.value = n.valueEstimate
  estimate : n.valueEstimate = if done env then value else MCTS.clampValue value
  nodeVisits : n.nodeVisits = 0
  visits : ∀ i, n.edgeVisits.getD i 0 = 0
  losses : ∀ i, n.virtualLosses.getD i 0 = 0
  penalties : ∀ i, n.edgePenalties.getD i 0 = 0
  children : ∀ i, n.children.getD i none = none
  terminal : n.terminalState = done env
  dead : done env = true → n.validActions = []
  num : done env = false → n.numActions = numActions env
  valid : done env = false → n.validActions.Perm priors.keys

/-- Creating a node is inserting a fresh one. -/
theorem createNode_fresh [Environment E A O] [LinearOrder F]
    (order : IterationOrder (Σ _ : A, F)) (env : E) (priors : HashMap A F) (value : F)
    (m : MCTS A F) :
    ∃ n : Node A F, MCTS.createNode order env priors value m = m.insertNode (hash env) n ∧
      Fresh env priors value n := by
  unfold MCTS.createNode
  dsimp only
  split
  · rename_i hdone
    exact ⟨_, rfl, rfl, rfl, (if_pos hdone).symm, rfl, fun _ => rfl, fun _ => rfl, fun _ => rfl,
      fun _ => rfl, hdone.symm, fun _ => rfl, fun h => absurd h (by simp [hdone]),
      fun h => absurd h (by simp [hdone])⟩
  · rename_i hrun
    have hperm := (order.perm m.nodes.length priors.entries).map Sigma.fst
    exact ⟨_, rfl, rfl, rfl, (if_neg hrun).symm, rfl, fun _ => Dense.getD_replicate _ _ _,
      fun _ => Dense.getD_replicate _ _ _, fun _ => Dense.getD_replicate _ _ _,
      fun _ => Dense.getD_replicate _ _ _, (Bool.eq_false_of_not_eq_true hrun).symm,
      fun h => absurd h hrun, fun _ => rfl, fun _ => hperm⟩

/-- Creating a node under a fresh id, from priors on valid actions only. -/
theorem WellFormed.createNode [Environment E A O] [LinearOrder F] (hE : LawfulEnvironment E A)
    (h : WellFormed m) (order : IterationOrder (Σ _ : A, F)) (env : E) (priors : HashMap A F)
    (value : F) (hfresh : m.nodeExists (hash env) = false)
    (hkeys : ∀ a ∈ priors, a ∈ validActions env) :
    WellFormed (MCTS.createNode order env priors value m) := by
  unfold MCTS.createNode
  dsimp only
  split
  · exact h.insertNode hfresh rfl (Node.newTerminal_wellFormed _ _)
      fun i => by simp [Node.newTerminal]
  · have hperm := order.perm m.nodes.length priors.entries
    refine h.insertNode hfresh rfl (Node.new_wellFormed _ _ _ _ ?_ ?_)
      fun i => Dense.getD_replicate _ _ _
    · exact (hperm.map _).nodup_iff.mpr priors.keys_nodup
    · intro e he
      have hkey : e.1 ∈ priors := List.mem_map_of_mem (hperm.mem_iff.mp he)
      exact hE.index_lt env e.1 (hkeys e.1 hkey)

/-- Rerooting keeps whole nodes, and with a node all its children. -/
theorem WellFormed.advanceRoot (h : WellFormed m) (a : A) : WellFormed (advanceRoot a m) := by
  rcases advanceRoot_cases a m with heq | ⟨old, n, new, hroot, hn, hchild⟩
  · rw [heq]
    exact ⟨h.indexed, h.node, h.linked⟩
  · have hfind := advanceRoot_getNode h.indexed hroot hn hchild
    have hindexed := (advanceRoot_child h.indexed hroot hn hchild).2.1
    refine ⟨hindexed, fun id found hfound => h.node id found ((hfind id found).mp hfound).1, ?_⟩
    intro id found i c hfound hc
    obtain ⟨hold, hreach⟩ := (hfind id found).mp hfound
    obtain ⟨child, hchildNode⟩ := (nodeExists_iff h.indexed).mp (h.linked id found i c hold hc)
    have hedge := mem_successors hold hc
    exact (nodeExists_iff hindexed).mpr ⟨child, (hfind c child).mpr ⟨hchildNode, hreach.tail hedge⟩⟩

end Mcts.ArenaInvariant
