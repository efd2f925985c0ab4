import Mcts.Engine

/-!
The arena as a partial map from ids to nodes. `Indexed` ties the table to the
node list; under it `getNode` behaves like a function that `updateNode` and
`insertNode` update at one point, and later modules use nothing else of either.
-/
namespace Mcts.Arena

open Environments Nodes Engine

variable {A F : Type}

/-- The table sends an id to an index exactly when the node there bears the id. -/
def Indexed (m : MCTS A F) : Prop :=
  ∀ id index, m.transpositionTable.lookup id = some index ↔
    (m.nodes[index]?).map (·.id) = some id

variable {m : MCTS A F} {id : NodeId} {n : Node A F}

theorem getNode_id (h : Indexed m) (hn : m.getNode id = some n) : n.id = id := by
  simp only [MCTS.getNode, Option.bind_eq_some_iff] at hn
  obtain ⟨index, hlookup, hindex⟩ := hn
  have hid := (h id index).mp hlookup
  simpa [hindex] using hid

/-- The nodes found are the nodes stored, under their own ids. -/
theorem getNode_eq_some_iff (h : Indexed m) :
    m.getNode id = some n ↔ n ∈ m.nodes ∧ n.id = id := by
  constructor
  · intro hn
    refine ⟨?_, getNode_id h hn⟩
    simp only [MCTS.getNode, Option.bind_eq_some_iff] at hn
    obtain ⟨index, _, hindex⟩ := hn
    exact List.mem_of_getElem? hindex
  · rintro ⟨hmem, hid⟩
    obtain ⟨index, hindex⟩ := List.mem_iff_getElem?.mp hmem
    have hlookup := (h id index).mpr (by simp [hindex, hid])
    simp [MCTS.getNode, hlookup, hindex]

theorem getNode_of_mem (h : Indexed m) (hn : n ∈ m.nodes) : m.getNode n.id = some n :=
  (getNode_eq_some_iff h).mpr ⟨hn, rfl⟩

theorem nodeExists_iff (h : Indexed m) :
    m.nodeExists id = true ↔ ∃ n, m.getNode id = some n := by
  simp only [MCTS.nodeExists, Option.isSome_iff_exists]
  constructor
  · rintro ⟨index, hlookup⟩
    have hid := (h id index).mp hlookup
    simp only [Option.map_eq_some_iff] at hid
    obtain ⟨n, hn, _⟩ := hid
    exact ⟨n, by simp [MCTS.getNode, hlookup, hn]⟩
  · rintro ⟨n, hn⟩
    simp only [MCTS.getNode, Option.bind_eq_some_iff] at hn
    obtain ⟨index, hlookup, _⟩ := hn
    exact ⟨index, hlookup⟩

theorem getNode_eq_none_iff (h : Indexed m) :
    m.getNode id = none ↔ m.nodeExists id = false := by
  rw [Option.eq_none_iff_forall_ne_some, ← Bool.not_eq_true, nodeExists_iff h, not_exists]

theorem getNode_empty (h : Indexed m) (hnodes : m.nodes = []) (id : NodeId) :
    m.getNode id = none := by
  rw [Option.eq_none_iff_forall_ne_some]
  intro n hn
  have hmem := ((getNode_eq_some_iff h).mp hn).1
  rw [hnodes] at hmem
  exact List.not_mem_nil hmem

theorem ids_nodup (h : Indexed m) : (m.nodes.map (·.id)).Nodup := by
  rw [List.nodup_iff_injective_getElem]
  intro i j hij
  apply Fin.ext
  have hlookup : ∀ k : Fin (m.nodes.map (·.id)).length,
      m.transpositionTable.lookup (m.nodes.map (·.id))[k] = some k.val := by
    intro k
    apply (h _ _).mpr
    have hk : k.val < m.nodes.length := by simpa using k.isLt
    simp [List.getElem?_eq_getElem hk]
  have hi := hlookup i
  simp only [Fin.getElem_fin] at hi hij
  have hj := hlookup j
  simp only [Fin.getElem_fin] at hj
  rw [hij, hj] at hi
  exact (Option.some.inj hi).symm

theorem mem_keys_iff (h : Indexed m) :
    id ∈ m.transpositionTable.keys ↔ id ∈ m.nodes.map (·.id) := by
  rw [← AList.mem_keys, ← AList.lookup_isSome]
  change m.nodeExists id = true ↔ _
  rw [nodeExists_iff h, List.mem_map]
  simp only [getNode_eq_some_iff h]

/-- The table has one entry for each node. -/
theorem keys_length (h : Indexed m) :
    m.transpositionTable.keys.length = m.nodes.length := by
  have hperm : m.transpositionTable.keys.Perm (m.nodes.map (·.id)) :=
    (List.perm_ext_iff_of_nodup m.transpositionTable.keys_nodup (ids_nodup h)).mpr
      fun _ => mem_keys_iff h
  simpa using hperm.length_eq

section Update

variable {f : Node A F → Node A F}

theorem updateNode_table (m : MCTS A F) (id : NodeId) (f : Node A F → Node A F) :
    (m.updateNode id f).transpositionTable = m.transpositionTable := by
  unfold MCTS.updateNode
  split <;> rfl

theorem updateNode_rootId (m : MCTS A F) (id : NodeId) (f : Node A F → Node A F) :
    (m.updateNode id f).rootId = m.rootId := by
  unfold MCTS.updateNode
  split <;> rfl

theorem updateNode_batchSize (m : MCTS A F) (id : NodeId) (f : Node A F → Node A F) :
    (m.updateNode id f).batchSize = m.batchSize := by
  unfold MCTS.updateNode
  split <;> rfl

theorem updateNode_length (m : MCTS A F) (id : NodeId) (f : Node A F → Node A F) :
    (m.updateNode id f).nodes.length = m.nodes.length := by
  unfold MCTS.updateNode
  split <;> simp

theorem updateNode_getElem? (m : MCTS A F) (id : NodeId) (f : Node A F → Node A F) (j : ℕ) :
    (m.updateNode id f).nodes[j]? =
      if m.transpositionTable.lookup id = some j then (m.nodes[j]?).map f else m.nodes[j]? := by
  unfold MCTS.updateNode
  cases hlookup : m.transpositionTable.lookup id with
  | none => simp
  | some index =>
    simp only [List.getElem?_modify, Option.some.injEq]
    by_cases hij : index = j <;> simp [hij]

/-- Only what the function makes of the node found matters. -/
theorem updateNode_congr {g : Node A F → Node A F} (id : NodeId)
    (hfg : ∀ n, m.getNode id = some n → f n = g n) : m.updateNode id f = m.updateNode id g := by
  unfold MCTS.updateNode
  cases hlookup : m.transpositionTable.lookup id with
  | none => rfl
  | some index =>
    have hnodes : m.nodes.modify index f = m.nodes.modify index g := by
      apply List.ext_getElem?
      intro j
      simp only [List.getElem?_modify]
      by_cases hj : index = j
      · subst hj
        cases hn : m.nodes[index]? with
        | none => rfl
        | some n => simp [hfg n (by simp [MCTS.getNode, hlookup, hn])]
      · simp [hj]
    simp only [hnodes]

theorem updateNode_self (key : NodeId) (hf : ∀ n, m.getNode key = some n → f n = n) :
    m.updateNode key f = m := by
  rw [updateNode_congr (g := id) key hf]
  unfold MCTS.updateNode
  split
  · simp
  · rfl

theorem updateNode_nodeExists (m : MCTS A F) (id key : NodeId) (f : Node A F → Node A F) :
    (m.updateNode id f).nodeExists key = m.nodeExists key := by
  simp [MCTS.nodeExists, updateNode_table]

theorem updateNode_indexed (h : Indexed m) (hf : ∀ n, (f n).id = n.id) :
    Indexed (m.updateNode id f) := by
  intro key index
  rw [updateNode_table, updateNode_getElem?, h key index]
  split
  · simp [Function.comp_def, hf]
  · rfl

theorem updateNode_getNode (h : Indexed m) (id key : NodeId) (f : Node A F → Node A F) :
    (m.updateNode id f).getNode key =
      if id = key then (m.getNode key).map f else m.getNode key := by
  simp only [MCTS.getNode, updateNode_table, updateNode_getElem?]
  cases hkey : m.transpositionTable.lookup key with
  | none => simp
  | some index =>
    simp only [Option.bind_some]
    by_cases hid : id = key
    · subst hid
      simp [hkey]
    · rw [if_neg hid, if_neg]
      intro hother
      -- two ids with one index would be the id of one node
      have h₁ := (h id index).mp hother
      have h₂ := (h key index).mp hkey
      exact hid (Option.some.inj (h₁.symm.trans h₂))

/-- A node found after an update is the updated one, or another as it was. -/
theorem updateNode_found (h : Indexed m) {key : NodeId} {n : Node A F}
    (hn : (m.updateNode id f).getNode key = some n) :
    (∃ old, id = key ∧ m.getNode id = some old ∧ f old = n) ∨
      (id ≠ key ∧ m.getNode key = some n) := by
  rw [updateNode_getNode h] at hn
  by_cases hkey : id = key
  · subst hkey
    rw [if_pos rfl, Option.map_eq_some_iff] at hn
    obtain ⟨old, hold, heq⟩ := hn
    exact Or.inl ⟨old, rfl, hold, heq⟩
  · rw [if_neg hkey] at hn
    exact Or.inr ⟨hkey, hn⟩

end Update

theorem getNode_insertNode (h : Indexed m) (id : NodeId) (node : Node A F) (key : NodeId) :
    (m.insertNode id node).getNode key = if id = key then some node else m.getNode key := by
  by_cases hid : id = key
  · subst hid
    simp [MCTS.getNode, MCTS.insertNode]
  · simp only [MCTS.getNode, MCTS.insertNode, AList.lookup_insert_ne (Ne.symm hid), if_neg hid]
    cases hkey : m.transpositionTable.lookup key with
    | none => simp
    | some index =>
      have hlt : index < m.nodes.length := by
        have hk := (h key index).mp hkey
        by_contra hge
        simp [List.getElem?_eq_none (Nat.le_of_not_lt hge)] at hk
      simp [List.getElem?_append_left hlt]

/-- A node found after an insertion is the new one, or another as it was. -/
theorem insertNode_found (h : Indexed m) {key : NodeId} {node n : Node A F}
    (hn : (m.insertNode id node).getNode key = some n) :
    (id = key ∧ node = n) ∨ (id ≠ key ∧ m.getNode key = some n) := by
  rw [getNode_insertNode h] at hn
  by_cases hkey : id = key
  · rw [if_pos hkey] at hn
    exact Or.inl ⟨hkey, Option.some.inj hn⟩
  · rw [if_neg hkey] at hn
    exact Or.inr ⟨hkey, hn⟩

theorem insertNode_indexed (h : Indexed m) (hfresh : m.nodeExists id = false)
    {node : Node A F} (hnode : node.id = id) : Indexed (m.insertNode id node) := by
  have hnone : m.transpositionTable.lookup id = none := by
    simpa [MCTS.nodeExists] using hfresh
  intro key index
  simp only [MCTS.insertNode]
  by_cases hid : key = id
  · subst hid
    rw [AList.lookup_insert]
    simp only [Option.some.injEq]
    rcases Nat.lt_trichotomy index m.nodes.length with hlt | heq | hgt
    · rw [List.getElem?_append_left hlt, ← h key index, hnone]
      simp only [reduceCtorEq, iff_false]
      omega
    · subst heq
      simp [hnode]
    · rw [List.getElem?_eq_none (by simp; omega)]
      simp only [Option.map_none, reduceCtorEq, iff_false]
      omega
  · rw [AList.lookup_insert_ne hid]
    rcases Nat.lt_trichotomy index m.nodes.length with hlt | heq | hgt
    · rw [List.getElem?_append_left hlt]
      exact h key index
    · subst heq
      rw [h key m.nodes.length]
      simp [hnode, Ne.symm hid]
    · rw [h key index, List.getElem?_eq_none (Nat.le_of_lt hgt),
        List.getElem?_eq_none (by simp; omega)]

theorem insertNode_nodeExists (id key : NodeId) (node : Node A F) (m : MCTS A F) :
    (m.insertNode id node).nodeExists key = (decide (id = key) || m.nodeExists key) := by
  by_cases hid : id = key
  · subst hid
    simp [MCTS.nodeExists, MCTS.insertNode]
  · simp [MCTS.nodeExists, MCTS.insertNode, AList.lookup_insert_ne (Ne.symm hid), hid]

end Mcts.Arena
