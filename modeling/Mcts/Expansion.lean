import Mcts.Backup

/-!
`expand` as a function of the engine: create the leaf unless it is stored, and
link it to its parent. On a truthful graph a link that is already there names
the same leaf, so the warning about mismatched ids is never reached.
-/
namespace Mcts.Expansion

open Program Prog Environments Nodes Engine Arena SearchRun ArenaInvariant Walks Selection Backup

variable {E A O F : Type} [Environment E A O] [Act A] [DecidableEq A] [Field F] [LinearOrder F]

/-- Link a leaf where the parent has no child for the action yet. -/
def linked (parent : NodeId) (a : A) (leaf : NodeId) (m : MCTS A F) : MCTS A F :=
  m.updateNode parent fun n => if n.child a = none then n.setChild a leaf else n

def withLeaf (order : IterationOrder (Σ _ : A, F)) (g : E) (priors : HashMap A F) (value : F)
    (m : MCTS A F) : MCTS A F :=
  if m.nodeExists (hash g) then m
  else MCTS.createNode order g (MCTS.normalizePrior priors (validActions g)) value m

def expanded (order : IterationOrder (Σ _ : A, F)) (parent : NodeId) (a : A) (g : E)
    (priors : HashMap A F) (value : F) (m : MCTS A F) : MCTS A F :=
  linked parent a (hash g) (withLeaf order g priors value m)

variable {S : Set E} {m : MCTS A F} {root : NodeId} {env : E}

section Leaf

variable (order : IterationOrder (Σ _ : A, F)) {g : E} (priors : HashMap A F) (value : F)

theorem withLeaf_carries (hE : LawfulEnvironment E A) (hS : SoundHash S) (hm : WellFormed m)
    (ht : Truthful S m) (hg : g ∈ S) : Carries S m (withLeaf order g priors value m) := by
  unfold withLeaf
  split
  · exact Carries.refl hm ht
  · rename_i hfresh
    rw [Bool.not_eq_true] at hfresh
    have hkeys : ∀ a ∈ MCTS.normalizePrior priors (validActions g), a ∈ validActions g :=
      fun a ha => normalizePrior_keys _ _ ha
    obtain ⟨node, heq, _⟩ := createNode_fresh order g
      (MCTS.normalizePrior priors (validActions g)) value m
    refine ⟨hm.createNode hE order g _ value hfresh hkeys,
      ht.createNode hS hm.indexed order hg _ hkeys value, ?_, rfl⟩
    rw [heq]
    exact Extends.insertNode hm.indexed hfresh node

theorem withLeaf_nodeExists : (withLeaf order g priors value m).nodeExists (hash g) = true := by
  unfold withLeaf
  split
  · assumption
  · rw [MCTS.createNode, insertNode_nodeExists]
    simp

/-- A node found after the leaf was made sure of was there before, or is the leaf, fresh. -/
theorem withLeaf_getNode (hm : Indexed m) {id : NodeId} {n : Node A F}
    (hn : (withLeaf order g priors value m).getNode id = some n) :
    m.getNode id = some n ∨ (id = hash g ∧ m.nodeExists id = false ∧
      Fresh g (MCTS.normalizePrior priors (validActions g)) value n) := by
  unfold withLeaf at hn
  split at hn
  · exact Or.inl hn
  · rename_i hfresh
    obtain ⟨node, heq, hnode⟩ := createNode_fresh order g
      (MCTS.normalizePrior priors (validActions g)) value m
    rw [heq] at hn
    rcases insertNode_found hm hn with ⟨rfl, rfl⟩ | ⟨_, hn⟩
    · exact Or.inr ⟨rfl, by simpa using hfresh, hnode⟩
    · exact Or.inl hn

theorem withLeaf_length : (withLeaf order g priors value m).nodes.length ≤ m.nodes.length + 1 := by
  unfold withLeaf
  split
  · omega
  · simp [MCTS.createNode, MCTS.insertNode]

end Leaf

section Link

variable {parent leaf : NodeId} {a : A}

omit [DecidableEq A] [LinearOrder F] in
theorem linked_carries (hinj : Function.Injective (toActionIndex : A → ℕ)) (hm : WellFormed m)
    (ht : Truthful S m) (ho : Offers m parent a) (hleaf : m.nodeExists leaf = true)
    (htrue : ∀ s ∈ S, hash s = parent → hash (step s a) = leaf) :
    Carries S m (linked parent a leaf m) where
  arena := by
    refine hm.updateNode (fun n => by split <;> rfl) (fun n hn => ?_) fun n i c hn hc => ?_
    · split
      · exact (hm.node _ n hn).setChild (ho.mem hn) leaf
      · exact hm.node _ n hn
    · split at hc
      · rw [Node.setChild_children, Dense.getD_set] at hc
        split at hc
        · exact Option.some.inj hc ▸ hleaf
        · exact hm.linked _ n i c hn hc
      · exact hm.linked _ n i c hn hc
  truth := by
    refine ht.updateNode hm.indexed fun n s hn hs hid hd => ?_
    split
    · refine ⟨hd.terminal, hd.dead, hd.num, hd.valid, fun b c hc => ?_⟩
      rw [(hm.node _ n hn).setChild_child (ho.mem hn)] at hc
      split at hc
      · rename_i hindex
        rw [← hinj hindex, htrue s hs hid]
        exact (Option.some.inj hc).symm
      · exact hd.child b c hc
    · exact hd
  ext := by
    refine Extends.updateNode hm.indexed parent (fun n => by split <;> rfl) fun n b c hn hc => ?_
    split
    · rename_i hnone
      rw [(hm.node _ n hn).setChild_child (ho.mem hn), if_neg]
      · exact hc
      · intro hindex
        rw [hinj hindex, hc] at hnone
        exact absurd hnone (by simp)
    · exact hc
  batch := updateNode_batchSize m parent _

omit [DecidableEq A] [LinearOrder F] in
theorem linkChild_at (hm : WellFormed m) (ho : Offers m parent a)
    (hmatch : ∀ n c, m.getNode parent = some n → n.child a = some c → c = leaf)
    (X : Search A E F → Prop) :
    Triple (At m) (linkChild parent a leaf) (fun _ => At (linked parent a leaf m)) X := by
  obtain ⟨n, hn, ha⟩ := ho
  unfold linkChild
  refine Triple.read fun s hs => ?_
  have hat : ∀ t, t = s → At m t := fun t ht => ht ▸ hs
  rw [hs.mcts, hn]
  dsimp only
  rw [if_pos ((hm.node _ n hn).children_lt ha)]
  split
  · rename_i existing hc
    have hsame : linked parent a leaf m = m := updateNode_self parent fun found hfound => by
      rw [hn, Option.some.injEq] at hfound
      rw [← hfound, hc, if_neg (by simp)]
    rw [if_neg (not_not.mpr (hmatch n existing hn hc)), hsame]
    exact Triple.ret hat
  · rename_i hnone
    have hset : linked parent a leaf m = m.updateNode parent (·.setChild a leaf) :=
      updateNode_congr parent fun found hfound => by
        rw [hn, Option.some.injEq] at hfound
        rw [← hfound, if_pos hnone]
    rw [hset]
    refine Triple.seq ((mutate_at (·.updateNode parent (·.setChild a leaf))).pre hat) fun _ => ?_
    exact Triple.each_mem fun slot _ => emit_at trivial

/-- `expand` on the last edge of a selection. -/
theorem expand_at (hE : LawfulEnvironment E A) (hS : SoundHash S) (hm : WellFormed m)
    (ht : Truthful S m) (order : IterationOrder (Σ _ : A, F)) {before : E} (hb : before ∈ S)
    (hid : hash before = parent) (hg : step before a ∈ S) (ho : Offers m parent a)
    (priors : HashMap A F) (value : F) (X : Search A E F → Prop) :
    Triple (At m) (expand order parent a (step before a) priors value)
      (fun _ => At (expanded order parent a (step before a) priors value m)) X := by
  have hleaf := withLeaf_carries order priors value hE hS hm ht hg
  have hmatch : ∀ n c, (withLeaf order (step before a) priors value m).getNode parent = some n →
      n.child a = some c → c = hash (step before a) := fun n c hn hc =>
    (hleaf.truth parent n hn before hb hid).child a c hc
  have hlink := linkChild_at hleaf.arena (hleaf.ext.offers ho) hmatch X
  unfold expand
  refine Triple.read fun s hs => ?_
  refine Triple.seq (R := fun _ => At (withLeaf order (step before a) priors value m))
    (Triple.cond (fun hfresh t ht => ?_) fun hexists t ht => ?_) fun _ => hlink
  · have hmutate := mutate_at (X := X) (m := m) (MCTS.createNode order (step before a)
      (MCTS.normalizePrior priors (validActions (step before a))) value) t (ht ▸ hs)
    rw [hs.mcts] at hfresh
    have hif : ¬ m.nodeExists (hash (step before a)) = true := by simpa using hfresh
    rwa [withLeaf, if_neg hif]
  · rw [hs.mcts] at hexists
    have hif : m.nodeExists (hash (step before a)) = true := by simpa using hexists
    rw [withLeaf, if_pos hif]
    exact ht ▸ hs

theorem expanded_carries (hE : LawfulEnvironment E A) (hS : SoundHash S) (hm : WellFormed m)
    (ht : Truthful S m) (order : IterationOrder (Σ _ : A, F)) {before : E} (hb : before ∈ S)
    (hid : hash before = parent) (hrun : done before = false) (ha : a ∈ validActions before)
    (hg : step before a ∈ S) (ho : Offers m parent a) (priors : HashMap A F) (value : F) :
    Carries S m (expanded order parent a (step before a) priors value m) := by
  have hleaf := withLeaf_carries order priors value hE hS hm ht hg
  refine hleaf.trans (linked_carries hE.index_injective hleaf.arena hleaf.truth
    (hleaf.ext.offers ho) (withLeaf_nodeExists order priors value) fun s hs hsid => ?_)
  have hsame : hash before = hash s := hid.trans hsid.symm
  exact (hS.step_hash before hb s hs hsame hrun a ha).symm

/-- Where a node found after an expansion comes from. -/
theorem expanded_origin (hm : Indexed m) (ho : Offers m parent a)
    (order : IterationOrder (Σ _ : A, F)) {g : E} (priors : HashMap A F) (value : F)
    {id : NodeId} {n' : Node A F}
    (hn : (expanded order parent a g priors value m).getNode id = some n') :
    (∃ n, m.getNode id = some n ∧ (n' = n ∨
      (id = parent ∧ n.child a = none ∧ n' = n.setChild a (hash g)))) ∨
    (id = hash g ∧ m.nodeExists id = false ∧
      Fresh g (MCTS.normalizePrior priors (validActions g)) value n') := by
  have hindexed : Indexed (withLeaf order g priors value m) := by
    unfold withLeaf
    split
    · exact hm
    · rename_i hfresh
      obtain ⟨node, heq, hnode⟩ := createNode_fresh order g
        (MCTS.normalizePrior priors (validActions g)) value m
      rw [heq]
      exact insertNode_indexed hm (by simpa using hfresh) hnode.id
  rw [expanded, linked] at hn
  rcases updateNode_found hindexed hn with ⟨n, rfl, hold, rfl⟩ | ⟨_, hn⟩
  · rcases withLeaf_getNode order priors value hm hold with hold | ⟨hleaf, hfresh, _⟩
    · left
      refine ⟨n, hold, ?_⟩
      split
      · rename_i hnone
        exact Or.inr ⟨rfl, hnone, rfl⟩
      · exact Or.inl rfl
    · obtain ⟨found, hfound, _⟩ := ho
      rw [(getNode_eq_none_iff hm).mpr hfresh] at hfound
      exact absurd hfound (by simp)
  · rcases withLeaf_getNode order priors value hm hn with hold | hfresh
    · exact Or.inl ⟨n', hold, Or.inl rfl⟩
    · exact Or.inr hfresh

/-- After the expansion the edge leads to the leaf, which is stored. -/
theorem expanded_child (hE : LawfulEnvironment E A) (hS : SoundHash S) (hm : WellFormed m)
    (ht : Truthful S m) (order : IterationOrder (Σ _ : A, F)) {before : E} (hb : before ∈ S)
    (hid : hash before = parent) (hg : step before a ∈ S) (ho : Offers m parent a)
    (priors : HashMap A F) (value : F) :
    ∃ n, (expanded order parent a (step before a) priors value m).getNode parent = some n ∧
      n.child a = some (hash (step before a)) := by
  have hleaf := withLeaf_carries order priors value hE hS hm ht hg
  obtain ⟨n, hn, ha⟩ := hleaf.ext.offers ho
  rw [expanded, linked, updateNode_getNode hleaf.arena.indexed, if_pos rfl, hn]
  refine ⟨_, rfl, ?_⟩
  dsimp only
  split
  · rw [(hleaf.arena.node _ n hn).setChild_child ha, if_pos rfl]
  · rename_i hsome
    obtain ⟨c, hc⟩ := Option.ne_none_iff_exists'.mp hsome
    rw [hc, (hleaf.truth parent n hn before hb hid).child a c hc]

theorem expanded_length (order : IterationOrder (Σ _ : A, F)) (parent : NodeId) (a : A) (g : E)
    (priors : HashMap A F) (value : F) (m : MCTS A F) :
    (expanded order parent a g priors value m).nodes.length ≤ m.nodes.length + 1 := by
  rw [expanded, linked, updateNode_length]
  exact withLeaf_length order priors value

end Link

end Mcts.Expansion
