import Mcts.Dense
import Mcts.Environments
import Mathlib.Data.List.AList
import Mathlib.Algebra.Order.Field.Basic

/-!
Search nodes: per-edge data in dense vectors indexed by `toActionIndex`, with
`validActions` as the list to iterate. An f32 is read as an element of an
ordered field `F`. The statistics of an action read through its index; an index
past the end reads as zero, which `Node.WellFormed` shows is never needed.
-/
namespace Mcts.Nodes

open Mcts.Dense Environments

/-- A std `HashMap`. Where the code iterates one, the order is an input. -/
abbrev HashMap (K V : Type) := AList (fun _ : K => V)

/-- The order in which the n-th map built by a run is iterated: the hasher is
seeded afresh for every map, so nothing but a rearrangement is known. -/
structure IterationOrder (α : Type) where
  arrange : ℕ → List α → List α
  perm : ∀ n xs, (arrange n xs).Perm xs

structure Node (A F : Type) where
  id : NodeId
  numActions : ℕ
  validActions : List A
  priorProbs : List F
  valueEstimate : F
  nodeVisits : ℕ
  children : List (Option NodeId)
  edgeVisits : List ℕ
  virtualLosses : List ℕ
  edgePenalties : List F
  value : F
  terminalState : Bool

variable {A F : Type} [Act A] [Field F]

namespace Node

/-- `entries` is the prior map in the order in which it is iterated. -/
def new (numActions : ℕ) (entries : List (Σ _ : A, F)) (value : F) (id : NodeId) : Node A F where
  id := id
  numActions := numActions
  validActions := entries.map (·.1)
  priorProbs := entries.foldl (fun probs e => probs.set (toActionIndex e.1) e.2)
    (List.replicate numActions 0)
  valueEstimate := value
  nodeVisits := 0
  children := List.replicate numActions none
  edgeVisits := List.replicate numActions 0
  virtualLosses := List.replicate numActions 0
  edgePenalties := List.replicate numActions 0
  value := value
  terminalState := false

def newTerminal (id : NodeId) (value : F) : Node A F where
  id := id
  numActions := 0
  validActions := []
  priorProbs := []
  valueEstimate := value
  nodeVisits := 0
  children := []
  edgeVisits := []
  virtualLosses := []
  edgePenalties := []
  value := value
  terminalState := true

def prior (n : Node A F) (a : A) : F := n.priorProbs.getD (toActionIndex a) 0

def visits (n : Node A F) (a : A) : ℕ := n.edgeVisits.getD (toActionIndex a) 0

def losses (n : Node A F) (a : A) : ℕ := n.virtualLosses.getD (toActionIndex a) 0

def penalty (n : Node A F) (a : A) : F := n.edgePenalties.getD (toActionIndex a) 0

def child (n : Node A F) (a : A) : Option NodeId := n.children.getD (toActionIndex a) none

def totalVisits (n : Node A F) : ℕ := n.edgeVisits.sum

def totalLosses (n : Node A F) : ℕ := n.virtualLosses.sum

@[simps]
def addVirtualLoss (n : Node A F) (a : A) : Node A F :=
  { n with virtualLosses := n.virtualLosses.modify (toActionIndex a) (· + 1) }

/-- `saturating_sub` on the counter. -/
@[simps]
def revertVirtualLoss (n : Node A F) (a : A) : Node A F :=
  { n with virtualLosses := n.virtualLosses.modify (toActionIndex a) (· - 1) }

@[simps]
def applyPenalty (n : Node A F) (a : A) : Node A F :=
  { n with edgePenalties :=
      n.edgePenalties.modify (toActionIndex a) (· + -1 / (n.validActions.length : F)) }

@[simps]
def addVisit (n : Node A F) (a : A) : Node A F :=
  { n with edgeVisits := n.edgeVisits.modify (toActionIndex a) (· + 1) }

@[simps]
def setChild (n : Node A F) (a : A) (c : NodeId) : Node A F :=
  { n with children := n.children.set (toActionIndex a) (some c) }

@[simps]
def setValue (n : Node A F) (nodeVisits : ℕ) (value : F) : Node A F :=
  { n with nodeVisits := nodeVisits, value := value }

/-- Every dense vector has one entry per action, the valid actions have distinct
entries, and the entries of no valid action are blank. -/
structure WellFormed (n : Node A F) : Prop where
  prior_length : n.priorProbs.length = n.numActions
  children_length : n.children.length = n.numActions
  visits_length : n.edgeVisits.length = n.numActions
  losses_length : n.virtualLosses.length = n.numActions
  penalties_length : n.edgePenalties.length = n.numActions
  valid_nodup : n.validActions.Nodup
  valid_lt : ∀ a ∈ n.validActions, toActionIndex a < n.numActions
  blank : ∀ i, (∀ a ∈ n.validActions, toActionIndex a ≠ i) →
    n.priorProbs.getD i 0 = 0 ∧ n.edgeVisits.getD i 0 = 0 ∧ n.virtualLosses.getD i 0 = 0 ∧
      n.edgePenalties.getD i 0 = 0 ∧ n.children.getD i none = none

section Readers
variable (n : Node A F) (a b : A)

@[simp] theorem addVirtualLoss_penalty : (n.addVirtualLoss a).penalty b = n.penalty b := rfl
@[simp] theorem revertVirtualLoss_penalty : (n.revertVirtualLoss a).penalty b = n.penalty b := rfl
@[simp] theorem applyPenalty_visits : (n.applyPenalty a).visits b = n.visits b := rfl
@[simp] theorem applyPenalty_losses : (n.applyPenalty a).losses b = n.losses b := rfl
@[simp] theorem applyPenalty_child : (n.applyPenalty a).child b = n.child b := rfl
@[simp] theorem applyPenalty_total : (n.applyPenalty a).totalVisits = n.totalVisits := rfl
@[simp] theorem applyPenalty_totalLosses :
    (n.applyPenalty a).totalLosses = n.totalLosses := rfl
@[simp] theorem addVisit_penalty : (n.addVisit a).penalty b = n.penalty b := rfl
@[simp] theorem setChild_penalty (c : NodeId) : (n.setChild a c).penalty b = n.penalty b := rfl
@[simp] theorem setValue_penalty (k : ℕ) (v : F) : (n.setValue k v).penalty b = n.penalty b := rfl

omit [Field F]

@[simp] theorem addVirtualLoss_visits : (n.addVirtualLoss a).visits b = n.visits b := rfl
@[simp] theorem addVirtualLoss_child : (n.addVirtualLoss a).child b = n.child b := rfl
@[simp] theorem addVirtualLoss_total : (n.addVirtualLoss a).totalVisits = n.totalVisits := rfl
@[simp] theorem revertVirtualLoss_visits : (n.revertVirtualLoss a).visits b = n.visits b := rfl
@[simp] theorem revertVirtualLoss_child : (n.revertVirtualLoss a).child b = n.child b := rfl
@[simp] theorem revertVirtualLoss_total :
    (n.revertVirtualLoss a).totalVisits = n.totalVisits := rfl
@[simp] theorem addVisit_losses : (n.addVisit a).losses b = n.losses b := rfl
@[simp] theorem addVisit_child : (n.addVisit a).child b = n.child b := rfl
@[simp] theorem addVisit_totalLosses : (n.addVisit a).totalLosses = n.totalLosses := rfl
@[simp] theorem setChild_visits (c : NodeId) : (n.setChild a c).visits b = n.visits b := rfl
@[simp] theorem setChild_losses (c : NodeId) : (n.setChild a c).losses b = n.losses b := rfl
@[simp] theorem setChild_total (c : NodeId) : (n.setChild a c).totalVisits = n.totalVisits := rfl
@[simp] theorem setChild_totalLosses (c : NodeId) :
    (n.setChild a c).totalLosses = n.totalLosses := rfl
@[simp] theorem setValue_visits (k : ℕ) (v : F) : (n.setValue k v).visits b = n.visits b := rfl
@[simp] theorem setValue_losses (k : ℕ) (v : F) : (n.setValue k v).losses b = n.losses b := rfl
@[simp] theorem setValue_child (k : ℕ) (v : F) : (n.setValue k v).child b = n.child b := rfl

omit [Act A]

@[simp] theorem setValue_total (k : ℕ) (v : F) : (n.setValue k v).totalVisits = n.totalVisits := rfl
@[simp] theorem setValue_totalLosses (k : ℕ) (v : F) :
    (n.setValue k v).totalLosses = n.totalLosses := rfl

end Readers

namespace WellFormed

variable {n : Node A F} {a b : A}

theorem visits_lt (h : n.WellFormed) (ha : a ∈ n.validActions) :
    toActionIndex a < n.edgeVisits.length := h.visits_length.symm ▸ h.valid_lt a ha

theorem losses_lt (h : n.WellFormed) (ha : a ∈ n.validActions) :
    toActionIndex a < n.virtualLosses.length := h.losses_length.symm ▸ h.valid_lt a ha

theorem children_lt (h : n.WellFormed) (ha : a ∈ n.validActions) :
    toActionIndex a < n.children.length := h.children_length.symm ▸ h.valid_lt a ha

/-- A total over a dense counter of the node is a total over its valid actions. -/
theorem sum_eq_sum_valid (h : n.WellFormed)
    (hinj : Function.Injective (toActionIndex : A → ℕ)) (xs : List ℕ)
    (hblank : ∀ i, (∀ a ∈ n.validActions, toActionIndex a ≠ i) → xs.getD i 0 = 0) :
    xs.sum = (n.validActions.map (fun a => xs.getD (toActionIndex a) 0)).sum := by
  rw [sum_eq_sum_indices xs (n.validActions.map toActionIndex)
    (h.valid_nodup.map hinj) (fun i hi => hblank i ?_), List.map_map]
  · rfl
  · intro a ha heq
    exact hi (heq ▸ List.mem_map_of_mem ha)

theorem totalVisits_eq (h : n.WellFormed)
    (hinj : Function.Injective (toActionIndex : A → ℕ)) :
    n.totalVisits = (n.validActions.map n.visits).sum :=
  h.sum_eq_sum_valid hinj n.edgeVisits fun i hi => (h.blank i hi).2.1

theorem addVirtualLoss (h : n.WellFormed) (ha : a ∈ n.validActions) :
    (n.addVirtualLoss a).WellFormed where
  prior_length := h.prior_length
  children_length := h.children_length
  visits_length := h.visits_length
  losses_length := by simpa using h.losses_length
  penalties_length := h.penalties_length
  valid_nodup := h.valid_nodup
  valid_lt := h.valid_lt
  blank i hi := by
    obtain ⟨hp, hv, hl, he, hc⟩ := h.blank i hi
    exact ⟨hp, hv, (getD_modify_ne _ _ _ _ _ (hi a ha)).trans hl, he, hc⟩

theorem revertVirtualLoss (h : n.WellFormed) (ha : a ∈ n.validActions) :
    (n.revertVirtualLoss a).WellFormed where
  prior_length := h.prior_length
  children_length := h.children_length
  visits_length := h.visits_length
  losses_length := by simpa using h.losses_length
  penalties_length := h.penalties_length
  valid_nodup := h.valid_nodup
  valid_lt := h.valid_lt
  blank i hi := by
    obtain ⟨hp, hv, hl, he, hc⟩ := h.blank i hi
    exact ⟨hp, hv, (getD_modify_ne _ _ _ _ _ (hi a ha)).trans hl, he, hc⟩

theorem applyPenalty (h : n.WellFormed) (ha : a ∈ n.validActions) :
    (n.applyPenalty a).WellFormed where
  prior_length := h.prior_length
  children_length := h.children_length
  visits_length := h.visits_length
  losses_length := h.losses_length
  penalties_length := by simpa using h.penalties_length
  valid_nodup := h.valid_nodup
  valid_lt := h.valid_lt
  blank i hi := by
    obtain ⟨hp, hv, hl, he, hc⟩ := h.blank i hi
    exact ⟨hp, hv, hl, (getD_modify_ne _ _ _ _ _ (hi a ha)).trans he, hc⟩

theorem addVisit (h : n.WellFormed) (ha : a ∈ n.validActions) :
    (n.addVisit a).WellFormed where
  prior_length := h.prior_length
  children_length := h.children_length
  visits_length := by simpa using h.visits_length
  losses_length := h.losses_length
  penalties_length := h.penalties_length
  valid_nodup := h.valid_nodup
  valid_lt := h.valid_lt
  blank i hi := by
    obtain ⟨hp, hv, hl, he, hc⟩ := h.blank i hi
    exact ⟨hp, (getD_modify_ne _ _ _ _ _ (hi a ha)).trans hv, hl, he, hc⟩

theorem setChild (h : n.WellFormed) (ha : a ∈ n.validActions) (c : NodeId) :
    (n.setChild a c).WellFormed where
  prior_length := h.prior_length
  children_length := by simpa using h.children_length
  visits_length := h.visits_length
  losses_length := h.losses_length
  penalties_length := h.penalties_length
  valid_nodup := h.valid_nodup
  valid_lt := h.valid_lt
  blank i hi := by
    obtain ⟨hp, hv, hl, he, hc⟩ := h.blank i hi
    refine ⟨hp, hv, hl, he, ?_⟩
    simpa [getD_set, hi a ha] using hc

theorem setValue (h : n.WellFormed) (k : ℕ) (v : F) : (n.setValue k v).WellFormed where
  prior_length := h.prior_length
  children_length := h.children_length
  visits_length := h.visits_length
  losses_length := h.losses_length
  penalties_length := h.penalties_length
  valid_nodup := h.valid_nodup
  valid_lt := h.valid_lt
  blank := h.blank

theorem addVirtualLoss_losses (h : n.WellFormed) (ha : a ∈ n.validActions) (b : A) :
    (n.addVirtualLoss a).losses b =
      n.losses b + if toActionIndex a = toActionIndex b then 1 else 0 := by
  have hlt := h.losses_lt ha
  by_cases hab : toActionIndex a = toActionIndex b
  · simp [losses, Node.addVirtualLoss, ← hab, hlt]
  · simp [losses, Node.addVirtualLoss, hab]

theorem addVisit_visits (h : n.WellFormed) (ha : a ∈ n.validActions) (b : A) :
    (n.addVisit a).visits b =
      n.visits b + if toActionIndex a = toActionIndex b then 1 else 0 := by
  have hlt := h.visits_lt ha
  by_cases hab : toActionIndex a = toActionIndex b
  · simp [visits, Node.addVisit, ← hab, hlt]
  · simp [visits, Node.addVisit, hab]

theorem addVisit_totalVisits (h : n.WellFormed) (ha : a ∈ n.validActions) :
    (n.addVisit a).totalVisits = n.totalVisits + 1 :=
  sum_modify_add _ _ _ (h.visits_lt ha)

theorem addVirtualLoss_totalLosses (h : n.WellFormed) (ha : a ∈ n.validActions) :
    (n.addVirtualLoss a).totalLosses = n.totalLosses + 1 :=
  sum_modify_add _ _ _ (h.losses_lt ha)

theorem setChild_child (h : n.WellFormed) (ha : a ∈ n.validActions) (b : A) (c : NodeId) :
    (n.setChild a c).child b =
      if toActionIndex a = toActionIndex b then some c else n.child b := by
  have hlt := h.children_lt ha
  by_cases hab : toActionIndex a = toActionIndex b
  · simp [child, Node.setChild, ← hab, hlt]
  · simp [child, Node.setChild, hab]

end WellFormed

omit [Field F] in
theorem revertVirtualLoss_losses (n : Node A F) (a : A) (k : ℕ) :
    (n.revertVirtualLoss a).virtualLosses.getD k 0 =
      n.virtualLosses.getD k 0 - if toActionIndex a = k then 1 else 0 := by
  simp only [revertVirtualLoss, getD_modify]
  by_cases hk : toActionIndex a = k
  · by_cases hlt : k < n.virtualLosses.length
    · simp [hk, hlt]
    · simp [hlt]
  · simp [hk]

theorem newTerminal_wellFormed (id : NodeId) (v : F) :
    (newTerminal id v : Node A F).WellFormed := by
  constructor <;> simp [newTerminal]

/-- A node is well formed as soon as its prior map names distinct in-range actions. -/
theorem new_wellFormed (numActions : ℕ) (entries : List (Σ _ : A, F)) (v : F) (id : NodeId)
    (hnodup : (entries.map (·.1)).Nodup)
    (hlt : ∀ e ∈ entries, toActionIndex e.1 < numActions) :
    (new numActions entries v id).WellFormed where
  prior_length := by simp [new, foldl_set, length_foldl_modify]
  children_length := by simp [new]
  visits_length := by simp [new]
  losses_length := by simp [new]
  penalties_length := by simp [new]
  valid_nodup := hnodup
  valid_lt a ha := by
    obtain ⟨e, he, rfl⟩ := List.mem_map.mp ha
    exact hlt e he
  blank i hi := by
    refine ⟨?_, getD_replicate _ _ _, getD_replicate _ _ _, getD_replicate _ _ _,
      getD_replicate _ _ _⟩
    have hother : ∀ e ∈ entries, toActionIndex e.1 ≠ i := by
      intro e he
      exact hi e.1 (List.mem_map_of_mem he)
    rw [new, foldl_set fun e : Σ _ : A, F => toActionIndex e.1,
      getD_foldl_modify_other _ _ entries _ i 0 hother, getD_replicate]

end Node

end Mcts.Nodes
