import Mcts.Ledger
import Mcts.Descent

/-!
Edges in flight, on any graph and whatever the hash is worth. Every virtual loss
belongs to an edge of a simulation that has not been backed up, and a node off
the paths being backed up has counted its visits. No path need be free of
repeats here: the books count edges with their multiplicity.
-/
namespace Mcts.Flights

open Program Prog Environments Nodes Engine Arena SearchRun ArenaInvariant Walks Backup
open Recomputation Ledger

variable {E A O F : Type} [Act A] [Field F]

/-- Visited edges are expanded. -/
def Expanded (n : Node A F) : Prop :=
  ∀ a ∈ n.validActions, 0 < n.visits a → n.child a ≠ none

/-- Without virtual losses, a visited node has counted its visits. -/
def Counted (n : Node A F) : Prop :=
  n.totalLosses = 0 → 0 < n.totalVisits → n.nodeVisits = 1 + n.totalVisits

/-- The engine, grown from `m₀`, with these edges in flight; the nodes in `loose`
are yet to be recomputed. -/
structure Afloat (m₀ : MCTS A F) (flight : List (NodeId × A)) (loose : List NodeId)
    (m : MCTS A F) : Prop where
  ext : Extends m₀ m
  batch : m.batchSize = m₀.batchSize
  arena : WellFormed m
  offers : ∀ e ∈ flight, Offers m e.1 e.2
  booked : Booked flight m
  expanded : Everywhere Expanded m
  counted : ∀ id n, m.getNode id = some n → id ∉ loose → Counted n

section Flight

variable {id x : NodeId} {a : A} {flight left right : List (NodeId × A)}

omit [Field F] in
theorem inFlight_cons (id x : NodeId) (a : A) (flight : List (NodeId × A)) (k : ℕ) :
    inFlight ((id, a) :: flight) x k =
      inFlight flight x k + if id = x ∧ toActionIndex a = k then 1 else 0 := by
  simp [inFlight, List.countP_cons]

omit [Field F] in
theorem inFlight_perm (h : left.Perm right) (id : NodeId) (k : ℕ) :
    inFlight left id k = inFlight right id k := h.countP_eq _

omit [Field F] in
theorem inFlight_pos (h : (id, a) ∈ flight) : 0 < inFlight flight id (toActionIndex a) :=
  List.countP_pos_iff.mpr ⟨(id, a), h, by simp⟩

variable {m₀ m : MCTS A F} {loose more : List NodeId}

theorem Afloat.perm (h : Afloat m₀ left loose m) (hperm : left.Perm right) :
    Afloat m₀ right loose m :=
  ⟨h.ext, h.batch, h.arena, fun e he => h.offers e (hperm.mem_iff.mpr he),
    fun id n hn k => (h.booked id n hn k).trans (inFlight_perm hperm id k), h.expanded, h.counted⟩

theorem Afloat.loosen (h : Afloat m₀ flight loose m) (hsub : ∀ id ∈ loose, id ∈ more) :
    Afloat m₀ flight more m :=
  ⟨h.ext, h.batch, h.arena, h.offers, h.booked, h.expanded,
    fun id n hn hid => h.counted id n hn fun hl => hid (hsub id hl)⟩

/-- The same engine, looked at from here on. -/
theorem Afloat.rebase (h : Afloat m₀ flight loose m) : Afloat m flight loose m :=
  ⟨Extends.refl m, rfl, h.arena, h.offers, h.booked, h.expanded, h.counted⟩

theorem Afloat.anchor {m₁ : MCTS A F} (h : Afloat m₁ flight loose m) (hext : Extends m₀ m₁)
    (hbatch : m₁.batchSize = m₀.batchSize) : Afloat m₀ flight loose m :=
  ⟨hext.trans h.ext, h.batch.trans hbatch, h.arena, h.offers, h.booked, h.expanded, h.counted⟩

/-- An update of one node that keeps its actions and children, with the books after it. -/
theorem Afloat.gentle {f : Node A F → Node A F} (hf : Gentle f) (h : Afloat m₀ left loose m)
    (hnode : ∀ n, m.getNode id = some n → (f n).WellFormed)
    (hoffers : ∀ e ∈ right, Offers m e.1 e.2)
    (hbooked : ∀ n, m.getNode id = some n → ∀ k,
      (f n).virtualLosses.getD k 0 = inFlight right id k)
    (hother : ∀ x, x ≠ id → ∀ k, inFlight right x k = inFlight left x k)
    (hexpanded : ∀ n, m.getNode id = some n → Expanded n → Expanded (f n))
    (hcounted : ∀ n, m.getNode id = some n → id ∉ more → Counted (f n))
    (hloose : ∀ x, x ≠ id → x ∉ more → x ∉ loose) : Afloat m₀ right more (m.updateNode id f) := by
  have hm := h.arena.indexed
  have hext : Extends m (m.updateNode id f) := Extends.updateNode hm id hf.valid
    fun n a c _ hc => by rwa [Node.child, hf.children]
  refine ⟨h.ext.trans hext, (updateNode_batchSize m id f).trans h.batch,
    h.arena.updateNode_same hf.id hf.children hnode, fun e he => hext.offers (hoffers e he),
    fun x n hn k => ?_, h.expanded.updateNode hm fun n hn => hexpanded n hn (h.expanded id n hn),
    fun x n hn hx => ?_⟩
  · rcases updateNode_found hm hn with ⟨old, rfl, hold, rfl⟩ | ⟨hid, hn⟩
    · exact hbooked old hold k
    · rw [hother x (Ne.symm hid), h.booked x n hn k]
  · rcases updateNode_found hm hn with ⟨old, rfl, hold, rfl⟩ | ⟨hid, hn⟩
    · exact hcounted old hold hx
    · exact h.counted x n hn (hloose x (Ne.symm hid) hx)

theorem Afloat.addLoss (h : Afloat m₀ flight loose m) (ho : Offers m id a) :
    Afloat m₀ ((id, a) :: flight) loose (m.updateNode id (·.addVirtualLoss a)) := by
  have hwell := fun n (hn : m.getNode id = some n) => h.arena.node id n hn
  refine h.gentle (gentle_addVirtualLoss a) (fun n hn => (hwell n hn).addVirtualLoss (ho.mem hn))
    (fun e he => ?_) (fun n hn k => ?_) (fun x hx k => ?_) (fun _ _ hexp => hexp)
    (fun n hn _ hzero => ?_) (fun _ _ hx => hx)
  · rcases List.mem_cons.mp he with rfl | he
    · exact ho
    · exact h.offers e he
  · have hlt := (hwell n hn).losses_lt (ho.mem hn)
    rw [inFlight_cons, Node.addVirtualLoss_virtualLosses, Dense.getD_modify, ← h.booked id n hn k]
    by_cases hk : toActionIndex a = k
    · subst hk
      simp [hlt]
    · simp [hk]
  · rw [inFlight_cons, if_neg fun hboth => hx hboth.1.symm, Nat.add_zero]
  · rw [(hwell n hn).addVirtualLoss_totalLosses (ho.mem hn)] at hzero
    exact absurd hzero (by omega)

theorem Afloat.revertLoss (h : Afloat m₀ ((id, a) :: flight) loose m) (hid : id ∈ loose) :
    Afloat m₀ flight loose (m.updateNode id (·.revertVirtualLoss a)) := by
  have ho : Offers m id a := h.offers (id, a) List.mem_cons_self
  refine h.gentle (gentle_revertVirtualLoss a)
    (fun n hn => (h.arena.node id n hn).revertVirtualLoss (ho.mem hn))
    (fun e he => h.offers e (List.mem_cons_of_mem _ he)) (fun n hn k => ?_) (fun x hx k => ?_)
    (fun _ _ hexp => hexp) (fun n hn hout => absurd hid hout) (fun _ _ hx => hx)
  · have hbooked := h.booked id n hn k
    simp only [inFlight_cons, true_and] at hbooked
    rw [Node.revertVirtualLoss_losses, hbooked, Nat.add_sub_cancel]
  · rw [inFlight_cons, if_neg fun hboth => hx hboth.1.symm, Nat.add_zero]

theorem Afloat.penalise (h : Afloat m₀ flight loose m) (ho : Offers m id a) :
    Afloat m₀ flight loose (m.updateNode id (·.applyPenalty a)) :=
  h.gentle (gentle_applyPenalty a)
    (fun n hn => (h.arena.node id n hn).applyPenalty (ho.mem hn)) h.offers (h.booked id)
    (fun _ _ _ => rfl) (fun _ _ hexp => hexp) (fun n hn hid => h.counted id n hn hid)
    (fun _ _ hx => hx)

/-- A visit is booked on an expanded edge of a node that is yet to be recomputed. -/
theorem Afloat.addVisit (hinj : Function.Injective (toActionIndex : A → ℕ))
    (h : Afloat m₀ flight loose m) (hid : id ∈ loose) (ho : Offers m id a)
    (hchild : ∀ n, m.getNode id = some n → n.child a ≠ none) :
    Afloat m₀ flight loose (m.updateNode id (·.addVisit a)) := by
  refine h.gentle (gentle_addVisit a) (fun n hn => (h.arena.node id n hn).addVisit (ho.mem hn))
    h.offers (h.booked id) (fun _ _ _ => rfl) (fun n hn hexp b hb hvisits => ?_)
    (fun _ _ hout => absurd hid hout) (fun _ _ hx => hx)
  rw [Node.addVisit_child]
  rw [(h.arena.node id n hn).addVisit_visits (ho.mem hn)] at hvisits
  split at hvisits
  · rename_i hindex
    exact hinj hindex ▸ hchild n hn
  · exact hexp b hb (by omega)

/-- Recomputing a node makes it count its visits. -/
theorem Afloat.recompute (hinj : Function.Injective (toActionIndex : A → ℕ))
    (h : Afloat m₀ flight (id :: loose) m) : Afloat m₀ flight loose (m.recomputeValue id) := by
  have hother : ∀ x, x ≠ id → x ∉ loose → x ∉ id :: loose := by
    intro x hx hout hmem
    rcases List.mem_cons.mp hmem with heq | hin
    · exact hx heq
    · exact hout hin
  cases hnode : m.getNode id with
  | none =>
    rw [recomputeValue_none hnode]
    refine ⟨h.ext, h.batch, h.arena, h.offers, h.booked, h.expanded, fun x n hn hx => ?_⟩
    apply h.counted x n hn
    apply hother x _ hx
    rintro rfl
    exact absurd (hnode.symm.trans hn) (by simp)
  | some found =>
    rw [recomputeValue_some hnode]
    refine h.gentle (gentle_setValue _ _) (fun n hn => (h.arena.node id n hn).setValue _ _)
      h.offers (h.booked id) (fun _ _ _ => rfl) (fun _ _ hexp => hexp) (fun n hn _ hzero _ => ?_)
      hother
    rw [hnode, Option.some.injEq] at hn
    subst hn
    have hlosses : found.totalLosses = 0 := hzero
    show 1 + weight found = 1 + found.totalVisits
    rw [weight_eq (h.arena.node id found hnode) hinj (h.expanded id found hnode), hlosses,
      Nat.add_zero]

/-- Linking an edge that has no child yet to a stored node. -/
theorem Afloat.setChild (hinj : Function.Injective (toActionIndex : A → ℕ))
    (h : Afloat m₀ flight loose m) (ho : Offers m id a) {leaf : NodeId}
    (hnone : ∀ n, m.getNode id = some n → n.child a = none) (hleaf : m.nodeExists leaf = true) :
    Afloat m₀ flight loose (m.updateNode id (·.setChild a leaf)) := by
  have hm := h.arena.indexed
  have hwell := fun n (hn : m.getNode id = some n) => h.arena.node id n hn
  have hext : Extends m (m.updateNode id (·.setChild a leaf)) := by
    refine Extends.updateNode hm id (fun _ => rfl) fun n b c hn hc => ?_
    rw [(hwell n hn).setChild_child (ho.mem hn), if_neg]
    · exact hc
    · intro hindex
      rw [← hinj hindex, hnone n hn] at hc
      exact absurd hc (by simp)
  have horigin : ∀ x n', (m.updateNode id (·.setChild a leaf)).getNode x = some n' →
      ∃ n, m.getNode x = some n ∧ n'.virtualLosses = n.virtualLosses ∧
        n'.edgeVisits = n.edgeVisits ∧ n'.nodeVisits = n.nodeVisits := by
    intro x n' hn'
    rcases updateNode_found hm hn' with ⟨n, rfl, hn, rfl⟩ | ⟨_, hn'⟩
    · exact ⟨n, hn, rfl, rfl, rfl⟩
    · exact ⟨n', hn', rfl, rfl, rfl⟩
  refine ⟨h.ext.trans hext, (updateNode_batchSize m id _).trans h.batch,
    h.arena.updateNode (fun _ => rfl) (fun n hn => (hwell n hn).setChild (ho.mem hn) leaf)
      (fun n i c hn hc => ?_), fun e he => hext.offers (h.offers e he), fun x n' hn' k => ?_,
    h.expanded.updateNode hm fun n hn b hb hvisits => ?_, fun x n' hn' hx hzero hpos => ?_⟩
  · rw [Node.setChild_children, Dense.getD_set] at hc
    split at hc
    · exact Option.some.inj hc ▸ hleaf
    · exact h.arena.linked id n i c hn hc
  · obtain ⟨n, hn, hlosses, _, _⟩ := horigin x n' hn'
    rw [hlosses, h.booked x n hn k]
  · rw [(hwell n hn).setChild_child (ho.mem hn)]
    split
    · simp
    · exact h.expanded id n hn b hb hvisits
  · obtain ⟨n, hn, hlosses, hvisits, hcount⟩ := horigin x n' hn'
    rw [Node.totalLosses, hlosses] at hzero
    rw [Node.totalVisits, hvisits] at hpos ⊢
    rw [hcount]
    exact h.counted x n hn hx hzero hpos

/-- Creating a node under a fresh id. -/
theorem Afloat.createNode [Environment E A O] [LinearOrder F] (hE : LawfulEnvironment E A)
    (h : Afloat m₀ flight loose m) (order : IterationOrder (Σ _ : A, F)) {env : E}
    (priors : HashMap A F) (value : F) (hfresh : m.nodeExists (hash env) = false)
    (hkeys : ∀ a ∈ priors, a ∈ validActions env) :
    Afloat m₀ flight loose (MCTS.createNode order env priors value m) := by
  have hm := h.arena.indexed
  have hwell := h.arena.createNode hE order env priors value hfresh hkeys
  obtain ⟨node, heq, hnode⟩ := createNode_fresh order env priors value m
  rw [heq] at hwell ⊢
  have hext : Extends m (m.insertNode (hash env) node) := Extends.insertNode hm hfresh node
  have hvisits : node.totalVisits = 0 := (Dense.sum_eq_zero_iff_getD _).mpr hnode.visits
  refine ⟨h.ext.trans hext, h.batch, hwell, fun e he => hext.offers (h.offers e he),
    fun x n hn k => ?_, h.expanded.insertNode hm fun a _ hpos => ?_, fun x n hn hx hzero hpos => ?_⟩
  · rcases insertNode_found hm hn with ⟨rfl, rfl⟩ | ⟨_, hn⟩
    · rw [hnode.losses, inFlight_off]
      intro hmem
      obtain ⟨e, he, hid⟩ := List.mem_map.mp hmem
      obtain ⟨n, hn, _⟩ := h.offers e he
      rw [hid, (getNode_eq_none_iff hm).mpr hfresh] at hn
      exact absurd hn (by simp)
    · exact h.booked x n hn k
  · rw [Node.visits, hnode.visits] at hpos
    exact absurd hpos (by omega)
  · rcases insertNode_found hm hn with ⟨_, rfl⟩ | ⟨_, hn⟩
    · rw [hvisits] at hpos
      exact absurd hpos (by omega)
    · exact h.counted x n hn hx hzero hpos

end Flight

end Mcts.Flights
