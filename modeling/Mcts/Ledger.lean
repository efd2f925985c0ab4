import Mcts.Transposition
import Mathlib.Algebra.Order.Floor.Div
import Mathlib.GroupTheory.GroupAction.Ring

/-!
The books of a run. Virtual losses count the edges in flight, the root's visits
count the simulations backed up, and a node without virtual losses has one visit
more than its edges. The entries balance at every turn, on shared and cyclic
graphs, whatever way a simulation ends.
-/
namespace Mcts.Ledger

open Program Prog Environments Nodes Engine Arena Rerooting SearchRun ArenaInvariant Walks
open Selection Backup Expansion Turns Updates Transposition Recomputation

variable {E A O F : Type} [Act A]

section Accounts

variable [Field F]

structure Accounts (n : Node A F) : Prop where
  linked : ∀ a ∈ n.validActions, 0 < n.visits a → n.child a ≠ none
  settled : n.totalLosses = 0 → 0 < n.totalVisits → n.nodeVisits = 1 + n.totalVisits
  unvisited : n.totalVisits = 0 → n.nodeVisits = 0

/-- Where visited edges are expanded, the denominator counts all visits. -/
theorem weight_eq {n : Node A F} (hn : n.WellFormed)
    (hinj : Function.Injective (toActionIndex : A → ℕ))
    (h : ∀ a ∈ n.validActions, 0 < n.visits a → n.child a ≠ none) :
    weight n = n.totalVisits + n.totalLosses := by
  have hunvisited : ∀ a ∈ n.validActions, n.child a = none → n.visits a = 0 := by
    intro a ha hnone
    by_contra hpos
    exact h a ha (Nat.pos_of_ne_zero hpos) hnone
  rw [weight, linkedVisits, sum_childData n _ n.visits (fun _ _ _ => rfl) hunvisited,
    ← hn.totalVisits_eq hinj]

variable {n n' : Node A F} {a : A}

theorem Accounts.addVirtualLoss (hn : n.WellFormed) (ha : a ∈ n.validActions) (h : Accounts n) :
    Accounts (n.addVirtualLoss a) where
  linked := h.linked
  settled hzero := by
    rw [hn.addVirtualLoss_totalLosses ha] at hzero
    exact absurd hzero (by omega)
  unvisited := h.unvisited

theorem Accounts.setChild (hn : n.WellFormed) (ha : a ∈ n.validActions) (h : Accounts n)
    (c : NodeId) : Accounts (n.setChild a c) where
  linked b hb hvisits := by
    rw [hn.setChild_child ha]
    split
    · simp
    · exact h.linked b hb hvisits
  settled := h.settled
  unvisited := h.unvisited

/-- A backup through an expanded edge settles the node. -/
theorem Accounts.backedUp (hinj : Function.Injective (toActionIndex : A → ℕ))
    (hn : n.WellFormed) (hn' : n'.WellFormed) (ha : a ∈ n.validActions) (hchild : n.child a ≠ none)
    (hback : BackedUp n n' a) (h : Accounts n) : Accounts n' := by
  have hchildren : ∀ b, n'.child b = n.child b := fun b => by
    rw [Node.child, hback.children]
    rfl
  have hlinked : ∀ b ∈ n'.validActions, 0 < n'.visits b → n'.child b ≠ none := by
    intro b hb hvisits
    rw [hback.valid] at hb
    rw [hchildren]
    have hvisit : n'.visits b = (n.addVisit a).visits b := by rw [Node.visits, hback.visits]; rfl
    rw [hvisit, hn.addVisit_visits ha] at hvisits
    split at hvisits
    · rename_i hindex
      exact hinj hindex ▸ hchild
    · exact h.linked b hb (by omega)
  have htotal : n'.totalVisits = n.totalVisits + 1 := by
    rw [← hn.addVisit_totalVisits ha, Node.totalVisits, hback.visits]
    rfl
  refine ⟨hlinked, fun hzero _ => ?_, fun hzero => absurd hzero (by omega)⟩
  rw [hback.nodeVisits, weight_eq hn' hinj hlinked, hzero, Nat.add_zero]

end Accounts

section Flight

variable {m : MCTS A F} {root : NodeId} {path flight : List (NodeId × A)}

def inFlight (flight : List (NodeId × A)) (id : NodeId) (k : ℕ) : ℕ :=
  flight.countP fun e => e.1 == id && toActionIndex e.2 == k

theorem inFlight_append (left right : List (NodeId × A)) (id : NodeId) (k : ℕ) :
    inFlight (left ++ right) id k = inFlight left id k + inFlight right id k :=
  List.countP_append

theorem inFlight_off {id : NodeId} (hid : id ∉ path.map (·.1)) (k : ℕ) :
    inFlight path id k = 0 := by
  apply List.countP_eq_zero.mpr
  intro e he
  have hne : e.1 ≠ id := fun heq => hid (List.mem_map.mpr ⟨e, he, heq⟩)
  simp [hne]

theorem inFlight_on (hnodup : (path.map (·.1)).Nodup) {id : NodeId} {b : A} (he : (id, b) ∈ path)
    (k : ℕ) : inFlight path id k = if toActionIndex b = k then 1 else 0 := by
  obtain ⟨front, rest, rfl⟩ := List.append_of_mem he
  rw [List.map_append, List.map_cons, List.nodup_append, List.nodup_cons] at hnodup
  obtain ⟨_, ⟨hrest, _⟩, hdisjoint⟩ := hnodup
  have hfront : id ∉ front.map (·.1) := fun h => hdisjoint _ h _ List.mem_cons_self rfl
  rw [inFlight_append, inFlight_off hfront, Nat.zero_add]
  have hsplit : inFlight ((id, b) :: rest) id k =
      inFlight [(id, b)] id k + inFlight rest id k := inFlight_append [(id, b)] rest id k
  rw [hsplit, inFlight_off hrest, Nat.add_zero]
  simp [inFlight, List.countP_cons]

/-- The virtual losses of every node count the edges in flight. -/
def Booked (flight : List (NodeId × A)) (m : MCTS A F) : Prop :=
  ∀ id n, m.getNode id = some n → ∀ k, n.virtualLosses.getD k 0 = inFlight flight id k

theorem booked_comm {left right : List (NodeId × A)} (h : Booked (left ++ right) m) :
    Booked (right ++ left) m := by
  intro id n hn k
  rw [h id n hn k, inFlight_append, inFlight_append, Nat.add_comm]

theorem booked_addLosses [Field F] (hm : WellFormed m) (hnodup : (path.map (·.1)).Nodup)
    (hpath : ∀ e ∈ path, Offers m e.1 e.2) (h : Booked flight m) :
    Booked (flight ++ path) (addLosses path m) := by
  intro id n' hn' k
  rw [inFlight_append]
  obtain ⟨n, hn, ⟨hoff, rfl⟩ | ⟨b, hb, rfl⟩⟩ := addLosses_origin hm.indexed hnodup hn'
  · rw [h id n' hn k, inFlight_off hoff, Nat.add_zero]
  · have hlt := (hm.node id n hn).losses_lt ((hpath _ hb).mem hn)
    rw [inFlight_on hnodup hb, Node.addVirtualLoss_virtualLosses, Dense.getD_modify, ← h id n hn k]
    by_cases hk : toActionIndex b = k
    · subst hk
      simp [hlt]
    · simp [hk]

theorem booked_backup [Field F] (hm : Indexed m) (hnodup : (path.map (·.1)).Nodup)
    (hpath : ∀ e ∈ path, Offers m e.1 e.2) (repeated : Bool) (h : Booked (path ++ flight) m) :
    Booked flight (backup path repeated m) := by
  intro id n' hn' k
  obtain ⟨n, hn, ⟨hoff, rfl⟩ | ⟨b, hb, hback⟩⟩ := backup_origin hm hnodup hpath hn'
  · rw [h id n' hn k, inFlight_append, inFlight_off hoff, Nat.zero_add]
  · have hbooked := h id n hn k
    rw [inFlight_append, inFlight_on hnodup hb] at hbooked
    rw [hback.losses, Node.revertVirtualLoss_losses, hbooked, Nat.add_sub_cancel_left]

/-- The root's visits, if it has anything to play. -/
def RootVisits (root : NodeId) (total : ℕ) (m : MCTS A F) : Prop :=
  ∀ n, m.getNode root = some n → n.validActions ≠ [] → n.totalVisits = total

theorem rootVisits_addLosses (hm : Indexed m) (hnodup : (path.map (·.1)).Nodup) {total : ℕ}
    (h : RootVisits root total m) : RootVisits root total (addLosses path m) := by
  intro n' hn' hvalid
  obtain ⟨n, hn, ⟨_, rfl⟩ | ⟨b, _, rfl⟩⟩ := addLosses_origin hm hnodup hn'
  · exact h n' hn hvalid
  · exact h n hn hvalid

/-- Every backup books one visit of the root. -/
theorem rootVisits_backup [Field F] (hm : WellFormed m) (hnodup : (path.map (·.1)).Nodup)
    (hpath : ∀ e ∈ path, Offers m e.1 e.2) {b : A} {rest : List (NodeId × A)}
    (hhead : path = (root, b) :: rest) (repeated : Bool) {total : ℕ}
    (h : RootVisits root total m) : RootVisits root (total + 1) (backup path repeated m) := by
  have hmem : (root, b) ∈ path := by rw [hhead]; exact List.mem_cons_self
  intro n' hn' hvalid
  obtain ⟨n, hn, ⟨hoff, _⟩ | ⟨c, hc, hback⟩⟩ := backup_origin hm.indexed hnodup hpath hn'
  · exact absurd (List.mem_map_of_mem hmem) hoff
  · rw [hback.valid] at hvalid
    have htotal := (hm.node root n hn).addVisit_totalVisits ((hpath _ hc).mem hn)
    rw [Node.totalVisits, hback.visits, ← h n hn hvalid, ← htotal]
    rfl

end Flight

variable [Environment E A O] [DecidableEq A] [Field F] [LinearOrder F]

section Balance

variable {S : Set E} {i : RunInput E A O F} {m : MCTS A F} {root : NodeId} {env : E}
variable {path : List (NodeId × A)} {parent : NodeId} {a : A} {g : E}

def Linked (m : MCTS A F) (path : List (NodeId × A)) : Prop :=
  ∀ e ∈ path, ∀ n, m.getNode e.1 = some n → n.child e.2 ≠ none

omit [DecidableEq A] [Field F] [LinearOrder F] in
/-- The edges of a selection are expanded as soon as the last one is. -/
theorem taken_linked (htaken : Taken m root env path parent a g) {n : Node A F}
    (hn : m.getNode parent = some n) (hchild : n.child a ≠ none) : Linked m path := by
  obtain ⟨hw, _, _, _, _⟩ := htaken
  intro e he found hfound
  rcases List.mem_append.mp he with he | he
  · obtain ⟨n', c, hn', hc⟩ := hw.linked e he
    rw [hfound, Option.some.injEq] at hn'
    rw [hn', hc]
    simp
  · rw [List.mem_singleton.mp he] at hfound ⊢
    rw [hn, Option.some.injEq] at hfound
    exact hfound ▸ hchild

omit [DecidableEq A] [LinearOrder F] [Environment E A O] in
theorem accounts_addLosses (hm : WellFormed m) (hnodup : (path.map (·.1)).Nodup)
    (hpath : ∀ e ∈ path, Offers m e.1 e.2) (h : Everywhere Accounts m) :
    Everywhere Accounts (addLosses path m) := by
  intro id n' hn'
  obtain ⟨n, hn, ⟨_, rfl⟩ | ⟨b, hb, rfl⟩⟩ := addLosses_origin hm.indexed hnodup hn'
  · exact h id n' hn
  · exact (h id n hn).addVirtualLoss (hm.node id n hn) ((hpath _ hb).mem hn)

omit [DecidableEq A] [LinearOrder F] in
theorem accounts_backup (hinj : Function.Injective (toActionIndex : A → ℕ)) (hm : WellFormed m)
    (ht : Truthful S m) (hnodup : (path.map (·.1)).Nodup) (hpath : ∀ e ∈ path, Offers m e.1 e.2)
    (hlinked : Linked m path) (repeated : Bool) (h : Everywhere Accounts m) :
    Everywhere Accounts (backup path repeated m) := by
  have hm' := (backup_carries path repeated hm ht hpath).arena
  intro id n' hn'
  obtain ⟨n, hn, ⟨_, rfl⟩ | ⟨b, hb, hback⟩⟩ := backup_origin hm.indexed hnodup hpath hn'
  · exact h id n' hn
  · exact (h id n hn).backedUp hinj (hm.node id n hn) (hm'.node id n' hn') ((hpath _ hb).mem hn)
      (hlinked _ hb n hn) hback

omit [DecidableEq A] in
theorem accounts_fresh {env : E} {priors : HashMap A F} {value : F} {n : Node A F}
    (h : Fresh env priors value n) : Accounts n where
  linked b _ hvisits := by
    rw [Node.visits, h.visits] at hvisits
    exact absurd hvisits (by omega)
  settled _ hvisits := by
    rw [Node.totalVisits, (Dense.sum_eq_zero_iff_getD _).mpr h.visits] at hvisits
    exact absurd hvisits (by omega)
  unvisited _ := h.nodeVisits

theorem accounts_expanded (hm : WellFormed m) (ho : Offers m parent a)
    (order : IterationOrder (Σ _ : A, F)) (g : E) (priors : HashMap A F) (value : F)
    (h : Everywhere Accounts m) :
    Everywhere Accounts (expanded order parent a g priors value m) := by
  intro id n' hn'
  rcases expanded_origin hm.indexed ho order priors value hn' with
    ⟨n, hn, rfl | ⟨rfl, _, rfl⟩⟩ | ⟨_, _, hfresh⟩
  · exact h id n' hn
  · exact (h id n hn).setChild (hm.node id n hn) (ho.mem hn) _
  · exact accounts_fresh hfresh

/-- Expanding the last edge of a selection expands all its edges. -/
theorem expanded_linked (hE : LawfulEnvironment E A) (hS : SoundHash S) (henv : env ∈ S)
    (hroot : hash env = root) (hm : WellFormed m) (ht : Truthful S m)
    (htaken : Taken m root env path parent a g) (order : IterationOrder (Σ _ : A, F))
    (priors : HashMap A F) (value : F) :
    Linked (expanded order parent a g priors value m) path := by
  obtain ⟨before, hb, hid, hrun, ha, rfl, hg⟩ := htaken.sync hS ht henv hroot
  have ho := htaken.offers _ htaken.last_mem
  have hcarry := expanded_carries hE hS hm ht order hb hid hrun ha hg ho priors value
  obtain ⟨n, hn, hc⟩ := expanded_child hE hS hm ht order hb hid hg ho priors value
  exact taken_linked (htaken.extends hcarry.ext) hn (by simp [hc])

/-- Expansion and backup of a selection keep the accounts. -/
theorem accounts_expanded_backup (hE : LawfulEnvironment E A) (hS : SoundHash S)
    (henv : i.env ∈ S) (hm : WellFormed m) (ht : Truthful S m)
    (htaken : Taken m (hash i.env) i.env path parent a g) (priors : HashMap A F) (value : F)
    (h : Everywhere Accounts m) :
    Everywhere Accounts (backup path false (expanded i.order parent a g priors value m)) := by
  have hlinked := expanded_linked hE hS henv rfl hm ht htaken i.order priors value
  obtain ⟨before, hb, hid, hrun, ha, rfl, hg⟩ := htaken.sync hS ht henv rfl
  have ho := htaken.offers _ htaken.last_mem
  have hcarry := expanded_carries hE hS hm ht i.order hb hid hrun ha hg ho priors value
  exact accounts_backup hE.index_injective hcarry.arena hcarry.truth
    (htaken.nodup hS ht henv rfl) (htaken.extends hcarry.ext).offers hlinked false
    (accounts_expanded hm ho i.order _ priors value h)

omit [DecidableEq A] [Field F] [LinearOrder F] in
/-- A selection flagged as a repeat has all its edges expanded. -/
theorem repeated_linked {w : Walk A E} (hsel : Selected m root env w)
    (htaken : Taken m root env w.path parent a w.game) (hrepeat : w.repeatDetected = true) :
    Linked m w.path := by
  cases hsel with
  | idle hpath _ _ =>
    obtain ⟨b, rest, hcons⟩ := htaken.head
    exact absurd (hpath.symm.trans hcons) (by simp)
  | fresh _ _ _ _ _ hfalse => exact absurd (hrepeat.symm.trans hfalse) (by simp)
  | stopped _ _ _ _ _ hfalse _ => exact absurd (hrepeat.symm.trans hfalse) (by simp)
  | repeated _ _ htaken' hn hc _ _ => exact taken_linked htaken' hn (by simp [hc])

/-- The accounts are an invariant of the turns, with any client. -/
theorem accounts_invariant (hE : LawfulEnvironment E A) (hS : SoundHash S) (henv : i.env ∈ S)
    (B : ℕ) : Invariant S i B fun _ _ m => Everywhere Accounts m where
  turn n pending m w r m' hst _ _ h hsel hturn := by
    cases hturn with
    | idle _ => exact h
    | repeated htaken hrepeat =>
      have hnodup := htaken.nodup hS hst.truth henv rfl
      have hloss := addLosses_carries w.path hst.arena hst.truth htaken.offers
      have hlinked := repeated_linked hsel htaken hrepeat
      have hlater : Linked (addLosses w.path m) w.path := by
        intro e he n' hn'
        obtain ⟨n, hn, ⟨_, rfl⟩ | ⟨b, _, rfl⟩⟩ := addLosses_origin hst.arena.indexed hnodup hn'
        · exact hlinked e he n' hn
        · exact hlinked e he n hn
      exact accounts_backup hE.index_injective hloss.arena hloss.truth hnodup
        (htaken.extends hloss.ext).offers hlater true
        (accounts_addLosses hst.arena hnodup htaken.offers h)
    | terminal htaken _ _ =>
      have hnodup := htaken.nodup hS hst.truth henv rfl
      have hloss := addLosses_carries w.path hst.arena hst.truth htaken.offers
      exact accounts_expanded_backup hE hS henv hloss.arena hloss.truth
        (htaken.extends hloss.ext) _ _ (accounts_addLosses hst.arena hnodup htaken.offers h)
    | selected htaken _ _ =>
      exact accounts_addLosses hst.arena (htaken.nodup hS hst.truth henv rfl) htaken.offers h
  answer n p pending m priors value hst h :=
    accounts_expanded_backup hE hS henv hst.arena hst.truth (hst.taken p List.mem_cons_self)
      priors value h
  drop _ _ _ _ _ h := h

end Balance

section Sessions

variable [Roots F] {S : Set E} {C : RunInput E A O F → Prop} {s : Search A E F}

omit [DecidableEq A] [Roots F] in
theorem accounts_rootMade {i : RunInput E A O F} {m m' : MCTS A F} (hm : Indexed m)
    (h : Everywhere Accounts m) (hmade : RootMade i m m') : Everywhere Accounts m' := by
  cases hmade with
  | found _ => exact h
  | made _ priors value _ =>
    obtain ⟨n, heq, hn⟩ := createNode_fresh i.order i.env priors value m
    exact heq ▸ h.insertNode hm (accounts_fresh hn)

/-- The accounts hold between the calls of every session. -/
theorem session_accounts (hE : LawfulEnvironment E A) (hS : SoundHash S)
    (hC : ∀ i, C i → On S i) (h : Session C s) : Everywhere Accounts s.mcts := by
  induction h with
  | new batchSize hpos =>
    intro id n hn
    exact absurd hn (by simp [MCTS.getNode, MCTS.new])
  | run hs hi hrun ih =>
    rename_i s t i node
    obtain ⟨hm, ht, hlog⟩ := session_truthful hE hS hC hs
    have hindexed : Indexed (s.mcts.setRoot (some (hash i.env))) := hm.indexed
    have hsetRoot : Everywhere Accounts (s.mcts.setRoot (some (hash i.env))) := ih.congr rfl rfl
    obtain ⟨m, hat, _, _, _, hdone⟩ := (run_rule hE hS (hC i hi) hm ht rfl
      (accounts_invariant hE hS (hC i hi) _)
      fun m' hmade _ => accounts_rootMade hindexed hsetRoot hmade).returned ⟨rfl, hlog⟩ hrun
    rw [hat.mcts]
    rcases hdone with ⟨_, hmade⟩ | ⟨_, m', hj, rfl⟩
    · exact accounts_rootMade hindexed hsetRoot hmade
    · exact hj.congr rfl rfl
  | advanceRoot a hs ih => exact ih.advanceRoot (session_truthful hE hS hC hs).1.indexed a
  | perturbRootPrior noise epsilon hs ih => exact ih.congr rfl rfl

end Sessions

section Run

variable {S : Set E} {i : RunInput E A O F} {m : MCTS A F} {root parent : NodeId}
variable {flight : List (NodeId × A)} {a : A}

theorem booked_expanded (hm : Indexed m) (hflight : ∀ e ∈ flight, Offers m e.1 e.2)
    (ho : Offers m parent a) (order : IterationOrder (Σ _ : A, F)) (g : E)
    (priors : HashMap A F) (value : F) (h : Booked flight m) :
    Booked flight (expanded order parent a g priors value m) := by
  intro id n' hn' k
  rcases expanded_origin hm ho order priors value hn' with
    ⟨n, hn, rfl | ⟨rfl, _, rfl⟩⟩ | ⟨rfl, hnew, hfresh⟩
  · exact h id n' hn k
  · exact h id n hn k
  · rw [hfresh.losses, inFlight_off]
    rintro hmem
    obtain ⟨e, he, heq⟩ := List.mem_map.mp hmem
    obtain ⟨n, hn, _⟩ := hflight e he
    rw [heq, (getNode_eq_none_iff hm).mpr hnew] at hn
    exact absurd hn (by simp)

theorem rootVisits_expanded (hm : Indexed m) (hroot : m.nodeExists root = true)
    (ho : Offers m parent a) (order : IterationOrder (Σ _ : A, F)) (g : E)
    (priors : HashMap A F) (value : F) {total : ℕ} (h : RootVisits root total m) :
    RootVisits root total (expanded order parent a g priors value m) := by
  intro n' hn' hvalid
  rcases expanded_origin hm ho order priors value hn' with
    ⟨n, hn, rfl | ⟨_, _, rfl⟩⟩ | ⟨_, hnew, _⟩
  · exact h n' hn hvalid
  · exact h n hn hvalid
  · exact absurd (hroot.symm.trans hnew) (by simp)

/-- The books between two turns of a run that began with `base` visits of the
root and `size` nodes, `n` simulations into it. -/
structure Books (i : RunInput E A O F) (base size n : ℕ) (pending : List (PendingInference A E))
    (m : MCTS A F) : Prop where
  booked : Booked (pending.flatMap (·.path)) m
  root : ∃ total, RootVisits (hash i.env) total m ∧ total + pending.length = base + n
  size : m.nodes.length + pending.length ≤ size + n

omit [LinearOrder F] [DecidableEq A] in
/-- Backing up the path of a selection clears it from the books. -/
theorem books_backup (hm : WellFormed m) {path flight : List (NodeId × A)} {parent : NodeId} {a : A}
    {g : E} (htaken : Taken m (hash i.env) i.env path parent a g)
    (hnodup : (path.map (·.1)).Nodup) (repeated : Bool) {total : ℕ}
    (hbooked : Booked (path ++ flight) m) (hroot : RootVisits (hash i.env) total m) :
    Booked flight (backup path repeated m) ∧
      RootVisits (hash i.env) (total + 1) (backup path repeated m) := by
  obtain ⟨b, rest, hhead⟩ := htaken.head
  exact ⟨booked_backup hm.indexed hnodup htaken.offers repeated hbooked,
    rootVisits_backup hm hnodup htaken.offers hhead repeated hroot⟩

/-- Expanding the leaf of a selection and backing it up does so too, and adds
at most one node. -/
theorem books_expanded_backup (hE : LawfulEnvironment E A) (hS : SoundHash S)
    (henv : i.env ∈ S) (hm : WellFormed m) (ht : Truthful S m)
    (hroot : m.nodeExists (hash i.env) = true) {path flight : List (NodeId × A)}
    {parent : NodeId} {a : A} {g : E} (htaken : Taken m (hash i.env) i.env path parent a g)
    (hflight : ∀ e ∈ flight, Offers m e.1 e.2) (priors : HashMap A F) (value : F) {total : ℕ}
    (hbooked : Booked (path ++ flight) m) (hvisits : RootVisits (hash i.env) total m) :
    Booked flight (backup path false (expanded i.order parent a g priors value m)) ∧
      RootVisits (hash i.env) (total + 1)
        (backup path false (expanded i.order parent a g priors value m)) := by
  have hnodup := htaken.nodup hS ht henv rfl
  have ho := htaken.offers _ htaken.last_mem
  obtain ⟨before, hb, hid, hrun, ha, rfl, hg⟩ := htaken.sync hS ht henv rfl
  have hcarry := expanded_carries hE hS hm ht i.order hb hid hrun ha hg ho priors value
  refine books_backup hcarry.arena (htaken.extends hcarry.ext) hnodup false
    (booked_expanded hm.indexed (fun e he => ?_) ho _ _ priors value hbooked)
    (rootVisits_expanded hm.indexed hroot ho _ _ priors value hvisits)
  rcases List.mem_append.mp he with he | he
  · exact htaken.offers e he
  · exact hflight e he

omit [DecidableEq A] [LinearOrder F] in
theorem pending_offers {pending : List (PendingInference A E)} (hst : Standing S i pending m) :
    ∀ e ∈ pending.flatMap (·.path), Offers m e.1 e.2 := by
  intro e he
  obtain ⟨p, hp, he⟩ := List.mem_flatMap.mp he
  exact (hst.taken p hp).offers e he

/-- The books balance at every turn of a run on a live root. -/
theorem books_invariant (hE : LawfulEnvironment E A) (hS : SoundHash S) (henv : i.env ∈ S)
    (hrun : done i.env = false) (hans : Answering i) (base size B : ℕ) :
    Invariant S i B (Books i base size) where
  turn n pending m w r m' hst _ _ h hsel hturn := by
    obtain ⟨total, hvisits, htotal⟩ := h.root
    have hflight := pending_offers hst
    have hsize := h.size
    cases hturn with
    | idle hidle =>
      obtain ⟨root, hroot, hnothing⟩ := hsel.stuck hidle hrun hst.root
      refine ⟨by simpa using h.booked, ⟨total + 1, fun found hfound hvalid => ?_, ?_⟩, ?_⟩
      · rw [hroot, Option.some.injEq] at hfound
        exact absurd (hfound ▸ hnothing) hvalid
      · simp only [Option.toList_none, List.append_nil]
        omega
      · simp only [Option.toList_none, List.append_nil]
        omega
    | repeated htaken _ =>
      have hnodup := htaken.nodup hS hst.truth henv rfl
      have hloss := addLosses_carries w.path hst.arena hst.truth htaken.offers
      obtain ⟨hbooked, hroot⟩ := books_backup hloss.arena (htaken.extends hloss.ext) hnodup true
        (booked_comm (booked_addLosses hst.arena hnodup htaken.offers h.booked))
        (rootVisits_addLosses hst.arena.indexed hnodup hvisits)
      refine ⟨by simpa using hbooked, ⟨total + 1, hroot, ?_⟩, ?_⟩
      · simp only [Option.toList_none, List.append_nil]
        omega
      · rw [backup_length, addLosses, (along_fixed _ _).2]
        simp only [Option.toList_none, List.append_nil]
        omega
    | @terminal parent a htaken _ _ =>
      have hnodup := htaken.nodup hS hst.truth henv rfl
      have hloss := addLosses_carries w.path hst.arena hst.truth htaken.offers
      have hstanding := hst.carry hloss
      obtain ⟨hbooked, hroot⟩ := books_expanded_backup hE hS henv hloss.arena hloss.truth
        hstanding.root (htaken.extends hloss.ext) (fun e he => hloss.ext.offers (hflight e he))
        ∅ (i.terminalEvaluator w.game)
        (booked_comm (booked_addLosses hst.arena hnodup htaken.offers h.booked))
        (rootVisits_addLosses hst.arena.indexed hnodup hvisits)
      refine ⟨by simpa using hbooked, ⟨total + 1, hroot, ?_⟩, ?_⟩
      · simp only [Option.toList_none, List.append_nil]
        omega
      · have hlength := expanded_length i.order parent a w.game ∅
          (i.terminalEvaluator w.game) (addLosses w.path m)
        rw [addLosses, (along_fixed _ _).2] at hlength
        rw [backup_length, addLosses]
        simp only [Option.toList_none, List.append_nil]
        omega
    | selected htaken _ _ =>
      have hnodup := htaken.nodup hS hst.truth henv rfl
      refine ⟨?_, ⟨total, rootVisits_addLosses hst.arena.indexed hnodup hvisits, ?_⟩, ?_⟩
      · simpa using booked_addLosses hst.arena hnodup htaken.offers h.booked
      · simp only [Option.toList_some, List.length_append, List.length_singleton]
        omega
      · rw [addLosses, (along_fixed _ _).2]
        simp only [Option.toList_some, List.length_append, List.length_singleton]
        omega
  answer n p pending m priors value hst h := by
    obtain ⟨total, hvisits, htotal⟩ := h.root
    have hsize := h.size
    rw [List.length_cons] at htotal hsize
    have hflight : ∀ e ∈ pending.flatMap (·.path), Offers m e.1 e.2 := by
      intro e he
      exact pending_offers hst e (by simp [he])
    obtain ⟨hbooked, hroot⟩ := books_expanded_backup hE hS henv hst.arena hst.truth hst.root
      (hst.taken p List.mem_cons_self) hflight priors value h.booked hvisits
    refine ⟨hbooked, ⟨total + 1, hroot, by omega⟩, ?_⟩
    have hlength := expanded_length i.order p.parentId p.action p.env priors value m
    rw [answered, backup_length]
    omega
  drop hshort := absurd hans hshort

/-- At a finished root, which is only stored, an invariant of the turns has nothing to
hold of, so the books need no live root. -/
theorem books_invariant_any (hE : LawfulEnvironment E A) (hS : SoundHash S) (henv : i.env ∈ S)
    (hans : Answering i) (base size B : ℕ) :
    ∃ J, Invariant S i B J ∧
      (∀ m, Books i base size 0 [] m → done i.env = false → J 0 [] m) ∧
      ∀ n pending m, J n pending m → Books i base size n pending m := by
  cases hrun : done i.env with
  | true =>
    refine ⟨fun _ _ _ => False, ⟨?_, ?_, ?_⟩, by simp, by simp⟩
    · exact fun _ _ _ _ _ _ _ _ _ h _ _ => h
    · exact fun _ _ _ _ _ _ _ h => h
    · exact fun _ _ _ _ _ h => h
  | false =>
    exact ⟨_, books_invariant hE hS henv hrun hans base size B, fun _ h _ => h, fun _ _ _ h => h⟩

def rootVisits (m : MCTS A F) (root : NodeId) : ℕ :=
  match m.getNode root with
  | some n => n.totalVisits
  | none => 0

omit [DecidableEq A] in
theorem books_rootMade {m' : MCTS A F} (hm : Indexed m) (hzero : Booked [] m)
    (hmade : RootMade i m m') :
    Books i (rootVisits m (hash i.env)) (m.nodes.length + 1) 0 [] m' := by
  cases hmade with
  | found hroot =>
    refine ⟨hzero, ⟨_, fun n hn _ => ?_, rfl⟩, by simp⟩
    rw [rootVisits, hn]
  | made hnew priors value _ =>
    obtain ⟨node, heq, hfresh⟩ := createNode_fresh i.order i.env priors value m
    have hnone : m.getNode (hash i.env) = none := (getNode_eq_none_iff hm).mpr hnew
    rw [heq]
    refine ⟨fun id n hn k => ?_, ⟨0, fun n hn _ => ?_, ?_⟩, ?_⟩
    · rcases insertNode_found hm hn with ⟨_, rfl⟩ | ⟨_, hn⟩
      · exact hfresh.losses k
      · exact hzero id n hn k
    · rw [getNode_insertNode hm, if_pos rfl, Option.some.injEq] at hn
      rw [← hn, Node.totalVisits, (Dense.sum_eq_zero_iff_getD _).mpr hfresh.visits]
    · rw [rootVisits, hnone]
      rfl
    · simp [MCTS.insertNode]

omit [DecidableEq A] [Field F] [LinearOrder F] in
theorem booked_nil_iff {m : MCTS A F} (hm : Indexed m) :
    Booked [] m ↔ ∀ n ∈ m.nodes, ∀ k ∈ n.virtualLosses, k = 0 := by
  constructor
  · intro h n hn k hk
    obtain ⟨j, hj⟩ := List.mem_iff_getElem?.mp hk
    simpa [hj, inFlight] using h n.id n (getNode_of_mem hm hn) j
  · intro h id n hn k
    have hmem := ((getNode_eq_some_iff hm).mp hn).1
    change n.virtualLosses.getD k 0 = 0
    by_cases hlt : k < n.virtualLosses.length
    · rw [List.getD_eq_getElem _ _ hlt]
      exact h n hmem _ (List.getElem_mem hlt)
    · exact List.getD_eq_default _ _ (Nat.le_of_not_lt hlt)

variable [Roots F]

/-- The books of a run that an answering client serves, from a state without virtual
losses: it leaves none, it adds no more nodes than a root and a leaf for each
simulation, and with fuel for them it returns. -/
theorem run_books (hE : LawfulEnvironment E A) (hS : SoundHash S) {s : Search A E F} {B : ℕ}
    (hs : Session (On S) s) (hb : s.mcts.batchSize = B) (hclear : Booked [] s.mcts)
    (henv : i.env ∈ S) (hans : Answering i) :
    (∀ node t, run i s = (some node, t) → Booked [] t.mcts ∧ t.mcts.batchSize = B ∧
      t.mcts.nodes.length ≤ s.mcts.nodes.length + 1 + simulations i B) ∧
    (s.mcts.nodes.length + 1 + simulations i B < i.fuel → ∃ node t, run i s = (some node, t)) := by
  obtain ⟨hm, ht, hlog⟩ := session_truthful hE hS (fun _ hi => hi) hs
  have hindexed : Indexed (s.mcts.setRoot (some (hash i.env))) := hm.indexed
  have hmade : ∀ m', RootMade i (s.mcts.setRoot (some (hash i.env))) m' →
      Books i (rootVisits s.mcts (hash i.env)) (s.mcts.nodes.length + 1) 0 [] m' :=
    fun m' hmade => books_rootMade (m := s.mcts.setRoot (some (hash i.env))) hindexed hclear hmade
  obtain ⟨J, hJ, hstart, hbooks⟩ := books_invariant_any hE hS henv hans
    (rootVisits s.mcts (hash i.env)) (s.mcts.nodes.length + 1) B
  have hrule := run_rule hE hS henv hm ht hb hJ fun m' h => hstart m' (hmade m' h)
  constructor
  · intro node t heq
    obtain ⟨m, hat, -, hbatch, -, hdone⟩ := hrule.returned ⟨rfl, hlog⟩ heq
    rw [hat.mcts]
    rcases hdone with ⟨-, h⟩ | ⟨-, m', h, rfl⟩
    · have hsize := (hmade m h).size
      rw [List.length_nil] at hsize
      exact ⟨(hmade m h).booked, hbatch, by omega⟩
    · have hsize := (hbooks _ _ _ h).size
      rw [List.length_nil] at hsize
      exact ⟨(hbooks _ _ _ h).booked, hbatch, hsize⟩
  · intro hfuel
    rcases heq : run i s with ⟨_ | node, t⟩
    · obtain ⟨-, hcut⟩ := hrule.stopped ⟨rfl, hlog⟩ heq
      obtain ⟨n, pending, m, hn, -, h, hshort⟩ := hcut hans
      have hsize := (hbooks _ _ _ h).size
      omega
    · exact ⟨node, t, rfl⟩

/-- The ledger of a run from a state without virtual losses: with fuel for the
nodes there can be it returns; then no loss is left, the root has got one visit
for each simulation of each batch, and every node has counted its visits. -/
theorem run_ledger (hE : LawfulEnvironment E A) (hS : SoundHash S) {s : Search A E F}
    (hs : Session (On S) s) (hzero : ∀ n ∈ s.mcts.nodes, ∀ k ∈ n.virtualLosses, k = 0)
    (henv : i.env ∈ S) (hrun : done i.env = false) (hans : Answering i) :
    (s.mcts.nodes.length + 1 + i.numSteps ⌈/⌉ s.mcts.batchSize * s.mcts.batchSize < i.fuel →
      ∃ node t, run i s = (some node, t)) ∧
    ∀ node t, run i s = (some node, t) → node.validActions ≠ [] →
      (∀ n ∈ t.mcts.nodes, ∀ k ∈ n.virtualLosses, k = 0) ∧
      (t.mcts.getNode (hash i.env) = some node ∧
        node.totalVisits = rootVisits s.mcts (hash i.env) +
          i.numSteps ⌈/⌉ s.mcts.batchSize * s.mcts.batchSize) ∧
      ∀ n ∈ t.mcts.nodes, (0 < n.totalVisits → n.nodeVisits = 1 + n.totalVisits) ∧
        (n.totalVisits = 0 → n.nodeVisits ≤ 1) := by
  have hB := session_batchSize hs
  obtain ⟨hm, ht, hlog⟩ := session_truthful hE hS (fun _ hi => hi) hs
  have haccounts := session_accounts hE hS (fun _ hi => hi) hs
  have hsims : simulations i s.mcts.batchSize =
      i.numSteps ⌈/⌉ s.mcts.batchSize * s.mcts.batchSize := by
    rw [simulations, Nat.max_eq_left hB, Nat.ceilDiv_eq_add_pred_div]
  have hindexed : Indexed (s.mcts.setRoot (some (hash i.env))) := hm.indexed
  have hzeros : Booked [] s.mcts := (booked_nil_iff hm.indexed).mpr hzero
  have hbooked : Booked [] (s.mcts.setRoot (some (hash i.env))) := hzeros
  have hrule := run_rule hE hS henv hm ht rfl
    ((accounts_invariant hE hS henv s.mcts.batchSize).both
      (books_invariant hE hS henv hrun hans (rootVisits s.mcts (hash i.env))
        (s.mcts.nodes.length + 1) s.mcts.batchSize))
    fun m' hmade _ => ⟨accounts_rootMade hindexed (haccounts.congr rfl rfl) hmade,
      books_rootMade (m := s.mcts.setRoot (some (hash i.env))) hindexed hbooked hmade⟩
  constructor
  · intro hfuel
    exact (run_books hE hS hs rfl hzeros henv hans).2 (hsims ▸ hfuel)
  · intro node t heq hvalid
    obtain ⟨m, hat, hst, _, hnode, hdone⟩ := hrule.returned ⟨rfl, hlog⟩ heq
    rcases hdone with ⟨hend, _⟩ | ⟨_, m', ⟨hacc, hbooks⟩, rfl⟩
    · exact absurd (hrun.symm.trans hend) (by simp)
    obtain ⟨total, hvisits, htotal⟩ := hbooks.root
    have hclear : Booked [] m'.clearNoise := hbooks.booked
    rw [hat.mcts]
    refine ⟨(booked_nil_iff hst.arena.indexed).mp hclear, ⟨hnode, ?_⟩, fun n hn => ?_⟩
    · rw [hvisits node hnode hvalid, ← hsims]
      simpa using htotal
    · have hfound := getNode_of_mem hst.arena.indexed hn
      have hn' := hacc n.id n hfound
      have hlosses : n.totalLosses = 0 :=
        (Dense.sum_eq_zero_iff_getD _).mpr (hclear n.id n hfound)
      exact ⟨hn'.settled hlosses, fun hz => by rw [hn'.unvisited hz]; exact Nat.zero_le 1⟩

theorem run_ledger_heapSearch : ∃ node t, run (heapInput 6) heapSearch = (some node, t) ∧
    node.totalVisits = 4 + 6 ⌈/⌉ 2 * 2 := by
  obtain ⟨hreturns, hledger⟩ := run_ledger (i := heapInput 6) heapGame_lawful heapGame_soundHash
    (heapSearch_session (On Set.univ) (Set.mem_univ _)) (by decide +kernel) (Set.mem_univ _)
    (by decide) fun k obs => ⟨_, _, rfl, by simp, by simp⟩
  obtain ⟨node, t, heq⟩ := hreturns (by decide +kernel)
  have hactions : (run (heapInput 6) heapSearch).1.map (·.validActions) = some [true, false] := by
    decide +kernel
  have hvalid : node.validActions ≠ [] := by
    rw [heq, Option.map_some, Option.some.injEq] at hactions
    rw [hactions]
    simp
  have hbefore : rootVisits heapSearch.mcts 0 = 4 := by decide +kernel
  have hsize : heapSearch.mcts.batchSize = 2 := by decide +kernel
  have htotal := (hledger node t heq hvalid).2.1.2
  rw [hsize] at htotal
  exact ⟨node, t, heq, hbefore ▸ htotal⟩

end Run

end Mcts.Ledger
