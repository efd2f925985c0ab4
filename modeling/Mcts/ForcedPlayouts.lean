import Mcts.ShortReplies
import Mcts.PruningRule

/-!
Forced playouts and the batch. A root action is forced while its completed visits
are below the floor; playouts of the batch that are still in flight do not count.
So the visits alone are below the floor at a forced choice, and with the batch's
own playouts in flight the floor is passed by less than their number.
-/
namespace Mcts.ForcedPlayouts

open Program Prog Environments Nodes Engine Arena SearchRun ArenaInvariant Updates
open Ledger Flights Simulations ShortReplies PruningRule

variable {E A O F : Type} [Environment E A O] [Act A] [DecidableEq A]
variable [Field F] [LinearOrder F] [Roots F]

/-- The forced-visit floor of a root action. -/
def nForced (m : MCTS A F) (node : Node A F) (a : A) : F :=
  sqrt (m.kForced * m.effectivePrior node true a * (node.totalVisits : F))

/-- Selection at the root picks the action on an infinite score. -/
def Forced (m : MCTS A F) (root : NodeId) (cPuct : F) (applyForced : Bool) (a : A) : Prop :=
  m.selectActionPuct root cPuct true applyForced = some a ∧
    (m.puctScores root cPuct true applyForced).getD (toActionIndex a) ⊥ = ⊤

section Score

variable {m : MCTS A F} {root : NodeId} {node : Node A F} {cPuct : F} {applyForced : Bool} {a : A}

theorem puctScore_eq_top_iff : m.puctScore node cPuct true applyForced a = ⊤ ↔
    applyForced = true ∧ 0 < node.totalVisits ∧ (node.visits a : F) < nForced m node a := by
  unfold MCTS.puctScore nForced
  dsimp only
  split
  · rename_i h
    exact iff_of_true rfl ⟨h.2.1, h.2.2.1, h.2.2.2⟩
  · rename_i h
    refine iff_of_false (fun htop => ?_) fun hall => h ⟨rfl, hall.1, hall.2.1, hall.2.2⟩
    exact WithTop.coe_ne_top (WithBot.coe_injective htop)

/-- A forced choice has fewer completed visits than its floor. -/
theorem Forced.visits_lt (hinj : Function.Injective (toActionIndex : A → ℕ))
    (hm : WellFormed m) (hnode : m.getNode root = some node)
    (h : Forced m root cPuct applyForced a) :
    applyForced = true ∧ 0 < node.totalVisits ∧ (node.visits a : F) < nForced m node a := by
  obtain ⟨hselect, hscore⟩ := h
  obtain ⟨found, hfound, ha⟩ := m.selectActionPuct_mem root cPuct true applyForced a hselect
  rw [hnode, Option.some.injEq] at hfound
  subst hfound
  rw [puctScores_valid hinj hnode (hm.node root node hnode) cPuct true applyForced ha] at hscore
  exact puctScore_eq_top_iff.mp hscore

end Score

section Batch

variable {C : RunInput E A O F → Prop} {s u v : Search A E F} {i : RunInput E A O F}
variable {pending : List (PendingInference A E)}

/-- Each simulation leaves at most one playout in flight. -/
theorem collect_length (i : RunInput E A O F) (rootId : NodeId) (k : ℕ) :
    Triple (fun _ : Search A E F => True) (collect (simulate i rootId) [] k)
      (fun pending _ => pending.length ≤ k) (fun _ => True) := by
  refine ((Triple.gather (I := fun left (acc : List (PendingInference A E)) _ =>
    acc.length + left ≤ k) (fun left acc => ?_) k []).pre fun _ _ => by simp).post
      fun acc _ hacc => by simpa using hacc
  intro t hlength
  rcases simulate i rootId t with ⟨_ | r, t'⟩
  · trivial
  · show (acc ++ r.toList).length + left ≤ k
    have hr : r.toList.length ≤ 1 := by cases r <;> simp
    rw [List.length_append]
    omega

/-- The losses of an edge where a playout of a batch starts: those outstanding
where the batch started, and the batch's own playouts in flight. -/
theorem losses_in_batch (hE : LawfulEnvironment E A) (h : Session C s) {batch k : ℕ}
    (hbatch : beforeBatch i batch s = (some (), v))
    (hplayouts : collect (simulate i (hash i.env)) [] k v = (some pending, u)) {id : NodeId}
    {start node : Node A F} (hstart : v.mcts.getNode id = some start)
    (hnode : u.mcts.getNode id = some node) (a : A) :
    WellFormed u.mcts ∧ node.losses a =
      start.losses a + inFlight (pending.flatMap (·.path)) id (toActionIndex a) := by
  obtain ⟨dropped, hs⟩ := session_afloat hE h
  obtain ⟨dropped', hv⟩ := beforeBatch_afloat hE hs hbatch
  have hu := (collect_floating hE i (hash i.env) k).returned hv hplayouts
  refine ⟨hu.1.arena, ?_⟩
  have hbefore := hv.booked id start hstart (toActionIndex a)
  have hafter := hu.1.booked id node hnode (toActionIndex a)
  rw [inFlight_append] at hafter
  show node.virtualLosses.getD _ 0 = start.virtualLosses.getD _ 0 + _
  rw [hafter, hbefore, Nat.add_comm]

variable [IsStrictOrderedRing F]

/-- At every playout of every batch: a root action chosen by force has completed
fewer visits than its floor, its losses are those from before the batch and those
of the batch's own playouts, and with the playouts of the batch that went through
it and are in flight it passes the floor by less than `k`, their greatest number. -/
theorem forced_floor (hE : LawfulEnvironment E A) (h : Session C s) {batch k : ℕ}
    (hbatch : beforeBatch i batch s = (some (), v))
    (hplayouts : collect (simulate i (hash i.env)) [] k v = (some pending, u))
    {start node : Node A F} (hstart : v.mcts.getNode (hash i.env) = some start)
    (hnode : u.mcts.getNode (hash i.env) = some node) {a : A}
    (hforced : Forced u.mcts (hash i.env) i.cPuct i.forcedPlayouts a) :
    i.forcedPlayouts = true ∧ (node.visits a : F) < nForced u.mcts node a ∧
      node.losses a =
        start.losses a + inFlight (pending.flatMap (·.path)) (hash i.env) (toActionIndex a) ∧
      pending.length ≤ k ∧
      ((node.visits a + pending.countP fun p => p.path.head? == some (hash i.env, a) : ℕ) : F) <
        nForced u.mcts node a + k := by
  obtain ⟨hwell, hlosses⟩ := losses_in_batch hE h hbatch hplayouts hstart hnode a
  obtain ⟨hon, _, hvisits⟩ := hforced.visits_lt hE.index_injective hwell hnode
  have hlength : pending.length ≤ k :=
    (collect_length i (hash i.env) k).returned trivial hplayouts
  have hcount := (List.countP_le_length (l := pending)
    (p := fun p => p.path.head? == some (hash i.env, a))).trans hlength
  have hcast : ((pending.countP fun p => p.path.head? == some (hash i.env, a) : ℕ) : F) ≤ k := by
    exact_mod_cast hcount
  refine ⟨hon, hvisits, hlosses, hlength, ?_⟩
  rw [Nat.cast_add]
  exact add_lt_add_of_lt_of_le hvisits hcast

end Batch

section HeapGame

def forcedInput : RunInput HeapGame Bool ℕ ℚ := { heapInput 4 with
  client := fun _ obs => some (obs.map fun _ => [⟨false, 1 / 16⟩, ⟨true, 15 / 16⟩].toAList,
    obs.map fun _ => 0)
  forcedPlayouts := true }

def secondBatch : Search Bool HeapGame ℚ := (beforeBatch forcedInput 1 ⟨MCTS.new 2, []⟩).2

def secondPlayout : Search Bool HeapGame ℚ := (collect (simulate forcedInput 0) [] 1 secondBatch).2

theorem secondBatch_reached :
    beforeBatch forcedInput 1 ⟨MCTS.new 2, []⟩ = (some (), secondBatch) :=
  Prod.ext (by decide +kernel) rfl

theorem secondPlayout_reached : ∃ pending,
    collect (simulate forcedInput 0) [] 1 secondBatch = (some pending, secondPlayout) := by
  have hreturns : (collect (simulate forcedInput 0) [] 1 secondBatch).1.isSome = true := by
    decide +kernel
  obtain ⟨pending, hpending⟩ := Option.isSome_iff_exists.mp hreturns
  exact ⟨pending, Prod.ext hpending rfl⟩

theorem secondPlayout_forced : Forced secondPlayout.mcts 0 1 true false :=
  ⟨by decide +kernel, by decide +kernel⟩

theorem forced_floor_secondPlayout : ∃ node, secondPlayout.mcts.getNode 0 = some node ∧
    (node.visits false : ℚ) < nForced secondPlayout.mcts node false := by
  have hstart : (secondBatch.mcts.getNode 0).isSome = true := by decide +kernel
  have hnode : (secondPlayout.mcts.getNode 0).isSome = true := by decide +kernel
  obtain ⟨start, hstart⟩ := Option.isSome_iff_exists.mp hstart
  obtain ⟨node, hnode⟩ := Option.isSome_iff_exists.mp hnode
  obtain ⟨pending, hpending⟩ := secondPlayout_reached
  have hsession : Session (fun _ => True) (⟨MCTS.new 2, []⟩ : Search Bool HeapGame ℚ) :=
    .new 2 (by decide)
  exact ⟨node, hnode, (forced_floor heapGame_lawful hsession secondBatch_reached hpending hstart
    hnode secondPlayout_forced).2.1⟩

/-- Both playouts of the second batch are forced through an edge whose floor is one
half: the one in flight from the first does not count for the second. -/
theorem forced_twice :
    Session (fun _ => True) (⟨MCTS.new 2, []⟩ : Search Bool HeapGame ℚ) ∧
    beforeBatch forcedInput 1 ⟨MCTS.new 2, []⟩ = (some (), secondBatch) ∧
    Forced secondBatch.mcts 0 1 true false ∧
    ∃ pending node, collect (simulate forcedInput 0) [] 1 secondBatch =
        (some pending, secondPlayout) ∧
      secondPlayout.mcts.getNode 0 = some node ∧ Forced secondPlayout.mcts 0 1 true false ∧
      nForced secondPlayout.mcts node false = 1 / 2 ∧
      ¬ ((node.visits false + node.losses false : ℕ) : ℚ) <
        nForced secondPlayout.mcts node false := by
  have hfloor : (secondPlayout.mcts.getNode 0).map (fun node =>
      (nForced secondPlayout.mcts node false, node.visits false + node.losses false)) =
        some (1 / 2, 1) := by decide +kernel
  obtain ⟨node, hnode, heq⟩ := Option.map_eq_some_iff.mp hfloor
  obtain ⟨hfloor, hcount⟩ := Prod.mk.inj heq
  obtain ⟨pending, hpending⟩ := secondPlayout_reached
  refine ⟨.new 2 (by decide), secondBatch_reached, ⟨by decide +kernel, by decide +kernel⟩, pending,
    node, hpending, hnode, secondPlayout_forced, hfloor, ?_⟩
  rw [hfloor, hcount]
  norm_num

end HeapGame

end Mcts.ForcedPlayouts
