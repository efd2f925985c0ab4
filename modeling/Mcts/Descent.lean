import Mcts.Transposition
import Mathlib.Data.List.Chain

/-!
What one call of `select_leaf` does, on any truthful graph. It returns within one
round more than there are nodes, with a simple path of stored links from the root
that the returned game has played, and all it changes is one virtual loss on each
edge of that path.
-/
namespace Mcts.Descent

open Program Prog Environments Nodes Engine Arena SearchRun ArenaInvariant Walks Selection
open Transposition

variable {E A O F : Type} [Environment E A O] [Act A]
variable {S : Set E} {m : MCTS A F} {root id : NodeId} {env g : E} {path : List (NodeId × A)}

def LeadsTo (m : MCTS A F) (e : NodeId × A) (id : NodeId) : Prop :=
  ∃ n, m.getNode e.1 = some n ∧ n.child e.2 = some id

/-- Consecutive edges of a walk are linked, and the last one leads where it stands. -/
theorem walked_chain (h : Walked m root env path id g) :
    path.IsChain (fun e f => LeadsTo m e f.1) ∧ ∀ e, path.getLast? = some e → LeadsTo m e id := by
  induction h with
  | start => exact ⟨List.IsChain.nil, by simp⟩
  | step hw _ _ hn _ hc ih =>
    obtain ⟨hchain, hlast⟩ := ih
    refine ⟨hchain.append (List.isChain_singleton _) fun e he f hf => ?_, fun e he => ?_⟩
    · have hf : f = _ := (Option.mem_some_iff.mp hf).symm
      exact hf ▸ hlast e he
    · rw [List.getLast?_concat, Option.some.injEq] at he
      exact he ▸ ⟨_, hn, hc⟩

theorem taken_chain {parent : NodeId} {a : A} (h : Taken m root env path parent a g) :
    path.IsChain fun e f => LeadsTo m e f.1 := by
  obtain ⟨hw, _, _, _, _⟩ := h
  obtain ⟨hchain, hlast⟩ := walked_chain hw
  refine hchain.append (List.isChain_singleton _) fun e he f hf => ?_
  have hf : f = _ := (Option.mem_some_iff.mp hf).symm
  exact hf ▸ hlast e he

section Frame

omit [Environment E A O]

/-- Booking a loss changes one node and leaves the order of the arena. -/
theorem addLoss_frame (m : MCTS A F) (e : NodeId × A) :
    ∃ nodes, m.updateNode e.1 (·.addVirtualLoss e.2) = { m with nodes := nodes } ∧
      nodes.map (·.id) = m.nodes.map (·.id) := by
  unfold MCTS.updateNode
  split
  · rename_i index _
    refine ⟨m.nodes.modify index (·.addVirtualLoss e.2), rfl, ?_⟩
    apply List.ext_getElem?
    intro j
    simp only [List.getElem?_map, List.getElem?_modify]
    cases m.nodes[j]? with
    | none => rfl
    | some n => by_cases hj : index = j <;> simp [hj]
  · exact ⟨m.nodes, rfl, rfl⟩

theorem addLosses_frame (path : List (NodeId × A)) (m : MCTS A F) :
    ∃ nodes, addLosses path m = { m with nodes := nodes } ∧
      nodes.map (·.id) = m.nodes.map (·.id) := by
  induction path generalizing m with
  | nil => exact ⟨m.nodes, rfl, rfl⟩
  | cons e rest ih =>
    obtain ⟨first, hfirst, hids⟩ := addLoss_frame m e
    obtain ⟨last, hlast, hids'⟩ := ih (m.updateNode e.1 (·.addVirtualLoss e.2))
    refine ⟨last, ?_, ?_⟩
    · show addLosses rest (m.updateNode e.1 (·.addVirtualLoss e.2)) = _
      rw [hlast, hfirst]
    · rw [hids', hfirst]
      exact hids

/-- The losses booked along a path without repeats, node by node. -/
theorem addLosses_node [Field F] (hm : WellFormed m) (hnodup : (path.map (·.1)).Nodup)
    (hpath : ∀ e ∈ path, Offers m e.1 e.2) {n : Node A F} (hn : m.getNode id = some n) :
    ∃ n', (addLosses path m).getNode id = some n' ∧
      n' = { n with virtualLosses := n'.virtualLosses } ∧
      (∀ a, (id, a) ∈ path → n'.losses a = n.losses a + 1) ∧
      ∀ k, (∀ a, (id, a) ∈ path → toActionIndex a ≠ k) →
        n'.virtualLosses.getD k 0 = n.virtualLosses.getD k 0 := by
  by_cases hid : id ∈ path.map (·.1)
  · obtain ⟨e, he, rfl⟩ := List.mem_map.mp hid
    have hon : (addLosses path m).getNode e.1 = (m.getNode e.1).map (·.addVirtualLoss e.2) :=
      along_on (by intros; rfl) path hm.indexed hnodup he
    refine ⟨n.addVirtualLoss e.2, by rw [hon, hn]; rfl, rfl, fun a ha => ?_, fun k hk => ?_⟩
    · have hsame : e.2 = a :=
        congrArg Prod.snd (List.inj_on_of_nodup_map hnodup he ha rfl)
      rw [(hm.node e.1 n hn).addVirtualLoss_losses ((hpath e he).mem hn), hsame, if_pos rfl]
    · exact Dense.getD_modify_ne _ _ _ _ _ (hk e.2 he)
  · have hoff : (addLosses path m).getNode id = m.getNode id :=
      along_off (by intros; rfl) path hm.indexed hid
    exact ⟨n, hoff.trans hn, rfl, fun a ha => absurd (List.mem_map_of_mem ha) hid,
      fun _ _ => rfl⟩

end Frame

variable [DecidableEq A] [Field F] [LinearOrder F] [Roots F]

structure Traced (env : E) (w : Walk A E) : Prop where
  game : w.game = play env (w.path.map (·.2))
  parent : w.parent = w.path.getLast?.map (·.1)
  action : w.action = w.path.getLast?.map (·.2)
  seen : w.repeatDetected = true → hash w.game ∈ w.path.map (·.1)

theorem selectRound_traced (rootId : NodeId) (cPuct : F) (forced : Bool) (w : Walk A E)
    (h : Traced env w) :
    Triple (fun _ => True) (selectRound rootId cPuct forced w)
      (fun r => Sum.elim (fun w (_ : Search A E F) => Traced env w) (fun w _ => Traced env w) r)
      (fun _ => True) := by
  unfold selectRound
  split
  · exact Triple.ret fun _ _ => h
  rename_i hrunning
  refine Triple.seq Triple.anyway fun _ =>
    Triple.read fun s _ => ?_
  split
  · exact Triple.ret fun _ _ => h
  split
  · rename_i hseen
    exact Triple.ret fun _ _ =>
      ⟨h.game, h.parent, h.action, fun _ => (checkStateRepeat_iff _ _).mp hseen⟩
  dsimp only
  split
  · exact Triple.ret fun _ _ => h
  rename_i chosen _
  refine Triple.seq Triple.anyway fun _ =>
    Triple.seq Triple.anyway fun _ =>
      Triple.read fun t _ => ?_
  have hfresh : w.repeatDetected ≠ true := fun heq => hrunning (by simp [heq])
  have hgame : step w.game chosen = play env ((w.path ++ [(w.nodeId, chosen)]).map (·.2)) := by
    rw [List.map_append, List.map_singleton, play_concat, ← h.game]
  split
  · exact Triple.ret fun _ _ => ⟨hgame, by simp, by simp, fun heq => absurd heq hfresh⟩
  · exact Triple.ret fun _ _ => ⟨hgame, by simp, by simp, fun heq => absurd heq hfresh⟩

theorem selectLeaf_traced (i : RunInput E A O F) (rootId : NodeId) :
    Triple (fun _ => True) (selectLeaf i rootId) (fun w (_ : Search A E F) => Traced i.env w)
      (fun _ => True) := by
  refine (Triple.while_rule (I := fun _ w _ => Traced i.env w) (fun n w s h => ?_)
    (fun _ _ _ => trivial) i.fuel _).pre fun s _ => ⟨rfl, rfl, rfl, by simp⟩
  exact selectRound_traced rootId i.cPuct i.forcedPlayouts w h s trivial

omit [DecidableEq A] [Field F] [Roots F] [LinearOrder F] in
/-- The path of a selection, whichever way it ended. -/
theorem selected_path (hS : SoundHash S) (ht : Truthful S m) (henv : env ∈ S)
    (hroot : hash env = root) {w : Walk A E} (h : Selected m root env w) :
    (w.path.map (·.1)).Nodup ∧ (∀ e, w.path.head? = some e → e.1 = root) ∧
      w.path.IsChain (fun e f => LeadsTo m e f.1) ∧ ∀ e ∈ w.path, Offers m e.1 e.2 := by
  rcases h.chosen with ⟨hpath, _⟩ | ⟨parent, a, _, _, htaken⟩
  · rw [hpath]
    exact ⟨List.nodup_nil, by simp, List.IsChain.nil, fun e he => absurd he List.not_mem_nil⟩
  · refine ⟨htaken.nodup hS ht henv hroot, fun e he => ?_, taken_chain htaken, htaken.offers⟩
    obtain ⟨b, rest, hcons⟩ := htaken.head
    rw [hcons, List.head?_cons, Option.some.injEq] at he
    rw [← he]

/-- A call of `select_leaf`, with fuel for one round more than there are nodes:
it returns; the path is simple, linked and played by the returned game; a repeat
is a repeat of an id on the path; and only virtual losses on the path change. -/
theorem selectLeaf_exact (hS : SoundHash S) (hm : WellFormed m) (ht : Truthful S m)
    (i : RunInput E A O F) (henv : i.env ∈ S) (hfuel : m.nodes.length + 1 ≤ i.fuel) :
    ∃ w t, selectLeaf i (hash i.env) ⟨m, []⟩ = (some w, t) ∧
      ((w.path.map (·.1)).Nodup ∧ (∀ e, w.path.head? = some e → e.1 = hash i.env) ∧
        w.path.IsChain fun e f => LeadsTo m e f.1) ∧
      w.game = play i.env (w.path.map (·.2)) ∧
      w.parent = w.path.getLast?.map (·.1) ∧ w.action = w.path.getLast?.map (·.2) ∧
      (w.repeatDetected = true → hash w.game ∈ w.path.map (·.1)) ∧
      t.mcts = { m with nodes := t.mcts.nodes } ∧
      t.mcts.nodes.map (·.id) = m.nodes.map (·.id) ∧
      ∀ id n, m.getNode id = some n → ∃ n', t.mcts.getNode id = some n' ∧
        n' = { n with virtualLosses := n'.virtualLosses } ∧
        (∀ a, (id, a) ∈ w.path → n'.losses a = n.losses a + 1) ∧
        ∀ k, (∀ a, (id, a) ∈ w.path → toActionIndex a ≠ k) →
          n'.virtualLosses.getD k 0 = n.virtualLosses.getD k 0 := by
  have hnone : ∀ e ∈ ([] : List (Event A E F)), Sound e := fun e he => absurd he List.not_mem_nil
  have hat := selectLeaf_at hS hm ht i henv ⟨m, []⟩ ⟨rfl, hnone⟩
  have htraced := selectLeaf_traced i (hash i.env) ⟨m, []⟩ trivial
  rcases hrun : selectLeaf i (hash i.env) ⟨m, []⟩ with ⟨_ | w, t⟩
  · rw [hrun] at hat
    exact absurd hat.1 (by omega)
  rw [hrun] at hat htraced
  obtain ⟨hsel, hmcts, _⟩ := hat
  obtain ⟨hnodup, hhead, hchain, hoffers⟩ := selected_path hS ht henv rfl hsel
  obtain ⟨nodes, hframe, hids⟩ := addLosses_frame w.path m
  refine ⟨w, t, rfl, ⟨hnodup, hhead, hchain⟩, htraced.game, htraced.parent, htraced.action,
    htraced.seen, ?_⟩
  rw [hmcts]
  refine ⟨by rw [hframe], by rw [hframe]; exact hids, fun id n hn => ?_⟩
  exact addLosses_node hm hnodup hoffers hn

theorem selectLeaf_exact_heapSearch :
    ∃ w t, selectLeaf (heapInput 1) 0 ⟨heapSearch.mcts, []⟩ = (some w, t) ∧
      w.game = play (⟨0⟩ : HeapGame) (w.path.map (·.2)) ∧ w.path ≠ [] ∧
      t.mcts.nodes.map (·.id) = heapSearch.mcts.nodes.map (·.id) := by
  have hsession := heapSearch_session (On Set.univ) (Set.mem_univ _)
  obtain ⟨hm, ht, _⟩ := session_truthful heapGame_lawful heapGame_soundHash (fun _ hi => hi) hsession
  obtain ⟨w, t, hrun, _, hgame, _, haction, _, _, hids, _⟩ :=
    selectLeaf_exact heapGame_soundHash hm ht (heapInput 1) (Set.mem_univ _) (by decide +kernel)
  refine ⟨w, t, hrun, hgame, fun hpath => ?_, hids⟩
  have hchosen : ((selectLeaf (heapInput 1) 0 ⟨heapSearch.mcts, []⟩).1.bind (·.action)).isSome =
      true := by decide +kernel
  have hrun' : selectLeaf (heapInput 1) 0 ⟨heapSearch.mcts, []⟩ = (some w, t) := hrun
  rw [hrun', Option.bind_some, haction, hpath] at hchosen
  exact absurd hchosen (by simp)

end Mcts.Descent
