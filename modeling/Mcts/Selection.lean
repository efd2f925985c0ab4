import Mcts.Walks

/-!
`select_leaf` on a truthful graph: it walks in step with the game, books one
virtual loss on each edge it takes and changes nothing else. How a selection can
end is listed once, in `Selected`. The walk visits no id twice, so the loop ends.
-/
namespace Mcts.Selection

open Program Prog Environments Nodes Engine Arena SearchRun ArenaInvariant Walks

variable {E A O F : Type} [Environment E A O] [Act A]

/-- What may be logged: loop heads in step with the game, legal steps, and no
mismatch of ids. -/
def Sound : Event A E F → Prop
  | .loopHead nodeId game _ => nodeId = hash game
  | .envStep game action => done game = false ∧ action ∈ validActions game
  | .mismatchedIds _ _ => False
  | _ => True

structure At (m : MCTS A F) (s : Search A E F) : Prop where
  mcts : s.mcts = m
  log : ∀ e ∈ s.log, Sound e

section Rules

variable {m : MCTS A F} {X : Search A E F → Prop}

omit [Act A] in
theorem At.note {s : Search A E F} (h : At m s) {e : Event A E F} (he : Sound e) :
    At m { s with log := s.log ++ [e] } := by
  refine ⟨h.mcts, fun x hx => ?_⟩
  rcases List.mem_append.mp hx with hx | hx
  · exact h.log x hx
  · exact List.mem_singleton.mp hx ▸ he

omit [Act A] in
theorem emit_at {e : Event A E F} (he : Sound e) :
    Triple (At m) (emit e) (fun _ => At m) X :=
  Triple.update fun _ hs => hs.note he

omit [Act A] in
theorem mutate_at (f : MCTS A F → MCTS A F) :
    Triple (At m) (mutate f) (fun _ => At (f m)) X := by
  refine Triple.update fun s hs => ?_
  have hnote := hs.note (e := .passed (f s.mcts)) trivial
  exact ⟨congrArg f hs.mcts, hnote.log⟩

omit [Act A] in
/-- A pass over a list, each element updating the engine. -/
theorem each_at {τ : Type} {body : τ → Prog (Search A E F) Unit} {f : MCTS A F → τ → MCTS A F}
    (h : ∀ m x, Triple (At m) (body x) (fun _ => At (f m x)) X) (xs : List τ) :
    Triple (At m) (forEach xs body) (fun _ => At (xs.foldl f m)) X := by
  induction xs generalizing m with
  | nil => exact Triple.ret fun _ hs => hs
  | cons x rest ih => exact Triple.seq (h m x) fun _ => ih

end Rules

section Passes

variable {m : MCTS A F} {op : Node A F → A → Node A F}

def along (op : Node A F → A → Node A F) (path : List (NodeId × A)) (m : MCTS A F) : MCTS A F :=
  path.foldl (fun m e => m.updateNode e.1 (op · e.2)) m

omit [Act A]

theorem along_concat (path : List (NodeId × A)) (e : NodeId × A) (m : MCTS A F) :
    along op (path ++ [e]) m = (along op path m).updateNode e.1 (op · e.2) := by
  simp [along]

theorem along_indexed (hop : ∀ n a, (op n a).id = n.id) (path : List (NodeId × A))
    (hm : Indexed m) : Indexed (along op path m) := by
  induction path generalizing m with
  | nil => exact hm
  | cons e rest ih => exact ih (updateNode_indexed hm fun n => hop n e.2)

theorem along_nodeExists (path : List (NodeId × A)) (m : MCTS A F) (id : NodeId) :
    (along op path m).nodeExists id = m.nodeExists id := by
  induction path generalizing m with
  | nil => rfl
  | cons e rest ih => exact (ih _).trans (updateNode_nodeExists m e.1 id _)

theorem along_fixed (path : List (NodeId × A)) (m : MCTS A F) :
    (along op path m).batchSize = m.batchSize ∧
      (along op path m).nodes.length = m.nodes.length := by
  induction path generalizing m with
  | nil => exact ⟨rfl, rfl⟩
  | cons e rest ih =>
    obtain ⟨hb, hl⟩ := ih (m.updateNode e.1 (op · e.2))
    exact ⟨hb.trans (updateNode_batchSize m e.1 _), hl.trans (updateNode_length m e.1 _)⟩

/-- A node off the path stays as it was. -/
theorem along_off (hop : ∀ n a, (op n a).id = n.id) (path : List (NodeId × A)) (hm : Indexed m)
    {id : NodeId} (hid : id ∉ path.map (·.1)) :
    (along op path m).getNode id = m.getNode id := by
  induction path generalizing m with
  | nil => rfl
  | cons e rest ih =>
    rw [List.map_cons, List.mem_cons, not_or] at hid
    refine (ih (updateNode_indexed hm fun n => hop n e.2) hid.2).trans ?_
    rw [updateNode_getNode hm, if_neg (Ne.symm hid.1)]

/-- A node on a path without repeats is updated once, for its own edge. -/
theorem along_on (hop : ∀ n a, (op n a).id = n.id) (path : List (NodeId × A)) (hm : Indexed m)
    (hnodup : (path.map (·.1)).Nodup) {e : NodeId × A} (he : e ∈ path) :
    (along op path m).getNode e.1 = (m.getNode e.1).map (op · e.2) := by
  induction path generalizing m with
  | nil => exact absurd he List.not_mem_nil
  | cons first rest ih =>
    obtain ⟨hfirst, hrest⟩ := List.nodup_cons.mp hnodup
    have hm' : Indexed (m.updateNode first.1 (op · first.2)) :=
      updateNode_indexed hm fun n => hop n first.2
    rcases List.mem_cons.mp he with rfl | he
    · refine (along_off hop rest hm' hfirst).trans ?_
      rw [updateNode_getNode hm, if_pos rfl]
    · refine (ih hm' hrest he).trans ?_
      have hne : first.1 ≠ e.1 := fun heq =>
        hfirst (List.mem_map.mpr ⟨e, he, heq.symm⟩)
      rw [updateNode_getNode hm, if_neg hne]

end Passes

def addLosses (path : List (NodeId × A)) (m : MCTS A F) : MCTS A F :=
  along Node.addVirtualLoss path m

/-- Where a node found after a selection comes from. -/
theorem addLosses_origin {m : MCTS A F} {path : List (NodeId × A)} (hm : Indexed m)
    (hnodup : (path.map (·.1)).Nodup) {id : NodeId} {n' : Node A F}
    (hn : (addLosses path m).getNode id = some n') :
    ∃ n, m.getNode id = some n ∧ ((id ∉ path.map (·.1) ∧ n' = n) ∨
      ∃ a, (id, a) ∈ path ∧ n' = n.addVirtualLoss a) := by
  by_cases hid : id ∈ path.map (·.1)
  · obtain ⟨e, he, rfl⟩ := List.mem_map.mp hid
    have hon : (addLosses path m).getNode e.1 = (m.getNode e.1).map (·.addVirtualLoss e.2) :=
      along_on (by intros; rfl) path hm hnodup he
    rw [hon, Option.map_eq_some_iff] at hn
    obtain ⟨n, hold, rfl⟩ := hn
    exact ⟨n, hold, Or.inr ⟨e.2, he, rfl⟩⟩
  · have hoff : (addLosses path m).getNode id = m.getNode id :=
      along_off (by intros; rfl) path hm hid
    exact ⟨n', hoff ▸ hn, Or.inl ⟨hid, rfl⟩⟩

def Stuck (m : MCTS A F) (id : NodeId) : Prop :=
  ∃ n, m.getNode id = some n ∧ n.validActions = []

inductive Selected (m : MCTS A F) (root : NodeId) (env : E) (w : Walk A E) : Prop
  | idle (hpath : w.path = []) (haction : w.action = none)
      (hend : done env = true ∨ m.nodeExists root = false ∨ Stuck m root)
  | fresh {parent : NodeId} {a : A} {n : Node A F} (hparent : w.parent = some parent)
      (haction : w.action = some a) (htaken : Taken m root env w.path parent a w.game)
      (hnode : m.getNode parent = some n) (hchild : n.child a = none)
      (hrepeat : w.repeatDetected = false)
  | stopped {parent : NodeId} {a : A} {n : Node A F} (hparent : w.parent = some parent)
      (haction : w.action = some a) (htaken : Taken m root env w.path parent a w.game)
      (hnode : m.getNode parent = some n) (hchild : n.child a = some w.nodeId)
      (hrepeat : w.repeatDetected = false)
      (hend : done w.game = true ∨ m.nodeExists w.nodeId = false ∨ Stuck m w.nodeId)
  | repeated {parent : NodeId} {a : A} {n : Node A F} (hparent : w.parent = some parent)
      (haction : w.action = some a) (htaken : Taken m root env w.path parent a w.game)
      (hnode : m.getNode parent = some n) (hchild : n.child a = some w.nodeId)
      (hrepeat : w.repeatDetected = true) (hseen : hash w.game ∈ w.path.map (·.1))

/-- A selection chose nothing or ended with a step. -/
theorem Selected.chosen {m : MCTS A F} {root : NodeId} {env : E} {w : Walk A E}
    (h : Selected m root env w) : (w.path = [] ∧ w.action = none) ∨
      ∃ parent a, w.parent = some parent ∧ w.action = some a ∧
        Taken m root env w.path parent a w.game := by
  cases h with
  | idle hpath haction _ => exact Or.inl ⟨hpath, haction⟩
  | fresh hparent haction htaken _ _ _ => exact Or.inr ⟨_, _, hparent, haction, htaken⟩
  | stopped hparent haction htaken _ _ _ _ => exact Or.inr ⟨_, _, hparent, haction, htaken⟩
  | repeated hparent haction htaken _ _ _ _ => exact Or.inr ⟨_, _, hparent, haction, htaken⟩

/-- On a live root only a lack of valid actions lets a selection do nothing. -/
theorem Selected.stuck {m : MCTS A F} {root : NodeId} {env : E} {w : Walk A E}
    (h : Selected m root env w) (hidle : w.path = []) (hrun : done env = false)
    (hroot : m.nodeExists root = true) : Stuck m root := by
  cases h with
  | idle _ _ hend =>
    rcases hend with hdone | hmissing | hstuck
    · exact absurd (hrun.symm.trans hdone) (by simp)
    · exact absurd (hroot.symm.trans hmissing) (by simp)
    · exact hstuck
  | fresh _ _ htaken _ _ _ => exact absurd hidle (List.ne_nil_of_mem htaken.last_mem)
  | stopped _ _ htaken _ _ _ _ => exact absurd hidle (List.ne_nil_of_mem htaken.last_mem)
  | repeated _ _ htaken _ _ _ _ => exact absurd hidle (List.ne_nil_of_mem htaken.last_mem)

section Loop

variable [DecidableEq A] [Field F] [LinearOrder F] [Roots F]
variable {S : Set E} {m : MCTS A F} {root : NodeId} {env : E}

structure Walking (m : MCTS A F) (root : NodeId) (env : E) (w : Walk A E) : Prop where
  walked : Walked m root env w.path w.nodeId w.game
  parent : w.parent = w.path.getLast?.map (·.1)
  action : w.action = w.path.getLast?.map (·.2)
  fresh : w.repeatDetected = false

omit [DecidableEq A] [Field F] [LinearOrder F] [Roots F] in
/-- Leaving the loop at its head. -/
theorem Walking.selected {w : Walk A E} (h : Walking m root env w)
    (hend : done w.game = true ∨ m.nodeExists w.nodeId = false ∨ Stuck m w.nodeId) :
    Selected m root env w := by
  by_cases hpath : w.path = []
  · have hstart : w.nodeId = root ∧ w.game = env := by
      rcases h.walked.head with ⟨_, hid, hgame⟩ | ⟨a, rest, hcons⟩
      · exact ⟨hid, hgame⟩
      · exact absurd (hpath.symm.trans hcons) (by simp)
    rw [hstart.1, hstart.2] at hend
    exact .idle hpath (by rw [h.action, hpath]; rfl) hend
  · obtain ⟨parent, a, n, htaken, hlast, hn, hc⟩ := h.walked.taken hpath
    exact .stopped (by rw [h.parent, hlast]; rfl) (by rw [h.action, hlast]; rfl) htaken hn hc
      h.fresh hend

omit [DecidableEq A] [Field F] [LinearOrder F] [Roots F] in
/-- Leaving it because the state was seen before. -/
theorem Walking.repeated {w : Walk A E} (h : Walking m root env w)
    (hseen : hash w.game ∈ w.path.map (·.1)) :
    Selected m root env { w with repeatDetected := true } := by
  have hpath : w.path ≠ [] := by
    intro hnil
    rw [hnil] at hseen
    exact absurd hseen (by simp)
  obtain ⟨parent, a, n, htaken, hlast, hn, hc⟩ := h.walked.taken hpath
  exact .repeated (by rw [h.parent, hlast]; rfl) (by rw [h.action, hlast]; rfl) htaken hn hc rfl
    hseen

omit [Act A] [DecidableEq A] [Field F] [LinearOrder F] [Roots F] in
theorem checkStateRepeat_iff (stateHash : NodeId) (path : List (NodeId × A)) :
    MCTS.checkStateRepeat stateHash path = true ↔ stateHash ∈ path.map (·.1) := by
  simp [MCTS.checkStateRepeat]

theorem selectRound_at (hS : SoundHash S) (hm : WellFormed m) (htruth : Truthful S m)
    (henv : env ∈ S) (hroot : hash env = root) (cPuct : F) (forced : Bool) (w : Walk A E)
    (h : Walking m root env w) (X : Search A E F → Prop) :
    Triple (At (addLosses w.path m)) (selectRound root cPuct forced w)
      (fun r => Sum.elim
        (fun next s => (Walking m root env next ∧ next.path.length = w.path.length + 1) ∧
          At (addLosses next.path m) s)
        (fun last s => Selected m root env last ∧ At (addLosses last.path m) s) r) X := by
  obtain ⟨_, _, hmem, hhash⟩ := h.walked.sync hS htruth henv hroot
  unfold selectRound
  split
  · rename_i hend
    rw [h.fresh, Bool.or_false] at hend
    exact Triple.ret fun s hs => ⟨h.selected (Or.inl hend), hs⟩
  rename_i hlive
  rw [h.fresh, Bool.or_false, Bool.not_eq_true] at hlive
  refine Triple.seq (emit_at hhash.symm) fun _ => Triple.read fun s hs => ?_
  rw [hs.mcts]
  split
  · rename_i hmissing
    have hmissing : m.nodeExists w.nodeId = false := by
      simpa [addLosses, along_nodeExists] using hmissing
    exact Triple.ret fun t ht => ⟨h.selected (Or.inr (Or.inl hmissing)), ht ▸ hs⟩
  rename_i hexists
  have hexists : m.nodeExists w.nodeId = true := by
    simpa [addLosses, along_nodeExists] using hexists
  split
  · rename_i hseen
    exact Triple.ret fun t ht => ⟨h.repeated ((checkStateRepeat_iff _ _).mp hseen), ht ▸ hs⟩
  rename_i hunseen
  rw [checkStateRepeat_iff] at hunseen
  -- the node at the head of the loop has no virtual loss of this walk yet
  have hsame : (addLosses w.path m).getNode w.nodeId = m.getNode w.nodeId :=
    along_off (by intros; rfl) _ hm.indexed (hhash ▸ hunseen)
  dsimp only
  split
  · rename_i hnone
    obtain ⟨n, hn⟩ := (nodeExists_iff hm.indexed).mp hexists
    have hstuck : n.validActions = [] := MCTS.selectActionPuct_none _ _ _ _ _ n
      (hsame.trans hn) (hm.node _ n hn).valid_lt hnone
    exact Triple.ret fun t ht => ⟨h.selected (Or.inr (Or.inr ⟨n, hn, hstuck⟩)), ht ▸ hs⟩
  rename_i chosen hchosen
  obtain ⟨n, hn, ha⟩ := MCTS.selectActionPuct_mem _ _ _ _ _ _ hchosen
  rw [hsame] at hn
  have htaken : Taken m root env (w.path ++ [(w.nodeId, chosen)]) w.nodeId chosen
      (step w.game chosen) := ⟨h.walked, hlive, hunseen, hn, ha⟩
  have hvalid : chosen ∈ validActions w.game :=
    (htruth _ n hn _ hmem hhash).valid hlive chosen ha
  refine Triple.seq (R := fun _ => At (addLosses (w.path ++ [(w.nodeId, chosen)]) m)) ?_ fun _ => ?_
  · refine Triple.update fun t ht => ?_
    have hmutate := mutate_at (X := X) (m := addLosses w.path m)
      (·.updateNode w.nodeId (·.addVirtualLoss chosen)) t (ht ▸ hs)
    rw [addLosses, along_concat]
    exact hmutate
  refine Triple.seq (emit_at ⟨hlive, hvalid⟩) fun _ => Triple.read fun t ht => ?_
  -- the virtual loss just booked leaves the children of the node alone
  have hbooked : (addLosses (w.path ++ [(w.nodeId, chosen)]) m).getNode w.nodeId =
      (m.getNode w.nodeId).map (·.addVirtualLoss chosen) :=
    along_on (by intros; rfl) _ hm.indexed (htaken.nodup hS htruth henv hroot) htaken.last_mem
  have hchild : (t.mcts.getNode w.nodeId).bind (·.child chosen) = n.child chosen := by
    rw [ht.mcts, hbooked, hn]
    rfl
  rw [hchild]
  split
  · rename_i childId hlink
    refine Triple.ret fun u hu => ⟨⟨⟨?_, by simp, by simp, h.fresh⟩, by simp⟩, hu ▸ ht⟩
    exact .step h.walked hlive hunseen hn ha hlink
  · rename_i hlink
    exact Triple.ret fun u hu => ⟨.fresh rfl rfl htaken hn hlink h.fresh, hu ▸ ht⟩

omit [DecidableEq A] [Field F] [LinearOrder F] [Roots F] in
/-- A walk is no longer than there are nodes. -/
theorem walked_length (hS : SoundHash S) (hm : Indexed m) (htruth : Truthful S m)
    (henv : env ∈ S) (hroot : hash env = root) {path : List (NodeId × A)} {id : NodeId} {g : E}
    (h : Walked m root env path id g) : path.length ≤ m.nodes.length := by
  have hsub : path.map (·.1) ⊆ m.nodes.map (·.id) := by
    intro id hid
    obtain ⟨e, he, rfl⟩ := List.mem_map.mp hid
    obtain ⟨n, _, hn, _⟩ := h.linked e he
    obtain ⟨hmem, hid⟩ := (getNode_eq_some_iff hm).mp hn
    exact hid ▸ List.mem_map_of_mem hmem
  simpa using ((h.nodup hS htruth henv hroot).subperm hsub).length_le

/-- `select_leaf` ends in one of the listed ways, unless the fuel does not even
allow a round for each node; either way only sound events are logged. -/
theorem selectLeaf_at (hS : SoundHash S) (hm : WellFormed m) (htruth : Truthful S m)
    (i : RunInput E A O F) (henv : i.env ∈ S) :
    Triple (At m) (selectLeaf i (hash i.env))
      (fun w s => Selected m (hash i.env) i.env w ∧ At (addLosses w.path m) s)
      (fun s => i.fuel ≤ m.nodes.length ∧ ∀ e ∈ s.log, Sound e) := by
  refine (Triple.while_rule (I := fun k w s => At (addLosses w.path m) s ∧
    (Walking m (hash i.env) i.env w ∧ w.path.length + k = i.fuel))
    (fun k w => Triple.assume fun h => ?_) (fun w s hs => ?_) i.fuel _).pre fun s hs => ?_
  · refine (selectRound_at hS hm htruth henv rfl i.cPuct i.forcedPlayouts w h.1 _).post
      fun r s hr => ?_
    cases r with
    | inl next =>
      obtain ⟨⟨hnext, hlength⟩, hat⟩ := hr
      exact ⟨hat, hnext, by have := h.2; omega⟩
    | inr last => exact hr
  · have hlength := walked_length hS hm.indexed htruth henv rfl hs.2.1.walked
    exact ⟨by have := hs.2.2; omega, hs.1.log⟩
  · exact ⟨hs, ⟨.start, rfl, rfl, rfl⟩, by simp⟩

end Loop

end Mcts.Selection
