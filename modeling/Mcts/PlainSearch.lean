import Mcts.Cycles

/-!
The search without its concurrency: one playout after another, each descending,
asking the client for one leaf and crediting its path, with no virtual loss
anywhere. With a batch size of one `run` is this search, whatever losses, noise
and statistics the engine already holds.
-/
namespace Mcts.PlainSearch

open Program Prog Environments Nodes Engine Arena SearchRun ArenaInvariant Walks Selection
open Backup Expansion Turns Transposition Descent Simulations Cycles

variable {E A O F : Type} [Environment E A O] [Act A] [DecidableEq A]
variable [Field F] [LinearOrder F] [Roots F]

section Plain

def descendRound (m : MCTS A F) (i : RunInput E A O F) (w : Walk A E) : Walk A E ⊕ Walk A E :=
  if done w.game || w.repeatDetected || !m.nodeExists w.nodeId then .inr w
  else if MCTS.checkStateRepeat (hash w.game) w.path then .inr { w with repeatDetected := true }
  else match m.selectActionPuct w.nodeId i.cPuct (w.nodeId == hash i.env) i.forcedPlayouts with
    | none => .inr w
    | some chosen =>
      let stepped : Walk A E := { w with
        path := w.path ++ [(w.nodeId, chosen)]
        parent := some w.nodeId
        action := some chosen
        game := step w.game chosen }
      match (m.getNode w.nodeId).bind (·.child chosen) with
      | some childId => .inl { stepped with nodeId := childId }
      | none => .inr stepped

def descend (m : MCTS A F) (i : RunInput E A O F) : ℕ → Walk A E → Option (Walk A E)
  | 0, _ => none
  | fuel + 1, w =>
    match descendRound m i w with
    | .inl next => descend m i fuel next
    | .inr last => some last

def start (i : RunInput E A O F) : Walk A E :=
  { path := [], nodeId := hash i.env, parent := none, action := none, game := i.env,
    repeatDetected := false }

def credit (path : List (NodeId × A)) (repeated : Bool) (m : MCTS A F) : MCTS A F :=
  path.reverse.foldl visitStep (penaliseLast path repeated m)

def evaluate (i : RunInput E A O F) (query : ℕ) (p : PendingInference A E) (m : MCTS A F) :
    Option (MCTS A F) :=
  match i.client query [observation p.env] with
  | some ([priors], [value]) =>
    some (credit p.path false (expanded i.order p.parentId p.action p.env priors value m))
  | _ => none

/-- One playout, with the number of the query it makes if it needs one. -/
def playout (i : RunInput E A O F) (query : ℕ) (m : MCTS A F) : Option (MCTS A F) :=
  (descend m i i.fuel (start i)).bind fun w =>
    match w.action, w.parent with
    | some action, some parent =>
      if w.repeatDetected then some (credit w.path true m)
      else if done w.game then
        some (credit w.path false
          (expanded i.order parent action w.game ∅ (i.terminalEvaluator w.game) m))
      else evaluate i query ⟨w.path, parent, action, w.game⟩ m
    | _, _ => some m

def plant (i : RunInput E A O F) (m : MCTS A F) : Option (MCTS A F) :=
  if m.nodeExists (hash i.env) then some m
  else if done i.env then some (MCTS.createNode i.order i.env ∅ (i.terminalEvaluator i.env) m)
  else
    match i.client 0 [observation i.env] with
    | some ([priors], [value]) =>
      some (MCTS.createNode i.order i.env (MCTS.normalizePrior priors (validActions i.env)) value m)
    | _ => none

/-- The playouts of a search, none on a root that is over. -/
def playouts (i : RunInput E A O F) (m : MCTS A F) : Option (MCTS A F) :=
  if done i.env then some m
  else ((List.range i.numSteps).foldlM (fun m k => playout i (k + 1) m) m).map (·.clearNoise)

def search (i : RunInput E A O F) (m : MCTS A F) : Option (Node A F × MCTS A F) :=
  (plant i (m.setRoot (some (hash i.env)))).bind fun m =>
    (playouts i m).bind fun m => (m.getNode (hash i.env)).map fun node => (node, m)

end Plain

section Undoing

variable {m : MCTS A F} {f g : Node A F → Node A F}

omit [Act A] [DecidableEq A] [Field F] [LinearOrder F] [Roots F] in
theorem updateNode_twice (id : NodeId) :
    (m.updateNode id g).updateNode id f = m.updateNode id fun n => f (g n) := by
  unfold MCTS.updateNode
  cases hlookup : m.transpositionTable.lookup id with
  | none => simp only [hlookup]
  | some index =>
    simp only [hlookup, List.modify_modify_eq]
    rfl

omit [Act A] [DecidableEq A] [Field F] [LinearOrder F] [Roots F] in
/-- Updates that commute on a node commute on the engine. -/
theorem updateNode_comm (hfg : ∀ n, f (g n) = g (f n)) (id key : NodeId) :
    (m.updateNode id g).updateNode key f = (m.updateNode key f).updateNode id g := by
  have hframe : ∀ (id key : NodeId) (f g : Node A F → Node A F),
      (m.updateNode id g).updateNode key f =
        { m with nodes := ((m.updateNode id g).updateNode key f).nodes } := by
    intro id key f g
    unfold MCTS.updateNode
    cases m.transpositionTable.lookup id with
    | none => cases m.transpositionTable.lookup key <;> rfl
    | some index => cases m.transpositionTable.lookup key <;> rfl
  have hnodes : ((m.updateNode id g).updateNode key f).nodes =
      ((m.updateNode key f).updateNode id g).nodes := by
    apply List.ext_getElem?
    intro j
    simp only [updateNode_getElem?, updateNode_table]
    by_cases hid : m.transpositionTable.lookup id = some j
    · by_cases hkey : m.transpositionTable.lookup key = some j
      · rw [if_pos hid, if_pos hkey, if_pos hkey, if_pos hid, Option.map_map, Option.map_map]
        exact congrArg (fun h => (m.nodes[j]?).map h) (funext hfg)
      · rw [if_pos hid, if_neg hkey, if_neg hkey, if_pos hid]
    · rw [if_neg hid, if_neg hid]
  rw [hframe id key f g, hnodes]
  exact (hframe key id g f).symm

omit [DecidableEq A] [Field F] [LinearOrder F] [Roots F] in
theorem revert_add (n : Node A F) (a : A) : (n.addVirtualLoss a).revertVirtualLoss a = n := by
  have hlosses : (n.virtualLosses.modify (toActionIndex a) (· + 1)).modify (toActionIndex a)
      (· - 1) = n.virtualLosses := by
    rw [List.modify_modify_eq]
    exact List.modify_id _ _
  exact congrArg (fun losses => { n with virtualLosses := losses }) hlosses

omit [DecidableEq A] [Field F] [LinearOrder F] [Roots F] in
/-- The losses of a path are taken back in reverse. -/
theorem revert_addLosses (path : List (NodeId × A)) (m : MCTS A F) :
    along Node.revertVirtualLoss path.reverse (addLosses path m) = m := by
  induction path using List.reverseRecOn with
  | nil => rfl
  | append_singleton front e ih =>
    rw [addLosses, along_concat, List.reverse_append, List.reverse_singleton,
      List.singleton_append]
    show along _ front.reverse (((along Node.addVirtualLoss front m).updateNode e.1
      (·.addVirtualLoss e.2)).updateNode e.1 (·.revertVirtualLoss e.2)) = m
    rw [updateNode_twice, updateNode_self e.1 fun n _ => revert_add n e.2]
    exact ih

omit [Act A] [DecidableEq A] [Field F] [LinearOrder F] [Roots F] in
/-- A node is updated alike before and after another one is stored. -/
theorem updateNode_insertNode (hm : Indexed m) {id leaf : NodeId} (node : Node A F)
    (hid : m.nodeExists id = true) (hleaf : m.nodeExists leaf = false) :
    (m.insertNode leaf node).updateNode id f = (m.updateNode id f).insertNode leaf node := by
  have hne : id ≠ leaf := by
    rintro rfl
    exact absurd (hid.symm.trans hleaf) (by simp)
  obtain ⟨index, hlookup⟩ := Option.isSome_iff_exists.mp hid
  have hlt : index < m.nodes.length := by
    have hnode := (hm id index).mp hlookup
    by_contra hge
    rw [List.getElem?_eq_none (by omega)] at hnode
    exact absurd hnode (by simp)
  have hlookup' : (m.transpositionTable.insert leaf m.nodes.length).lookup id = some index := by
    rw [AList.lookup_insert_ne hne, hlookup]
  have hnodes : (m.nodes ++ [node]).modify index f = m.nodes.modify index f ++ [node] := by
    apply List.ext_getElem?
    intro j
    rw [List.getElem?_modify, List.getElem?_append, List.getElem?_append, List.length_modify,
      List.getElem?_modify]
    by_cases hj : j < m.nodes.length
    · rw [if_pos hj, if_pos hj]
    · have hother : ¬ index = j := by omega
      simp [hj, hother]
  simp only [MCTS.updateNode, MCTS.insertNode, hlookup, hlookup', hnodes, List.length_modify]

omit [DecidableEq A] [Field F] [LinearOrder F] [Roots F] in
theorem insertNode_addLosses (hm : Indexed m) {leaf : NodeId} (node : Node A F)
    (hleaf : m.nodeExists leaf = false) (path : List (NodeId × A))
    (hpath : ∀ e ∈ path, m.nodeExists e.1 = true) :
    (addLosses path m).insertNode leaf node = addLosses path (m.insertNode leaf node) := by
  induction path generalizing m with
  | nil => rfl
  | cons e rest ih =>
    have hfirst : Indexed (m.updateNode e.1 (·.addVirtualLoss e.2)) :=
      updateNode_indexed hm fun _ => rfl
    have hrest := ih hfirst (by rw [updateNode_nodeExists, hleaf]) fun x hx => by
      rw [updateNode_nodeExists]
      exact hpath x (List.mem_cons_of_mem e hx)
    refine hrest.trans ?_
    rw [← updateNode_insertNode hm node (hpath e List.mem_cons_self) hleaf]
    rfl

omit [Roots F] in
/-- Expansion and bookkeeping of losses do not interfere. -/
theorem expanded_addLosses (hm : Indexed m) (order : IterationOrder (Σ _ : A, F)) (parent : NodeId)
    (a : A) (g : E) (priors : HashMap A F) (value : F) (path : List (NodeId × A))
    (hpath : ∀ e ∈ path, m.nodeExists e.1 = true) :
    expanded order parent a g priors value (addLosses path m) =
      addLosses path (expanded order parent a g priors value m) := by
  have hlink : ∀ (path : List (NodeId × A)) (m : MCTS A F),
      linked parent a (hash g) (addLosses path m) = addLosses path (linked parent a (hash g) m) := by
    intro path
    induction path with
    | nil => exact fun _ => rfl
    | cons e rest ih =>
      intro m
      refine (ih (m.updateNode e.1 (·.addVirtualLoss e.2))).trans ?_
      unfold linked
      rw [updateNode_comm]
      · rfl
      · intro n
        rw [Node.addVirtualLoss_child]
        split <;> rfl
  have hleaf : withLeaf order g priors value (addLosses path m) =
      addLosses path (withLeaf order g priors value m) := by
    unfold withLeaf
    rw [addLosses, along_nodeExists]
    split
    · rfl
    · next hfresh =>
      rw [Bool.not_eq_true] at hfresh
      unfold MCTS.createNode
      rw [(along_fixed path m).2]
      exact insertNode_addLosses hm _ hfresh path hpath
  unfold expanded
  rw [hleaf, hlink]

omit [LinearOrder F] [DecidableEq A] [Roots F] in
/-- Backing up a path with its losses booked is crediting it without. -/
theorem backup_addLosses (path : List (NodeId × A)) (repeated : Bool) (m : MCTS A F) :
    backup path repeated (addLosses path m) = credit path repeated m := by
  rw [backup, revert_addLosses]
  rfl

end Undoing

section Simulation

variable {S : Set E} {m : MCTS A F} {i : RunInput E A O F}

/-- One round of `select_leaf` on top of the losses of its own walk is a round of
the descent without losses. -/
theorem selectRound_plain (hS : SoundHash S) (hm : WellFormed m) (ht : Truthful S m)
    (henv : i.env ∈ S) (w : Walk A E) (h : Walking m (hash i.env) i.env w)
    (X : Search A E F → Prop) :
    Triple (fun s => s.mcts = addLosses w.path m)
      (selectRound (hash i.env) i.cPuct i.forcedPlayouts w)
      (fun r _ => descendRound m i w = r) X := by
  obtain ⟨_, _, hmem, hhash⟩ := h.walked.sync hS ht henv rfl
  unfold selectRound
  split
  · next hend =>
    exact Triple.ret fun _ _ => if_pos (by rw [hend, Bool.true_or])
  next hlive =>
  rw [Bool.not_eq_true] at hlive
  refine Triple.seq (emit_keeps (P := (· = addLosses w.path m)) _) fun _ =>
    Triple.read fun s hs => ?_
  have hexists : s.mcts.nodeExists w.nodeId = m.nodeExists w.nodeId := by
    rw [hs, addLosses, along_nodeExists]
  rw [hexists]
  split
  · next hmissing =>
    exact Triple.ret fun _ _ => if_pos (by rw [hmissing, Bool.or_true])
  next hstored =>
  rw [Bool.not_eq_true] at hstored
  have hgo : ¬ (done w.game || w.repeatDetected || !m.nodeExists w.nodeId) = true := by
    rw [hlive, hstored]
    simp
  split
  · next hseen =>
    exact Triple.ret fun _ _ => by rw [descendRound, if_neg hgo, if_pos hseen]
  next hseen =>
  have hrest := hseen
  rw [checkStateRepeat_iff] at hseen
  -- the losses booked so far are all on other nodes
  have hchoice := selectActionPuct_addLosses hm.indexed (hhash ▸ hseen) i.cPuct
    (w.nodeId == hash i.env) i.forcedPlayouts
  rw [← hs] at hchoice
  dsimp only
  rw [hchoice, descendRound, if_neg hgo, if_neg hrest]
  cases m.selectActionPuct w.nodeId i.cPuct (w.nodeId == hash i.env) i.forcedPlayouts with
  | none => exact Triple.ret fun _ _ => rfl
  | some chosen =>
    dsimp only
    refine Triple.seq (R := fun _ t => t.mcts = addLosses (w.path ++ [(w.nodeId, chosen)]) m)
      (Triple.update fun t hst => ?_) fun _ => ?_
    · show t.mcts.updateNode w.nodeId (·.addVirtualLoss chosen) = _
      rw [hst, hs, addLosses, addLosses, along_concat]
    refine Triple.seq (emit_keeps (P := (· = addLosses (w.path ++ [(w.nodeId, chosen)]) m)) _)
      fun _ => Triple.read fun t hst => ?_
    rw [hst, child_addLosses hm.indexed]
    cases (m.getNode w.nodeId).bind (·.child chosen) with
    | none => exact Triple.ret fun _ _ => rfl
    | some childId => exact Triple.ret fun _ _ => rfl

/-- `select_leaf` finds the leaf of the descent, or runs out of fuel with it. -/
theorem selectLeaf_plain (hS : SoundHash S) (hm : WellFormed m) (ht : Truthful S m)
    (henv : i.env ∈ S) :
    Triple (At m) (selectLeaf i (hash i.env))
      (fun w s => (Selected m (hash i.env) i.env w ∧ At (addLosses w.path m) s) ∧
        descend m i i.fuel (start i) = some w)
      (fun _ => descend m i i.fuel (start i) = none) := by
  have hloop : Triple (At m) (selectLeaf i (hash i.env))
      (fun w _ => descend m i i.fuel (start i) = some w)
      (fun _ => descend m i i.fuel (start i) = none) := by
    refine (Triple.while_rule (I := fun k w s => At (addLosses w.path m) s ∧
      (Walking m (hash i.env) i.env w ∧ descend m i i.fuel (start i) = descend m i k w))
      (fun k w => Triple.assume fun h => ?_) (fun w s hs => ?_) i.fuel _).pre fun s hs => ?_
    · have hround := (selectRound_at hS hm ht henv rfl i.cPuct i.forcedPlayouts w h.1
        fun _ => True).both (selectRound_plain hS hm ht henv w h.1 fun _ => False)
      refine hround.weaken (fun s hs => ⟨hs, hs.mcts⟩) (fun r s hr => ?_) fun _ hx => hx.2.elim
      obtain ⟨hat, hplain⟩ := hr
      have hdescend := h.2
      rw [descend, hplain] at hdescend
      cases r with
      | inl next => exact ⟨hat.2, hat.1.1, hdescend⟩
      | inr last => exact hdescend
    · exact hs.2.2
    · exact ⟨hs, ⟨.start, rfl, rfl, rfl⟩, rfl⟩
  exact ((selectLeaf_at hS hm ht i henv).both hloop).weaken (fun s hs => ⟨hs, hs⟩)
    (fun w s hs => hs) fun s hs => hs.2

/-- What a call of `simulate` comes to, against the playout that starts alike. -/
def Matches (i : RunInput E A O F) (m : MCTS A F) (r : Option (PendingInference A E))
    (m' : MCTS A F) : Prop :=
  match r with
  | none => ∀ query, playout i query m = some m'
  | some p => m' = addLosses p.path m ∧ ∀ query, playout i query m = evaluate i query p m

omit [DecidableEq A] [Field F] [LinearOrder F] [Roots F] in
theorem taken_exists (hm : Indexed m) {path : List (NodeId × A)} {parent : NodeId} {a : A} {g : E}
    (h : Taken m (hash i.env) i.env path parent a g) : ∀ e ∈ path, m.nodeExists e.1 = true := by
  intro e he
  obtain ⟨n, hn, _⟩ := h.offers e he
  exact (nodeExists_iff hm).mpr ⟨n, hn⟩

theorem simulate_plain (hE : LawfulEnvironment E A) (hS : SoundHash S) (hm : WellFormed m)
    (ht : Truthful S m) (henv : i.env ∈ S) :
    Triple (At m) (simulate i (hash i.env))
      (fun r s => ∃ w m', (Turn i m w r m' ∧ At m' s) ∧ Matches i m r m')
      (fun _ => ∀ query, playout i query m = none) := by
  unfold simulate
  refine Triple.seq ((selectLeaf_plain hS hm ht henv).weaken (fun _ hs => hs) (fun _ _ hs => hs)
    fun _ hnone query => by rw [playout, hnone]; rfl) fun w => ?_
  refine Triple.pre (Triple.assume (P := At (addLosses w.path m))
    (p := Selected m (hash i.env) i.env w ∧ descend m i i.fuel (start i) = some w) fun h => ?_)
    fun s hs => ⟨hs.1.2, hs.1.1, hs.2⟩
  obtain ⟨hsel, hdescend⟩ := h
  rcases hsel.chosen with ⟨hpath, haction⟩ | ⟨parent, a, hparent, haction, htaken⟩
  · rw [haction, hpath]
    refine Triple.ret fun s hs => ⟨w, m, ⟨.idle hpath, hs⟩, fun query => ?_⟩
    rw [playout, hdescend, Option.bind_some, haction]
  rw [haction, hparent]
  have hloss := addLosses_carries w.path hm ht htaken.offers
  have hexists := taken_exists hm.indexed htaken
  dsimp only
  cases hrepeat : w.repeatDetected with
  | true =>
    rw [Bool.true_or, if_pos rfl]
    refine Triple.seq (R := fun _ => At (addLosses w.path m)) (Triple.ret fun _ hs => hs) fun _ => ?_
    refine Triple.seq (backpropagate_at w.path true _) fun _ => Triple.ret fun s hs => ?_
    refine ⟨w, _, ⟨.repeated htaken hrepeat, hs⟩, fun query => ?_⟩
    rw [playout, hdescend, Option.bind_some, haction, hparent]
    dsimp only
    rw [hrepeat, if_pos rfl, backup_addLosses]
  | false =>
    rw [Bool.false_or]
    cases hdone : done w.game with
    | false =>
      refine Triple.ret fun s hs => ⟨w, _, ⟨.selected htaken hrepeat hdone, hs⟩, rfl, fun query => ?_⟩
      rw [playout, hdescend, Option.bind_some, haction, hparent]
      dsimp only
      rw [hrepeat, hdone, if_neg (by simp), if_neg (by simp)]
    | true =>
      obtain ⟨before, hb, hid, _, _, hgame, hg⟩ := htaken.sync hS ht henv rfl
      have hexpand := expand_at hE hS hloss.arena hloss.truth i.order hb hid (hgame ▸ hg)
        (hloss.ext.offers (htaken.offers _ htaken.last_mem)) ∅ (i.terminalEvaluator w.game)
        (fun _ => ∀ query, playout i query m = none)
      rw [← hgame] at hexpand
      refine Triple.seq hexpand fun _ => ?_
      refine Triple.seq (backpropagate_at w.path false _) fun _ => Triple.ret fun s hs => ?_
      refine ⟨w, _, ⟨.terminal htaken hrepeat hdone, hs⟩, fun query => ?_⟩
      rw [playout, hdescend, Option.bind_some, haction, hparent]
      dsimp only
      rw [hrepeat, hdone, if_neg (by simp), if_pos rfl,
        expanded_addLosses hm.indexed _ _ _ _ _ _ _ hexists, backup_addLosses]

omit [Roots F] in
/-- The answer to the pending leaf completes the playout. -/
theorem answered_addLosses (hm : WellFormed m) {p : PendingInference A E}
    (htaken : Taken m (hash i.env) i.env p.path p.parentId p.action p.env) (priors : HashMap A F)
    (value : F) : answered i p priors value (addLosses p.path m) =
      credit p.path false (expanded i.order p.parentId p.action p.env priors value m) := by
  rw [answered, expanded_addLosses hm.indexed _ _ _ _ _ _ _ (taken_exists hm.indexed htaken),
    backup_addLosses]

end Simulation

section Runs

variable {S : Set E} {C : RunInput E A O F → Prop} {m : MCTS A F} {i : RunInput E A O F}

def Resting (S : Set E) (i : RunInput E A O F) (m : MCTS A F) (s : Search A E F) : Prop :=
  At m s ∧ Standing S i [] m ∧ m.batchSize = 1

omit [Roots F] [LinearOrder F] [Field F] [Act A] [Environment E A O] [DecidableEq A] in
theorem collect_one {τ : Type} {P : Search A E F → Prop} {X : Search A E F → Prop}
    {body : Prog (Search A E F) (Option τ)} {Q : Option τ → Search A E F → Prop}
    (h : Triple P body Q X) :
    Triple P (collect body [] 1) (fun xs s => ∃ r, xs = r.toList ∧ Q r s) X :=
  Triple.seq h fun r => Triple.ret fun _ hs => ⟨r, rfl, hs⟩

omit [Environment E A O] [Act A] [DecidableEq A] [Field F] [LinearOrder F] [Roots F] in
/-- A reply of one prior map and one value. -/
theorem answering_one (hans : Answering i) (query : ℕ) (obs : O) :
    ∃ priors value, i.client query [obs] = some ([priors], [value]) := by
  obtain ⟨priors, values, hreply, hp, hv⟩ := hans query [obs]
  obtain ⟨p, rfl⟩ := List.length_eq_one_iff.mp hp
  obtain ⟨v, rfl⟩ := List.length_eq_one_iff.mp hv
  exact ⟨p, v, hreply⟩

/-- A batch of one is a playout. -/
theorem runBatch_plain (hE : LawfulEnvironment E A) (hS : SoundHash S) (henv : i.env ∈ S)
    (hans : Answering i) (batch : ℕ) (hst : Standing S i [] m) (hb : m.batchSize = 1) :
    Triple (At m) (runBatch i (hash i.env) batch)
      (fun _ s => ∃ m', Resting S i m' s ∧ playout i (batch + 1) m = some m')
      (fun _ => playout i (batch + 1) m = none) := by
  unfold runBatch
  refine Triple.read fun s hs => ?_
  rw [hs.mcts, hb]
  refine Triple.seq (collect_one ((simulate_plain hE hS hst.arena hst.truth henv).weaken
    (fun t ht => ht ▸ hs) (fun _ _ h => h) fun _ h => h (batch + 1))) fun pending => ?_
  refine Triple.any fun r => Triple.pre (Triple.any fun w => Triple.any fun m' =>
    Triple.assume (P := At m') (p := pending = r.toList ∧ Turn i m w r m' ∧ Matches i m r m')
      fun ⟨hr, hturn, hmatch⟩ => ?_)
    fun t ⟨hr, w, m', ⟨hturn, hat⟩, hmatch⟩ => ⟨w, m', hat, hr, hturn, hmatch⟩
  subst hr
  have hst' := hst.turn hE hS henv hturn
  have hb' : m'.batchSize = 1 :=
    (hturn.carries hE hS henv hst.arena hst.truth).batch.trans hb
  cases r with
  | none => exact Triple.ret fun t hat => ⟨m', ⟨hat, hst', hb'⟩, hmatch (batch + 1)⟩
  | some p =>
    have htaken : Taken m (hash i.env) i.env p.path p.parentId p.action p.env := by
      cases hturn with
      | selected htaken _ _ => exact htaken
    obtain ⟨rfl, hplay⟩ := hmatch
    obtain ⟨priors, value, hreply⟩ := answering_one hans (batch + 1) (observation p.env)
    have heval : playout i (batch + 1) m = some (credit p.path false
        (expanded i.order p.parentId p.action p.env priors value m)) := by
      rw [hplay, evaluate, hreply]
    rw [if_neg (by simp), Option.toList_some, List.map_singleton, hreply]
    have hanswer := answer_at hE hS henv hst' priors value
      fun _ => playout i (batch + 1) m = none
    have hcarry := expanded_backup_carries hE hS henv hst'.arena hst'.truth
      (hst'.taken p List.mem_cons_self) priors value
    have hrested := hst'.answer hE hS henv priors value
    have hsame := answered_addLosses hst.arena htaken priors value
    rw [hsame] at hanswer hrested
    refine Triple.seq hanswer fun _ => Triple.ret fun u hu => ⟨_, ⟨hu, hrested, ?_⟩, heval⟩
    rw [← hsame]
    exact hcarry.batch.trans hb'

/-- Batches of one are playouts in a row. -/
theorem batches_plain (hE : LawfulEnvironment E A) (hS : SoundHash S) (henv : i.env ∈ S)
    (hans : Answering i) (batches : List ℕ) :
    ∀ m : MCTS A F, Standing S i [] m → m.batchSize = 1 →
      Triple (At m) (forEach batches (runBatch i (hash i.env)))
        (fun _ s => ∃ m', Resting S i m' s ∧
          batches.foldlM (fun m k => playout i (k + 1) m) m = some m')
        (fun _ => batches.foldlM (fun m k => playout i (k + 1) m) m = none) := by
  induction batches with
  | nil => exact fun m hst hb => Triple.ret fun s hs => ⟨m, ⟨hs, hst, hb⟩, rfl⟩
  | cons k rest ih =>
    intro m hst hb
    refine Triple.seq ((runBatch_plain hE hS henv hans k hst hb).weaken (fun _ hs => hs)
      (fun _ _ h => h) fun _ hnone => ?_) fun _ => ?_
    · rw [List.foldlM_cons, hnone]
      rfl
    · rintro s ⟨m', ⟨hat, hst', hb'⟩, hplay⟩
      refine ((ih m' hst' hb').weaken (fun _ hs => hs) (fun _ t ht => ?_) fun _ hnone => ?_) s hat
      · rwa [List.foldlM_cons, hplay]
      · rwa [List.foldlM_cons, hplay]

omit [Roots F] in
/-- The root is there, or made of the client's one reply. -/
theorem ensureRoot_plain (hans : Answering i) :
    Triple (At m) (ensureRoot i (hash i.env))
      (fun _ s => ∃ m', (At m' s ∧ RootMade i m m') ∧ plant i m = some m') (fun _ => False) := by
  obtain ⟨priors, value, hreply⟩ := answering_one hans 0 (observation i.env)
  unfold ensureRoot
  refine Triple.read fun s hs => ?_
  rw [hs.mcts]
  split
  · next hfresh =>
    have hfresh : m.nodeExists (hash i.env) = false := by simpa using hfresh
    split
    · next hdone =>
      refine ((mutate_at _).pre fun t ht => ht ▸ hs).post fun _ t ht => ⟨_, ⟨ht, ?_⟩, ?_⟩
      · exact .made hfresh _ _ fun a ha => absurd ha (AList.notMem_empty a)
      · rw [plant, if_neg (by simp [hfresh]), if_pos hdone]
    · next hlive =>
      rw [hreply]
      refine ((mutate_at _).pre fun t ht => ht ▸ hs).post fun _ t ht => ⟨_, ⟨ht, ?_⟩, ?_⟩
      · exact .made hfresh _ _ fun a ha => normalizePrior_keys _ _ ha
      · rw [plant, if_neg (by simp [hfresh]), if_neg hlive, hreply]
  · next hfound =>
    have hfound : m.nodeExists (hash i.env) = true := by simpa using hfound
    exact Triple.ret fun t ht => ⟨m, ⟨ht ▸ hs, .found hfound⟩, if_pos hfound⟩

/-- With a batch size of one, a run on any reachable engine is the plain search: it
returns the same root node and leaves the same engine, or gives up with it. -/
theorem run_plain (hE : LawfulEnvironment E A) (hS : SoundHash S) (hC : ∀ i, C i → On S i)
    {s : Search A E F} (hs : Session C s) (hb : s.mcts.batchSize = 1) (henv : On S i)
    (hans : Answering i) :
    (run i s).1.map (fun node => (node, (run i s).2.mcts)) = search i s.mcts := by
  obtain ⟨hm, ht, hlog⟩ := session_truthful hE hS hC hs
  have hrooted : WellFormed (s.mcts.setRoot (some (hash i.env))) := ⟨hm.indexed, hm.node, hm.linked⟩
  have hrun : Triple (At s.mcts) (run i)
      (fun node t => search i s.mcts = some (node, t.mcts)) (fun _ => search i s.mcts = none) := by
    unfold run
    refine Triple.seq (mutate_at (·.setRoot (some (hash i.env)))) fun _ => ?_
    refine Triple.seq ((ensureRoot_plain hans).weaken (fun _ h => h) (fun _ _ h => h)
      fun _ h => h.elim) fun _ => Triple.any fun m => ?_
    refine Triple.pre (Triple.assume (P := At m)
      (p := RootMade i (s.mcts.setRoot (some (hash i.env))) m ∧
        plant i (s.mcts.setRoot (some (hash i.env))) = some m) fun h => ?_)
      fun t ht => ⟨ht.1.1, ht.1.2, ht.2⟩
    obtain ⟨hmade, hplant⟩ := h
    obtain ⟨hst, hb'⟩ := hmade.standing hE hS henv hrooted ht
    have hsearch : search i s.mcts = (playouts i m).bind fun m =>
        (m.getNode (hash i.env)).map fun node => (node, m) := by
      rw [search, hplant]
      rfl
    split
    · next hdone =>
      refine (rootNode_at _ _ hst.root hst.arena.indexed).post fun node t ht => ?_
      rw [hsearch, playouts, if_pos hdone, Option.bind_some, ht.1, ht.2.mcts]
      rfl
    next hlive =>
    refine Triple.read fun t ht' => ?_
    have hsize : t.mcts.batchSize = 1 := by rw [ht'.mcts, hb', ← hb]; rfl
    have hcount : (i.numSteps + 1 - 1) / max 1 1 = i.numSteps := by simp
    rw [hsize, hcount]
    refine Triple.seq ((batches_plain hE hS henv hans (List.range i.numSteps) m hst
      (hb'.trans hb)).weaken (fun u hu => hu ▸ ht') (fun _ _ h => h) fun _ hnone => ?_) fun _ => ?_
    · rw [hsearch, playouts, if_neg hlive, hnone]
      rfl
    refine Triple.any fun m' => ?_
    refine Triple.pre (Triple.assume (P := At m') (p := Standing S i [] m' ∧
      (List.range i.numSteps).foldlM (fun m k => playout i (k + 1) m) m = some m') fun h => ?_)
      fun u hu => ⟨hu.1.1, hu.1.2.1, hu.2⟩
    obtain ⟨hst', hfold⟩ := h
    refine Triple.seq (mutate_at (·.clearNoise)) fun _ => ?_
    have hroot : m'.clearNoise.nodeExists (hash i.env) = true := hst'.root
    have hindexed : Indexed m'.clearNoise := hst'.arena.indexed
    refine (rootNode_at _ _ hroot hindexed).post fun node u hu => ?_
    rw [hsearch, playouts, if_neg hlive, hfold, Option.map_some, Option.bind_some, hu.1, hu.2.mcts]
    rfl
  have hresult := hrun s ⟨rfl, hlog⟩
  rcases hrun : run i s with ⟨_ | node, t⟩
  · rw [hrun] at hresult
    exact hresult.symm
  · rw [hrun] at hresult
    exact hresult.symm

/-- A perturbed first run of the heap game. -/
theorem run_plain_heap :
    (run (heapInput 4) ⟨(MCTS.new 1).perturbRootPrior ∅ (1 / 4), []⟩).1.map (fun node =>
      (node, (run (heapInput 4) ⟨(MCTS.new 1).perturbRootPrior ∅ (1 / 4), []⟩).2.mcts)) =
    search (heapInput 4) ((MCTS.new 1).perturbRootPrior ∅ (1 / 4)) := by
  have hsession : Session (On Set.univ) (⟨(MCTS.new 1).perturbRootPrior ∅ (1 / 4), []⟩ :
      Search Bool HeapGame ℚ) := .perturbRootPrior ∅ (1 / 4) (.new 1 le_rfl)
  have hans : Answering (heapInput 4) := fun _ obs => ⟨_, _, rfl, by simp, by simp⟩
  exact run_plain heapGame_lawful heapGame_soundHash (fun _ hi => hi) hsession rfl
    (Set.mem_univ _) hans

end Runs

end Mcts.PlainSearch
