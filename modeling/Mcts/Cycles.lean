import Mcts.Descent
import Mcts.ShortReplies
import Mathlib.Logic.Relation

/-!
Simulations that come back to a state of their own path. `select_leaf` looks for
a repeat at the head of its loop, and leaves the loop before that where the edge
it took has no child yet. So a cycle is noticed unless the edge that closes it is
taken for the first time; which of the two it is can be told from the engine
before the call, by following the edges that selection prefers.
-/
namespace Mcts.Cycles

open Program Prog Environments Nodes Engine Arena SearchRun ArenaInvariant Walks Selection
open Backup Turns Transposition Descent Simulations ShortReplies

variable {E A O F : Type} [Environment E A O] [Act A] [DecidableEq A]
variable [Field F] [LinearOrder F] [Roots F]

section Stability

variable {m : MCTS A F} {path : List (NodeId × A)} {id : NodeId}

omit [DecidableEq A] [Field F] [LinearOrder F] [Roots F] in
/-- Booking losses changes nothing else of a node. -/
theorem read_addLosses {τ : Type} {f : Node A F → τ} (hf : ∀ n a, f (n.addVirtualLoss a) = f n)
    (hm : Indexed m) (path : List (NodeId × A)) (id : NodeId) :
    ((addLosses path m).getNode id).map f = (m.getNode id).map f := by
  induction path generalizing m with
  | nil => rfl
  | cons e rest ih =>
    have hfirst : Indexed (m.updateNode e.1 (·.addVirtualLoss e.2)) :=
      updateNode_indexed hm fun _ => rfl
    refine (ih hfirst).trans ?_
    rw [updateNode_getNode hm]
    split
    · rw [Option.map_map]
      exact congrArg (fun g => (m.getNode id).map g) (funext fun n => hf n e.2)
    · rfl

omit [DecidableEq A] [Field F] [LinearOrder F] [Roots F] in
theorem child_addLosses (hm : Indexed m) (path : List (NodeId × A)) (id : NodeId) (a : A) :
    ((addLosses path m).getNode id).bind (·.child a) = (m.getNode id).bind (·.child a) := by
  have hread := read_addLosses (f := fun n : Node A F => n.child a) (fun _ _ => rfl) hm path id
  have hbind := congrArg (fun o : Option (Option NodeId) => o.bind fun c => c) hread
  simp only [Option.bind_map] at hbind
  exact hbind

omit [DecidableEq A] [LinearOrder F] [Roots F] in
theorem qValue_addLosses (hm : Indexed m) (path : List (NodeId × A)) (node : Node A F)
    (fallback : F) (a : A) :
    (addLosses path m).qValue node fallback a = m.qValue node fallback a := by
  have hvalue : ∀ c, ((addLosses path m).getNode c).map (·.value) =
      (m.getNode c).map (·.value) := read_addLosses (fun _ _ => rfl) hm path
  unfold MCTS.qValue
  cases node.child a with
  | none => rfl
  | some c =>
    rw [Option.bind_some, Option.bind_some]
    have hc := hvalue c
    cases hnew : (addLosses path m).getNode c with
    | none =>
      rw [hnew, Option.map_none, eq_comm, Option.map_eq_none_iff] at hc
      rw [hc]
    | some n =>
      rw [hnew, Option.map_some, eq_comm, Option.map_eq_some_iff] at hc
      obtain ⟨old, hold, heq⟩ := hc
      rw [hold]
      show n.value + node.penalty a = old.value + node.penalty a
      rw [heq]

/-- A node's scores depend on the losses of no other node. -/
theorem puctScore_addLosses (hm : Indexed m) (path : List (NodeId × A)) (node : Node A F)
    (cPuct : F) (isRoot forced : Bool) (a : A) :
    (addLosses path m).puctScore node cPuct isRoot forced a =
      m.puctScore node cPuct isRoot forced a := by
  obtain ⟨nodes, hframe, _⟩ := addLosses_frame path m
  have hq := qValue_addLosses hm path node (m.fpuQ node isRoot) a
  rw [hframe] at hq ⊢
  unfold MCTS.puctScore
  dsimp only
  have hfpu : MCTS.fpuQ { m with nodes := nodes } node isRoot = m.fpuQ node isRoot := rfl
  rw [hfpu, hq]
  rfl

theorem selectActionPuct_addLosses (hm : Indexed m) (hid : id ∉ path.map (·.1)) (cPuct : F)
    (isRoot forced : Bool) :
    (addLosses path m).selectActionPuct id cPuct isRoot forced =
      m.selectActionPuct id cPuct isRoot forced := by
  have hnode : (addLosses path m).getNode id = m.getNode id :=
    along_off (by intros; rfl) path hm hid
  have hscore : ∀ node, (addLosses path m).puctScore node cPuct isRoot forced =
      m.puctScore node cPuct isRoot forced :=
    fun node => funext fun a => puctScore_addLosses hm path node cPuct isRoot forced a
  unfold MCTS.selectActionPuct MCTS.puctScores
  simp only [hnode, hscore]

theorem selectActionPuct_missing (hm : Indexed m) (h : m.nodeExists id = false) (cPuct : F)
    (isRoot forced : Bool) : m.selectActionPuct id cPuct isRoot forced = none := by
  have hnode := (getNode_eq_none_iff hm).mpr h
  simp [MCTS.selectActionPuct, MCTS.puctScores, hnode]

end Stability

section Chain

structure Position (A E : Type) where
  path : List (NodeId × A)
  nodeId : NodeId
  game : E

/-- The action that a selection standing here goes on with, if it does. -/
def preferred (m : MCTS A F) (i : RunInput E A O F) (p : Position A E) : Option A :=
  if done p.game = true ∨ hash p.game ∈ p.path.map (·.1) then none
  else m.selectActionPuct p.nodeId i.cPuct (p.nodeId == hash i.env) i.forcedPlayouts

inductive Favours (m : MCTS A F) (i : RunInput E A O F) : Position A E → Position A E → Prop
  | step {p : Position A E} {a : A} {c : NodeId} (hprefer : preferred m i p = some a)
      (hlink : (m.getNode p.nodeId).bind (·.child a) = some c) :
      Favours m i p ⟨p.path ++ [(p.nodeId, a)], c, step p.game a⟩

def Reaches (m : MCTS A F) (i : RunInput E A O F) (p : Position A E) : Prop :=
  Relation.ReflTransGen (Favours m i) ⟨[], hash i.env, i.env⟩ p

structure Expands (m : MCTS A F) (i : RunInput E A O F) (p : Position A E) (a : A) : Prop where
  reaches : Reaches m i p
  prefers : preferred m i p = some a
  unlinked : (m.getNode p.nodeId).bind (·.child a) = none

/-- Along the preferred edges, the one without a child does not close a cycle. -/
def CycleSafe (m : MCTS A F) (i : RunInput E A O F) : Prop :=
  ∀ p a, Expands m i p a → hash (step p.game a) ∉ (p.path ++ [(p.nodeId, a)]).map (·.1)

variable {m : MCTS A F} {i : RunInput E A O F} {p q : Position A E} {a : A}

theorem preferred_done (h : done p.game = true) : preferred m i p = none :=
  if_pos (Or.inl h)

theorem preferred_seen (h : hash p.game ∈ p.path.map (·.1)) : preferred m i p = none :=
  if_pos (Or.inr h)

theorem preferred_live (hlive : done p.game = false) (hseen : hash p.game ∉ p.path.map (·.1)) :
    preferred m i p = m.selectActionPuct p.nodeId i.cPuct (p.nodeId == hash i.env)
      i.forcedPlayouts := by
  apply if_neg
  simp [hlive, hseen]

theorem favours_rightUnique : Relator.RightUnique (Favours m i) := by
  intro p q r hq hr
  cases hq with
  | step hprefer hlink =>
    cases hr with
    | step hprefer' hlink' =>
      obtain rfl := Option.some.inj (hprefer.symm.trans hprefer')
      obtain rfl := Option.some.inj (hlink.symm.trans hlink')
      rfl

/-- The preferred edges end in one position only. -/
theorem Reaches.unique (hp : Reaches m i p) (hq : Reaches m i q)
    (hpend : ∀ r, ¬ Favours m i p r) (hqend : ∀ r, ¬ Favours m i q r) : p = q := by
  rcases Relation.ReflTransGen.total_of_right_unique favours_rightUnique hp hq with h | h
  · rcases h.cases_head with heq | ⟨r, hr, _⟩
    · exact heq
    · exact absurd hr (hpend r)
  · rcases h.cases_head with heq | ⟨r, hr, _⟩
    · exact heq.symm
    · exact absurd hr (hqend r)

theorem Expands.ends (h : Expands m i p a) (r : Position A E) : ¬ Favours m i p r := by
  intro hr
  cases hr with
  | step hprefer hlink =>
    obtain rfl := Option.some.inj (h.prefers.symm.trans hprefer)
    exact absurd (h.unlinked.symm.trans hlink) (by simp)

theorem ends_of_none (h : preferred m i p = none) (r : Position A E) : ¬ Favours m i p r := by
  intro hr
  cases hr with
  | step hprefer _ => exact absurd (h.symm.trans hprefer) (by simp)

/-- The two ways a selection ends: on an edge without a child, or at a loop head. -/
inductive Outcome (m : MCTS A F) (i : RunInput E A O F) (w : Walk A E) : Prop
  | edge (p : Position A E) (a : A) (hexpands : Expands m i p a)
      (hpath : w.path = p.path ++ [(p.nodeId, a)]) (hgame : w.game = step p.game a)
      (hrepeat : w.repeatDetected = false)
  | head (p : Position A E) (hreaches : Reaches m i p) (hnone : preferred m i p = none)
      (hrepeat : w.repeatDetected = true ↔ hash w.game ∈ w.path.map (·.1))

/-- Stopping at the head of the loop on a state not seen before, without a report. -/
theorem Outcome.unseen {w : Walk A E} (hreaches : Reaches m i ⟨w.path, w.nodeId, w.game⟩)
    (hnone : preferred m i ⟨w.path, w.nodeId, w.game⟩ = none) (hfresh : w.repeatDetected = false)
    (hseen : hash w.game ∉ w.path.map (·.1)) : Outcome m i w := by
  refine .head _ hreaches hnone (iff_of_false ?_ hseen)
  simp [hfresh]

/-- A selection tells a repeat from other ends exactly when the engine is safe. -/
theorem Outcome.repeat_iff {w : Walk A E} (h : Outcome m i w) :
    (w.repeatDetected = true ↔ hash w.game ∈ w.path.map (·.1)) ↔ CycleSafe m i := by
  cases h with
  | edge p a hexpands hpath hgame hrepeat =>
    rw [hpath, hgame, hrepeat]
    constructor
    · intro htold q b hq
      obtain rfl := hexpands.reaches.unique hq.reaches hexpands.ends hq.ends
      obtain rfl := Option.some.inj (hexpands.prefers.symm.trans hq.prefers)
      intro hseen
      exact absurd (htold.mpr hseen) (by simp)
    · intro hsafe
      exact iff_of_false (by simp) (hsafe p a hexpands)
  | head p hreaches hnone hrepeat =>
    refine iff_of_true hrepeat fun q b hq => ?_
    obtain rfl := hreaches.unique hq.reaches (ends_of_none hnone) hq.ends
    exact absurd (hnone.symm.trans hq.prefers) (by simp)

end Chain

section Loop

variable {S : Set E} {m : MCTS A F} {i : RunInput E A O F}

omit [DecidableEq A] [Field F] [LinearOrder F] [Roots F] in
/-- The ids on a walk are those of live states. -/
theorem walked_live (hS : SoundHash S) (ht : Truthful S m) {root id : NodeId} {env g : E}
    (henv : env ∈ S) (hroot : hash env = root) {path : List (NodeId × A)}
    (h : Walked m root env path id g) :
    ∀ x ∈ path.map (·.1), ∃ t ∈ S, hash t = x ∧ done t = false := by
  induction h with
  | start => exact fun x hx => absurd hx List.not_mem_nil
  | step hw hrun _ _ _ _ ih =>
    obtain ⟨_, _, hmem, hhash⟩ := hw.sync hS ht henv hroot
    intro x hx
    rw [List.map_append, List.mem_append] at hx
    rcases hx with hx | hx
    · exact ih x hx
    · exact ⟨_, hmem, hhash.trans (List.mem_singleton.mp hx).symm, hrun⟩

omit [DecidableEq A] [Field F] [LinearOrder F] [Roots F] in
/-- A state that is over or not stored is not on its walk. -/
theorem walked_unseen (hS : SoundHash S) (hm : Indexed m) (ht : Truthful S m) {root id : NodeId}
    {env g : E} (henv : env ∈ S) (hroot : hash env = root) {path : List (NodeId × A)}
    (h : Walked m root env path id g) (hend : done g = true ∨ m.nodeExists id = false) :
    hash g ∉ path.map (·.1) := by
  obtain ⟨_, _, hmem, hhash⟩ := h.sync hS ht henv hroot
  intro hseen
  rcases hend with hdone | hmissing
  · obtain ⟨t, htmem, hsame, hrun⟩ := walked_live hS ht henv hroot h _ hseen
    rw [hS.done_eq t htmem g hmem hsame, hdone] at hrun
    exact absurd hrun (by simp)
  · obtain ⟨e, he, hid⟩ := List.mem_map.mp hseen
    obtain ⟨n, _, hn, _⟩ := h.linked e he
    have hexists := (nodeExists_iff hm).mpr ⟨n, hn⟩
    rw [hid, hhash, hmissing] at hexists
    exact absurd hexists (by simp)

/-- One round goes on along the preferred edge or ends in one of the two ways. -/
theorem selectRound_outcome (hS : SoundHash S) (hm : WellFormed m) (ht : Truthful S m)
    (henv : i.env ∈ S) (w : Walk A E) (h : Walking m (hash i.env) i.env w)
    (hreaches : Reaches m i ⟨w.path, w.nodeId, w.game⟩) (X : Search A E F → Prop) :
    Triple (fun s => s.mcts = addLosses w.path m)
      (selectRound (hash i.env) i.cPuct i.forcedPlayouts w)
      (fun r _ => Sum.elim (fun next => Reaches m i ⟨next.path, next.nodeId, next.game⟩)
        (Outcome m i) r) X := by
  obtain ⟨_, _, hmem, hhash⟩ := h.walked.sync hS ht henv rfl
  have hunseen := walked_unseen hS hm.indexed ht henv rfl h.walked
  unfold selectRound
  split
  · rename_i hend
    rw [h.fresh, Bool.or_false] at hend
    exact Triple.ret fun s _ =>
      .unseen hreaches (preferred_done hend) h.fresh (hunseen (Or.inl hend))
  rename_i hlive
  rw [h.fresh, Bool.or_false, Bool.not_eq_true] at hlive
  refine Triple.seq (emit_keeps (P := (· = addLosses w.path m)) _) fun _ =>
    Triple.read fun s hs => ?_
  rw [hs]
  split
  · rename_i hmissing
    have hmissing : m.nodeExists w.nodeId = false := by
      simpa [addLosses, along_nodeExists] using hmissing
    have hseen := hunseen (Or.inr hmissing)
    have hnone : preferred m i ⟨w.path, w.nodeId, w.game⟩ = none :=
      (preferred_live hlive hseen).trans (selectActionPuct_missing hm.indexed hmissing _ _ _)
    exact Triple.ret fun s _ => .unseen hreaches hnone h.fresh hseen
  split
  · rename_i hseen
    rw [checkStateRepeat_iff] at hseen
    exact Triple.ret fun s _ => .head _ hreaches (preferred_seen hseen) (iff_of_true rfl hseen)
  rename_i hseen
  rw [checkStateRepeat_iff] at hseen
  -- the losses booked so far are all on other nodes
  have hchoice := selectActionPuct_addLosses hm.indexed (hhash ▸ hseen) i.cPuct
    (w.nodeId == hash i.env) i.forcedPlayouts
  have hprefer := preferred_live (m := m) (i := i) (p := ⟨w.path, w.nodeId, w.game⟩) hlive hseen
  dsimp only at hprefer ⊢
  rw [hchoice, ← hprefer]
  split
  · rename_i hnone
    exact Triple.ret fun s _ => .unseen hreaches hnone h.fresh hseen
  rename_i chosen hchosen
  refine Triple.seq (R := fun _ t => t.mcts = addLosses (w.path ++ [(w.nodeId, chosen)]) m)
    (Triple.update fun t hst => ?_) fun _ => ?_
  · show t.mcts.updateNode w.nodeId (·.addVirtualLoss chosen) = _
    rw [hst, hs, addLosses, addLosses, along_concat]
  refine Triple.seq (emit_keeps (P := (· = addLosses (w.path ++ [(w.nodeId, chosen)]) m)) _)
    fun _ => Triple.read fun t hst => ?_
  rw [hst, child_addLosses hm.indexed]
  split
  · rename_i childId hlink
    exact Triple.ret fun u _ => hreaches.tail (.step hchosen hlink)
  · rename_i hlink
    exact Triple.ret fun u _ => .edge _ chosen ⟨hreaches, hchosen, hlink⟩ rfl rfl h.fresh

/-- How a call of `select_leaf` ends. -/
theorem selectLeaf_outcome (hS : SoundHash S) (hm : WellFormed m) (ht : Truthful S m)
    (henv : i.env ∈ S) :
    Triple (At m) (selectLeaf i (hash i.env))
      (fun w s => (Selected m (hash i.env) i.env w ∧ At (addLosses w.path m) s) ∧ Outcome m i w)
      (fun _ => i.fuel ≤ m.nodes.length) := by
  have hloop : Triple (At m) (selectLeaf i (hash i.env)) (fun w _ => Outcome m i w)
      (fun _ => True) := by
    refine (Triple.while_rule (I := fun _ w s => At (addLosses w.path m) s ∧
      (Walking m (hash i.env) i.env w ∧ Reaches m i ⟨w.path, w.nodeId, w.game⟩))
      (fun _ w => Triple.assume fun h => ?_) (fun _ _ _ => trivial) i.fuel _).pre fun s hs => ?_
    · have hround := (selectRound_at hS hm ht henv rfl i.cPuct i.forcedPlayouts w h.1
        fun _ => True).both (selectRound_outcome hS hm ht henv w h.1 h.2 fun _ => True)
      refine hround.weaken (fun s hs => ⟨hs, hs.mcts⟩) (fun r s hr => ?_) fun _ _ => trivial
      cases r with
      | inl next => exact ⟨hr.1.2, hr.1.1.1, hr.2⟩
      | inr last => exact hr.2
    · exact ⟨hs, ⟨.start, rfl, rfl, rfl⟩, Relation.ReflTransGen.refl⟩
  exact ((selectLeaf_at hS hm ht i henv).both hloop).weaken (fun s hs => ⟨hs, hs⟩)
    (fun w s hs => hs) fun s hs => hs.1.1

end Loop

section Treatment

variable {S : Set E} {i : RunInput E A O F} {s t u : Search A E F} {w : Walk A E}
variable {r : Option (PendingInference A E)}

/-- `select_leaf` reports a repeat iff the state it reaches is on its path; then the
path is backed up with the penalty; and no state of the path is left for the client. -/
def Treated (i : RunInput E A O F) (s : Search A E F) : Prop :=
  ∃ w t r u, selectLeaf i (hash i.env) s = (some w, t) ∧
    simulate i (hash i.env) s = (some r, u) ∧
    (w.repeatDetected = true ↔ hash w.game ∈ w.path.map (·.1)) ∧
    (hash w.game ∈ w.path.map (·.1) → r = none ∧ backpropagate w.path true t = (some (), u)) ∧
    ∀ p ∈ r, hash p.env ∉ p.path.map (·.1)

def Keeping (S : Set E) (s : Search A E F) : Prop :=
  WellFormed s.mcts ∧ Truthful S s.mcts ∧ ∀ e ∈ s.log, Sound e

omit [DecidableEq A] [Field F] [LinearOrder F] [Roots F] in
/-- The ids on the path of a selection are those of live states. -/
theorem taken_live {m : MCTS A F} (hS : SoundHash S) (ht : Truthful S m) {root parent : NodeId}
    {env g : E} (henv : env ∈ S) (hroot : hash env = root) {path : List (NodeId × A)} {a : A}
    (h : Taken m root env path parent a g) (hseen : hash g ∈ path.map (·.1)) :
    done g = false := by
  obtain ⟨_, _, _, _, _, _, hg⟩ := h.sync hS ht henv hroot
  obtain ⟨hw, hrun, _, _, _⟩ := h
  obtain ⟨_, _, hmem, hhash⟩ := hw.sync hS ht henv hroot
  rw [List.map_append, List.mem_append] at hseen
  rcases hseen with hseen | hseen
  · obtain ⟨x, hx, hsame, hlive⟩ := walked_live hS ht henv hroot hw _ hseen
    exact (hS.done_eq x hx _ hg hsame).symm.trans hlive
  · have hsame := hhash.trans (List.mem_singleton.mp hseen).symm
    exact (hS.done_eq _ hmem _ hg hsame).symm.trans hrun

/-- A selection that reports a repeat is backed up with the penalty. -/
theorem simulate_repeat (hleaf : selectLeaf i (hash i.env) s = (some w, t)) {parent : NodeId}
    {a : A} (haction : w.action = some a) (hparent : w.parent = some parent)
    (hrepeat : w.repeatDetected = true) (hback : backpropagate w.path true t = (some (), u)) :
    simulate i (hash i.env) s = (some none, u) := by
  unfold simulate
  rw [bind_run, hleaf]
  simp only [haction, hparent, hrepeat, Bool.true_or, if_true]
  show (backpropagate w.path true >>= fun _ => pure none) t = _
  rw [bind_run, hback]
  rfl

/-- A selection of a live state that reports none is left for the client. -/
theorem simulate_fresh (hleaf : selectLeaf i (hash i.env) s = (some w, t)) {parent : NodeId}
    {a : A} (haction : w.action = some a) (hparent : w.parent = some parent)
    (hrepeat : w.repeatDetected = false) (hlive : done w.game = false) :
    simulate i (hash i.env) s = (some (some ⟨w.path, parent, a, w.game⟩), t) := by
  unfold simulate
  rw [bind_run, hleaf]
  simp only [haction, hparent, hrepeat, hlive, Bool.or_self, Bool.false_eq_true, if_false]
  rfl

/-- What is left for the client was selected without a repeat. -/
theorem simulate_pending (hleaf : selectLeaf i (hash i.env) s = (some w, t))
    {p : PendingInference A E} (h : simulate i (hash i.env) s = (some (some p), u)) :
    w.repeatDetected = false ∧ p.path = w.path ∧ p.env = w.game := by
  unfold simulate at h
  rw [bind_run, hleaf] at h
  rcases haction : w.action with _ | a
  · simp only [haction] at h
    exact absurd (congrArg Prod.fst h) (by simp)
  rcases hparent : w.parent with _ | parent
  · simp only [haction, hparent] at h
    exact absurd (congrArg Prod.fst h) (by simp)
  simp only [haction, hparent] at h
  by_cases hstop : (w.repeatDetected || done w.game) = true
  · rw [if_pos hstop] at h
    obtain ⟨_, _, _, h⟩ := bind_eq_some h
    obtain ⟨_, _, _, h⟩ := bind_eq_some h
    exact absurd (congrArg Prod.fst h) (by simp)
  · rw [if_neg hstop] at h
    obtain rfl := Option.some.inj (Option.some.inj (congrArg Prod.fst h))
    rw [Bool.not_eq_true, Bool.or_eq_false_iff] at hstop
    exact ⟨hstop.1, rfl, rfl⟩

/-- A call of `select_leaf` that returns, in all that is known of it. -/
theorem selectLeaf_returned (hS : SoundHash S) (henv : i.env ∈ S) (hs : Keeping S s)
    (hleaf : selectLeaf i (hash i.env) s = (some w, t)) :
    Selected s.mcts (hash i.env) i.env w ∧ At (addLosses w.path s.mcts) t ∧
      Outcome s.mcts i w := by
  obtain ⟨⟨hsel, hat⟩, hout⟩ :=
    (selectLeaf_outcome hS hs.1 hs.2.1 henv).returned ⟨rfl, hs.2.2⟩ hleaf
  exact ⟨hsel, hat, hout⟩

/-- A repeat that is reported is backed up with the penalty. -/
theorem simulate_penalised (hS : SoundHash S) (henv : i.env ∈ S) (hs : Keeping S s)
    (hleaf : selectLeaf i (hash i.env) s = (some w, t)) (hrepeat : w.repeatDetected = true)
    (hseen : hash w.game ∈ w.path.map (·.1)) :
    ∃ u, backpropagate w.path true t = (some (), u) ∧
      simulate i (hash i.env) s = (some none, u) := by
  obtain ⟨hsel, hbooked, _⟩ := selectLeaf_returned hS henv hs hleaf
  rcases hsel.chosen with ⟨hpath, _⟩ | ⟨parent, a, hparent, haction, _⟩
  · rw [hpath] at hseen
    exact absurd hseen List.not_mem_nil
  · have hback := backpropagate_at w.path true (fun _ => False) t hbooked
    rcases hpenalty : backpropagate w.path true t with ⟨_ | _, u⟩
    · rw [hpenalty] at hback
      exact hback.elim
    · exact ⟨u, rfl, simulate_repeat hleaf haction hparent hrepeat hpenalty⟩

/-- A selection leaves a state of its path for the client exactly where the engine
is unsafe. -/
theorem simulate_pending_iff (hS : SoundHash S) (henv : i.env ∈ S) (hs : Keeping S s)
    (hsim : simulate i (hash i.env) s = (some r, u)) :
    (∀ p ∈ r, hash p.env ∉ p.path.map (·.1)) ↔ CycleSafe s.mcts i := by
  obtain ⟨w, t, hleaf, _⟩ := bind_eq_some hsim
  obtain ⟨hsel, _, hout⟩ := selectLeaf_returned hS henv hs hleaf
  rw [← hout.repeat_iff]
  constructor
  · intro hclear
    have hseen := ((selectLeaf_traced i (hash i.env)).returned trivial hleaf).seen
    refine ⟨hseen, fun hmem => ?_⟩
    rcases hsel.chosen with ⟨hpath, _⟩ | ⟨parent, a, hparent, haction, htaken⟩
    · rw [hpath] at hmem
      exact absurd hmem List.not_mem_nil
    · by_contra hrepeat
      rw [Bool.not_eq_true] at hrepeat
      have hlive := taken_live hS hs.2.1 henv rfl htaken hmem
      have hfresh := simulate_fresh hleaf haction hparent hrepeat hlive
      obtain rfl := Option.some.inj (congrArg Prod.fst (hsim.symm.trans hfresh))
      exact hclear _ rfl hmem
  · intro htold p hp
    rw [Option.mem_def] at hp
    subst hp
    obtain ⟨hrepeat, hpath, hgame⟩ := simulate_pending hleaf hsim
    rw [hpath, hgame]
    intro hmem
    exact absurd (hrepeat.symm.trans (htold.mpr hmem)) (by simp)

/-- With fuel for a round for each node, the selection that starts here treats
repeats as repeats exactly when the engine is safe. -/
theorem treated_iff (hE : LawfulEnvironment E A) (hS : SoundHash S) (henv : i.env ∈ S)
    (hs : Keeping S s) (hfuel : s.mcts.nodes.length < i.fuel) :
    Treated i s ↔ CycleSafe s.mcts i := by
  have hat : At s.mcts s := ⟨rfl, hs.2.2⟩
  constructor
  · rintro ⟨w, t, r, u, hleaf, _, htold, _⟩
    exact (selectLeaf_returned hS henv hs hleaf).2.2.repeat_iff.mp htold
  · intro hsafe
    have hsim := simulate_at hE hS henv hs.1 hs.2.1 s hat
    rcases hrun : simulate i (hash i.env) s with ⟨_ | r, u⟩
    · rw [hrun] at hsim
      exact absurd hsim.1 (by omega)
    obtain ⟨w, t, hleaf, _⟩ := bind_eq_some hrun
    have htold := (selectLeaf_returned hS henv hs hleaf).2.2.repeat_iff.mpr hsafe
    refine ⟨w, t, r, u, hleaf, hrun, htold, fun hmem => ?_,
      (simulate_pending_iff hS henv hs hrun).mpr hsafe⟩
    obtain ⟨v, hpenalty, hnone⟩ := simulate_penalised hS henv hs hleaf (htold.mpr hmem) hmem
    have heq := hrun.symm.trans hnone
    have hstate : u = v := congrArg Prod.snd heq
    exact ⟨Option.some.inj (congrArg Prod.fst heq), hstate ▸ hpenalty⟩

end Treatment

section Runs

variable {S : Set E} {i : RunInput E A O F} {s u v : Search A E F} {batch k : ℕ}
variable {pending : List (PendingInference A E)}

/-- The states in which `select_leaf` is called on the environment of `i`: between two
calls of a session, or where a simulation of a run starts. -/
inductive Selecting (S : Set E) (i : RunInput E A O F) : Search A E F → Prop
  | between {s : Search A E F} : Session (On S) s → Selecting S i s
  | inside {s v u : Search A E F} {batch k : ℕ} {pending : List (PendingInference A E)} :
      Session (On S) s → beforeBatch i batch s = (some (), v) →
      collect (simulate i (hash i.env)) [] k v = (some pending, u) → Selecting S i u

theorem simulate_keeping (hE : LawfulEnvironment E A) (hS : SoundHash S) (henv : i.env ∈ S) :
    Triple (Keeping S) (simulate i (hash i.env)) (fun _ s => Keeping S s) (fun _ => True) := by
  rintro s ⟨hm, ht, hlog⟩
  refine ((simulate_at hE hS henv hm ht).weaken (fun _ hs => hs) (fun r t h => ?_)
    fun _ _ => trivial) s ⟨rfl, hlog⟩
  obtain ⟨w, m', _, hturn, hat⟩ := h
  have hcarry := hturn.carries hE hS henv hm ht
  exact ⟨hat.mcts ▸ hcarry.arena, hat.mcts ▸ hcarry.truth, hat.log⟩

theorem collect_keeping (hE : LawfulEnvironment E A) (hS : SoundHash S) (henv : i.env ∈ S)
    (k : ℕ) : Triple (Keeping S) (collect (simulate i (hash i.env)) [] k)
      (fun _ s => Keeping S s) (fun _ => True) :=
  Triple.gather (I := fun _ _ => Keeping S) (fun _ _ => simulate_keeping hE hS henv) k []

theorem beforeBatch_keeping (hE : LawfulEnvironment E A) (hS : SoundHash S) (henv : i.env ∈ S)
    (batch : ℕ) :
    Triple (Keeping S) (beforeBatch i batch) (fun _ s => Keeping S s) (fun _ => True) := by
  rintro s ⟨hm, ht, hlog⟩
  have hrooted : WellFormed (s.mcts.setRoot (some (hash i.env))) := ⟨hm.indexed, hm.node, hm.linked⟩
  have hJ : Invariant S i s.mcts.batchSize fun _ _ _ => True :=
    ⟨fun _ _ _ _ _ _ _ _ _ _ _ _ => trivial, fun _ _ _ _ _ _ _ _ => trivial,
      fun _ _ _ _ _ _ => trivial⟩
  have hbefore : Triple (At s.mcts) (beforeBatch i batch) (fun _ t => Keeping S t)
      (fun _ => True) := by
    refine Triple.seq (mutate_at (·.setRoot (some (hash i.env)))) fun _ => ?_
    refine Triple.seq (ensureRoot_at.weaken (fun _ h => h) (fun _ _ h => h) fun _ _ => trivial)
      fun _ => Triple.any fun m' => Triple.assume fun hmade => ?_
    obtain ⟨hst, hbatch⟩ := hmade.standing hE hS henv hrooted ht
    refine (batches_held hE hS henv hJ batch).weaken
      (fun t hat => ⟨m', hat, hst, hbatch, trivial⟩) (fun _ t h => ?_) fun _ _ => trivial
    obtain ⟨m'', hat, hst', _⟩ := h
    exact ⟨hat.mcts ▸ hst'.arena, hat.mcts ▸ hst'.truth, hat.log⟩
  exact hbefore s ⟨rfl, hlog⟩

theorem Selecting.keeping (hE : LawfulEnvironment E A) (hS : SoundHash S) (henv : i.env ∈ S)
    (h : Selecting S i s) : Keeping S s := by
  cases h with
  | between hs => exact session_truthful hE hS (fun _ hi => hi) hs
  | inside hs hbatch hcollect =>
    have hstart := session_truthful hE hS (fun _ hi => hi) hs
    have hbefore := (beforeBatch_keeping hE hS henv _).returned hstart hbatch
    exact (collect_keeping hE hS henv _).returned hbefore hcollect

/-- No leaf of a batch is a state of its own path exactly when every simulation of
the batch started on a safe engine. -/
theorem batch_pending_iff (hE : LawfulEnvironment E A) (hS : SoundHash S) (henv : i.env ∈ S)
    (hv : Keeping S v) (hcollect : collect (simulate i (hash i.env)) [] k v = (some pending, u)) :
    (∀ p ∈ pending, hash p.env ∉ p.path.map (·.1)) ↔
      ∀ j < k, ∀ early x, collect (simulate i (hash i.env)) [] j v = (some early, x) →
        CycleSafe x.mcts i := by
  induction k generalizing pending u with
  | zero =>
    obtain rfl : [] = pending := Option.some.inj (congrArg Prod.fst hcollect)
    exact iff_of_true (fun p hp => absurd hp List.not_mem_nil) fun j hj => absurd hj (by omega)
  | succ k ih =>
    rw [collect_succ] at hcollect
    obtain ⟨early, x, hearly, hlast⟩ := bind_eq_some hcollect
    obtain ⟨r, y, hsim, hend⟩ := bind_eq_some hlast
    obtain rfl : early ++ r.toList = pending := Option.some.inj (congrArg Prod.fst hend)
    have hx := (collect_keeping hE hS henv k).returned hv hearly
    have hlastsafe := simulate_pending_iff hS henv hx hsim
    have hsplit : (∀ p ∈ early ++ r.toList, hash p.env ∉ p.path.map (·.1)) ↔
        (∀ p ∈ early, hash p.env ∉ p.path.map (·.1)) ∧
          ∀ p ∈ r, hash p.env ∉ p.path.map (·.1) := by
      rw [List.forall_mem_append]
      simp only [Option.mem_toList, Option.mem_def]
    rw [hsplit, ih hearly, hlastsafe]
    constructor
    · rintro ⟨hbefore, hsafe⟩ j hj early' x' hearly'
      rcases Nat.lt_succ_iff_lt_or_eq.mp hj with hlt | rfl
      · exact hbefore j hlt early' x' hearly'
      · obtain rfl : x = x' := congrArg Prod.snd (hearly.symm.trans hearly')
        exact hsafe
    · intro hall
      exact ⟨fun j hj => hall j (by omega), hall k (Nat.lt_succ_self k) early x hearly⟩

/-- At every reachable state a selection treats a cycle as a repeat exactly when the
preferred edge without a child closes none; and over a whole run, no batch sends a
state of a leaf's own path exactly when this held at each of its simulations. -/
theorem repeats_treated_iff (hE : LawfulEnvironment E A) (hS : SoundHash S) (henv : i.env ∈ S) :
    (∀ s, Selecting S i s → s.mcts.nodes.length < i.fuel →
      (Treated i s ↔ CycleSafe s.mcts i)) ∧
    ∀ s batch v k pending u, Session (On S) s → beforeBatch i batch s = (some (), v) →
      collect (simulate i (hash i.env)) [] k v = (some pending, u) →
      ((∀ p ∈ pending, hash p.env ∉ p.path.map (·.1)) ↔
        ∀ j < k, ∀ early x, collect (simulate i (hash i.env)) [] j v = (some early, x) →
          CycleSafe x.mcts i) := by
  constructor
  · intro s hs hfuel
    exact treated_iff hE hS henv (hs.keeping hE hS henv) hfuel
  · intro s batch v k pending u hs hbatch hcollect
    have hstart := session_truthful hE hS (fun _ hi => hi) hs
    have hv := (beforeBatch_keeping hE hS henv batch).returned hstart hbatch
    exact batch_pending_iff hE hS henv hv hcollect

end Runs

section Pendulum

structure Pendulum where
  swung : Bool
deriving DecidableEq

instance : Environment Pendulum Bool ℕ where
  step s _ := ⟨!s.swung⟩
  done _ := false
  observation s := s.swung.toNat
  validActions _ := [false]
  numActions _ := 1
  hash s := s.swung.toNat

theorem pendulum_lawful : LawfulEnvironment Pendulum Bool where
  index_lt _ a ha := by
    rw [List.mem_singleton.mp ha]
    exact Nat.one_pos
  nodup _ := List.nodup_singleton _
  index_injective := heapGame_lawful.index_injective

theorem pendulum_soundHash : SoundHash (Set.univ : Set Pendulum) := by
  have hstate : ∀ s t : Pendulum, hash s = hash t → s = t := by
    rintro ⟨p⟩ ⟨q⟩ h
    cases p with
    | false => cases q with
      | false => rfl
      | true => exact absurd h (by decide)
    | true => cases q with
      | false => exact absurd h (by decide)
      | true => rfl
  refine ⟨fun _ _ _ _ _ => Set.mem_univ _, fun _ _ _ _ _ => rfl, fun _ _ _ _ _ _ => Iff.rfl,
    fun _ _ _ _ _ => rfl, ?_⟩
  exact fun s _ t _ h _ _ _ => by rw [hstate s t h]

def pendulumInput (numSteps : ℕ) : RunInput Pendulum Bool ℕ ℚ where
  env := ⟨false⟩
  client _ obs := some (obs.map fun _ => ∅, obs.map fun _ => 0)
  numSteps := numSteps
  cPuct := 1
  terminalEvaluator _ := 1
  forcedPlayouts := false
  order := (heapInput numSteps).order
  fuel := 100

def pendulumSearch (numSteps : ℕ) : Search Bool Pendulum ℚ :=
  (run (pendulumInput numSteps) ⟨MCTS.new 1, []⟩).2

theorem pendulumSearch_session (numSteps : ℕ)
    (h : (run (pendulumInput numSteps) ⟨MCTS.new 1, []⟩).1.isSome = true) :
    Session (On Set.univ) (pendulumSearch numSteps) := by
  obtain ⟨node, hnode⟩ := Option.isSome_iff_exists.mp h
  exact .run (.new 1 (by decide)) (Set.mem_univ _) (Prod.ext hnode rfl)

/-- The second time round the edge that closes the cycle has a child. -/
theorem pendulum_safe : CycleSafe (pendulumSearch 2).mcts (pendulumInput 1) := by
  have hsession := pendulumSearch_session 2 (by decide +kernel)
  refine ((repeats_treated_iff pendulum_lawful pendulum_soundHash (Set.mem_univ _)).1 _
    (.between hsession) (by decide +kernel)).mp ?_
  have hkeeping := session_truthful pendulum_lawful pendulum_soundHash (fun _ hi => hi) hsession
  have htold : (selectLeaf (pendulumInput 1) 0 (pendulumSearch 2)).1.map
      (fun w : Walk Bool Pendulum => (w.repeatDetected, w.game.swung.toNat, w.path.map (·.1))) =
        some (true, 0, [0, 1]) := by
    decide +kernel
  rcases hleaf : selectLeaf (pendulumInput 1) 0 (pendulumSearch 2) with ⟨_ | w, t⟩
  · rw [hleaf] at htold
    exact absurd htold (by simp)
  rw [hleaf] at htold
  simp only [Option.map_some, Option.some.injEq, Prod.mk.injEq] at htold
  obtain ⟨hrepeat, hgame, hpath⟩ := htold
  have hseen : hash w.game ∈ w.path.map (·.1) := by
    show w.game.swung.toNat ∈ _
    rw [hgame, hpath]
    decide
  obtain ⟨u, hback, hsim⟩ := simulate_penalised pendulum_soundHash (Set.mem_univ _) hkeeping hleaf
    hrepeat hseen
  exact ⟨w, t, none, u, hleaf, hsim, iff_of_true hrepeat hseen, fun _ => ⟨rfl, hback⟩,
    fun p hp => absurd hp (by simp)⟩

/-- The first time round it has none: the selection comes back to the root, reports no
repeat, and leaves the root for the client. -/
theorem pendulum_untreated : Session (On Set.univ) (pendulumSearch 1) ∧
    (∃ w t, selectLeaf (pendulumInput 1) 0 (pendulumSearch 1) = (some w, t) ∧
      w.repeatDetected = false ∧ hash w.game ∈ w.path.map (·.1)) ∧
    (∃ p t, simulate (pendulumInput 1) 0 (pendulumSearch 1) = (some (some p), t) ∧
      hash p.env ∈ p.path.map (·.1)) ∧
    ¬ Treated (pendulumInput 1) (pendulumSearch 1) := by
  have htold : (selectLeaf (pendulumInput 1) 0 (pendulumSearch 1)).1.map
      (fun w : Walk Bool Pendulum => (w.repeatDetected, w.game.swung.toNat, w.path.map (·.1))) =
        some (false, 0, [0, 1]) := by
    decide +kernel
  have hleft : (simulate (pendulumInput 1) 0 (pendulumSearch 1)).1.map (fun r => r.map
      fun p : PendingInference Bool Pendulum => (p.env.swung.toNat, p.path.map (·.1))) =
        some (some (0, [0, 1])) := by
    decide +kernel
  rcases hleaf : selectLeaf (pendulumInput 1) 0 (pendulumSearch 1) with ⟨_ | w, t⟩
  · rw [hleaf] at htold
    exact absurd htold (by simp)
  rcases hsim : simulate (pendulumInput 1) 0 (pendulumSearch 1) with ⟨_ | _ | p, u⟩
  · rw [hsim] at hleft
    exact absurd hleft (by simp)
  · rw [hsim] at hleft
    exact absurd hleft (by simp)
  rw [hleaf] at htold
  rw [hsim] at hleft
  simp only [Option.map_some, Option.some.injEq, Prod.mk.injEq] at htold hleft
  obtain ⟨hrepeat, hgame, hpath⟩ := htold
  obtain ⟨hgame', hpath'⟩ := hleft
  have hseen : hash w.game ∈ w.path.map (·.1) := by
    show w.game.swung.toNat ∈ _
    rw [hgame, hpath]
    decide
  have hseen' : hash p.env ∈ p.path.map (·.1) := by
    show p.env.swung.toNat ∈ _
    rw [hgame', hpath']
    decide
  refine ⟨pendulumSearch_session 1 (by decide +kernel), ⟨w, t, rfl, hrepeat, hseen⟩,
    ⟨p, u, rfl, hseen'⟩, ?_⟩
  rintro ⟨w', t', r, u', hleaf', _, htold, _⟩
  have heq : (some w, t) = (some w', t') := hleaf.symm.trans hleaf'
  obtain rfl := Option.some.inj (congrArg Prod.fst heq)
  exact absurd (hrepeat.symm.trans (htold.mpr hseen)) (by simp)

end Pendulum

end Mcts.Cycles
