import Mcts.Selection
import Mcts.Recomputation

/-!
`expand` and `backpropagate` as functions of the engine: link the leaf, and
back a path up. Both keep the graph well formed and truthful and only extend
it. On a path without repeats each node is backed up once, off the path nothing
changes.
-/
namespace Mcts.Backup

open Program Prog Environments Nodes Engine Arena SearchRun ArenaInvariant Walks Selection
open Recomputation

variable {E A O F : Type} [Environment E A O] [Act A] [Field F]

structure Carries (S : Set E) (m m' : MCTS A F) : Prop where
  arena : WellFormed m'
  truth : Truthful S m'
  ext : Extends m m'
  batch : m'.batchSize = m.batchSize

section Carrying

variable {S : Set E} {m m' m'' : MCTS A F}

theorem Carries.refl (hm : WellFormed m) (ht : Truthful S m) : Carries S m m :=
  ⟨hm, ht, Extends.refl m, rfl⟩

theorem Carries.trans (h : Carries S m m') (h' : Carries S m' m'') : Carries S m m'' :=
  ⟨h'.arena, h'.truth, h.ext.trans h'.ext, h'.batch.trans h.batch⟩

/-- An update that touches counters and values only. -/
structure Gentle (f : Node A F → Node A F) : Prop where
  id : ∀ n, (f n).id = n.id
  terminal : ∀ n, (f n).terminalState = n.terminalState
  valid : ∀ n, (f n).validActions = n.validActions
  num : ∀ n, (f n).numActions = n.numActions
  children : ∀ n, (f n).children = n.children

theorem Gentle.carries {f : Node A F → Node A F} (hf : Gentle f) (hm : WellFormed m)
    (ht : Truthful S m) (id : NodeId)
    (hnode : ∀ n, m.getNode id = some n → (f n).WellFormed) : Carries S m (m.updateNode id f) where
  arena := hm.updateNode_same hf.id hf.children hnode
  truth := ht.updateNode hm.indexed fun n s _ _ _ hn =>
    hn.congr (hf.terminal n) (hf.valid n) (hf.num n) (hf.children n)
  ext := Extends.updateNode hm.indexed id hf.valid fun n a c _ hc => by
    rwa [Node.child, hf.children]
  batch := updateNode_batchSize m id f

omit [Field F] in
theorem gentle_addVirtualLoss (a : A) : Gentle fun n : Node A F => n.addVirtualLoss a :=
  ⟨fun _ => rfl, fun _ => rfl, fun _ => rfl, fun _ => rfl, fun _ => rfl⟩

omit [Field F] in
theorem gentle_revertVirtualLoss (a : A) : Gentle fun n : Node A F => n.revertVirtualLoss a :=
  ⟨fun _ => rfl, fun _ => rfl, fun _ => rfl, fun _ => rfl, fun _ => rfl⟩

theorem gentle_applyPenalty (a : A) : Gentle fun n : Node A F => n.applyPenalty a :=
  ⟨fun _ => rfl, fun _ => rfl, fun _ => rfl, fun _ => rfl, fun _ => rfl⟩

omit [Field F] in
theorem gentle_addVisit (a : A) : Gentle fun n : Node A F => n.addVisit a :=
  ⟨fun _ => rfl, fun _ => rfl, fun _ => rfl, fun _ => rfl, fun _ => rfl⟩

omit [Act A] [Field F] in
theorem gentle_setValue (k : ℕ) (v : F) : Gentle fun n : Node A F => n.setValue k v :=
  ⟨fun _ => rfl, fun _ => rfl, fun _ => rfl, fun _ => rfl, fun _ => rfl⟩

/-- A pass of such updates over edges that are there. -/
theorem along_carries {op : Node A F → A → Node A F} (hop : ∀ a, Gentle fun n => op n a)
    (hnode : ∀ n a, n.WellFormed → a ∈ n.validActions → (op n a).WellFormed)
    (path : List (NodeId × A)) (hm : WellFormed m) (ht : Truthful S m)
    (hpath : ∀ e ∈ path, Offers m e.1 e.2) : Carries S m (along op path m) := by
  induction path generalizing m with
  | nil => exact Carries.refl hm ht
  | cons e rest ih =>
    have hfirst : Carries S m (m.updateNode e.1 (op · e.2)) :=
      (hop e.2).carries hm ht e.1 fun n hn =>
        hnode n e.2 (hm.node _ n hn) ((hpath e List.mem_cons_self).mem hn)
    exact hfirst.trans (ih hfirst.arena hfirst.truth fun x hx =>
      hfirst.ext.offers (hpath x (List.mem_cons_of_mem e hx)))

theorem addLosses_carries (path : List (NodeId × A)) (hm : WellFormed m) (ht : Truthful S m)
    (hpath : ∀ e ∈ path, Offers m e.1 e.2) : Carries S m (addLosses path m) :=
  along_carries gentle_addVirtualLoss (fun _ _ hn ha => hn.addVirtualLoss ha) path hm ht hpath

end Carrying

section Visits

def visitStep (m : MCTS A F) (e : NodeId × A) : MCTS A F :=
  (m.updateNode e.1 (·.addVisit e.2)).recomputeValue e.1

def visited (m : MCTS A F) (n : Node A F) (a : A) : Node A F :=
  (n.addVisit a).setValue (1 + weight (n.addVisit a)) (mean m (n.addVisit a))

variable {S : Set E} {m : MCTS A F}

theorem recomputeValue_carries (hm : WellFormed m) (ht : Truthful S m) (id : NodeId) :
    Carries S m (m.recomputeValue id) := by
  cases hn : m.getNode id with
  | none =>
    rw [recomputeValue_none hn]
    exact Carries.refl hm ht
  | some n =>
    rw [recomputeValue_some hn]
    exact (gentle_setValue _ _).carries hm ht id fun found hfound =>
      (hm.node id found hfound).setValue _ _

theorem visitStep_carries (hm : WellFormed m) (ht : Truthful S m) (e : NodeId × A)
    (he : Offers m e.1 e.2) : Carries S m (visitStep m e) := by
  have hvisit : Carries S m (m.updateNode e.1 (·.addVisit e.2)) :=
    (gentle_addVisit e.2).carries hm ht e.1 fun n hn => (hm.node _ n hn).addVisit (he.mem hn)
  exact hvisit.trans (recomputeValue_carries hvisit.arena hvisit.truth e.1)

theorem visits_carry (path : List (NodeId × A)) (hm : WellFormed m) (ht : Truthful S m)
    (hpath : ∀ e ∈ path, Offers m e.1 e.2) : Carries S m (path.foldl visitStep m) := by
  induction path generalizing m with
  | nil => exact Carries.refl hm ht
  | cons e rest ih =>
    have hfirst := visitStep_carries hm ht e (hpath e List.mem_cons_self)
    exact hfirst.trans (ih hfirst.arena hfirst.truth fun x hx =>
      hfirst.ext.offers (hpath x (List.mem_cons_of_mem e hx)))

theorem visitStep_indexed (hm : Indexed m) (e : NodeId × A) : Indexed (visitStep m e) := by
  have hvisit : Indexed (m.updateNode e.1 (·.addVisit e.2)) := updateNode_indexed hm fun _ => rfl
  unfold visitStep
  rcases recomputeValue_eq (m.updateNode e.1 (·.addVisit e.2)) e.1 with heq | ⟨k, v, heq⟩
  · rwa [heq]
  · rw [heq]
    exact updateNode_indexed hvisit fun _ => rfl

/-- What one step of the backup does to a node. -/
theorem visitStep_getNode (hm : Indexed m) (e : NodeId × A) (id : NodeId) :
    (visitStep m e).getNode id = if e.1 = id
      then (m.getNode id).map fun n => visited (m.updateNode e.1 (·.addVisit e.2)) n e.2
      else m.getNode id := by
  have hvisit : Indexed (m.updateNode e.1 (·.addVisit e.2)) := updateNode_indexed hm fun _ => rfl
  cases hn : m.getNode e.1 with
  | none =>
    have hnone : (m.updateNode e.1 (·.addVisit e.2)).getNode e.1 = none := by
      rw [updateNode_getNode hm, if_pos rfl, hn]
      rfl
    rw [visitStep, recomputeValue_none hnone, updateNode_getNode hm]
    by_cases hid : e.1 = id
    · rw [if_pos hid, if_pos hid, ← hid, hn]
      rfl
    · rw [if_neg hid, if_neg hid]
  | some n =>
    have hsome : (m.updateNode e.1 (·.addVisit e.2)).getNode e.1 = some (n.addVisit e.2) := by
      rw [updateNode_getNode hm, if_pos rfl, hn]
      rfl
    rw [visitStep, recomputeValue_some hsome, updateNode_getNode hvisit, updateNode_getNode hm]
    by_cases hid : e.1 = id
    · rw [if_pos hid, if_pos hid, if_pos hid, ← hid, hn]
      rfl
    · rw [if_neg hid, if_neg hid, if_neg hid]

theorem visits_off (path : List (NodeId × A)) (hm : Indexed m) {id : NodeId}
    (hid : id ∉ path.map (·.1)) : (path.foldl visitStep m).getNode id = m.getNode id := by
  induction path generalizing m with
  | nil => rfl
  | cons e rest ih =>
    rw [List.map_cons, List.mem_cons, not_or] at hid
    refine (ih (visitStep_indexed hm e) hid.2).trans ?_
    rw [visitStep_getNode hm, if_neg (Ne.symm hid.1)]

theorem visits_indexed (path : List (NodeId × A)) (hm : Indexed m) :
    Indexed (path.foldl visitStep m) := by
  induction path generalizing m with
  | nil => exact hm
  | cons e rest ih => exact ih (visitStep_indexed hm e)

/-- On a path without repeats a node gets one visit and one recomputation, the
latter in the engine that the edges before it have left. -/
theorem visits_on {path front rest : List (NodeId × A)} {e : NodeId × A} (hm : Indexed m)
    (hnodup : (path.map (·.1)).Nodup) (hsplit : path = front ++ e :: rest) :
    (path.foldl visitStep m).getNode e.1 = (m.getNode e.1).map fun n =>
      visited ((front.foldl visitStep m).updateNode e.1 (·.addVisit e.2)) n e.2 := by
  subst hsplit
  rw [List.map_append, List.map_cons, List.nodup_append] at hnodup
  obtain ⟨_, hrest, hdisjoint⟩ := hnodup
  have hfront : e.1 ∉ front.map (·.1) := fun h => hdisjoint _ h _ List.mem_cons_self rfl
  rw [List.foldl_append, List.foldl_cons,
    visits_off rest (visitStep_indexed (visits_indexed front hm) e) (List.nodup_cons.mp hrest).1,
    visitStep_getNode (visits_indexed front hm), if_pos rfl, visits_off front hm hfront]

end Visits

section BackingUp

def penaliseLast (path : List (NodeId × A)) (repeated : Bool) (m : MCTS A F) : MCTS A F :=
  match repeated, path.getLast? with
  | true, some e => m.updateNode e.1 (·.applyPenalty e.2)
  | _, _ => m

/-- `backpropagate` as a function of the engine. -/
def backup (path : List (NodeId × A)) (repeated : Bool) (m : MCTS A F) : MCTS A F :=
  path.reverse.foldl visitStep
    (penaliseLast path repeated (along Node.revertVirtualLoss path.reverse m))

variable {S : Set E} {m : MCTS A F}

theorem backpropagate_at (path : List (NodeId × A)) (repeated : Bool) (X : Search A E F → Prop) :
    Triple (At m) (backpropagate path repeated) (fun _ => At (backup path repeated m)) X := by
  unfold backpropagate
  refine Triple.seq (R := fun _ => At (along Node.revertVirtualLoss path.reverse m))
    (each_at (fun m e => mutate_at (·.updateNode e.1 (·.revertVirtualLoss e.2))) _) fun _ => ?_
  refine Triple.seq (R := fun _ => At (penaliseLast path repeated
    (along Node.revertVirtualLoss path.reverse m))) ?_ fun _ => ?_
  · refine Triple.cond (fun hr => ?_) fun hr s hs => by simpa only [hr, penaliseLast] using hs
    split
    · rename_i e hlast
      simp only [penaliseLast, hr, hlast]
      exact Triple.seq (emit_at trivial) fun _ => mutate_at (·.updateNode e.1 (·.applyPenalty e.2))
    · rename_i hlast
      simp only [penaliseLast, hr, hlast]
      exact Triple.ret fun s hs => hs
  · refine each_at (f := visitStep) (fun m e => ?_) _
    exact Triple.seq (mutate_at (·.updateNode e.1 (·.addVisit e.2)))
      fun _ => mutate_at (·.recomputeValue e.1)

theorem penaliseLast_carries (path : List (NodeId × A)) (repeated : Bool) (hm : WellFormed m)
    (ht : Truthful S m) (hpath : ∀ e ∈ path, Offers m e.1 e.2) :
    Carries S m (penaliseLast path repeated m) := by
  unfold penaliseLast
  split
  · rename_i e hlast
    exact (gentle_applyPenalty e.2).carries hm ht e.1 fun n hn =>
      (hm.node _ n hn).applyPenalty ((hpath e (List.mem_of_getLast? hlast)).mem hn)
  · exact Carries.refl hm ht

/-- Backing up keeps the graph sound and truthful. -/
theorem backup_carries (path : List (NodeId × A)) (repeated : Bool) (hm : WellFormed m)
    (ht : Truthful S m) (hpath : ∀ e ∈ path, Offers m e.1 e.2) :
    Carries S m (backup path repeated m) := by
  have hreverse : ∀ e ∈ path.reverse, Offers m e.1 e.2 :=
    fun e he => hpath e (List.mem_reverse.mp he)
  have hrevert : Carries S m (along Node.revertVirtualLoss path.reverse m) :=
    along_carries gentle_revertVirtualLoss (fun _ _ hn ha => hn.revertVirtualLoss ha)
      path.reverse hm ht hreverse
  have hpenalty := penaliseLast_carries path repeated hrevert.arena hrevert.truth
    fun e he => hrevert.ext.offers (hpath e he)
  have hboth := hrevert.trans hpenalty
  exact hboth.trans (visits_carry path.reverse hboth.arena hboth.truth
    fun e he => hboth.ext.offers (hreverse e he))

theorem penaliseLast_indexed (path : List (NodeId × A)) (repeated : Bool) (hm : Indexed m) :
    Indexed (penaliseLast path repeated m) := by
  unfold penaliseLast
  split
  · exact updateNode_indexed hm fun _ => rfl
  · exact hm

theorem penaliseLast_getNode (path : List (NodeId × A)) (repeated : Bool) (hm : Indexed m)
    (id : NodeId) : (penaliseLast path repeated m).getNode id =
      (m.getNode id).map fun n => match repeated, path.getLast? with
        | true, some e => if e.1 = id then n.applyPenalty e.2 else n
        | _, _ => n := by
  unfold penaliseLast
  split
  · rename_i e hlast
    rw [updateNode_getNode hm]
    by_cases hid : e.1 = id
    · simp [hid]
    · simp [hid]
  · cases m.getNode id <;> rfl

/-- Off the path a backup changes nothing. -/
theorem backup_off (path : List (NodeId × A)) (repeated : Bool) (hm : Indexed m) {id : NodeId}
    (hid : id ∉ path.map (·.1)) : (backup path repeated m).getNode id = m.getNode id := by
  have hreverse : id ∉ path.reverse.map (·.1) := by simpa using hid
  have hindexed : Indexed (along Node.revertVirtualLoss path.reverse m) :=
    along_indexed (by intros; rfl) _ hm
  have hpenalty := penaliseLast_indexed path repeated hindexed
  rw [backup, visits_off _ hpenalty hreverse, penaliseLast_getNode _ _ hindexed,
    along_off (by intros; rfl) _ hm hreverse]
  cases m.getNode id with
  | none => rfl
  | some n =>
    simp only [Option.map_some, Option.some.injEq]
    split
    · rename_i e hlast
      rw [if_neg]
      rintro rfl
      exact hid (List.mem_map_of_mem (List.mem_of_getLast? hlast))
    · rfl

theorem visitStep_length (m : MCTS A F) (e : NodeId × A) :
    (visitStep m e).nodes.length = m.nodes.length := by
  unfold visitStep
  rcases recomputeValue_eq (m.updateNode e.1 (·.addVisit e.2)) e.1 with heq | ⟨k, v, heq⟩
  · rw [heq, updateNode_length]
  · rw [heq, updateNode_length, updateNode_length]

theorem backup_length (path : List (NodeId × A)) (repeated : Bool) (m : MCTS A F) :
    (backup path repeated m).nodes.length = m.nodes.length := by
  have hvisits : ∀ (xs : List (NodeId × A)) (m : MCTS A F),
      (xs.foldl visitStep m).nodes.length = m.nodes.length := by
    intro xs
    induction xs with
    | nil => exact fun _ => rfl
    | cons e rest ih => exact fun m => (ih _).trans (visitStep_length m e)
  rw [backup, hvisits]
  unfold penaliseLast
  split
  · rw [updateNode_length, (along_fixed path.reverse m).2]
  · rw [(along_fixed path.reverse m).2]

/-- What a backup through one of its edges makes of a node, values aside. -/
structure BackedUp (n n' : Node A F) (a : A) : Prop where
  valid : n'.validActions = n.validActions
  children : n'.children = n.children
  estimate : n'.valueEstimate = n.valueEstimate
  visits : n'.edgeVisits = (n.addVisit a).edgeVisits
  losses : n'.virtualLosses = (n.revertVirtualLoss a).virtualLosses
  nodeVisits : n'.nodeVisits = 1 + weight n'

/-- On a path without repeats each node is backed up through its own edge. -/
theorem backup_on (path : List (NodeId × A)) (repeated : Bool) (hm : Indexed m)
    (hnodup : (path.map (·.1)).Nodup) {e : NodeId × A} (he : e ∈ path) {n : Node A F}
    (hn : m.getNode e.1 = some n) :
    ∃ n', (backup path repeated m).getNode e.1 = some n' ∧ BackedUp n n' e.2 := by
  have hreverse : (path.reverse.map (·.1)).Nodup := by
    rw [List.map_reverse]
    exact List.nodup_reverse.mpr hnodup
  have hindexed : Indexed (along Node.revertVirtualLoss path.reverse m) :=
    along_indexed (by intros; rfl) _ hm
  have hpenalty := penaliseLast_indexed path repeated hindexed
  obtain ⟨front, rest, hsplit⟩ := List.append_of_mem (List.mem_reverse.mpr he)
  rw [backup, visits_on hpenalty hreverse hsplit, penaliseLast_getNode _ _ hindexed,
    along_on (by intros; rfl) _ hm hreverse (List.mem_reverse.mpr he), hn]
  refine ⟨_, rfl, ?_⟩
  split
  · split
    · exact ⟨rfl, rfl, rfl, rfl, rfl, congrArg (1 + ·) (weight_congr rfl rfl rfl rfl).symm⟩
    · exact ⟨rfl, rfl, rfl, rfl, rfl, congrArg (1 + ·) (weight_congr rfl rfl rfl rfl).symm⟩
  · exact ⟨rfl, rfl, rfl, rfl, rfl, congrArg (1 + ·) (weight_congr rfl rfl rfl rfl).symm⟩

/-- Where a node found after a backup comes from. -/
theorem backup_origin {path : List (NodeId × A)} {repeated : Bool} (hm : Indexed m)
    (hnodup : (path.map (·.1)).Nodup) (hpath : ∀ e ∈ path, Offers m e.1 e.2) {id : NodeId}
    {n' : Node A F} (hn : (backup path repeated m).getNode id = some n') :
    ∃ n, m.getNode id = some n ∧ ((id ∉ path.map (·.1) ∧ n' = n) ∨
      ∃ a, (id, a) ∈ path ∧ BackedUp n n' a) := by
  by_cases hid : id ∈ path.map (·.1)
  · obtain ⟨e, he, rfl⟩ := List.mem_map.mp hid
    obtain ⟨n, hold, _⟩ := hpath e he
    obtain ⟨found, hfound, hback⟩ := backup_on path repeated hm hnodup he hold
    rw [hfound, Option.some.injEq] at hn
    exact ⟨n, hold, Or.inr ⟨e.2, he, hn ▸ hback⟩⟩
  · rw [backup_off path repeated hm hid] at hn
    exact ⟨n', hn, Or.inl ⟨hid, rfl⟩⟩

/-- A backup leaves each node of the path with the mean of its children's final
values, provided no child is a node at or before it on the path. -/
theorem backup_mean {path front rest : List (NodeId × A)} (repeated : Bool) (hm : Indexed m)
    (hnodup : (path.map (·.1)).Nodup) {e : NodeId × A} (hsplit : path = front ++ e :: rest)
    {n n' : Node A F} (hn : m.getNode e.1 = some n)
    (hbelow : ∀ b c, n.child b = some c → c ∉ front.map (·.1) ∧ c ≠ e.1)
    (hn' : (backup path repeated m).getNode e.1 = some n') :
    n'.value = mean (backup path repeated m) n' := by
  have hreverse : (path.reverse.map (·.1)).Nodup := by
    rw [List.map_reverse]
    exact List.nodup_reverse.mpr hnodup
  have horder : path.reverse = rest.reverse ++ e :: front.reverse := by simp [hsplit]
  obtain ⟨found, hfound, hback⟩ := backup_on path repeated hm hnodup (by simp [hsplit]) hn
  rw [hn', Option.some.injEq] at hfound
  have hchildren : n'.children = n.children := hfound ▸ hback.children
  have hbase : Indexed (penaliseLast path repeated (along Node.revertVirtualLoss path.reverse m)) :=
    penaliseLast_indexed path repeated (along_indexed (by intros; rfl) _ hm)
  unfold backup at hn' ⊢
  generalize penaliseLast path repeated (along Node.revertVirtualLoss path.reverse m) = base at *
  have hafter := visits_indexed rest.reverse hbase
  rw [visits_on hbase hreverse horder, Option.map_eq_some_iff] at hn'
  obtain ⟨before, _, rfl⟩ := hn'
  refine (mean_congr fun b c hc => ?_).symm
  obtain ⟨hfront, hself⟩ := hbelow b c (by rwa [Node.child, ← hchildren])
  have hfront : c ∉ front.reverse.map (·.1) := by simpa using hfront
  rw [horder, List.foldl_append, List.foldl_cons,
    visits_off front.reverse (visitStep_indexed hafter e) hfront, visitStep_getNode hafter,
    if_neg (Ne.symm hself), updateNode_getNode hafter, if_neg (Ne.symm hself)]

end BackingUp

end Mcts.Backup
