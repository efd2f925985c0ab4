import Mcts.Flights

/-!
Simulations in terms of the edges in flight. A selection puts the edges of its
path in flight, a backup takes them out again, and nothing else moves them; this
holds on every graph, so hashes may collide and paths may cross themselves.
-/
namespace Mcts.Simulations

open Program Prog Environments Nodes Engine Arena SearchRun ArenaInvariant Walks Backup
open Descent Flights

variable {E A O F : Type} [Environment E A O] [Act A] [Field F]

def Traversed (m : MCTS A F) (path : List (NodeId × A)) : Prop :=
  ∀ e ∈ path, ∃ n, m.getNode e.1 = some n ∧ e.2 ∈ n.validActions ∧ n.child e.2 ≠ none

section Frame

variable {m₀ m m' : MCTS A F} {path left : List (NodeId × A)} {loose : List NodeId}
variable {X : Search A E F → Prop}

omit [Field F] in
theorem Traversed.extends (h : Traversed m path) (hext : Extends m m') : Traversed m' path := by
  intro e he
  obtain ⟨n, hn, ha, hc⟩ := h e he
  obtain ⟨n', hn', hvalid, hchild⟩ := hext e.1 n hn
  obtain ⟨c, hc⟩ := Option.ne_none_iff_exists'.mp hc
  exact ⟨n', hn', hvalid ▸ ha, by rw [hchild e.2 c hc]; simp⟩

omit [Field F] in
theorem Traversed.offers (h : Traversed m path) {e : NodeId × A} (he : e ∈ path) :
    Offers m e.1 e.2 := by
  obtain ⟨n, hn, ha, _⟩ := h e he
  exact ⟨n, hn, ha⟩

omit [Field F] in
theorem Traversed.concat (h : Traversed m path) {e : NodeId × A} (he : Traversed m [e]) :
    Traversed m (path ++ [e]) := by
  intro x hx
  rcases List.mem_append.mp hx with hx | hx
  · exact h x hx
  · exact he x hx

omit [Environment E A O] [Field F] [Act A] in
theorem emit_keeps {P : MCTS A F → Prop} (e : Event A E F) :
    Triple (fun s => P s.mcts) (emit e) (fun _ s => P s.mcts) X :=
  Triple.update fun _ hs => hs

omit [Environment E A O] [Field F] [Act A] in
theorem mutate_makes {P Q : MCTS A F → Prop} {f : MCTS A F → MCTS A F} (h : ∀ m, P m → Q (f m)) :
    Triple (fun s : Search A E F => P s.mcts) (mutate f) (fun _ s => Q s.mcts) X :=
  Triple.update fun s hs => h s.mcts hs

omit [Environment E A O] in
/-- What growth preserves may be assumed of the engine at the start, and is kept. -/
theorem carry {α : Type} {c : Prog (Search A E F) α} {Q : α → Search A E F → Prop}
    {P : MCTS A F → Prop} {right : α → List (NodeId × A)} {more : List NodeId}
    (hP : ∀ m m', P m → Extends m m' → P m')
    (h : ∀ m₁, P m₁ → Triple (fun s => Afloat m₁ left loose s.mcts) c
      (fun a s => Afloat m₁ (right a) more s.mcts ∧ Q a s) X) :
    Triple (fun s => Afloat m₀ left loose s.mcts ∧ P s.mcts) c
      (fun a s => Afloat m₀ (right a) more s.mcts ∧ P s.mcts ∧ Q a s) X := by
  intro s hs
  refine ((h s.mcts hs.2).post fun a t ht => ?_) s hs.1.rebase
  exact ⟨ht.1.anchor hs.1.ext hs.1.batch, hP _ _ hs.2 ht.1.ext, ht.2⟩

end Frame

section Backup

variable {m₀ : MCTS A F} {path flight : List (NodeId × A)} {X : Search A E F → Prop}

omit [Environment E A O] in
/-- Booking the visit of an edge and recomputing its node. -/
theorem visit_afloat [LinearOrder F] (hinj : Function.Injective (toActionIndex : A → ℕ))
    (hpath : Traversed m₀ path) {e : NodeId × A} (he : e ∈ path) {loose : List NodeId} :
    Triple (fun s : Search A E F => Afloat m₀ flight (e.1 :: loose) s.mcts)
      (do mutate (·.updateNode e.1 (·.addVisit e.2)); mutate (·.recomputeValue e.1))
      (fun _ s => Afloat m₀ flight loose s.mcts) X := by
  refine Triple.seq (R := fun _ s => Afloat m₀ flight (e.1 :: loose) s.mcts)
    (mutate_makes fun m hm => ?_) fun _ => mutate_makes fun m hm => hm.recompute hinj
  have hnow := hpath.extends hm.ext
  refine hm.addVisit hinj List.mem_cons_self (hnow.offers he) fun n hn => ?_
  obtain ⟨found, hfound, _, hc⟩ := hnow e he
  rw [hn, Option.some.injEq] at hfound
  exact hfound ▸ hc

/-- A backup takes the edges of its path out of flight. -/
theorem backpropagate_afloat [LinearOrder F]
    (hinj : Function.Injective (toActionIndex : A → ℕ)) (hpath : Traversed m₀ path)
    (repeated : Bool) :
    Triple (fun s : Search A E F => Afloat m₀ (path ++ flight) [] s.mcts)
      (backpropagate path repeated) (fun _ s => Afloat m₀ flight [] s.mcts) X := by
  unfold backpropagate
  refine Triple.seq (R := fun _ s => Afloat m₀ flight (path.reverse.map (·.1)) s.mcts) ?_
    fun _ => Triple.seq (R := fun _ s => Afloat m₀ flight (path.reverse.map (·.1)) s.mcts) ?_
      fun _ => ?_
  · -- the reverts: what is left of the list is still in flight
    refine ((Triple.each (I := fun rest (s : Search A E F) =>
      Afloat m₀ (rest ++ flight) (path.reverse.map (·.1)) s.mcts ∧ rest ⊆ path.reverse)
      fun e rest => Triple.assume fun hsub => ?_).post fun _ s hs => hs.1).pre fun s hs => ?_
    · obtain ⟨hmem, hrest⟩ := List.cons_subset.mp hsub
      exact Triple.update fun s hs => ⟨hs.revertLoss (List.mem_map_of_mem hmem), hrest⟩
    · have hperm : (path ++ flight).Perm (path.reverse ++ flight) :=
        (List.reverse_perm path).symm.append_right flight
      exact ⟨(hs.perm hperm).loosen fun _ h => absurd h List.not_mem_nil, List.Subset.refl _⟩
  · refine Triple.cond (fun _ => ?_) fun _ s hs => hs
    split
    · rename_i e hlast
      refine Triple.seq (emit_keeps (P := fun m => Afloat m₀ flight (path.reverse.map (·.1)) m) _)
        fun _ => mutate_makes fun m hm => ?_
      exact hm.penalise ((hpath.extends hm.ext).offers (List.mem_of_getLast? hlast))
    · exact Triple.ret fun s hs => hs
  · -- the visits: what is left of the list is yet to be recomputed
    refine ((Triple.each (I := fun rest (s : Search A E F) =>
      Afloat m₀ flight (rest.map (·.1)) s.mcts ∧ rest ⊆ path.reverse)
      fun e rest => Triple.assume fun hsub => ?_).post fun _ s hs => hs.1).pre fun s hs => ?_
    · obtain ⟨hmem, hrest⟩ := List.cons_subset.mp hsub
      refine (visit_afloat hinj hpath (List.mem_reverse.mp hmem)).post fun _ s hs => ?_
      exact ⟨hs, hrest⟩
    · exact ⟨hs, List.Subset.refl _⟩

omit [Environment E A O] in
theorem backup_afloat [LinearOrder F] (hinj : Function.Injective (toActionIndex : A → ℕ))
    (repeated : Bool) :
    Triple (fun s : Search A E F => Afloat m₀ (path ++ flight) [] s.mcts ∧ Traversed s.mcts path)
      (backpropagate path repeated) (fun _ s => Afloat m₀ flight [] s.mcts) X := by
  intro s hs
  refine ((backpropagate_afloat hinj hs.2 repeated).post fun _ t ht => ?_) s hs.1.rebase
  exact ht.anchor hs.1.ext hs.1.batch

end Backup

section Expansion

variable [DecidableEq A] [LinearOrder F] {m₀ : MCTS A F} {flight : List (NodeId × A)}
variable {parent : NodeId} {a : A} {X : Search A E F → Prop}

omit [Environment E A O] [DecidableEq A] [LinearOrder F] in
theorem linkChild_afloat (hinj : Function.Injective (toActionIndex : A → ℕ))
    (hflight : (parent, a) ∈ flight) (leaf : NodeId) :
    Triple (fun s : Search A E F => Afloat m₀ flight [] s.mcts ∧ s.mcts.nodeExists leaf = true)
      (linkChild parent a leaf)
      (fun _ s => Afloat m₀ flight [] s.mcts ∧ Traversed s.mcts [(parent, a)]) X := by
  unfold linkChild
  refine Triple.read fun s ⟨hs, hleaf⟩ => ?_
  obtain ⟨n, hn, ha⟩ := hs.offers _ hflight
  have hlt := (hs.arena.node parent n hn).children_lt ha
  rw [hn]
  dsimp only
  rw [if_pos hlt]
  split
  · rename_i existing hc
    have hpath : Traversed s.mcts [(parent, a)] := fun e he => by
      rw [List.mem_singleton.mp he]
      exact ⟨n, hn, ha, by simp [hc]⟩
    split
    · exact Triple.update fun t ht => ht ▸ ⟨hs, hpath⟩
    · exact Triple.ret fun t ht => ht ▸ ⟨hs, hpath⟩
  · rename_i hnone
    have hunset : ∀ found, s.mcts.getNode parent = some found → found.child a = none := by
      intro found hfound
      rw [hn, Option.some.injEq] at hfound
      exact hfound ▸ hnone
    have hset := hs.setChild hinj ⟨n, hn, ha⟩ hunset hleaf
    refine Triple.seq (R := fun _ t => Afloat m₀ flight [] t.mcts ∧
      Traversed t.mcts [(parent, a)]) (Triple.update fun t ht => ht ▸ ⟨hset, fun e he => ?_⟩)
      fun _ => Triple.each_mem fun slot _ => emit_keeps (P := fun m =>
        Afloat m₀ flight [] m ∧ Traversed m [(parent, a)]) _
    rw [List.mem_singleton.mp he]
    refine ⟨n.setChild a leaf, ?_, ha, ?_⟩
    · show (s.mcts.updateNode parent (·.setChild a leaf)).getNode parent = _
      rw [updateNode_getNode hs.arena.indexed, if_pos rfl, hn]
      rfl
    · rw [(hs.arena.node parent n hn).setChild_child ha, if_pos rfl]
      simp

/-- An expansion leaves the edge expanded and moves nothing in flight. -/
theorem expand_afloat (hE : LawfulEnvironment E A) (hflight : (parent, a) ∈ flight)
    (order : IterationOrder (Σ _ : A, F)) (g : E) (priors : HashMap A F) (value : F) :
    Triple (fun s : Search A E F => Afloat m₀ flight [] s.mcts)
      (expand order parent a g priors value)
      (fun _ s => Afloat m₀ flight [] s.mcts ∧ Traversed s.mcts [(parent, a)]) X := by
  unfold expand
  refine Triple.read fun s hs => Triple.seq
    (R := fun _ t => Afloat m₀ flight [] t.mcts ∧ t.mcts.nodeExists (hash g) = true)
    (Triple.cond (fun hfresh => ?_) fun hexists t ht => ?_)
    fun _ => linkChild_afloat hE.index_injective hflight (hash g)
  · refine Triple.update fun t ht => ?_
    rw [ht]
    have hfresh : s.mcts.nodeExists (hash g) = false := by simpa using hfresh
    refine ⟨hs.createNode hE order _ value hfresh fun b hb => normalizePrior_keys _ _ hb, ?_⟩
    show (MCTS.createNode order g _ value s.mcts).nodeExists (hash g) = true
    rw [MCTS.createNode, insertNode_nodeExists]
    simp
  · rw [ht]
    exact ⟨hs, by simpa using hexists⟩

end Expansion

section Selection

variable [DecidableEq A] [LinearOrder F] [Roots F] {m₀ : MCTS A F}
variable {flight : List (NodeId × A)} {X : Search A E F → Prop}

/-- A walk on its way: its path is in flight and expanded throughout. -/
def Underway (m₀ : MCTS A F) (flight : List (NodeId × A)) (w : Walk A E) (m : MCTS A F) : Prop :=
  Afloat m₀ (w.path ++ flight) [] m ∧ Traversed m w.path

/-- A walk at its end: only the last edge may be unexpanded, and not after a repeat. -/
def Landed (m₀ : MCTS A F) (flight : List (NodeId × A)) (w : Walk A E) (m : MCTS A F) : Prop :=
  Afloat m₀ (w.path ++ flight) [] m ∧ Traversed m w.path.dropLast ∧
    (w.repeatDetected = true → Traversed m w.path)

omit [Environment E A O] [DecidableEq A] [LinearOrder F] [Roots F] in
theorem Underway.landed {w : Walk A E} {m : MCTS A F} (h : Underway m₀ flight w m)
    (repeated : Bool) : Landed m₀ flight { w with repeatDetected := repeated } m :=
  ⟨h.1, fun e he => h.2 e (List.mem_of_mem_dropLast he), fun _ => h.2⟩

theorem selectRound_afloat (rootId : NodeId) (cPuct : F) (forced : Bool) (w : Walk A E) :
    Triple (fun s : Search A E F => Underway m₀ flight w s.mcts)
      (selectRound rootId cPuct forced w)
      (fun r => Sum.elim (fun w s => Underway m₀ flight w s.mcts)
        (fun w s => Landed m₀ flight w s.mcts) r) X := by
  unfold selectRound
  split
  · exact Triple.ret fun s hs => hs.landed w.repeatDetected
  rename_i hrunning
  have hfresh : w.repeatDetected ≠ true := fun heq => hrunning (by simp [heq])
  refine Triple.seq (emit_keeps (P := Underway m₀ flight w) _) fun _ => Triple.read fun s hs => ?_
  split
  · exact Triple.ret fun t ht => ht ▸ hs.landed w.repeatDetected
  split
  · exact Triple.ret fun t ht => ht ▸ hs.landed true
  dsimp only
  split
  · exact Triple.ret fun t ht => ht ▸ hs.landed w.repeatDetected
  rename_i chosen hchosen
  obtain ⟨n, hn, ha⟩ := MCTS.selectActionPuct_mem _ _ _ _ _ _ hchosen
  have hmiddle : List.Perm (w.path ++ (w.nodeId, chosen) :: flight)
      ((w.nodeId, chosen) :: (w.path ++ flight)) := List.perm_middle
  have hloss := (hs.1.addLoss ⟨n, hn, ha⟩).perm hmiddle.symm
  have hext : Extends s.mcts (s.mcts.updateNode w.nodeId (·.addVirtualLoss chosen)) :=
    Extends.updateNode hs.1.arena.indexed w.nodeId (fun _ => rfl) fun _ _ _ _ hc => hc
  have hnode : (s.mcts.updateNode w.nodeId (·.addVirtualLoss chosen)).getNode w.nodeId =
      some (n.addVirtualLoss chosen) := by
    rw [updateNode_getNode hs.1.arena.indexed, if_pos rfl, hn]
    rfl
  refine Triple.seq (R := fun _ t => t.mcts = s.mcts.updateNode w.nodeId (·.addVirtualLoss chosen))
    (Triple.update fun t ht => ht ▸ rfl) fun _ =>
    Triple.seq (emit_keeps (P := fun m => m = _) _) fun _ => Triple.read fun t ht => ?_
  have hpath : (w.path ++ [(w.nodeId, chosen)]) ++ flight = w.path ++ (w.nodeId, chosen) :: flight :=
    List.append_assoc _ _ _
  rw [ht, hnode, Option.bind_some]
  split
  · rename_i childId hc
    refine Triple.ret fun u hu => ?_
    rw [hu]
    refine ⟨ht ▸ hpath ▸ hloss, (ht ▸ hs.2.extends hext).concat fun e he => ?_⟩
    rw [List.mem_singleton.mp he, ht]
    exact ⟨_, hnode, ha, by simp [hc]⟩
  · refine Triple.ret fun u hu => ?_
    rw [hu]
    refine ⟨ht ▸ hpath ▸ hloss, ?_, fun heq => absurd heq hfresh⟩
    show Traversed t.mcts (w.path ++ [(w.nodeId, chosen)]).dropLast
    rw [List.dropLast_concat, ht]
    exact hs.2.extends hext

/-- A selection puts the edges of its path in flight. -/
theorem selectLeaf_afloat (i : RunInput E A O F) (rootId : NodeId) :
    Triple (fun s : Search A E F => Afloat m₀ flight [] s.mcts) (selectLeaf i rootId)
      (fun w s => Landed m₀ flight w s.mcts ∧ Traced i.env w) (fun _ => True) := by
  have hland : Triple (fun s : Search A E F => Afloat m₀ flight [] s.mcts) (selectLeaf i rootId)
      (fun w s => Landed m₀ flight w s.mcts) (fun _ => True) := by
    refine (Triple.while_rule (I := fun _ w (s : Search A E F) => Underway m₀ flight w s.mcts)
      (fun n w => ?_) (fun _ _ _ => trivial) i.fuel _).pre fun s hs => ⟨hs, ?_⟩
    · exact selectRound_afloat rootId i.cPuct i.forcedPlayouts w
    · exact fun e he => absurd he List.not_mem_nil
  exact (hland.both (selectLeaf_traced i rootId)).weaken (fun _ hs => ⟨hs, trivial⟩)
    (fun _ _ h => h) fun _ _ => trivial

end Selection

section Whole

variable [DecidableEq A] [LinearOrder F] {m₀ : MCTS A F} {flight : List (NodeId × A)}

/-- A simulation left for the client: what was selected ends in the edge to
expand, and the edges before it are expanded. -/
structure Ready (p : PendingInference A E) (m : MCTS A F) : Prop where
  last : p.path.getLast? = some (p.parentId, p.action)
  front : Traversed m p.path.dropLast

omit [Environment E A O] [Field F] [DecidableEq A] [LinearOrder F] in
theorem Ready.extends {p : PendingInference A E} {m m' : MCTS A F} (h : Ready p m)
    (hext : Extends m m') : Ready p m' :=
  ⟨h.last, h.front.extends hext⟩

/-- Expanding the last edge of a path and backing it up takes the path out of flight. -/
theorem expand_backup_afloat (hE : LawfulEnvironment E A) {path : List (NodeId × A)}
    {parent : NodeId} {a : A} (hlast : path.getLast? = some (parent, a))
    (order : IterationOrder (Σ _ : A, F)) (g : E) (priors : HashMap A F) (value : F) :
    Triple (fun s : Search A E F => Afloat m₀ (path ++ flight) [] s.mcts ∧
        Traversed s.mcts path.dropLast)
      (do expand order parent a g priors value; backpropagate path false)
      (fun _ s => Afloat m₀ flight [] s.mcts) (fun _ => True) := by
  intro s hs
  have hmem : (parent, a) ∈ path ++ flight := List.mem_append_left _ (List.mem_of_getLast? hlast)
  have hsplit : path.dropLast ++ [(parent, a)] = path := List.dropLast_append_getLast? _ hlast
  have hbackup : Triple (fun t : Search A E F => Afloat s.mcts (path ++ flight) [] t.mcts ∧
      Traversed t.mcts [(parent, a)]) (backpropagate path false)
      (fun _ t => Afloat s.mcts flight [] t.mcts) (fun _ => True) := by
    refine (backup_afloat hE.index_injective false).pre fun t ht => ⟨ht.1, ?_⟩
    have hpath := (hs.2.extends ht.1.ext).concat ht.2
    exact hsplit ▸ hpath
  refine ((Triple.seq (expand_afloat hE hmem order g priors value) fun _ => hbackup).post
    fun _ t ht => ?_) s hs.1.rebase
  exact ht.anchor hs.1.ext hs.1.batch

theorem answer_afloat (hE : LawfulEnvironment E A) (i : RunInput E A O F)
    (p : PendingInference A E) (priors : HashMap A F) (value : F) :
    Triple (fun s : Search A E F => Afloat m₀ (p.path ++ flight) [] s.mcts ∧ Ready p s.mcts)
      (answer i p priors value) (fun _ s => Afloat m₀ flight [] s.mcts) (fun _ => True) := by
  intro s hs
  exact expand_backup_afloat hE hs.2.last i.order p.env priors value s ⟨hs.1, hs.2.front⟩

variable [Roots F]

/-- A simulation is backed up at once or stays in flight. -/
theorem simulate_afloat (hE : LawfulEnvironment E A) (i : RunInput E A O F) (rootId : NodeId) :
    Triple (fun s : Search A E F => Afloat m₀ flight [] s.mcts) (simulate i rootId)
      (fun r s => Afloat m₀ (r.toList.flatMap (·.path) ++ flight) [] s.mcts ∧
        ∀ p ∈ r, Ready p s.mcts) (fun _ => True) := by
  unfold simulate
  refine Triple.seq (selectLeaf_afloat i rootId) fun w => Triple.assume fun htraced => ?_
  cases hlast : w.path.getLast? with
  | none =>
    have hpath : w.path = [] := List.getLast?_eq_none_iff.mp hlast
    rw [htraced.action, htraced.parent, hlast]
    refine Triple.ret fun s hs => ⟨?_, by simp⟩
    have hafloat := hs.1
    rwa [hpath] at hafloat
  | some e =>
    rw [htraced.action, htraced.parent, hlast]
    dsimp only [Option.map_some]
    split
    · rw [← Prog.bind_assoc]
      refine Triple.seq (R := fun _ s => Afloat m₀ flight [] s.mcts) ?_ fun _ =>
        Triple.ret fun s hs => ⟨by simpa using hs, by simp⟩
      cases hrepeat : w.repeatDetected with
      | true =>
        exact (backup_afloat hE.index_injective true).pre fun s hs => ⟨hs.1, hs.2.2 hrepeat⟩
      | false =>
        exact (expand_backup_afloat hE hlast i.order w.game ∅ (i.terminalEvaluator w.game)).pre
          fun s hs => ⟨hs.1, hs.2.1⟩
    · refine Triple.ret fun s hs => ⟨?_, fun p hp => ?_⟩
      · simpa using hs.1
      · obtain rfl := Option.some.inj hp
        exact ⟨hlast, hs.2.1⟩

omit [Roots F] in
/-- The root is made without a change of what is in flight. -/
theorem ensureRoot_afloat (hE : LawfulEnvironment E A) (i : RunInput E A O F) :
    Triple (fun s : Search A E F => Afloat m₀ flight [] s.mcts) (ensureRoot i (hash i.env))
      (fun _ s => Afloat m₀ flight [] s.mcts) (fun _ => True) := by
  unfold ensureRoot
  refine Triple.read fun s hs => ?_
  split
  · rename_i hfresh
    have hfresh : s.mcts.nodeExists (hash i.env) = false := by simpa using hfresh
    split
    · refine Triple.update fun t ht => ht ▸ hs.createNode hE i.order ∅ _ hfresh fun a ha => ?_
      exact absurd ha (AList.notMem_empty a)
    · split
      · exact Triple.update fun t ht => ht ▸ hs.createNode hE i.order _ _ hfresh
          fun a ha => normalizePrior_keys _ _ ha
      · exact Triple.halt fun _ _ => trivial
  · exact Triple.ret fun t ht => ht ▸ hs

end Whole

end Mcts.Simulations
