import Mcts.ArenaInvariant

/-!
Every run is a sequence of updates. `Update` lists what a search may do to the
engine, each change with the condition under which the code makes it; `Trail`
chains them through the log. What every update preserves holds of every engine
that the log shows, whether the run returns, panics or never ends.
-/
namespace Mcts.Updates

open Program Prog Environments Nodes Engine Arena SearchRun ArenaInvariant

variable {E A O F : Type} [Environment E A O] [Act A] [Field F] [LinearOrder F]

/-- One logged change of the engine, made with the given log behind it. -/
inductive Update (terminalEvaluator : E → F) (log : List (Event A E F)) (m : MCTS A F) :
    MCTS A F → Prop
  | clearNoise : Update terminalEvaluator log m m.clearNoise
  | create (order : IterationOrder (Σ _ : A, F)) (env : E) (priors : HashMap A F) (value : F)
      (hfresh : m.nodeExists (hash env) = false) (hkeys : ∀ a ∈ priors, a ∈ validActions env)
      (hvalue : done env = true → value = terminalEvaluator env) :
      Update terminalEvaluator log m (MCTS.createNode order env priors value m)
  | addLoss (id : NodeId) (a : A) (h : Offers m id a) :
      Update terminalEvaluator log m (m.updateNode id (·.addVirtualLoss a))
  | revertLoss (id : NodeId) (a : A) (h : Offers m id a) :
      Update terminalEvaluator log m (m.updateNode id (·.revertVirtualLoss a))
  | penalise (id : NodeId) (a : A) (h : Offers m id a) (hlog : Event.penalised id a ∈ log) :
      Update terminalEvaluator log m (m.updateNode id (·.applyPenalty a))
  | visit (id : NodeId) (a : A) (h : Offers m id a) :
      Update terminalEvaluator log m (m.updateNode id (·.addVisit a))
  | link (id : NodeId) (a : A) (leaf : NodeId) (h : Offers m id a)
      (hleaf : m.nodeExists leaf = true) :
      Update terminalEvaluator log m (m.updateNode id (·.setChild a leaf))
  | recompute (id : NodeId) : Update terminalEvaluator log m (m.recomputeValue id)

/-- The updates between two searches: each is logged, and other events come between. -/
inductive Trail (terminalEvaluator : E → F) (s : Search A E F) : Search A E F → Prop
  | start : Trail terminalEvaluator s s
  | note {t : Search A E F} (e : Event A E F) (he : ∀ m, e ≠ .passed m) :
      Trail terminalEvaluator s t → Trail terminalEvaluator s { t with log := t.log ++ [e] }
  | update {t : Search A E F} {m : MCTS A F} :
      Trail terminalEvaluator s t → Update terminalEvaluator t.log t.mcts m →
      Trail terminalEvaluator s ⟨m, t.log ++ [.passed m]⟩

section Preservation

variable {te : E → F} {log : List (Event A E F)} {m m' : MCTS A F}

/-- Every update keeps the representation invariant. -/
theorem Update.wellFormed (hE : LawfulEnvironment E A) (hu : Update te log m m')
    (h : WellFormed m) : WellFormed m' := by
  cases hu with
  | clearNoise => exact ⟨h.indexed, h.node, h.linked⟩
  | create order env priors value hfresh hkeys _ =>
    exact h.createNode hE order env priors value hfresh hkeys
  | addLoss id a ho =>
    exact h.updateNode_same (fun _ => rfl) (fun _ => rfl)
      fun n hn => (h.node id n hn).addVirtualLoss (ho.mem hn)
  | revertLoss id a ho =>
    exact h.updateNode_same (fun _ => rfl) (fun _ => rfl)
      fun n hn => (h.node id n hn).revertVirtualLoss (ho.mem hn)
  | penalise id a ho _ =>
    exact h.updateNode_same (fun _ => rfl) (fun _ => rfl)
      fun n hn => (h.node id n hn).applyPenalty (ho.mem hn)
  | visit id a ho =>
    exact h.updateNode_same (fun _ => rfl) (fun _ => rfl)
      fun n hn => (h.node id n hn).addVisit (ho.mem hn)
  | link id a leaf ho hleaf =>
    refine h.updateNode (fun _ => rfl) (fun n hn => (h.node id n hn).setChild (ho.mem hn) leaf) ?_
    intro n i c hn hc
    rw [Node.setChild_children, Dense.getD_set] at hc
    split at hc
    · exact Option.some.inj hc ▸ hleaf
    · exact h.linked id n i c hn hc
  | recompute id =>
    rcases recomputeValue_eq m id with heq | ⟨k, v, heq⟩
    · exact heq.symm ▸ h
    · rw [heq]
      exact h.updateNode_same (fun _ => rfl) (fun _ => rfl)
        fun n hn => (h.node id n hn).setValue k v

theorem Update.indexed (hu : Update te log m m') (h : Indexed m) : Indexed m' := by
  cases hu with
  | clearNoise => exact h
  | create order env priors value hfresh _ _ =>
    obtain ⟨n, heq, hn⟩ := createNode_fresh order env priors value m
    rw [heq]
    exact insertNode_indexed h hfresh hn.id
  | addLoss id a _ => exact updateNode_indexed h fun _ => rfl
  | revertLoss id a _ => exact updateNode_indexed h fun _ => rfl
  | penalise id a _ _ => exact updateNode_indexed h fun _ => rfl
  | visit id a _ => exact updateNode_indexed h fun _ => rfl
  | link id a leaf _ _ => exact updateNode_indexed h fun _ => rfl
  | recompute id =>
    rcases recomputeValue_eq m id with heq | ⟨k, v, heq⟩
    · exact heq.symm ▸ h
    · rw [heq]
      exact updateNode_indexed h fun _ => rfl

/-- No update takes an offered action away. -/
theorem Update.offers (hu : Update te log m m') (h : Indexed m) {key : NodeId} {b : A}
    (hb : Offers m key b) : Offers m' key b := by
  cases hu with
  | clearNoise => exact hb
  | create order env priors value hfresh _ _ => exact hb.insertNode h hfresh
  | addLoss id a _ => exact hb.updateNode h (by intro; rfl)
  | revertLoss id a _ => exact hb.updateNode h (by intro; rfl)
  | penalise id a _ _ => exact hb.updateNode h (by intro; rfl)
  | visit id a _ => exact hb.updateNode h (by intro; rfl)
  | link id a leaf _ _ => exact hb.updateNode h (by intro; rfl)
  | recompute id =>
    rcases recomputeValue_eq m id with heq | ⟨k, v, heq⟩
    · exact heq.symm ▸ hb
    · rw [heq]
      exact hb.updateNode h (by intro; rfl)

/-- Nor a node. -/
theorem Update.nodeExists (hu : Update te log m m') {key : NodeId}
    (hk : m.nodeExists key = true) : m'.nodeExists key = true := by
  cases hu with
  | clearNoise => exact hk
  | create order env priors value _ _ _ =>
    rw [MCTS.createNode, insertNode_nodeExists, hk, Bool.or_true]
  | addLoss id a _ => rw [updateNode_nodeExists, hk]
  | revertLoss id a _ => rw [updateNode_nodeExists, hk]
  | penalise id a _ _ => rw [updateNode_nodeExists, hk]
  | visit id a _ => rw [updateNode_nodeExists, hk]
  | link id a leaf _ _ => rw [updateNode_nodeExists, hk]
  | recompute id =>
    rcases recomputeValue_eq m id with heq | ⟨k, v, heq⟩
    · rw [heq, hk]
    · rw [heq, updateNode_nodeExists, hk]

theorem Update.fixed (hu : Update te log m m') :
    m'.rootId = m.rootId ∧ m'.batchSize = m.batchSize := by
  have hupdate : ∀ id f, (m.updateNode id f).rootId = m.rootId ∧
      (m.updateNode id f).batchSize = m.batchSize :=
    fun id f => ⟨updateNode_rootId m id f, updateNode_batchSize m id f⟩
  cases hu with
  | clearNoise => exact ⟨rfl, rfl⟩
  | create => exact ⟨rfl, rfl⟩
  | addLoss => exact hupdate _ _
  | revertLoss => exact hupdate _ _
  | penalise => exact hupdate _ _
  | visit => exact hupdate _ _
  | link => exact hupdate _ _
  | recompute id =>
    rcases recomputeValue_eq m id with heq | ⟨k, v, heq⟩
    · exact heq.symm ▸ ⟨rfl, rfl⟩
    · exact heq.symm ▸ hupdate _ _

theorem Trail.wellFormed (hE : LawfulEnvironment E A) {s t : Search A E F} (h : Trail te s t)
    (hs : WellFormed s.mcts) : WellFormed t.mcts := by
  induction h with
  | start => exact hs
  | note e he _ ih => exact ih
  | update _ hu ih => exact hu.wellFormed hE ih

/-- A trail keeps the root and the batch size, and only adds to the log. -/
theorem Trail.fixed {s t : Search A E F} (h : Trail te s t) :
    t.mcts.rootId = s.mcts.rootId ∧ t.mcts.batchSize = s.mcts.batchSize ∧ s.log <+: t.log := by
  induction h with
  | start => exact ⟨rfl, rfl, List.prefix_rfl⟩
  | note e he _ ih => exact ⟨ih.1, ih.2.1, ih.2.2.trans (List.prefix_append _ _)⟩
  | update _ hu ih =>
    exact ⟨hu.fixed.1.trans ih.1, hu.fixed.2.trans ih.2.1,
      ih.2.2.trans (List.prefix_append _ _)⟩

end Preservation

/-- What holds of a search that came from `s₀` by updates and has yet to back up
the edges of `path`. -/
structure Holding (te : E → F) (s₀ : Search A E F) (path : List (NodeId × A))
    (s : Search A E F) : Prop where
  trail : Trail te s₀ s
  arena : Indexed s.mcts
  offers : ∀ e ∈ path, Offers s.mcts e.1 e.2

section Rules

variable {te : E → F} {s₀ : Search A E F} {path : List (NodeId × A)}
variable {P : Search A E F → Prop} {X : Search A E F → Prop}

theorem Holding.subset {path' : List (NodeId × A)} {s : Search A E F}
    (h : Holding te s₀ path s) (hsub : ∀ e ∈ path', e ∈ path) : Holding te s₀ path' s :=
  ⟨h.trail, h.arena, fun e he => h.offers e (hsub e he)⟩

theorem Holding.release {s : Search A E F} (h : Holding te s₀ path s) : Holding te s₀ [] s :=
  h.subset fun _ he => absurd he List.not_mem_nil

theorem Holding.update {s : Search A E F} {m : MCTS A F}
    (h : Holding te s₀ path s) (hu : Update te s.log s.mcts m) :
    Holding te s₀ path ⟨m, s.log ++ [.passed m]⟩ :=
  ⟨h.trail.update hu, hu.indexed h.arena, fun e he => hu.offers h.arena (h.offers e he)⟩

theorem Holding.note {s : Search A E F} (h : Holding te s₀ path s) (e : Event A E F)
    (he : ∀ m, e ≠ .passed m) : Holding te s₀ path { s with log := s.log ++ [e] } :=
  ⟨h.trail.note e he, h.arena, h.offers⟩

theorem emit_holding (e : Event A E F) (he : ∀ m, e ≠ .passed m) :
    Triple (Holding te s₀ path) (emit e) (fun _ => Holding te s₀ path) X :=
  Triple.update fun _ hs => hs.note e he

theorem mutate_holding (f : MCTS A F → MCTS A F)
    (h : ∀ s, Holding te s₀ path s → Update te s.log s.mcts (f s.mcts)) :
    Triple (Holding te s₀ path) (mutate f) (fun _ => Holding te s₀ path) X :=
  Triple.update fun s hs => hs.update (h s hs)

end Rules

section Programs

variable [DecidableEq A] [Roots F]
variable {te : E → F} {s₀ : Search A E F} {K : List (NodeId × A)}

def Tied (w : Walk A E) : Prop :=
  ∀ p a, w.parent = some p → w.action = some a → (p, a) ∈ w.path

private theorem selectRound_holding (rootId : NodeId) (cPuct : F)
    (forced : Bool) (w : Walk A E) (htied : Tied w) :
    Triple (Holding te s₀ (K ++ w.path)) (selectRound rootId cPuct forced w)
      (fun r => Sum.elim (fun w s => Holding te s₀ (K ++ w.path) s ∧ Tied w)
        (fun w s => Holding te s₀ (K ++ w.path) s ∧ Tied w) r)
      (Holding te s₀ []) := by
  unfold selectRound
  split
  · exact Triple.ret fun s hs => ⟨hs, htied⟩
  refine Triple.seq (emit_holding _ (by simp)) fun _ => Triple.read fun s hs => ?_
  split
  · exact Triple.ret fun t ht => ⟨ht ▸ hs, htied⟩
  split
  · exact Triple.ret fun t ht => ⟨ht ▸ hs, htied⟩
  dsimp only
  split
  · exact Triple.ret fun t ht => ⟨ht ▸ hs, htied⟩
  rename_i chosen hchosen
  obtain ⟨n, hn, ha⟩ := s.mcts.selectActionPuct_mem _ _ _ _ _ hchosen
  have hedge : Offers s.mcts w.nodeId chosen := ⟨n, hn, ha⟩
  -- from here on the new edge is held as well
  have hpath : Holding te s₀ (K ++ (w.path ++ [(w.nodeId, chosen)])) s := by
    refine ⟨hs.trail, hs.arena, fun e he => ?_⟩
    rw [← List.append_assoc] at he
    rcases List.mem_append.mp he with he | he
    · exact hs.offers e he
    · exact List.mem_singleton.mp he ▸ hedge
  have hlast : ∀ p a, some w.nodeId = some p → some chosen = some a →
      (p, a) ∈ w.path ++ [(w.nodeId, chosen)] := by
    intro p a hp ha
    cases hp
    cases ha
    simp
  refine Triple.seq (R := fun _ => Holding te s₀ (K ++ (w.path ++ [(w.nodeId, chosen)])))
    (Triple.update fun t ht => ?_) fun _ => ?_
  · exact ht ▸ hpath.update (.addLoss _ _ hedge)
  refine Triple.seq (emit_holding _ (by simp)) fun _ => Triple.read fun t ht => ?_
  split
  · exact Triple.ret fun u hu => ⟨hu ▸ ht, hlast⟩
  · exact Triple.ret fun u hu => ⟨hu ▸ ht, hlast⟩

theorem selectLeaf_holding (i : RunInput E A O F) (rootId : NodeId) :
    Triple (Holding te s₀ K) (selectLeaf i rootId)
      (fun w s => Holding te s₀ (K ++ w.path) s ∧ Tied w) (Holding te s₀ []) := by
  refine (Triple.while_rule (I := fun _ w s => Holding te s₀ (K ++ w.path) s ∧ Tied w)
    (fun n w => Triple.assume fun htied => selectRound_holding rootId _ _ w htied)
    (fun w s hs => hs.1.release) i.fuel _).pre fun s hs => ⟨?_, ?_⟩
  · simpa using hs
  · intro p a hp
    exact absurd hp (by simp)

omit [DecidableEq A] [Roots F] in
theorem linkChild_holding (parentId : NodeId) (a : A) (leafId : NodeId)
    (hedge : (parentId, a) ∈ K) :
    Triple (fun s => Holding te s₀ K s ∧ s.mcts.nodeExists leafId = true)
      (linkChild parentId a leafId) (fun _ => Holding te s₀ K) (Holding te s₀ []) := by
  unfold linkChild
  refine Triple.read fun s ⟨hs, hleaf⟩ => ?_
  have hsame : ∀ t, t = s → Holding te s₀ K t := fun t ht => ht ▸ hs
  split
  · exact Triple.ret hsame
  split
  · split
    · split
      · exact (emit_holding _ (by simp)).pre hsame
      · exact Triple.ret hsame
    · refine Triple.seq (R := fun _ => Holding te s₀ K) (Triple.update fun t ht => ?_) fun _ => ?_
      · exact ht ▸ hs.update (.link parentId a leafId (hs.offers _ hedge) hleaf)
      · exact Triple.each (I := fun _ => Holding te s₀ K) fun slot rest => emit_holding _ (by simp)
  · exact Triple.ret hsame

omit [Roots F] in
theorem expand_holding (order : IterationOrder (Σ _ : A, F))
    (parentId : NodeId) (a : A) (env : E) (priors : HashMap A F) (value : F)
    (hedge : (parentId, a) ∈ K) (hvalue : done env = true → value = te env) :
    Triple (Holding te s₀ K) (expand order parentId a env priors value)
      (fun _ => Holding te s₀ K) (Holding te s₀ []) := by
  unfold expand
  refine Triple.read fun s hs => ?_
  have hlink : Triple (fun s => Holding te s₀ K s ∧ s.mcts.nodeExists (hash env) = true)
      (linkChild parentId a (hash env)) (fun _ => Holding te s₀ K) (Holding te s₀ []) :=
    linkChild_holding parentId a (hash env) hedge
  refine Triple.seq (Triple.cond (fun hfresh => Triple.update fun t ht => ?_)
    fun hexists t ht => ?_) fun _ => hlink
  · have hfresh : s.mcts.nodeExists (hash env) = false := by simpa using hfresh
    refine ht ▸ ⟨hs.update ?_, ?_⟩
    · exact .create order env _ value hfresh (fun b hb => normalizePrior_keys _ _ hb) hvalue
    · rw [MCTS.createNode, insertNode_nodeExists]
      simp
  · exact ht ▸ ⟨hs, by simpa using hexists⟩

omit [DecidableEq A] [Roots F] in
theorem backpropagate_holding (path : List (NodeId × A)) (repeated : Bool)
    (hpath : ∀ e ∈ path, e ∈ K) :
    Triple (Holding te s₀ K) (backpropagate path repeated) (fun _ => Holding te s₀ K)
      (Holding te s₀ []) := by
  have hedge : ∀ e ∈ path.reverse, ∀ s, Holding te s₀ K s → Offers s.mcts e.1 e.2 :=
    fun e he s hs => hs.offers e (hpath e (List.mem_reverse.mp he))
  unfold backpropagate
  refine Triple.seq (R := fun _ => Holding te s₀ K) ?_ fun _ => ?_
  · exact Triple.each_mem fun e he =>
      mutate_holding _ fun s hs => .revertLoss _ _ (hedge e he s hs)
  refine Triple.seq (R := fun _ => Holding te s₀ K) ?_ fun _ => ?_
  · refine Triple.cond (fun _ => ?_) fun _ _ hs => hs
    split
    · rename_i e hlast
      have hpen : e ∈ K := hpath e (List.mem_of_getLast? hlast)
      refine Triple.seq (R := fun _ s => Holding te s₀ K s ∧ Event.penalised e.1 e.2 ∈ s.log)
        (Triple.update fun s hs => ⟨hs.note _ (by simp), by simp⟩) fun _ => ?_
      exact Triple.update fun s hs => hs.1.update (.penalise _ _ (hs.1.offers e hpen) hs.2)
    · exact Triple.ret fun _ hs => hs
  · refine Triple.each_mem fun e he => ?_
    exact Triple.seq (mutate_holding _ fun s hs => .visit _ _ (hedge e he s hs))
      fun _ => mutate_holding _ fun s _ => .recompute e.1

/-- The pending leaves of a batch: their paths are held, their states run on. -/
structure InFlight (te : E → F) (s₀ : Search A E F) (pending : List (PendingInference A E))
    (s : Search A E F) : Prop where
  holding : Holding te s₀ (pending.flatMap (·.path)) s
  tied : ∀ p ∈ pending, (p.parentId, p.action) ∈ p.path ∧ done p.env = false

theorem simulate_inFlight (i : RunInput E A O F) (rootId : NodeId)
    (pending : List (PendingInference A E)) :
    Triple (InFlight i.terminalEvaluator s₀ pending) (simulate i rootId)
      (fun r => InFlight i.terminalEvaluator s₀ (pending ++ r.toList))
      (Holding i.terminalEvaluator s₀ []) := by
  unfold simulate
  refine Triple.pre (Triple.assume fun htied => Triple.seq (selectLeaf_holding i rootId) fun w =>
    Triple.assume fun hw => ?_) fun s hs => ⟨hs.holding, hs.tied⟩
  have hdrop : ∀ s, Holding i.terminalEvaluator s₀ (pending.flatMap (·.path) ++ w.path) s →
      InFlight i.terminalEvaluator s₀ (pending ++ (none : Option _).toList) s :=
    fun s hs => ⟨hs.subset (by simp_all), by simpa using htied⟩
  split
  · rename_i a parentId ha hp
    have hedge : (parentId, a) ∈ w.path := hw parentId a hp ha
    split
    · refine Triple.seq (R := fun _ =>
        Holding i.terminalEvaluator s₀ (pending.flatMap (·.path) ++ w.path)) ?_ fun _ => ?_
      · exact Triple.cond (fun _ => expand_holding _ _ _ _ _ _
          (List.mem_append_right _ hedge) fun _ => rfl) fun _ _ hs => hs
      · refine Triple.seq (backpropagate_holding _ _ fun e he => List.mem_append_right _ he)
          fun _ => Triple.ret hdrop
    · rename_i hlive
      refine Triple.ret fun s hs => ⟨by simpa using hs, fun p hp => ?_⟩
      rcases List.mem_append.mp hp with hp | hp
      · exact htied p hp
      · cases List.mem_singleton.mp hp
        simp only [Bool.or_eq_true, not_or, Bool.not_eq_true] at hlive
        exact ⟨hedge, hlive.2⟩
  · exact Triple.ret hdrop

omit [Roots F] in
theorem answer_holding (i : RunInput E A O F)
    (p : PendingInference A E) (priors : HashMap A F) (value : F) (hpath : ∀ e ∈ p.path, e ∈ K)
    (htied : (p.parentId, p.action) ∈ p.path ∧ done p.env = false) :
    Triple (Holding te s₀ K) (answer i p priors value) (fun _ => Holding te s₀ K)
      (Holding te s₀ []) := by
  unfold answer
  refine Triple.seq (expand_holding _ _ _ _ _ _ (hpath _ htied.1) fun hdone => ?_)
    fun _ => backpropagate_holding _ _ hpath
  rw [htied.2] at hdone
  exact absurd hdone (by simp)

theorem runBatch_holding (i : RunInput E A O F) (rootId : NodeId) (batch : ℕ) :
    Triple (Holding i.terminalEvaluator s₀ []) (runBatch i rootId batch)
      (fun _ => Holding i.terminalEvaluator s₀ []) (Holding i.terminalEvaluator s₀ []) := by
  unfold runBatch
  refine Triple.read fun s hs => ?_
  have hcollect : Triple (InFlight i.terminalEvaluator s₀ [])
      (collect (simulate i rootId) [] s.mcts.batchSize) (InFlight i.terminalEvaluator s₀)
      (Holding i.terminalEvaluator s₀ []) :=
    Triple.gather (I := fun _ => InFlight i.terminalEvaluator s₀)
      (fun _ acc => simulate_inFlight i rootId acc) s.mcts.batchSize []
  refine Triple.seq (hcollect.pre fun t ht => ⟨by simpa [ht] using hs, by simp⟩) fun pending => ?_
  split
  · exact Triple.ret fun t ht => ht.holding.release
  split
  · exact Triple.halt fun t ht => ht.holding.release
  refine Triple.pre (Triple.assume fun htied => ?_) fun t ht => ⟨ht.holding, ht.tied⟩
  refine (Triple.each_mem (I := Holding i.terminalEvaluator s₀ (pending.flatMap (·.path)))
    fun r hr => ?_).post fun _ t ht => ht.release
  have hpending : r.1 ∈ pending := (List.of_mem_zip hr).1
  exact answer_holding i r.1 _ _ (fun e he => List.mem_flatMap.mpr ⟨r.1, hpending, he⟩)
    (htied r.1 hpending)

omit [Roots F] in
theorem ensureRoot_holding (i : RunInput E A O F) :
    Triple (Holding i.terminalEvaluator s₀ []) (ensureRoot i (hash i.env))
      (fun _ s => Holding i.terminalEvaluator s₀ [] s ∧ s.mcts.nodeExists (hash i.env) = true)
      (Holding i.terminalEvaluator s₀ []) := by
  unfold ensureRoot
  refine Triple.read fun s hs => ?_
  have hcreated : ∀ (order : IterationOrder (Σ _ : A, F)) (priors : HashMap A F) (value : F),
      (MCTS.createNode order i.env priors value s.mcts).nodeExists (hash i.env) = true := by
    intro order priors value
    rw [MCTS.createNode, insertNode_nodeExists]
    simp
  split
  · rename_i hfresh
    have hfresh : s.mcts.nodeExists (hash i.env) = false := by simpa using hfresh
    split
    · refine Triple.update fun t ht => ht ▸ ⟨hs.update ?_, hcreated _ _ _⟩
      exact .create _ _ _ _ hfresh (fun a ha => absurd ha (AList.notMem_empty a)) fun _ => rfl
    · rename_i hrun
      split
      · refine Triple.update fun t ht => ht ▸ ⟨hs.update ?_, hcreated _ _ _⟩
        exact .create _ _ _ _ hfresh (fun a ha => normalizePrior_keys _ _ ha)
          fun hdone => absurd hdone hrun
      · exact Triple.halt fun t ht => ht ▸ hs
  · rename_i hexists
    exact Triple.ret fun t ht => ht ▸ ⟨hs, by simpa using hexists⟩

def rooted (i : RunInput E A O F) (s : Search A E F) : Search A E F :=
  ⟨s.mcts.setRoot (some (hash i.env)), s.log ++ [.passed (s.mcts.setRoot (some (hash i.env)))]⟩

omit [DecidableEq A] [Roots F] in
private theorem rootNode_holding (rootHash : NodeId) :
    Triple (Holding te s₀ []) (rootNode rootHash)
      (fun node s => Holding te s₀ [] s ∧ s.mcts.getNode rootHash = some node)
      (Holding te s₀ []) := by
  unfold rootNode
  refine Triple.read fun s hs => ?_
  split
  · rename_i node hnode
    exact Triple.ret fun t ht => ht ▸ ⟨hs, hnode⟩
  · exact Triple.halt fun t ht => ht ▸ hs

/-- A run is a trail of updates, however it ends, and returns its root node. -/
theorem run_holding (i : RunInput E A O F) (h : Indexed s₀.mcts) :
    Triple (fun s => s = s₀) (run i)
      (fun node s => Holding i.terminalEvaluator (rooted i s₀) [] s ∧
        s.mcts.getNode (hash i.env) = some node)
      (Holding i.terminalEvaluator (rooted i s₀) []) := by
  unfold run
  refine Triple.seq (R := fun _ => Holding i.terminalEvaluator (rooted i s₀) [])
    (Triple.update fun s hs => ?_) fun _ => ?_
  · subst hs
    exact ⟨.start, h, by simp⟩
  refine Triple.seq (ensureRoot_holding i) fun _ => ?_
  split
  · exact (rootNode_holding _).pre fun s hs => hs.1
  · refine Triple.read fun s hs => ?_
    refine Triple.seq (R := fun _ => Holding i.terminalEvaluator (rooted i s₀) []) ?_ fun _ => ?_
    · exact (Triple.each (I := fun _ => Holding i.terminalEvaluator (rooted i s₀) [])
        fun batch _ => runBatch_holding i _ batch).pre fun t ht => ht ▸ hs.1
    · exact Triple.seq (mutate_holding _ fun _ _ => .clearNoise) fun _ => rootNode_holding _

theorem session_indexed {C : RunInput E A O F → Prop} {s : Search A E F} (h : Session C s) :
    Indexed s.mcts := by
  induction h with
  | new batchSize _ => exact fun id index => by simp [MCTS.new]
  | run _ _ hrun ih => exact ((run_holding _ ih).returned rfl hrun).1.arena
  | advanceRoot a _ ih => exact Rerooting.advanceRoot_indexed ih a
  | perturbRootPrior noise epsilon _ ih => exact ih

/-- A search left by a run, finished or not, is at the end of a trail. -/
theorem run_trail (i : RunInput E A O F) (h : Indexed s₀.mcts) :
    Holding i.terminalEvaluator (rooted i s₀) [] (run i s₀).2 := by
  have hrun := run_holding i h s₀ rfl
  rcases heq : run i s₀ with ⟨_ | node, t⟩
  · rw [heq] at hrun
    exact hrun
  · rw [heq] at hrun
    exact hrun.1

/-- The invariant between calls; once there is a root id, its node is there. -/
theorem session_wellFormed (hE : LawfulEnvironment E A) {C : RunInput E A O F → Prop}
    {s : Search A E F} (h : Session C s) :
    WellFormed s.mcts ∧ ∀ id, s.mcts.rootId = some id → s.mcts.nodeExists id = true := by
  induction h with
  | new batchSize hpos =>
    refine ⟨⟨session_indexed (C := C) (.new batchSize hpos), fun id n hn => ?_,
      fun id n i c hn => ?_⟩, fun id hid => ?_⟩
    · exact absurd hn (by simp [MCTS.getNode, MCTS.new])
    · exact absurd hn (by simp [MCTS.getNode, MCTS.new])
    · exact absurd hid (by simp [MCTS.new])
  | run _ _ hrun ih =>
    rename_i s t i node _ _
    obtain ⟨hheld, hnode⟩ := (run_holding i ih.1.indexed).returned rfl hrun
    have harena : WellFormed t.mcts :=
      hheld.trail.wellFormed hE ⟨ih.1.indexed, ih.1.node, ih.1.linked⟩
    refine ⟨harena, fun id hid => ?_⟩
    have hroot : some (hash i.env) = some id := hheld.trail.fixed.1.symm.trans hid
    exact (nodeExists_iff harena.indexed).mpr ⟨node, Option.some.inj hroot ▸ hnode⟩
  | advanceRoot a _ ih =>
    refine ⟨ih.1.advanceRoot a, fun id hid => ?_⟩
    rcases Rerooting.advanceRoot_cases a _ with heq | ⟨old, n, new, hroot, hn, hchild⟩
    · rw [heq] at hid
      exact absurd hid (by simp [MCTS.setRoot])
    · obtain ⟨hnew, hindexed, _⟩ := Rerooting.advanceRoot_child ih.1.indexed hroot hn hchild
      rw [hnew, Option.some.injEq] at hid
      subst hid
      obtain ⟨child, hfound⟩ := (nodeExists_iff ih.1.indexed).mp (ih.1.linked _ n _ _ hn hchild)
      exact (nodeExists_iff hindexed).mpr ⟨child,
        (Rerooting.advanceRoot_getNode ih.1.indexed hroot hn hchild _ child).mpr ⟨hfound, .refl⟩⟩
  | perturbRootPrior noise epsilon _ ih =>
    exact ⟨⟨ih.1.indexed, ih.1.node, ih.1.linked⟩, ih.2⟩

theorem session_batchSize {C : RunInput E A O F → Prop} {s : Search A E F} (h : Session C s) :
    1 ≤ s.mcts.batchSize := by
  induction h with
  | new batchSize hpos => exact hpos
  | run hs _ hrun ih =>
    rename_i s t i node _
    have htrail := run_trail i (session_indexed hs)
    rw [hrun] at htrail
    exact htrail.trail.fixed.2.1.symm ▸ ih
  | advanceRoot a hs ih =>
    rcases Rerooting.advanceRoot_cases a _ with heq | ⟨old, n, new, hroot, hn, hchild⟩
    · rw [heq]
      exact ih
    · exact (Rerooting.advanceRoot_child (session_indexed hs) hroot hn hchild).2.2.2.symm ▸ ih
  | perturbRootPrior noise epsilon _ ih => exact ih

/-- The representation invariant in full: the table is a bijection onto the
nodes, every vector has one entry for each action, blank where the action is not
valid, no index of a valid action is out of bounds and no child is missing. -/
theorem arena_representation (hE : LawfulEnvironment E A) {C : RunInput E A O F → Prop}
    {s : Search A E F} (h : Session C s) :
    (s.mcts.transpositionTable.keys.length = s.mcts.nodes.length ∧
      (∀ id index, s.mcts.transpositionTable.lookup id = some index →
        (s.mcts.nodes[index]?).map (·.id) = some id) ∧
      ∀ n ∈ s.mcts.nodes, s.mcts.getNode n.id = some n) ∧
    (∀ n ∈ s.mcts.nodes,
      n.priorProbs.length = n.numActions ∧ n.children.length = n.numActions ∧
      n.edgeVisits.length = n.numActions ∧ n.virtualLosses.length = n.numActions ∧
      n.edgePenalties.length = n.numActions ∧ n.validActions.Nodup ∧
      (∀ a ∈ n.validActions, toActionIndex a < n.numActions) ∧
      ∀ i, (∀ a ∈ n.validActions, toActionIndex a ≠ i) →
        n.priorProbs.getD i 0 = 0 ∧ n.edgeVisits.getD i 0 = 0 ∧
        n.virtualLosses.getD i 0 = 0 ∧ n.edgePenalties.getD i 0 = 0 ∧
        n.children.getD i none = none) ∧
    (∀ n ∈ s.mcts.nodes, ∀ c, some c ∈ n.children → s.mcts.nodeExists c = true) ∧
    ∀ id, s.mcts.rootId = some id → s.mcts.nodeExists id = true := by
  obtain ⟨harena, hroot⟩ := session_wellFormed hE h
  have hfind : ∀ n ∈ s.mcts.nodes, s.mcts.getNode n.id = some n :=
    fun n hn => getNode_of_mem harena.indexed hn
  refine ⟨⟨keys_length harena.indexed, fun id index => (harena.indexed id index).mp,
    hfind⟩, fun n hn => ?_, fun n hn c hc => ?_, hroot⟩
  · have hnode := harena.node n.id n (hfind n hn)
    exact ⟨hnode.prior_length, hnode.children_length, hnode.visits_length, hnode.losses_length,
      hnode.penalties_length, hnode.valid_nodup, hnode.valid_lt, hnode.blank⟩
  · obtain ⟨i, hi⟩ := List.mem_iff_getElem?.mp hc
    exact harena.linked n.id n i c (hfind n hn) (by simp [hi])

theorem arena_representation_heapSearch :
    heapSearch.mcts.transpositionTable.keys.length = heapSearch.mcts.nodes.length ∧
      heapSearch.mcts.nodes.length = 4 :=
  ⟨(arena_representation heapGame_lawful (heapSearch_session (fun _ => True) trivial)).1.1,
    by decide +kernel⟩

end Programs

end Mcts.Updates
