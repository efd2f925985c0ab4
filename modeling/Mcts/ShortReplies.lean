import Mcts.Simulations

/-!
Replies that are shorter than their batch. The simulations they leave out stay in
flight for good: no later backup takes their losses back, and only `advance_root`
can drop the nodes that hold them. So a run is clean at its end exactly when it
began clean and every batch was answered in full.
-/
namespace Mcts.ShortReplies

open Program Prog Environments Nodes Engine Arena Rerooting SearchRun ArenaInvariant Walks
open Updates Ledger Turns Flights Simulations

variable {E A O F : Type} [Environment E A O] [Act A] [Field F]

section Floating

variable {m₀ m : MCTS A F} {dropped : List (NodeId × A)}
variable {pending : List (PendingInference A E)}

/-- The edges in flight are those of the pending simulations and of dropped ones. -/
def Floating (m₀ : MCTS A F) (dropped : List (NodeId × A)) (pending : List (PendingInference A E))
    (m : MCTS A F) : Prop :=
  Afloat m₀ (pending.flatMap (·.path) ++ dropped) [] m ∧ ∀ p ∈ pending, Ready p m

theorem floating_nil (h : Afloat m₀ dropped [] m) :
    Floating m₀ dropped ([] : List (PendingInference A E)) m :=
  ⟨h, fun _ hp => absurd hp List.not_mem_nil⟩

/-- Neither the root's id nor its noise is in the arena. -/
theorem afloat_reroot (h : Afloat m₀ dropped [] m) (rootId : Option NodeId)
    (noise : Option (HashMap A F)) (epsilon : F) :
    Afloat m₀ dropped [] { m with
      rootId := rootId, rootNoise := noise, rootNoiseEpsilon := epsilon } :=
  ⟨h.ext, h.batch, ⟨h.arena.indexed, h.arena.node, h.arena.linked⟩, h.offers, h.booked,
    h.expanded, h.counted⟩

/-- Losses are left exactly where edges are in flight. -/
theorem dropped_nil_iff (h : Afloat m₀ dropped [] m) :
    dropped = [] ↔ ∀ n ∈ m.nodes, ∀ k ∈ n.virtualLosses, k = 0 := by
  rw [← booked_nil_iff h.arena.indexed]
  constructor
  · rintro rfl
    exact h.booked
  · intro hzero
    rw [List.eq_nil_iff_forall_not_mem]
    rintro ⟨id, a⟩ he
    obtain ⟨n, hn, _⟩ := h.offers _ he
    have hpos := inFlight_pos he
    have hnone : 0 = inFlight dropped id (toActionIndex a) :=
      (hzero id n hn _).symm.trans (h.booked id n hn _)
    omega

omit [Field F] in
theorem flatMap_path_eq_nil (h : ∀ p ∈ pending, Ready p m) :
    pending.flatMap (·.path) = [] ↔ pending = [] := by
  constructor
  · intro hnil
    rw [List.eq_nil_iff_forall_not_mem]
    intro p hp
    have hpath : p.path = [] := List.flatMap_eq_nil_iff.mp hnil p hp
    have hlast := (h p hp).last
    rw [hpath] at hlast
    exact absurd hlast (by simp)
  · rintro rfl
    rfl

/-- Advancing the root drops the losses of the nodes it drops. -/
theorem afloat_advanceRoot (h : Afloat m₀ dropped [] m) (a : A) :
    ∃ kept, Afloat (advanceRoot a m) kept [] (advanceRoot a m) := by
  have hindexed := h.arena.indexed
  have hwell := h.arena.advanceRoot a
  have hold : ∀ id n, (Rerooting.advanceRoot a m).getNode id = some n → m.getNode id = some n := by
    intro id n hn
    rcases advanceRoot_cases a m with heq | ⟨old, root, new, hroot, hnode, hchild⟩
    · rw [heq] at hn
      exact hn
    · exact ((advanceRoot_getNode hindexed hroot hnode hchild id n).mp hn).1
  refine ⟨dropped.filter fun e => (Rerooting.advanceRoot a m).nodeExists e.1, Extends.refl _, rfl,
    hwell, fun e he => ?_, fun id n hn k => ?_, fun id n hn => h.expanded id n (hold id n hn),
    fun id n hn _ => h.counted id n (hold id n hn) List.not_mem_nil⟩
  · obtain ⟨hmem, hexists⟩ := List.mem_filter.mp he
    obtain ⟨n, hn⟩ := (nodeExists_iff hwell.indexed).mp hexists
    exact ⟨n, hn, (h.offers e hmem).mem (hold e.1 n hn)⟩
  · have hexists := (nodeExists_iff hwell.indexed).mpr ⟨n, hn⟩
    rw [h.booked id n (hold id n hn) k, inFlight, inFlight, List.countP_filter]
    refine List.countP_congr fun e he => ?_
    by_cases hid : e.1 = id
    · simp [hid, hexists]
    · simp [hid]

end Floating

section Batches

variable [DecidableEq A] [LinearOrder F] {m₀ : MCTS A F} {dropped : List (NodeId × A)}
variable {pending : List (PendingInference A E)} {i : RunInput E A O F}

theorem answer_floating (hE : LawfulEnvironment E A) (i : RunInput E A O F)
    (p : PendingInference A E) (priors : HashMap A F) (value : F) :
    Triple (fun s : Search A E F => Floating m₀ dropped (p :: pending) s.mcts)
      (answer i p priors value) (fun _ s => Floating m₀ dropped pending s.mcts)
      (fun _ => True) := by
  have hbase : ∀ m₁, (∀ q ∈ p :: pending, Ready q m₁) →
      Triple (fun s : Search A E F =>
          Afloat m₁ (p.path ++ (pending.flatMap (·.path) ++ dropped)) [] s.mcts)
        (answer i p priors value)
        (fun _ s => Afloat m₁ (pending.flatMap (·.path) ++ dropped) [] s.mcts ∧ True)
        (fun _ => True) := fun m₁ hready => (answer_afloat hE i p priors value).weaken
      (fun s hs => ⟨hs, (hready p List.mem_cons_self).extends hs.ext⟩) (fun _ s hs => ⟨hs, trivial⟩)
      fun _ hx => hx
  refine (carry (fun _ _ h hext q hq => (h q hq).extends hext) hbase).weaken
    (fun s hs => ⟨?_, hs.2⟩)
    (fun _ s hs => ⟨hs.1, fun q hq => hs.2.1 q (List.mem_cons_of_mem p hq)⟩) fun _ hx => hx
  have hafloat := hs.1
  rwa [List.flatMap_cons, List.append_assoc] at hafloat

variable [Roots F]

theorem simulate_floating (hE : LawfulEnvironment E A) (i : RunInput E A O F) (rootId : NodeId) :
    Triple (fun s : Search A E F => Floating m₀ dropped pending s.mcts) (simulate i rootId)
      (fun r s => Floating m₀ dropped (pending ++ r.toList) s.mcts) (fun _ => True) := by
  have hbase : ∀ m₁ : MCTS A F, (∀ q ∈ pending, Ready q m₁) →
      Triple (fun s : Search A E F => Afloat m₁ (pending.flatMap (·.path) ++ dropped) [] s.mcts)
        (simulate i rootId)
        (fun r s => Afloat m₁ (r.toList.flatMap (·.path) ++
          (pending.flatMap (·.path) ++ dropped)) [] s.mcts ∧ ∀ p ∈ r, Ready p s.mcts)
        (fun _ => True) := fun m₁ _ => simulate_afloat hE i rootId
  refine (carry (fun _ _ h hext q hq => (h q hq).extends hext) hbase).post
    fun r s hs => ⟨?_, fun q hq => ?_⟩
  · refine hs.1.perm ?_
    rw [List.flatMap_append, ← List.append_assoc]
    exact List.perm_append_comm.append_right dropped
  · rcases List.mem_append.mp hq with hq | hq
    · exact hs.2.1 q hq
    · exact hs.2.2 q (by simpa using hq)

theorem collect_floating (hE : LawfulEnvironment E A) (i : RunInput E A O F) (rootId : NodeId)
    (k : ℕ) :
    Triple (fun s : Search A E F => Afloat m₀ dropped [] s.mcts)
      (collect (simulate i rootId) [] k)
      (fun pending s => Floating m₀ dropped pending s.mcts) (fun _ => True) :=
  (Triple.gather (I := fun _ acc (s : Search A E F) => Floating m₀ dropped acc s.mcts)
    (fun _ _ => simulate_floating hE i rootId) k []).pre fun _ hs => floating_nil hs

/-- The client's reply to the batch that starts here covers all its leaves. -/
def Answered (i : RunInput E A O F) (batch : ℕ) (s : Search A E F) : Prop :=
  ∀ pending u priors values,
    collect (simulate i (hash i.env)) [] s.mcts.batchSize s = (some pending, u) →
    i.client (batch + 1) (pending.map fun p => observation p.env) = some (priors, values) →
    pending.length ≤ priors.length ∧ pending.length ≤ values.length

/-- A batch leaves nothing new in flight exactly when it is answered in full. -/
theorem runBatch_floating (hE : LawfulEnvironment E A) {batch : ℕ} {s t : Search A E F}
    (hs : Afloat m₀ dropped [] s.mcts)
    (hrun : runBatch i (hash i.env) batch s = (some (), t)) :
    ∃ dropped', Afloat m₀ dropped' [] t.mcts ∧
      (dropped' = [] ↔ dropped = [] ∧ Answered i batch s) := by
  unfold runBatch at hrun
  rw [get_bind_run] at hrun
  obtain ⟨pending, u, hcollect, hrest⟩ := bind_eq_some hrun
  have hu : Floating m₀ dropped pending u.mcts :=
    (collect_floating hE i (hash i.env) _).returned hs hcollect
  have hsame : ∀ {pending' v}, collect (simulate i (hash i.env)) [] s.mcts.batchSize s =
      (some pending', v) → pending' = pending := by
    intro pending' v h
    exact Option.some.inj (congrArg Prod.fst (h.symm.trans hcollect))
  split at hrest
  · rename_i hempty
    rw [List.isEmpty_iff] at hempty
    subst hempty
    have ht : u = t := congrArg Prod.snd hrest
    refine ⟨dropped, ht ▸ hu.1, ⟨fun hnil => ⟨hnil, ?_⟩, fun h => h.1⟩⟩
    intro pending' v priors values hcollect' _
    rw [hsame hcollect']
    exact ⟨Nat.zero_le _, Nat.zero_le _⟩
  rcases hreply : i.client (batch + 1) (pending.map fun p => observation p.env) with
    _ | ⟨priorBatch, valueBatch⟩
  · rw [hreply] at hrest
    exact absurd (congrArg Prod.fst hrest) (by simp)
  rw [hreply] at hrest
  set left := pending.drop (priorBatch.zip valueBatch).length
  have ht : Floating m₀ dropped left t.mcts :=
    (Triple.each_zip (X := fun _ => True) (I := fun left (s : Search A E F) =>
      Floating m₀ dropped left s.mcts)
      fun r rest => answer_floating hE i r.1 r.2.1 r.2.2).returned hu hrest
  have hnil : left.flatMap (·.path) = [] ↔ left = [] := flatMap_path_eq_nil ht.2
  refine ⟨left.flatMap (·.path) ++ dropped, ht.1, ?_⟩
  rw [List.append_eq_nil_iff, hnil, List.drop_eq_nil_iff, List.length_zip, and_comm]
  refine and_congr_right fun _ => ⟨fun hle => ?_, fun hans => ?_⟩
  · intro pending' v priors values hcollect' hreply'
    rw [hsame hcollect'] at hreply' ⊢
    rw [hreply, Option.some.injEq, Prod.mk.injEq] at hreply'
    rw [← hreply'.1, ← hreply'.2]
    exact le_min_iff.mp hle
  · exact le_min_iff.mpr (hans pending u priorBatch valueBatch hcollect hreply)

/-- The batches of a run, one after the other. -/
theorem batches_floating (hE : LawfulEnvironment E A) (k : ℕ) {s t : Search A E F}
    (hs : Afloat m₀ dropped [] s.mcts)
    (hrun : forEach (List.range k) (runBatch i (hash i.env)) s = (some (), t)) :
    ∃ dropped', Afloat m₀ dropped' [] t.mcts ∧ (dropped' = [] ↔ dropped = [] ∧
      ∀ b < k, ∀ v, forEach (List.range b) (runBatch i (hash i.env)) s = (some (), v) →
        Answered i b v) := by
  induction k generalizing t with
  | zero =>
    have ht : s = t := congrArg Prod.snd hrun
    exact ⟨dropped, ht ▸ hs, by simp⟩
  | succ k ih =>
    rw [List.range_succ, forEach_append] at hrun
    obtain ⟨_, u, hbefore, hlast⟩ := bind_eq_some hrun
    obtain ⟨_, v, hbatch, hnil⟩ := bind_eq_some hlast
    have ht : v = t := congrArg Prod.snd hnil
    obtain ⟨middle, hmiddle, hiff⟩ := ih hbefore
    obtain ⟨dropped', hdropped, hiff'⟩ := runBatch_floating hE hmiddle hbatch
    refine ⟨dropped', ht ▸ hdropped, hiff'.trans ?_⟩
    rw [hiff, and_assoc]
    refine and_congr_right fun _ => ⟨?_, fun h => ⟨fun b hb => h b (by omega), ?_⟩⟩
    · rintro ⟨hearlier, hans⟩ b hb w hw
      rcases Nat.lt_succ_iff_lt_or_eq.mp hb with hlt | rfl
      · exact hearlier b hlt w hw
      · have hsame : u = w := congrArg Prod.snd (hbefore.symm.trans hw)
        exact hsame ▸ hans
    · exact h k (Nat.lt_succ_self k) u hbefore

end Batches

section Runs

variable [DecidableEq A] [LinearOrder F] [Roots F] {s t : Search A E F} {i : RunInput E A O F}
variable {C : RunInput E A O F → Prop} {dropped : List (NodeId × A)} {node : Node A F}

def beforeBatch (i : RunInput E A O F) (batch : ℕ) : Prog (Search A E F) Unit := do
  mutate (·.setRoot (some (hash i.env)))
  ensureRoot i (hash i.env)
  forEach (List.range batch) (runBatch i (hash i.env))

def AllAnswered (i : RunInput E A O F) (s : Search A E F) : Prop :=
  done i.env = false → ∀ batch < (i.numSteps + s.mcts.batchSize - 1) / max s.mcts.batchSize 1,
    ∀ v, beforeBatch i batch s = (some (), v) → Answered i batch v

omit [Environment E A O] [Act A] [DecidableEq A] [Field F] [LinearOrder F] [Roots F] in
theorem rootNode_returns {rootHash : NodeId} (h : rootNode rootHash s = (some node, t)) :
    t = s := by
  unfold rootNode at h
  rw [get_bind_run] at h
  cases hroot : s.mcts.getNode rootHash with
  | some found =>
    rw [hroot] at h
    exact (congrArg Prod.snd h).symm
  | none =>
    rw [hroot] at h
    exact absurd (congrArg Prod.fst h) (by simp)

/-- With the root made sure of, a run goes on from the same edges in flight. -/
theorem rooted_afloat (hE : LawfulEnvironment E A) (hs : Afloat s.mcts dropped [] s.mcts)
    {u v : Search A E F} (hset : mutate (·.setRoot (some (hash i.env))) s = (some (), u))
    (hensure : ensureRoot i (hash i.env) u = (some (), v)) :
    Afloat s.mcts dropped [] v.mcts ∧ ∀ batch, beforeBatch i batch s =
      forEach (List.range batch) (runBatch i (hash i.env)) v := by
  have hu : Afloat s.mcts dropped [] u.mcts := by
    obtain rfl : _ = u := congrArg Prod.snd hset
    exact afloat_reroot hs _ _ _
  refine ⟨(ensureRoot_afloat hE i).returned hu hensure, fun batch => ?_⟩
  unfold beforeBatch
  rw [bind_run, hset]
  show (ensureRoot i (hash i.env) >>= _) u = _
  rw [bind_run, hensure]

/-- What is in flight where a batch starts. -/
theorem beforeBatch_afloat (hE : LawfulEnvironment E A) (hs : Afloat s.mcts dropped [] s.mcts)
    {batch : ℕ} (hrun : beforeBatch i batch s = (some (), t)) :
    ∃ dropped', Afloat s.mcts dropped' [] t.mcts := by
  obtain ⟨_, u, hset, hrest⟩ := bind_eq_some hrun
  obtain ⟨_, v, hensure, hbatches⟩ := bind_eq_some hrest
  obtain ⟨hv, _⟩ := rooted_afloat hE hs hset hensure
  obtain ⟨dropped', ht, _⟩ := batches_floating hE batch hv hbatches
  exact ⟨dropped', ht⟩

/-- A run that returns leaves nothing new in flight exactly when all is answered. -/
theorem run_afloat (hE : LawfulEnvironment E A) (hs : Afloat s.mcts dropped [] s.mcts)
    (hrun : run i s = (some node, t)) :
    ∃ dropped', Afloat t.mcts dropped' [] t.mcts ∧
      (dropped' = [] ↔ dropped = [] ∧ AllAnswered i s) := by
  unfold run at hrun
  obtain ⟨_, u, hset, hrun⟩ := bind_eq_some hrun
  obtain ⟨_, v, hensure, hrun⟩ := bind_eq_some hrun
  obtain ⟨hv, hbefore⟩ := rooted_afloat hE hs hset hensure
  by_cases hdone : done i.env = true
  · rw [if_pos hdone] at hrun
    obtain rfl := rootNode_returns hrun
    refine ⟨dropped, hv.rebase, fun hnil => ⟨hnil, fun hlive => ?_⟩, fun h => h.1⟩
    exact absurd (hdone.symm.trans hlive) (by simp)
  · have hlive : done i.env = false := by simpa using hdone
    rw [if_neg hdone, get_bind_run] at hrun
    obtain ⟨_, w, hbatches, hrun⟩ := bind_eq_some hrun
    obtain ⟨_, x, hclear, hrun⟩ := bind_eq_some hrun
    obtain rfl := rootNode_returns hrun
    obtain rfl : _ = t := congrArg Prod.snd hclear
    rw [hv.batch] at hbatches
    obtain ⟨dropped', hw, hiff⟩ := batches_floating hE _ hv hbatches
    refine ⟨dropped', (afloat_reroot hw _ _ _).rebase, hiff.trans (and_congr_right fun _ => ?_)⟩
    simp only [AllAnswered, hlive, forall_const, hbefore]

/-- Between the calls of a session all that is in flight was dropped. -/
theorem session_afloat (hE : LawfulEnvironment E A) (h : Session C s) :
    ∃ dropped, Afloat s.mcts dropped [] s.mcts := by
  induction h with
  | new batchSize hpos =>
    have hwell := (session_wellFormed hE (Session.new (C := C) batchSize hpos)).1
    have hnone : ∀ id, (MCTS.new batchSize : MCTS A F).getNode id = none := fun _ => rfl
    refine ⟨[], Extends.refl _, rfl, hwell, fun e he => absurd he List.not_mem_nil,
      fun id n hn => ?_, fun id n hn => ?_, fun id n hn => ?_⟩
    · exact absurd ((hnone id).symm.trans hn) (by simp)
    · exact absurd ((hnone id).symm.trans hn) (by simp)
    · exact absurd ((hnone id).symm.trans hn) (by simp)
  | run hs hi hrun ih =>
    obtain ⟨dropped, hdropped⟩ := ih
    obtain ⟨dropped', hdropped', _⟩ := run_afloat hE hdropped hrun
    exact ⟨dropped', hdropped'⟩
  | advanceRoot a hs ih =>
    obtain ⟨dropped, hdropped⟩ := ih
    exact afloat_advanceRoot hdropped a
  | perturbRootPrior noise epsilon hs ih =>
    obtain ⟨dropped, hd⟩ := ih
    exact ⟨dropped, (afloat_reroot hd _ _ _).rebase⟩

/-- From a state without losses a run that returns ends without losses and with
every visited node's visits counted, exactly when every batch is answered in full. -/
theorem short_reply_iff (hE : LawfulEnvironment E A) (h : Session C s)
    (hzero : ∀ n ∈ s.mcts.nodes, ∀ k ∈ n.virtualLosses, k = 0)
    (hrun : run i s = (some node, t)) :
    ((∀ n ∈ t.mcts.nodes, ∀ k ∈ n.virtualLosses, k = 0) ∧
      ∀ n ∈ t.mcts.nodes, 0 < n.totalVisits → n.nodeVisits = 1 + n.totalVisits) ↔
        AllAnswered i s := by
  obtain ⟨dropped, hdropped⟩ := session_afloat hE h
  obtain ⟨dropped', hdropped', hiff⟩ := run_afloat hE hdropped hrun
  rw [and_iff_right ((dropped_nil_iff hdropped).mpr hzero)] at hiff
  rw [← hiff, dropped_nil_iff hdropped']
  refine ⟨fun h => h.1, fun hclean => ⟨hclean, fun n hn hvisits => ?_⟩⟩
  have hfound := getNode_of_mem hdropped'.arena.indexed hn
  have hlosses : n.totalLosses = 0 := List.sum_eq_zero (hclean n hn)
  exact hdropped'.counted n.id n hfound List.not_mem_nil hlosses hvisits

theorem short_reply_iff_heapSearch : ∃ node t, run (heapInput 6) heapSearch = (some node, t) ∧
    (∀ n ∈ t.mcts.nodes, ∀ k ∈ n.virtualLosses, k = 0) := by
  have hreturns : (run (heapInput 6) heapSearch).1.isSome = true := by decide +kernel
  obtain ⟨node, hnode⟩ := Option.isSome_iff_exists.mp hreturns
  have hrun : run (heapInput 6) heapSearch = (some node, (run (heapInput 6) heapSearch).2) :=
    Prod.ext hnode rfl
  refine ⟨node, _, hrun, ((short_reply_iff heapGame_lawful
    (heapSearch_session (fun _ => True) trivial) (by decide +kernel) hrun).mpr ?_).1⟩
  intro _ batch _ v _ pending u priors values _ hreply
  simp only [heapInput, Option.some.injEq, Prod.mk.injEq] at hreply
  obtain ⟨rfl, rfl⟩ := hreply
  simp

def curtInput : RunInput HeapGame Bool ℕ ℚ :=
  { heapInput 2 with client := fun query obs =>
      if query = 0 then some (obs.map fun _ => ∅, obs.map fun _ => 0) else some ([], []) }

/-- The simulations it drops leave their losses behind, and the next run, though
answered in full, does not clear them. -/
theorem curtInput_leaves :
    Session (fun _ => True) (⟨MCTS.new 2, []⟩ : Search Bool HeapGame ℚ) ∧
    (∀ n ∈ (MCTS.new 2 : MCTS Bool ℚ).nodes, ∀ k ∈ n.virtualLosses, k = 0) ∧
    ∃ node t, run curtInput ⟨MCTS.new 2, []⟩ = (some node, t) ∧ node.virtualLosses = [1, 1] ∧
      (run (heapInput 2) t).1.map (·.virtualLosses) = some [1, 1] := by
  have hreturns : (run curtInput ⟨MCTS.new 2, []⟩).1.map (·.virtualLosses) = some [1, 1] := by
    decide +kernel
  obtain ⟨node, hnode, hlosses⟩ := Option.map_eq_some_iff.mp hreturns
  exact ⟨.new 2 (by decide), fun n hn => absurd hn List.not_mem_nil, node, _, Prod.ext hnode rfl,
    hlosses, by decide +kernel⟩

end Runs

end Mcts.ShortReplies
