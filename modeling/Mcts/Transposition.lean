import Mcts.Turns
import Mcts.Updates

/-!
Transposition soundness. If equal hashes mean equal behaviour, every node of the
arena describes every state that bears its id, across runs, batches and roots;
so a walk never steps an environment illegally and never meets a foreign id.
-/
namespace Mcts.Transposition

open Program Prog Environments Nodes Engine Arena Rerooting SearchRun ArenaInvariant Walks
open Selection Turns Updates

variable {E A O F : Type} [Environment E A O] [Act A] [DecidableEq A]
variable [Field F] [LinearOrder F] [Roots F]
variable {S : Set E} {C : RunInput E A O F → Prop} {s : Search A E F}

abbrev On (S : Set E) (i : RunInput E A O F) : Prop := i.env ∈ S

omit [DecidableEq A] [Field F] [LinearOrder F] [Roots F] in
theorem truthful_advanceRoot {m : MCTS A F} (hm : Indexed m) (ht : Truthful S m) (a : A) :
    Truthful S (advanceRoot a m) := by
  intro id n hn
  rcases advanceRoot_cases a m with heq | ⟨old, root, new, hroot, hold, hchild⟩
  · rw [heq] at hn
    exact ht id n hn
  · exact ht id n ((advanceRoot_getNode hm hroot hold hchild id n).mp hn).1

omit [Roots F] in
/-- No invariant beyond those of every turn. -/
private theorem invariant_trivial (S : Set E) (i : RunInput E A O F) (B : ℕ) :
    Invariant S i B fun _ _ _ => True :=
  ⟨fun _ _ _ _ _ _ _ _ _ _ _ _ => trivial, fun _ _ _ _ _ _ _ _ => trivial,
    fun _ _ _ _ _ _ => trivial⟩

private theorem run_sound (hE : LawfulEnvironment E A) (hS : SoundHash S) (i : RunInput E A O F)
    (hi : On S i) (hm : WellFormed s.mcts) (ht : Truthful S s.mcts) :
    Triple (At s.mcts) (run i)
      (fun _ t => WellFormed t.mcts ∧ Truthful S t.mcts ∧ ∀ e ∈ t.log, Sound e)
      (fun t => ∀ e ∈ t.log, Sound e) := by
  refine (run_rule hE hS hi hm ht rfl (invariant_trivial S i s.mcts.batchSize)
    fun _ _ _ => trivial).weaken (fun _ hs => hs) ?_ fun t ht => ht.1
  rintro node t ⟨m, hat, hst, _⟩
  exact ⟨hat.mcts ▸ hst.arena, hat.mcts ▸ hst.truth, hat.log⟩

/-- Every session keeps the graph truthful and logs sound events only. -/
theorem session_truthful (hE : LawfulEnvironment E A) (hS : SoundHash S)
    (hC : ∀ i, C i → On S i) (h : Session C s) :
    WellFormed s.mcts ∧ Truthful S s.mcts ∧ ∀ e ∈ s.log, Sound e := by
  induction h with
  | new batchSize hpos =>
    refine ⟨(session_wellFormed hE (C := C) (.new batchSize hpos)).1, fun id n hn => ?_,
      fun e he => absurd he List.not_mem_nil⟩
    exact absurd hn (by simp [MCTS.getNode, MCTS.new])
  | run _ hi hrun ih =>
    exact (run_sound hE hS _ (hC _ hi) ih.1 ih.2.1).returned ⟨rfl, ih.2.2⟩ hrun
  | advanceRoot a _ ih =>
    exact ⟨ih.1.advanceRoot a, truthful_advanceRoot ih.1.indexed ih.2.1 a, ih.2.2⟩
  | perturbRootPrior noise epsilon _ ih =>
    exact ⟨⟨ih.1.indexed, ih.1.node, ih.1.linked⟩, ih.2.1, ih.2.2⟩

theorem attained_sound (hE : LawfulEnvironment E A) (hS : SoundHash S)
    (hC : ∀ i, C i → On S i) (h : Attained C s) : ∀ e ∈ s.log, Sound e := by
  cases h with
  | between hs => exact (session_truthful hE hS hC hs).2.2
  | inside i hs hi =>
    obtain ⟨hm, ht, hlog⟩ := session_truthful hE hS hC hs
    have hrun := run_sound hE hS i (hC i hi) hm ht _ ⟨rfl, hlog⟩
    split at hrun
    · rename_i heq
      exact heq ▸ hrun.2.2
    · rename_i heq
      exact heq ▸ hrun

/-- Between calls every node describes every state with its id. Inside every
run, finished or not, the walk stands on the hash of its state at each loop
head, steps legally, and never finds a child that is not its leaf. -/
theorem transposition_sound (hE : LawfulEnvironment E A) (hS : SoundHash S) :
    (∀ s : Search A E F, Session (On S) s → ∀ n ∈ s.mcts.nodes, ∀ e ∈ S, hash e = n.id →
      (n.terminalState = true ↔ done e = true) ∧
      (done e = false → n.numActions = numActions e ∧ ∀ a ∈ n.validActions, a ∈ validActions e) ∧
      ∀ a c, n.child a = some c → c = hash (step e a)) ∧
    (∀ s : Search A E F, Attained (On S) s →
      (∀ nodeId game path, Event.loopHead nodeId game path ∈ s.log → nodeId = hash game) ∧
      (∀ game a, Event.envStep game a ∈ s.log → done game = false ∧ a ∈ validActions game) ∧
      ∀ existing leaf, Event.mismatchedIds existing leaf ∉ s.log) := by
  constructor
  · intro s hs n hn e he hid
    obtain ⟨hm, ht, _⟩ := session_truthful hE hS (fun _ hi => hi) hs
    have hd := ht n.id n (getNode_of_mem hm.indexed hn) e he hid
    exact ⟨by rw [hd.terminal], fun hrun => ⟨hd.num hrun, hd.valid hrun⟩, hd.child⟩
  · intro s hs
    have hlog := attained_sound hE hS (fun _ hi => hi) hs
    exact ⟨fun _ _ _ he => hlog _ he, fun _ _ he => hlog _ he, fun _ _ he => hlog _ he⟩

theorem transposition_sound_heapSearch :
    (∀ n ∈ heapSearch.mcts.nodes, ∀ a c, n.child a = some c →
      c = hash (step (⟨n.id⟩ : HeapGame) a)) ∧
    ∀ existing leaf, Event.mismatchedIds existing leaf ∉ heapSearch.log := by
  have hsession := heapSearch_session (On Set.univ) (Set.mem_univ _)
  have hsound := transposition_sound (F := ℚ) heapGame_lawful heapGame_soundHash
  exact ⟨fun n hn => (hsound.1 _ hsession n hn ⟨n.id⟩ (Set.mem_univ _) rfl).2.2,
    (hsound.2 _ (.between hsession)).2.2⟩

end Mcts.Transposition
