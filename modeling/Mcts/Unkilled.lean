import Mcts.Rounds
import Mathlib.Logic.Relation

/-!
A run without kills keeps up with a killed one. It waits at its last durable step
while the other works and may be killed, and takes a whole phase at once when the
other has saved or committed its result.
-/
namespace Mcts.Unkilled

open Orchestrator Promotions Rounds

variable {T : Type} [LE T]

variable {threshold : ℚ} {v w w' : World T}

/-- The same durable record: rows, state file, promotions, and the candidates of the
rounds. -/
structure Mirrors (v w : World T) : Prop where
  evaluations : v.db.evaluations = w.db.evaluations
  file : v.file = w.file
  promotions : ∀ i t, Promoted v.db.agents i t ↔ Promoted w.db.agents i t
  rounds : v.rounds.map (fun round => (round.iteration, round.candidateId)) =
    w.rounds.map fun round => (round.iteration, round.candidateId)

/-- `v` waits at its last durable step until `w` has saved or committed the next. -/
structure Simulates (v w : World T) : Prop extends Mirrors v w where
  listed : ∀ c, (loadState w.file).candidateId = some c →
    c ∈ v.db.agents.map (·.agentId) ∧ c ∈ w.db.agents.map (·.agentId)
  held : match w.pc with
    | .compared state _ => ∃ before, v.pc = .compared state before
    | _ => v.pc = .loop (loadState w.file)

theorem simulates_gather {state : State} {row : Agent T} (hs : Simulates v w) (hw : InStep w)
    (hpc : w.pc = .loop state) (hphase : state.phase = .gathering)
    (hrow : IsIncumbent w.db.agents row) :
    ∃ v', Relation.ReflTransGen (Step threshold) v v' ∧
      Simulates v' (w.save { state with phase := .training }) := by
  simp only [InStep, hpc] at hw
  have hheld := hs.held
  simp only [hpc, hw] at hheld
  obtain ⟨row', hrow', -⟩ := isIncumbent_transfer hrow fun i t => (hs.promotions i t).symm
  refine ⟨v.save { state with phase := .training },
    .single (.gather hheld hphase hrow'), ⟨hs.evaluations, rfl, hs.promotions, ?_⟩, ?_, rfl⟩
  · have hrounds := hs.rounds
    simpa [World.rounds, World.openRound, World.save, hpc, hheld] using hrounds
  · have hlisted := hs.listed
    rw [hw] at hlisted
    exact hlisted

theorem simulates_record {state : State} {candidateId : ℤ} {path : String}
    (hs : Simulates v w) (hw : InStep w) (hu : Untried w)
    (hpc : w.pc = .registered state candidateId path) :
    ∃ v', Relation.ReflTransGen (Step threshold) v v' ∧
      Simulates v' (w.save { state with
        phase := .evaluating, candidateId := some candidateId, candidatePath := some path }) := by
  simp only [InStep, hpc] at hw
  simp only [Untried, hpc] at hu
  have hheld := hs.held
  simp only [hpc, hw.1] at hheld
  have hpicked : getCandidate v.db.agents [(candidateId, path)] = some (candidateId, path) :=
    getCandidate_single fun t ht => hu t ((hs.promotions candidateId t).mp ht)
  let trained : World T := { v with checkpoints := [(candidateId, path)] }
  let registered : World T := { trained with
    db := registerAgent candidateId path trained.db, pc := .registered state candidateId path }
  refine ⟨registered.save { state with
      phase := .evaluating, candidateId := some candidateId, candidatePath := some path },
    ((Relation.ReflTransGen.single (.train _ hheld hw.2.1)).tail
      (.register (w := trained) hheld hw.2.1 hpicked)).tail (.record rfl),
    ⟨?_, rfl, ?_, ?_⟩, ?_, rfl⟩
  · show (registerAgent candidateId path v.db).evaluations = w.db.evaluations
    rw [registerAgent_evaluations, hs.evaluations]
  · intro i t
    exact (promoted_registerAgent path v.db i t).trans (hs.promotions i t)
  · have hrounds := hs.rounds
    simpa [World.rounds, World.openRound, World.save, registered, trained, hpc, hheld]
      using hrounds
  · intro c hc
    obtain rfl : candidateId = c := Option.some.inj hc
    exact ⟨mem_registerAgent path v.db, hw.2.2⟩

/-- From its last durable step `v` runs the whole evaluate phase at once, with the
solutions that `w` has. -/
theorem simulates_compare {state : State} {candidateId incumbentId : ℤ} (now : T)
    (hs : Simulates v w) (hw : InStep w) (hpc : w.pc = .evaluating state candidateId incumbentId) :
    ∃ v', Relation.ReflTransGen (Step threshold) v v' ∧
      Simulates v' { w with
        db := promoteCandidate candidateId incumbentId threshold now w.db
        pc := .compared state w.db.agents } := by
  simp only [InStep, hpc] at hw
  obtain ⟨hfile, hphase, hcandidate, row, hrow, rfl⟩ := hw
  have hheld := hs.held
  simp only [hpc, hfile] at hheld
  obtain ⟨row', hrow', hid⟩ := isIncumbent_transfer hrow fun i t => (hs.promotions i t).symm
  obtain ⟨hlistedv, hlistedw⟩ := hs.listed candidateId (by rw [hfile]; exact hcandidate)
  let begun : World T := { v with pc := .evaluating state candidateId row.agentId }
  let solved : World T := { begun with db := { v.db with solutions := w.db.solutions } }
  have hbegin : Step threshold v begun := by
    have h : Step threshold v { v with pc := .evaluating state candidateId row'.agentId } :=
      .begin hheld hphase hcandidate hrow'
    rwa [hid] at h
  refine ⟨{ solved with
      db := promoteCandidate candidateId row.agentId threshold now solved.db
      pc := .compared state v.db.agents },
    ((Relation.ReflTransGen.single hbegin).tail
      (.evaluate (w := begun) w.db.solutions rfl)).tail (.compare now rfl),
    ⟨promoteCandidate_evaluations rfl hs.evaluations, hs.file, ?_, ?_⟩, ?_, v.db.agents, rfl⟩
  · exact promoted_promoteCandidate rfl hlistedv hlistedw hs.promotions
  · have hrounds := hs.rounds
    simp only [World.rounds, World.openRound, hpc, hheld, List.append_nil] at hrounds
    simp [World.rounds, World.openRound, solved, begun, hrounds, hs.file]
  · intro c hc
    obtain ⟨hv, hw⟩ := hs.listed c hc
    exact ⟨by rw [promoteCandidate_agentIds]; exact hv, by rw [promoteCandidate_agentIds]; exact hw⟩

theorem simulates_finish {state : State} {before : List (Agent T)} (hs : Simulates v w)
    (hpc : w.pc = .compared state before) :
    ∃ v', Relation.ReflTransGen (Step threshold) v v' ∧
      Simulates v' { w.save ⟨.gathering, state.iteration + 1, none, none⟩ with
        finished := w.finished ++ w.openRound } := by
  have hheld := hs.held
  simp only [hpc] at hheld
  obtain ⟨before', hheld⟩ := hheld
  refine ⟨_, .single (.finish hheld), ⟨hs.evaluations, rfl, hs.promotions, ?_⟩, ?_, rfl⟩
  · have hrounds := hs.rounds
    simpa [World.rounds, World.openRound, World.save, hpc, hheld] using hrounds
  · intro c hc
    simp [World.save, loadState] at hc

/-- Every step that neither saves nor compares is matched by waiting. -/
theorem simulates_step (hs : Simulates v w) (hw : InStep w) (hu : Untried w)
    (h : Step threshold w w') :
    ∃ v', Relation.ReflTransGen (Step threshold) v v' ∧ Simulates v' w' := by
  have hheld := hs.held
  have hrounds := hs.rounds
  cases h with
  | gather hpc hphase hrow => exact simulates_gather hs hw hpc hphase hrow
  | record hpc => exact simulates_record hs hw hu hpc
  | compare now hpc => exact simulates_compare now hs hw hpc
  | finish hpc => exact simulates_finish hs hpc
  | train checkpoints hpc hphase =>
    simp only [hpc] at hheld
    refine ⟨v, .refl, ⟨hs.evaluations, hs.file, hs.promotions, ?_⟩, hs.listed, ?_⟩
    · simpa [World.rounds, World.openRound, hpc] using hrounds
    · simpa only [hpc] using hheld
  | register hpc hphase hcandidate =>
    simp only [hpc] at hheld
    refine ⟨v, .refl, ⟨?_, hs.file, ?_, ?_⟩, ?_, hheld⟩
    · exact hs.evaluations.trans (registerAgent_evaluations _ w.db).symm
    · intro i t
      exact (hs.promotions i t).trans (promoted_registerAgent _ w.db i t).symm
    · simpa [World.rounds, World.openRound, hpc] using hrounds
    · intro c hc
      obtain ⟨hv, hw⟩ := hs.listed c hc
      exact ⟨hv, mem_registerAgent_of_mem _ w.db hw⟩
  | begin hpc hphase hcandidate hrow =>
    simp only [hpc] at hheld
    refine ⟨v, .refl, ⟨hs.evaluations, hs.file, hs.promotions, ?_⟩, hs.listed, hheld⟩
    simpa [World.rounds, World.openRound, hpc] using hrounds
  | evaluate solutions hpc =>
    simp only [hpc] at hheld
    refine ⟨v, .refl, ⟨hs.evaluations, hs.file, hs.promotions, ?_⟩, hs.listed, ?_⟩
    · simpa [World.rounds, World.openRound, hpc] using hrounds
    · simpa only [hpc] using hheld

omit [LE T] in
theorem simulates_restart (hs : Simulates v w) (hopen : w.openRound = []) :
    Simulates v w.restart := by
  have hheld : v.pc = .loop (loadState w.file) := by
    have h := hs.held
    rcases hpc : w.pc with state | ⟨state, candidateId, path⟩ |
      ⟨state, candidateId, incumbentId⟩ | ⟨state, before⟩
    · simpa only [hpc] using h
    · simpa only [hpc] using h
    · simpa only [hpc] using h
    · simp [World.openRound, hpc] at hopen
  have hrounds : w.restart.rounds = w.rounds := by
    rw [World.rounds, World.rounds, hopen]
    rfl
  exact ⟨⟨hs.evaluations, hs.file, hs.promotions, hrounds ▸ hs.rounds⟩, hs.listed, hheld⟩

end Mcts.Unkilled
