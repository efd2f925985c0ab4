import Mcts.Promotions

/-!
One step of the pipeline. What the process holds agrees with the state file, a step
adds a row exactly when it compares, and the candidate that the state file names
stays unpromoted until it has been compared.
-/
namespace Mcts.Rounds

open Orchestrator Promotions

variable {T : Type} [LE T]

section Steps

variable {threshold : ℚ} {w w' : World T}

def InStep (w : World T) : Prop :=
  match w.pc with
  | .loop state => loadState w.file = state
  | .registered state candidateId _ => loadState w.file = state ∧ state.phase = .training ∧
      candidateId ∈ w.db.agents.map (·.agentId)
  | .evaluating state candidateId incumbentId => loadState w.file = state ∧
      state.phase = .evaluating ∧ state.candidateId = some candidateId ∧
      ∃ row, IsIncumbent w.db.agents row ∧ row.agentId = incumbentId
  | .compared state _ => loadState w.file = state ∧ state.phase = .evaluating

theorem inStep_step (hw : InStep w) (h : Step threshold w w') : InStep w' := by
  cases h with
  | gather hpc hphase hrow => exact rfl
  | train checkpoints hpc hphase => simpa [InStep, hpc] using hw
  | register hpc hphase hcandidate =>
    simp only [InStep, hpc] at hw
    exact ⟨hw, hphase, mem_registerAgent _ w.db⟩
  | record hpc => exact rfl
  | begin hpc hphase hcandidate hrow =>
    simp only [InStep, hpc] at hw
    exact ⟨hw, hphase, hcandidate, _, hrow, rfl⟩
  | evaluate solutions hpc => simpa [InStep, hpc] using hw
  | compare now hpc =>
    simp only [InStep, hpc] at hw
    exact ⟨hw.1, hw.2.1⟩
  | finish hpc => exact rfl

/-- A step compares nothing and adds no row, or it compares and adds one. -/
theorem step_rounds (hw : InStep w) (h : Step threshold w w') :
    (w'.db.evaluations = w.db.evaluations ∧ w'.rounds = w.rounds) ∨
    ∃ state candidateId incumbentId row, w.pc = .evaluating state candidateId incumbentId ∧
      w'.db.evaluations = w.db.evaluations ++ [row] ∧
      row.candidateAgentId = candidateId ∧ row.incumbentAgentId = incumbentId ∧
      w'.rounds = w.rounds ++ [⟨state.iteration, some candidateId, w.db.agents⟩] := by
  cases h with
  | gather hpc hphase hrow =>
    left
    simp [World.rounds, World.openRound, World.save, hpc]
  | train checkpoints hpc hphase =>
    left
    simp [World.rounds, World.openRound, hpc]
  | register hpc hphase hcandidate =>
    left
    refine ⟨?_, by simp [World.rounds, World.openRound, hpc]⟩
    unfold registerAgent
    split <;> rfl
  | record hpc =>
    left
    simp [World.rounds, World.openRound, World.save, hpc]
  | begin hpc hphase hcandidate hrow =>
    left
    simp [World.rounds, World.openRound, hpc]
  | evaluate solutions hpc =>
    left
    simp [World.rounds, World.openRound, hpc]
  | compare now hpc =>
    right
    simp only [InStep, hpc] at hw
    refine ⟨_, _, _, _, hpc, rfl, rfl, rfl, ?_⟩
    simp [World.rounds, World.openRound, hpc, hw.1, hw.2.2.1]
  | finish hpc =>
    left
    simp [World.rounds, World.openRound, World.save, hpc]

/-- The state file counts the completed rounds. -/
theorem iteration_step (hw : InStep w) (hcount : (loadState w.file).iteration = w.finished.length)
    (h : Step threshold w w') : (loadState w'.file).iteration = w'.finished.length := by
  cases h with
  | gather hpc hphase hrow =>
    simp only [InStep, hpc] at hw
    simpa [World.save, loadState, ← hw] using hcount
  | record hpc =>
    simp only [InStep, hpc] at hw
    simpa [World.save, loadState, ← hw.1] using hcount
  | finish hpc =>
    simp only [InStep, hpc] at hw
    simpa [World.save, loadState, World.openRound, hpc, ← hw.1] using hcount
  | train | register | begin | evaluate | compare => exact hcount

end Steps

section Unpromoted

variable {threshold : ℚ} {w w' : World T}

/-- The candidate of the iteration has not been promoted, unless it has just been
compared. -/
def Untried (w : World T) : Prop :=
  match w.pc with
  | .registered _ candidateId _ => ∀ t, ¬Promoted w.db.agents candidateId t
  | .compared _ _ => True
  | _ => ∀ c, (loadState w.file).phase = .evaluating →
      (loadState w.file).candidateId = some c → ∀ t, ¬Promoted w.db.agents c t

theorem untried_step (hu : Untried w) (h : Step threshold w w') :
    Untried w' := by
  cases h with
  | gather hpc hphase hrow => simp [Untried, World.save, loadState]
  | train checkpoints hpc hphase => simpa [Untried, hpc] using hu
  | register hpc hphase hcandidate =>
    intro t ht
    exact getCandidate_unpromoted hcandidate t ((promoted_registerAgent _ w.db _ t).mp ht)
  | record hpc =>
    simp only [Untried, hpc] at hu
    intro c hphase hc
    obtain rfl : _ = c := Option.some.inj hc
    exact hu
  | begin hpc hphase hcandidate hrow => simpa [Untried, hpc] using hu
  | evaluate solutions hpc => simpa [Untried, hpc] using hu
  | compare now hpc => trivial
  | finish hpc => simp [Untried, World.save, loadState]

/-- A kill that loses no comparison leaves the candidate as it was. -/
theorem untried_restart (hw : InStep w) (hu : Untried w) (hopen : w.openRound = []) :
    Untried w.restart := by
  intro c hphase hc
  rcases hpc : w.pc with state | ⟨state, candidateId, path⟩ | ⟨state, candidateId, incumbentId⟩ |
    ⟨state, before⟩
  · simp only [Untried, hpc] at hu
    exact hu c hphase hc
  · simp only [InStep, hpc] at hw
    have htraining : (loadState w.file).phase = .training := by rw [hw.1]; exact hw.2.1
    exact absurd (hphase.symm.trans htraining) (by decide)
  · simp only [Untried, hpc] at hu
    exact hu c hphase hc
  · simp [World.openRound, hpc] at hopen

end Unpromoted

end Mcts.Rounds
