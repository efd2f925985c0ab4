import Mathlib.Algebra.Order.Ring.Rat
import Mathlib.Algebra.Field.Rat
import Mathlib.Data.List.Basic
import Mathlib.Order.Defs.LinearOrder
import Mcts.Rounding

/-!
The self-play pipeline as a loop over a state file. Promotions and evaluations
are committed to the database, the phase to the state file; a kill loses what the
process holds in memory and nothing else. The trainer and the evaluators are at
work between the commits and may leave any checkpoints and any solutions.
-/
namespace Mcts.Orchestrator

variable {T : Type}

/-- A row of `agents`; `T` is the type of time stamps. -/
structure Agent (T : Type) where
  agentId : ℤ
  checkpointPath : String
  promotedAt : Option T
deriving DecidableEq

structure Solution where
  agentId : ℤ
  environmentId : ℤ
  solutionDepth : Option ℚ
deriving DecidableEq

structure Evaluation (T : Type) where
  candidateAgentId : ℤ
  incumbentAgentId : ℤ
  candidateWins : ℕ
  incumbentWins : ℕ
  draws : ℕ
  promoted : Bool
  evaluatedAt : T
deriving DecidableEq

structure Database (T : Type) where
  agents : List (Agent T)
  solutions : List Solution
  evaluations : List (Evaluation T)

inductive Phase
  | gathering
  | training
  | evaluating
deriving DecidableEq

structure State where
  phase : Phase
  iteration : ℕ
  candidateId : Option ℤ
  candidatePath : Option String
deriving DecidableEq

def loadState (file : Option State) : State :=
  match file with
  | some state => state
  | none => ⟨.gathering, 0, none, none⟩

section Queries

/-- A row that `get_incumbent` may return: none was promoted later. -/
def IsIncumbent [LE T] (agents : List (Agent T)) (row : Agent T) : Prop :=
  row ∈ agents ∧ ∃ t ∈ row.promotedAt, ∀ other ∈ agents, ∀ t' ∈ other.promotedAt, t' ≤ t

instance [LinearOrder T] (agents : List (Agent T)) (row : Agent T) :
    Decidable (IsIncumbent agents row) :=
  inferInstanceAs (Decidable (_ ∧ _))

def promotedIds (agents : List (Agent T)) : List ℤ :=
  (agents.filter fun row => row.promotedAt.isSome).map (·.agentId)

/-- The last of the checkpoints with the highest id that is not promoted. -/
def getCandidate (agents : List (Agent T)) (checkpoints : List (ℤ × String)) :
    Option (ℤ × String) :=
  (checkpoints.filter fun c => c.1 ∉ promotedIds agents).foldl (fun best c =>
    match best with
    | some b => if b.1 ≤ c.1 then some c else some b
    | none => some c) none

/-- `INSERT OR IGNORE` on the agent's id. -/
def registerAgent (agentId : ℤ) (checkpointPath : String) (db : Database T) : Database T :=
  if agentId ∈ db.agents.map (·.agentId) then db
  else { db with agents := db.agents ++ [⟨agentId, checkpointPath, none⟩] }

def joinSolutions (solutions : List Solution) (candidateId incumbentId : ℤ) :
    List (Option ℚ × Option ℚ) :=
  (solutions.filter fun c => c.agentId = candidateId).flatMap fun c =>
    (solutions.filter fun i => i.agentId = incumbentId ∧ i.environmentId = c.environmentId).map
      fun i => (c.solutionDepth, i.solutionDepth)

def score (counts : ℕ × ℕ × ℕ) (row : Option ℚ × Option ℚ) : ℕ × ℕ × ℕ :=
  match row with
  | (some c, some i) =>
    if c < i then (counts.1 + 1, counts.2.1, counts.2.2)
    else if i < c then (counts.1, counts.2.1 + 1, counts.2.2)
    else (counts.1, counts.2.1, counts.2.2 + 1)
  | (some _, none) => (counts.1 + 1, counts.2.1, counts.2.2)
  | (none, some _) => (counts.1, counts.2.1 + 1, counts.2.2)
  | (none, none) => (counts.1, counts.2.1, counts.2.2 + 1)

/-- The quotient of two integers in Python: the double nearest to it. -/
def winRate (rows : List (Option ℚ × Option ℚ)) : ℚ :=
  if 0 < rows.length then Rounding.float 53 ((rows.foldl score (0, 0, 0)).1 / rows.length) else 0

def promoteAgent (agentId : ℤ) (now : T) (row : Agent T) : Agent T :=
  if row.agentId = agentId then { row with promotedAt := some now } else row

/-- One transaction: the evaluation is inserted and a better candidate promoted. -/
def promoteCandidate (candidateId incumbentId : ℤ) (promotionThreshold : ℚ) (now : T)
    (db : Database T) : Database T :=
  let rows := joinSolutions db.solutions candidateId incumbentId
  let counts := rows.foldl score (0, 0, 0)
  let promoted := decide (promotionThreshold < winRate rows)
  { db with
    agents := if promoted then db.agents.map (promoteAgent candidateId now) else db.agents
    evaluations := db.evaluations ++
      [⟨candidateId, incumbentId, counts.1, counts.2.1, counts.2.2, promoted, now⟩] }

end Queries

section Machine

/-- Where the process is between two durable steps, with the locals it needs. A
comparison also remembers the agents it started from, for the record only. -/
inductive Pc (T : Type)
  | loop (state : State)
  | registered (state : State) (candidateId : ℤ) (candidatePath : String)
  | evaluating (state : State) (candidateId incumbentId : ℤ)
  | compared (state : State) (before : List (Agent T))

/-- A completed evaluate phase: the candidate that the state file named, and the
agents as they were before the comparison. -/
structure Round (T : Type) where
  iteration : ℕ
  candidateId : Option ℤ
  agents : List (Agent T)

/-- Database, checkpoint directory, state file and process; `finished` is a record
of the completed evaluate phases that no step reads. -/
structure World (T : Type) where
  db : Database T
  checkpoints : List (ℤ × String)
  file : Option State
  pc : Pc T
  finished : List (Round T)

def World.save (w : World T) (state : State) : World T :=
  { w with file := some state, pc := .loop state }

def World.restart (w : World T) : World T := { w with pc := .loop (loadState w.file) }

/-- The round whose comparison is committed but not yet saved. -/
def World.openRound (w : World T) : List (Round T) :=
  match w.pc with
  | .compared state before => [⟨state.iteration, (loadState w.file).candidateId, before⟩]
  | _ => []

def World.rounds (w : World T) : List (Round T) := w.finished ++ w.openRound

variable [LE T]

inductive Step (promotionThreshold : ℚ) (w : World T) : World T → Prop
  | gather {state : State} {row : Agent T} :
      w.pc = .loop state → state.phase = .gathering → IsIncumbent w.db.agents row →
      Step promotionThreshold w (w.save { state with phase := .training })
  | train {state : State} (checkpoints : List (ℤ × String)) :
      w.pc = .loop state → state.phase = .training →
      Step promotionThreshold w { w with checkpoints := checkpoints }
  | register {state : State} {candidateId : ℤ} {candidatePath : String} :
      w.pc = .loop state → state.phase = .training →
      getCandidate w.db.agents w.checkpoints = some (candidateId, candidatePath) →
      Step promotionThreshold w { w with
        db := registerAgent candidateId candidatePath w.db
        pc := .registered state candidateId candidatePath }
  | record {state : State} {candidateId : ℤ} {candidatePath : String} :
      w.pc = .registered state candidateId candidatePath →
      Step promotionThreshold w (w.save { state with
        phase := .evaluating
        candidateId := some candidateId
        candidatePath := some candidatePath })
  | begin {state : State} {candidateId : ℤ} {row : Agent T} :
      w.pc = .loop state → state.phase = .evaluating → state.candidateId = some candidateId →
      IsIncumbent w.db.agents row →
      Step promotionThreshold w { w with pc := .evaluating state candidateId row.agentId }
  | evaluate {state : State} {candidateId incumbentId : ℤ} (solutions : List Solution) :
      w.pc = .evaluating state candidateId incumbentId →
      Step promotionThreshold w { w with db := { w.db with solutions := solutions } }
  | compare {state : State} {candidateId incumbentId : ℤ} (now : T) :
      w.pc = .evaluating state candidateId incumbentId →
      Step promotionThreshold w { w with
        db := promoteCandidate candidateId incumbentId promotionThreshold now w.db
        pc := .compared state w.db.agents }
  | finish {state : State} {before : List (Agent T)} :
      w.pc = .compared state before →
      Step promotionThreshold w { w.save ⟨.gathering, state.iteration + 1, none, none⟩ with
        finished := w.finished ++ w.openRound }

/-- The worlds reached from a start, with the number of kills that came between the
commit of a comparison and the saving of the state after it. -/
inductive Reached (promotionThreshold : ℚ) (start : World T) : ℕ → World T → Prop
  | start : Reached promotionThreshold start 0 start
  | step {lost : ℕ} {w w' : World T} :
      Reached promotionThreshold start lost w → Step promotionThreshold w w' →
      Reached promotionThreshold start lost w'
  | kill {lost : ℕ} {w : World T} :
      Reached promotionThreshold start lost w →
      Reached promotionThreshold start (lost + w.openRound.length) w.restart

structure Fresh (w : World T) : Prop where
  file : w.file = none
  pc : w.pc = .loop (loadState none)
  finished : w.finished = []

end Machine

end Mcts.Orchestrator
