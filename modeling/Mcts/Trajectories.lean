import Mcts.Episodes

/-!
`write_episode`: where the records of an episode go. Trajectories are pretraining
data and meant to be wins, but the writer looks at the sign of the score only,
and a hindsight score is positive for a partial solution the heuristic would
have needed more depth for.
-/
namespace Mcts.Trajectories

open Episodes

structure ResignationRecord (F : Type) where
  gatherId : ℕ
  h : ℕ
  w : ℕ
  numAncillas : ℕ
  numObjectives : ℕ
  achievedObjectives : ℕ
  referenceDepth : F
  finalDepth : F
  finalScore : F
  done : Bool
  resignAllowed : Bool
  resignationEnabled : Bool
  resigned : Bool
  resignThresholdInUse : F
  resignConsecutiveMovesInUse : ℕ
  numSteps : ℕ
  qPerStep : List F
  overSolverPerStep : List Bool

structure TrajectoryRecord (B F : Type) where
  height : ℕ
  width : ℕ
  numAncillas : ℕ
  board : B
  validActions : List ℕ
  edgeVisits : List (ℕ × ℕ)
  reward : F

structure TrainingRecord (B F : Type) where
  height : ℕ
  width : ℕ
  numAncillas : ℕ
  board : B
  validActions : List ℕ
  edgeVisits : List (ℕ × ℕ)
  reward : F
  rewardKind : RewardKind
  achievedObjectives : ℕ
  reverseCurriculum : Bool
  gold : Bool

/-- The lines one call appends to each of the gatherer's files. -/
structure Written (B F : Type) where
  resignationLog : List (ResignationRecord F)
  trajectory : List (TrajectoryRecord B F)
  output : List (TrainingRecord B F)
  gold : List (TrainingRecord B F)

variable {G P B F R : Type} [Field F] [LinearOrder F]

/-- Near-one-hot visits, and a value that decays with the steps still to come. -/
def trajectoryRecord (depth step : ℕ) (s : StepRecord B) : TrajectoryRecord B F :=
  let nOthers := s.validActions.length - 1
  let winnerWeight := if 0 < nOthers then nOthers * 99 else 1
  let stepsRemaining := depth - step
  { height := s.height
    width := s.width
    numAncillas := s.numAncillas
    board := s.board
    validActions := s.validActions
    edgeVisits := s.validActions.dedup.map fun va =>
      (va, if va = s.action then winnerWeight else 1)
    reward := if 2 < stepsRemaining then min (2.0 * 0.80 ^ stepsRemaining) 2.0 - 1 else 1 }

def trainingRecord (o : EpisodeOutcome B F) (isReverse gold : Bool) (s : SearchRecord B) :
    TrainingRecord B F where
  height := o.height
  width := o.width
  numAncillas := s.numAncillas
  board := s.board
  validActions := s.validActions
  edgeVisits := s.edgeVisits
  reward := o.score
  rewardKind := o.rewardKind
  achievedObjectives := o.achievedObjectives
  reverseCurriculum := isReverse
  gold := gold

def resignationRecord (g : Gatherer F) (o : EpisodeOutcome B F) : ResignationRecord F where
  gatherId := g.gatherId
  h := o.height
  w := o.width
  numAncillas := o.numAncillas
  numObjectives := o.numObjectives
  achievedObjectives := o.achievedObjectives
  referenceDepth := o.referenceDepth
  finalDepth := o.solutionDepth
  finalScore := o.score
  done := o.done
  resignAllowed := o.resignAllowed
  resignationEnabled := o.resignationEnabled
  resigned := o.resigned
  resignThresholdInUse := g.resignValueThreshold
  resignConsecutiveMovesInUse := g.resignConsecutiveMoves
  numSteps := o.qTrace.length
  qPerStep := o.qTrace
  overSolverPerStep := o.overSolverTrace

def trajectory (g : Gatherer F) (o : EpisodeOutcome B F) : List (TrajectoryRecord B F) :=
  if 0 < o.score then
    if g.trajectoryDir.isSome then
      o.allStepsData.mapIdx fun step s => trajectoryRecord o.allStepsData.length step s
    else []
  else []

/-- Whether the training records are skipped: a saturated hindsight score always,
a floored episode by chance. Only the second draws a number. -/
def skips (g : Gatherer F) (draw : R → F × R) (o : EpisodeOutcome B F) (r : R) : Bool × R :=
  if o.rewardKind = .her ∧ o.score ≤ -0.999 then (true, r)
  else if o.rewardKind = .floor ∧ g.floorKeepFraction < 1 then
    let (u, r) := draw r
    (decide (g.floorKeepFraction ≤ u), r)
  else (false, r)

def banksGold (g : Gatherer F) (o : EpisodeOutcome B F) (isReverse : Bool) : Bool :=
  g.goldShardDir.isSome && o.done && !isReverse && decide (g.goldMinReward ≤ o.score) &&
    decide (g.goldMinLen ≤ o.referenceActionCount)

/-- `write_episode`: the lines written, the statistics returned and the draws made. -/
def writeEpisode (g : Gatherer F) (draw : R → F × R) (o : EpisodeOutcome B F) (isReverse : Bool)
    (r : R) : Written B F × (F × F × Bool) × R :=
  let resignationLog := if g.resignationLogDir.isSome then [resignationRecord g o] else []
  let (skipped, r) := skips g draw o r
  let output := if skipped then [] else o.tempData.map (trainingRecord o isReverse false)
  let gold := if !skipped && banksGold g o isReverse then
      o.tempData.map (trainingRecord o isReverse true)
    else []
  (⟨resignationLog, trajectory g o, output, gold⟩,
    (o.solutionDepth, o.referenceDepth, o.done), r)

theorem writeEpisode_trajectory (g : Gatherer F) (draw : R → F × R) (o : EpisodeOutcome B F)
    (isReverse : Bool) (r : R) :
    (writeEpisode g draw o isReverse r).1.trajectory = trajectory g o := rfl

theorem trajectory_ne_nil (g : Gatherer F) (o : EpisodeOutcome B F) :
    trajectory g o ≠ [] ↔ 0 < o.score ∧ g.trajectoryDir.isSome = true ∧ o.allStepsData ≠ [] := by
  unfold trajectory
  by_cases hscore : 0 < o.score
  · by_cases hdir : g.trajectoryDir.isSome = true
    · simp [hscore, hdir]
    · simp [hscore, hdir]
  · simp [hscore]

section Reals

variable {G P B R : Type} [Tilers G P B ℝ]

/-- The episode stopped short, on the hindsight branch, and shallower than the
margined depth of the heuristic on what it did achieve. -/
def Overpraised (g : Gatherer ℝ) (game final : G) (isReverse : Bool) : Prop :=
  isReverse = false ∧ ¬ (g.cuspReward = true ∧ g.cuspFrontier < numObjectives game) ∧
  ∃ herEnv plan solved, achievedGoalEnv game final = some herEnv ∧
    solve herEnv true = (some plan, solved) ∧
    depth final < (1 + g.herRewardMargin) * depth solved

theorem score_pos_iff (g : Gatherer ℝ) (game final : G) (referenceDepth : ℝ) (isReverse : Bool)
    (hT : 0 < g.rewardSaturationTemperature) (hdepth : ∀ e : G, 0 ≤ depth e)
    (hdone : done final = false) :
    0 < (g.score game final referenceDepth isReverse).1 ↔ Overpraised g game final isReverse := by
  have hfloor : ¬ (0 : ℝ) < -1 := by norm_num
  unfold Gatherer.score Overpraised
  rw [if_neg (by simp [hdone])]
  cases hrev : isReverse with
  | true =>
    have hpartial := cuspPartialReward_nonpos (F := ℝ) (numObjectives game - numObjectives final)
      (numObjectives game) g.cuspFrontier g.cuspMargin
    rw [if_pos rfl]
    dsimp only
    split
    · simp
    · simpa using hpartial
  | false =>
    rw [if_neg (by simp)]
    by_cases hcusp : g.cuspReward = true ∧ g.cuspFrontier < numObjectives game
    · have hfactor := cuspFactorReward_nonpos (F := ℝ) (factorProgress game final).1
        (factorProgress game final).2 (numObjectives game) g.cuspFrontier g.cuspMargin
      rw [if_pos (by simp [hcusp])]
      dsimp only
      split
      · simp [hcusp]
      · simpa [hcusp] using hfactor
    · rw [if_neg (by simpa using hcusp)]
      cases hgoal : achievedGoalEnv game final with
      | none => simp
      | some herEnv =>
        rcases hsolve : solve herEnv true with ⟨_ | plan, solved⟩
        · simp [hsolve]
        · simp only [hsolve]
          rw [saturatedMargin_pos_iff hT (hdepth solved)]
          constructor
          · intro hlt
            exact ⟨trivial, hcusp, herEnv, plan, solved, rfl, hsolve, hlt⟩
          · intro ⟨_, _, her', plan', solved', her_eq, hsolve', hlt⟩
            obtain rfl : herEnv = her' := Option.some.inj her_eq
            rw [hsolve] at hsolve'
            obtain ⟨rfl, rfl⟩ : plan = plan' ∧ solved = solved' := by simpa using hsolve'
            exact hlt

/-- Exactly when the trajectory file gets wins only. -/
theorem trajectory_wins_iff (g : Gatherer ℝ) (pl : Player G ℝ R) (startEnv : G)
    (referenceOverride : Option (ℝ × ℕ)) (r r' rw : R) (o : EpisodeOutcome B ℝ) (isReverse : Bool)
    (hT : 0 < g.rewardSaturationTemperature) (hdepth : ∀ e : G, 0 ≤ depth e)
    (hrun : g.runEpisodeFrom pl startEnv referenceOverride r = some (o, r')) :
    ∃ reference allowed p,
      g.playEpisode pl (setCultivationTime startEnv 10) referenceOverride r =
        some (reference, allowed, p, r') ∧
      (((writeEpisode g pl.draw o isReverse rw).1.trajectory ≠ [] → o.done = true) ↔
        (g.trajectoryDir = none ∨ p.allStepsData = [] ∨
          done (setCultivationTime p.env 10) = true ∨
          ¬ Overpraised g (setCultivationTime startEnv 10) (setCultivationTime p.env 10)
            referenceOverride.isSome)) := by
  obtain ⟨reference, allowed, p, hplay, rfl⟩ := Gatherer.runEpisodeFrom_some hrun
  refine ⟨reference, allowed, p, hplay, ?_⟩
  rw [writeEpisode_trajectory, trajectory_ne_nil]
  cases hdone : done (setCultivationTime p.env 10) with
  | true => simp [hdone]
  | false =>
    have hscore := score_pos_iff g (setCultivationTime startEnv 10) (setCultivationTime p.env 10)
      reference.1 referenceOverride.isSome hT hdepth hdone
    rw [Gatherer.outcome_score, Gatherer.outcome_done, Gatherer.outcome_allStepsData, hscore,
      hdone, ← Option.not_isSome_iff_eq_none]
    simp only [Bool.false_eq_true, imp_false, false_or]
    tauto

/-- Merges one of two factors and runs out of actions, with margin 1/2 for hindsight. -/
noncomputable def generous : Gatherer ℝ where
  batchSize := 8
  mctsSteps := 100
  fastSteps := 20
  pFullSearch := 0.25
  maxActions := some 1
  maxActionMultiplier := 1.2
  dirichletEpsilon := 0
  lookahead := 1
  gatherId := 0
  rewardSaturationTemperature := 0.3
  resignValueThreshold := -0.9
  resignConsecutiveMoves := 0
  noResignRate := 0.1
  floorKeepFraction := 1
  herRewardMargin := 0.5
  trajectoryDir := some "trajectories"
  resignationLogDir := none
  reverseCurriculumMaxProbes := 5
  reverseCurriculumKStartActions := 16
  goldShardDir := none
  goldMinLen := 0
  goldMinReward := 0
  cuspReward := false
  cuspFrontier := 2
  cuspMargin := 2

noncomputable def patient : Gatherer ℝ := { generous with maxActions := some 3 }

section Patient

variable (d : ℝ) (left step : ℕ) (p : Play Job Unit ℝ) (a : ℕ) (r : List ℕ)

/-- A patient gatherer plays the next action of the script. -/
theorem patient_turn : ∃ p' : Play Job Unit ℝ,
    patient.turn scripted d false step p (a :: r) =
      some (if done (Tilers.step p.env a) then (p', a :: r, false) else (p', r, true)) ∧
    p'.env = Tilers.step p.env a ∧
    p'.allStepsData.map StepRecord.action = p.allStepsData.map StepRecord.action ++ [a] := by
  cases hdone : done (Tilers.step p.env a)
  all_goals
    simp [Gatherer.turn, Gatherer.resignationEnabled, patient, generous, scripted, encode, decode,
      validActions, finishCultivating, hdone]

theorem patient_goesOn (h : done (Tilers.step p.env a) = false) :
    ∃ p' : Play Job Unit ℝ,
      patient.turns scripted d false (left + 1) step p (a :: r) =
        patient.turns scripted d false left (step + 1) p' r ∧
      p'.env = Tilers.step p.env a ∧
      p'.allStepsData.map StepRecord.action = p.allStepsData.map StepRecord.action ++ [a] := by
  obtain ⟨p', hturn, hstep⟩ := patient_turn d step p a r
  rw [h] at hturn
  refine ⟨p', ?_, hstep⟩
  rw [Gatherer.turns, hturn]
  rfl

theorem patient_ends (h : done (Tilers.step p.env a) = true) :
    ∃ p' : Play Job Unit ℝ,
      patient.turns scripted d false (left + 1) step p (a :: r) = some (p', a :: r) ∧
      p'.env = Tilers.step p.env a ∧
      p'.allStepsData.map StepRecord.action = p.allStepsData.map StepRecord.action ++ [a] := by
  obtain ⟨p', hturn, hstep⟩ := patient_turn d step p a r
  rw [h] at hturn
  refine ⟨p', ?_, hstep⟩
  rw [Gatherer.turns, hturn]
  rfl

end Patient

/-- However actions are selected, as long as the one turn merges. -/
theorem generous_play {select : Searched ℝ → Job → ℕ → List ℕ → Option (ℕ × List ℕ)}
    {r : List ℕ} (h : select ⟨0, [1], none⟩ ⟨2, 0⟩ 0 [0] = some (0, r)) :
    ∃ reference allowed p,
      generous.playEpisode { scripted with selectAction := select } (⟨2, 0⟩ : Job) none [0] =
        some (reference, allowed, p, r.tail) ∧ p.env = ⟨1, 1⟩ ∧ p.allStepsData ≠ [] := by
  simp [Gatherer.playEpisode, Gatherer.reference, Gatherer.solveWithHeuristic, Gatherer.turns,
    Gatherer.turn, Gatherer.actionBudget, Gatherer.resignationEnabled, generous, scripted, solve,
    encode, decode, validActions, Tilers.step, finishCultivating, done, h]

theorem generous_run {select : Searched ℝ → Job → ℕ → List ℕ → Option (ℕ × List ℕ)}
    {r : List ℕ} (h : select ⟨0, [1], none⟩ ⟨2, 0⟩ 0 [0] = some (0, r)) :
    ∃ o, generous.runEpisodeFrom { scripted with selectAction := select } (⟨2, 0⟩ : Job) none [0] =
      some (o, r.tail) ∧ o.done = false ∧ o.allStepsData ≠ [] ∧ 0 < o.score := by
  obtain ⟨reference, allowed, p, hplay, henv, hsteps⟩ := generous_play h
  have hT : 0 < generous.rewardSaturationTemperature := by norm_num [generous]
  have hdepth : ∀ e : Job, (0 : ℝ) ≤ depth e := fun e => Nat.cast_nonneg e.depth
  refine ⟨generous.outcome ⟨2, 0⟩ false reference allowed p, ?_, ?_, hsteps, ?_⟩
  · simp only [Gatherer.runEpisodeFrom]
    rw [show setCultivationTime (⟨2, 0⟩ : Job) 10 = ⟨2, 0⟩ from rfl, hplay]
    rfl
  · rw [Gatherer.outcome_done, henv]
    rfl
  · rw [Gatherer.outcome_score, henv, score_pos_iff _ _ _ _ _ hT hdepth rfl]
    refine ⟨rfl, by simp [generous], ⟨1, 0⟩, [0], ⟨0, 1⟩, rfl, rfl, ?_⟩
    norm_num [generous, depth, setCultivationTime]

/-- Half of a job is written as a winning trajectory. -/
theorem unfinished_written :
    ∃ o, generous.runEpisodeFrom scripted (⟨2, 0⟩ : Job) none [0] = some (o, []) ∧
      o.done = false ∧ (writeEpisode generous scripted.draw o false []).1.trajectory ≠ [] := by
  obtain ⟨o, hrun, hdone, hsteps, hscore⟩ := generous_run (rfl : scripted.selectAction _ _ _ _ = _)
  refine ⟨o, hrun, hdone, ?_⟩
  rw [writeEpisode_trajectory, trajectory_ne_nil]
  exact ⟨hscore, rfl, hsteps⟩

/-- The rule at that run. -/
theorem trajectory_wins_iff_generous :
    ∃ (o : EpisodeOutcome Unit ℝ) (p : Play Job Unit ℝ),
      ((writeEpisode generous scripted.draw o false []).1.trajectory ≠ [] → o.done = true) ↔
      (generous.trajectoryDir = none ∨ p.allStepsData = [] ∨
        done (setCultivationTime p.env 10) = true ∨
        ¬ Overpraised generous (setCultivationTime (⟨2, 0⟩ : Job) 10)
          (setCultivationTime p.env 10) false) := by
  obtain ⟨o, hrun, _⟩ := generous_run (rfl : scripted.selectAction _ _ _ _ = _)
  have hT : 0 < generous.rewardSaturationTemperature := by norm_num [generous]
  have hdepth : ∀ e : Job, (0 : ℝ) ≤ depth e := fun e => Nat.cast_nonneg e.depth
  obtain ⟨reference, allowed, p, hplay, hiff⟩ :=
    trajectory_wins_iff generous scripted ⟨2, 0⟩ none [0] [] [] o false hT hdepth hrun
  exact ⟨o, p, hiff⟩

end Reals

end Mcts.Trajectories
