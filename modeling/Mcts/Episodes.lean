import Mathlib.Algebra.Order.Floor.Semiring
import Mathlib.Algebra.Order.Field.Basic
import Mathlib.Analysis.SpecialFunctions.Artanh
import Mathlib.Analysis.SpecialFunctions.Trigonometric.DerivHyp

/-!
One self-play episode of the gatherer: `run_episode_from`. The tiling
environment and its heuristic solver are external, so they are a class; what a
turn's search and the random draws come to is left to a player. The four reward
branches are kept apart from the loop that leads to the final position.
-/
namespace Mcts.Episodes

/-- The one reward function that is not a field operation. -/
class Saturation (F : Type) where
  tanh : F → F

export Saturation (tanh)

noncomputable instance : Saturation ℝ where
  tanh := Real.tanh

/-- What gatherer and evaluator use of the `tilers` crate. Planner actions are
`P`, observation boards `B`; action ids are the u16 of `rl::encode`. -/
class Tilers (G : Type) (P B F : outParam Type) where
  done : G → Bool
  depth : G → F
  numObjectives : G → ℕ
  numAncillas : G → ℕ
  height : G → ℕ
  width : G → ℕ
  factorProgress : G → G → ℕ × ℕ
  achievedGoalEnv : G → G → Option G
  validActions : G → List P
  encode : G → P → Option ℕ
  decode : G → ℕ → Option P
  step : G → P → G
  finishCultivating : G → G
  setCultivationTime : G → ℕ → G
  buildObs : G → ℕ → B
  /-- `Solver::solve`: the plan unless the search gives up, and the state it leaves. -/
  solve : G → Bool → Option (List P) × G

export Tilers (done depth numObjectives numAncillas height width factorProgress achievedGoalEnv
  validActions encode decode finishCultivating setCultivationTime buildObs solve)

/-- What `MCTS::run` returns of the root, and `policy_target` after it. -/
structure Searched (F : Type) where
  value : F
  edgeVisits : List ℕ
  policyTarget : Option (List (ℕ × F))

/-- The search and the random numbers of an episode. `R` is whatever they keep
between two calls; `none` is a panic. -/
structure Player (G F R : Type) where
  newSearch : ℕ → R → R
  draw : R → F × R
  perturbRootPrior : G → F → R → R
  run : G → ℕ → (G → F) → Bool → R → Option (Searched F × R)
  selectAction : Searched F → G → ℕ → R → Option (ℕ × R)
  advanceRoot : ℕ → R → R

structure Gatherer (F : Type) where
  batchSize : ℕ
  mctsSteps : ℕ
  fastSteps : ℕ
  pFullSearch : F
  maxActions : Option ℕ
  maxActionMultiplier : F
  dirichletEpsilon : F
  lookahead : ℕ
  gatherId : ℕ
  rewardSaturationTemperature : F
  resignValueThreshold : F
  resignConsecutiveMoves : ℕ
  noResignRate : F
  floorKeepFraction : F
  herRewardMargin : F
  trajectoryDir : Option String
  resignationLogDir : Option String
  reverseCurriculumMaxProbes : ℕ
  reverseCurriculumKStartActions : ℕ
  goldShardDir : Option String
  goldMinLen : ℕ
  goldMinReward : F
  cuspReward : Bool
  cuspFrontier : ℕ
  cuspMargin : ℕ

inductive RewardKind
  | done
  | her
  | cusp
  | floor
  deriving DecidableEq

/-- An entry of `temp_data`: a full-search turn. -/
structure SearchRecord (B : Type) where
  board : B
  numAncillas : ℕ
  validActions : List ℕ
  edgeVisits : List (ℕ × ℕ)

/-- An entry of `all_steps_data`: a turn and the action taken. -/
structure StepRecord (B : Type) where
  board : B
  numAncillas : ℕ
  validActions : List ℕ
  action : ℕ
  height : ℕ
  width : ℕ

structure EpisodeOutcome (B F : Type) where
  referenceDepth : F
  solutionDepth : F
  done : Bool
  score : F
  rewardKind : RewardKind
  achievedObjectives : ℕ
  referenceActionCount : ℕ
  tempData : List (SearchRecord B)
  allStepsData : List (StepRecord B)
  qTrace : List F
  overSolverTrace : List Bool
  resigned : Bool
  resignAllowed : Bool
  resignationEnabled : Bool
  height : ℕ
  width : ℕ
  numAncillas : ℕ
  numObjectives : ℕ

structure Play (G B F : Type) where
  env : G
  tempData : List (SearchRecord B)
  allStepsData : List (StepRecord B)
  lowValueStreak : ℕ
  qTrace : List F
  overSolverTrace : List Bool
  resigned : Bool

variable {G P B F R : Type} [Field F] [LinearOrder F] [FloorSemiring F] [Saturation F]

def saturatedMargin (temperature baseline reference d : F) : F :=
  tanh ((baseline - d) / (reference + 1e-6) / temperature)

def cuspPartialReward (achieved numObjectives frontier margin : ℕ) : F :=
  let cusp := max (min numObjectives (frontier + margin)) 1
  (min achieved cusp : ℕ) / (cusp : F) - 1

def cuspFactorReward (merged total numObjectives frontier margin : ℕ) : F :=
  if total = 0 ∨ numObjectives = 0 then -1
  else
    let cuspObjs := max (min numObjectives (frontier + margin)) 1
    let budget : F := max ((total : F) * cuspObjs / numObjectives) 1
    min (merged : F) budget / budget - 1

section Rewards

variable [IsStrictOrderedRing F]

omit [FloorSemiring F] [Saturation F] in
/-- A capped partial never reaches the reward of matching the heuristic. -/
theorem cuspPartialReward_nonpos (achieved numObjectives frontier margin : ℕ) :
    (cuspPartialReward achieved numObjectives frontier margin : F) ≤ 0 := by
  unfold cuspPartialReward
  have hcusp : (0 : F) < (max (min numObjectives (frontier + margin)) 1 : ℕ) := by
    exact_mod_cast Nat.lt_of_lt_of_le Nat.one_pos (le_max_right _ _)
  rw [sub_nonpos, div_le_one hcusp]
  exact_mod_cast min_le_right _ _

omit [FloorSemiring F] [Saturation F] in
theorem cuspFactorReward_nonpos (merged total numObjectives frontier margin : ℕ) :
    (cuspFactorReward merged total numObjectives frontier margin : F) ≤ 0 := by
  unfold cuspFactorReward
  split
  · exact neg_nonpos.mpr zero_le_one
  · dsimp only
    have hbudget : (0 : F) < max ((total : F) *
        (max (min numObjectives (frontier + margin)) 1 : ℕ) / numObjectives) 1 :=
      lt_of_lt_of_le zero_lt_one (le_max_right _ _)
    rw [sub_nonpos, div_le_one hbudget]
    exact min_le_right _ _

end Rewards

section Saturated

variable {T baseline ref d : ℝ}

theorem tanh_pos_iff (x : ℝ) : 0 < Real.tanh x ↔ 0 < x := by
  rw [Real.tanh_eq_sinh_div_cosh, div_pos_iff_of_pos_right (Real.cosh_pos x), Real.sinh_pos_iff]

theorem tanh_mem (x : ℝ) : Real.tanh x ∈ Set.Ioo (-1 : ℝ) 1 :=
  ⟨Real.neg_one_lt_tanh x, Real.tanh_lt_one x⟩

/-- What the margin is divided by is positive. -/
theorem scale_pos (href : 0 ≤ ref) : 0 < ref + 1e-6 := by
  apply add_pos_of_nonneg_of_pos href
  norm_num

/-- With the real tanh the margin is positive exactly below the baseline. -/
theorem saturatedMargin_pos_iff (hT : 0 < T) (href : 0 ≤ ref) :
    0 < saturatedMargin T baseline ref d ↔ d < baseline := by
  have hscale := scale_pos href
  show 0 < Real.tanh ((baseline - d) / (ref + 1e-6) / T) ↔ d < baseline
  rw [tanh_pos_iff, div_pos_iff_of_pos_right hT, div_pos_iff_of_pos_right hscale, sub_pos]

end Saturated

/-- f32 `round` on a non-negative number: halves go up. -/
def round (x : F) : ℕ := ⌊x + 0.5⌋₊

variable [Tilers G P B F]

namespace Gatherer

def resignationEnabled (g : Gatherer F) : Bool :=
  0 < g.resignConsecutiveMoves && decide (g.resignValueThreshold < 1)

def solveWithHeuristic (env : G) : Option (F × List ℕ) :=
  let (plan, solved) := solve env true
  plan.bind fun plan => (plan.mapM (encode solved)).map fun acts => (depth solved, acts)

def terminalEvaluator (g : Gatherer F) (referenceDepth : F) (e : G) : F :=
  if done e then
    saturatedMargin g.rewardSaturationTemperature referenceDepth referenceDepth (depth e)
  else -1

/-- One turn of the episode loop; the flag is false where the loop breaks. -/
def turn (g : Gatherer F) (pl : Player G F R) (referenceDepth : F) (resignAllowed : Bool)
    (step : ℕ) (p : Play G B F) (r : R) : Option (Play G B F × R × Bool) := do
  let (u, r) := pl.draw r
  let isFullSearch : Bool := decide (u < g.pFullSearch)
  let steps := if isFullSearch then g.mctsSteps else g.fastSteps
  let r := if isFullSearch && decide (0 < g.dirichletEpsilon) then
      pl.perturbRootPrior p.env g.dirichletEpsilon r
    else r
  let (root, r) ← pl.run p.env steps (g.terminalEvaluator referenceDepth) isFullSearch r
  let overSolver : Bool := decide (referenceDepth < depth p.env)
  let p := if g.resignationLogDir.isSome then
      { p with
        qTrace := p.qTrace ++ [root.value]
        overSolverTrace := p.overSolverTrace ++ [overSolver] }
    else p
  let p := if g.resignationEnabled then
      { p with
        lowValueStreak := if root.value ≤ g.resignValueThreshold then p.lowValueStreak + 1 else 0 }
    else p
  if g.resignationEnabled && resignAllowed &&
      decide (g.resignConsecutiveMoves ≤ p.lowValueStreak) then
    return ({ p with resigned := true }, r, false)
  else
    let board := buildObs p.env g.lookahead
    let valid ← (validActions p.env).mapM (encode p.env)
    let nTotal := root.edgeVisits.sum
    let edgeVisits := (root.policyTarget.getD []).map fun e => (e.1, round (e.2 * (nTotal : F)))
    let tempData := if isFullSearch then
        p.tempData ++ [⟨board, numAncillas p.env, valid, edgeVisits⟩]
      else p.tempData
    let (action, r) ← pl.selectAction root p.env step r
    let allStepsData := p.allStepsData ++
      [⟨board, numAncillas p.env, valid, action, height p.env, width p.env⟩]
    let a ← decode p.env action
    let env := finishCultivating (Tilers.step p.env a)
    let p := { p with env := env, tempData := tempData, allStepsData := allStepsData }
    if done env then return (p, r, false)
    else return (p, pl.advanceRoot action r, true)

def turns (g : Gatherer F) (pl : Player G F R) (referenceDepth : F) (resignAllowed : Bool) :
    ℕ → ℕ → Play G B F → R → Option (Play G B F × R)
  | 0, _, p, r => some (p, r)
  | left + 1, step, p, r => do
    let (p, r, goOn) ← g.turn pl referenceDepth resignAllowed step p r
    if goOn then g.turns pl referenceDepth resignAllowed left (step + 1) p r
    else return (p, r)

def score (g : Gatherer F) (game final : G) (referenceDepth : F) (isReverse : Bool) :
    F × RewardKind × ℕ :=
  if done final then
    (saturatedMargin g.rewardSaturationTemperature referenceDepth referenceDepth (depth final),
      .done, numObjectives game)
  else if isReverse then
    let achieved := numObjectives game - numObjectives final
    if achieved = 0 ∨ numObjectives game = 0 then (-1, .floor, 0)
    else
      (cuspPartialReward achieved (numObjectives game) g.cuspFrontier g.cuspMargin, .her, achieved)
  else if g.cuspReward && decide (g.cuspFrontier < numObjectives game) then
    let achieved := numObjectives game - numObjectives final
    let (merged, total) := factorProgress game final
    if merged = 0 then (-1, .floor, 0)
    else
      (cuspFactorReward merged total (numObjectives game) g.cuspFrontier g.cuspMargin, .cusp,
        achieved)
  else
    match achievedGoalEnv game final with
    | none => (-1, .floor, 0)
    | some herEnv =>
      match solve herEnv true with
      | (none, _) => (-1, .floor, numObjectives herEnv)
      | (some _, solved) =>
        let refD := depth solved
        (saturatedMargin g.rewardSaturationTemperature ((1 + g.herRewardMargin) * refD) refD
          (depth final), .her, numObjectives herEnv)

def reference (game : G) : Option (F × ℕ) → Option (F × ℕ)
  | some (d, n) => some (d, n)
  | none => (solveWithHeuristic game).map fun s => (s.1, s.2.length)

def actionBudget (g : Gatherer F) (referenceActionCount : ℕ) : ℕ :=
  g.maxActions.getD (⌈(referenceActionCount : F) * g.maxActionMultiplier⌉₊ + 2)

/-- The part of `run_episode_from` before the score: the reference, the draw for
the resignation sample and the loop. -/
def playEpisode (g : Gatherer F) (pl : Player G F R) (game : G)
    (referenceOverride : Option (F × ℕ)) (r : R) :
    Option ((F × ℕ) × Bool × Play G B F × R) := do
  let r := pl.newSearch g.batchSize r
  let (referenceDepth, referenceActionCount) ← reference game referenceOverride
  let (resignAllowed, r) :=
    if g.resignationEnabled then
      let (u, r) := pl.draw r
      (decide (g.noResignRate ≤ u), r)
    else (false, r)
  let (p, r) ← g.turns pl referenceDepth resignAllowed (g.actionBudget referenceActionCount) 0
    ⟨game, [], [], 0, [], [], false⟩ r
  return ((referenceDepth, referenceActionCount), resignAllowed, p, r)

def outcome (g : Gatherer F) (game : G) (isReverse : Bool) (reference : F × ℕ)
    (resignAllowed : Bool) (p : Play G B F) : EpisodeOutcome B F :=
  let final := setCultivationTime p.env 10
  let (score, rewardKind, achievedObjectives) := g.score game final reference.1 isReverse
  { referenceDepth := reference.1
    solutionDepth := depth final
    done := done final
    score := score
    rewardKind := rewardKind
    achievedObjectives := achievedObjectives
    referenceActionCount := reference.2
    tempData := p.tempData
    allStepsData := p.allStepsData
    qTrace := p.qTrace
    overSolverTrace := p.overSolverTrace
    resigned := p.resigned
    resignAllowed := resignAllowed
    resignationEnabled := g.resignationEnabled
    height := height game
    width := width game
    numAncillas := numAncillas game
    numObjectives := numObjectives game }

section Outcome

variable (g : Gatherer F) (game : G) (isReverse : Bool) (reference : F × ℕ) (allowed : Bool)
variable (p : Play G B F)

omit [FloorSemiring F]

@[simp] theorem outcome_done : (g.outcome game isReverse reference allowed p).done =
    done (setCultivationTime p.env 10) := rfl

@[simp] theorem outcome_score : (g.outcome game isReverse reference allowed p).score =
    (g.score game (setCultivationTime p.env 10) reference.1 isReverse).1 := rfl

@[simp] theorem outcome_allStepsData :
    (g.outcome game isReverse reference allowed p).allStepsData = p.allStepsData := rfl

end Outcome

def runEpisodeFrom (g : Gatherer F) (pl : Player G F R) (startEnv : G)
    (referenceOverride : Option (F × ℕ)) (r : R) : Option (EpisodeOutcome B F × R) := do
  let game := setCultivationTime startEnv 10
  let (reference, resignAllowed, p, r) ← g.playEpisode pl game referenceOverride r
  return (g.outcome game referenceOverride.isSome reference resignAllowed p, r)

/-- An outcome is that of a play. -/
theorem runEpisodeFrom_some {g : Gatherer F} {pl : Player G F R} {startEnv : G}
    {referenceOverride : Option (F × ℕ)} {r r' : R} {o : EpisodeOutcome B F}
    (h : g.runEpisodeFrom pl startEnv referenceOverride r = some (o, r')) :
    ∃ reference allowed p,
      g.playEpisode pl (setCultivationTime startEnv 10) referenceOverride r =
        some (reference, allowed, p, r') ∧
      o = g.outcome (setCultivationTime startEnv 10) referenceOverride.isSome reference allowed p := by
  unfold runEpisodeFrom at h
  obtain ⟨⟨reference, allowed, p, r''⟩, hplay, heq⟩ := Option.bind_eq_some_iff.mp h
  obtain ⟨rfl, rfl⟩ := Prod.mk.inj (Option.some.inj heq)
  exact ⟨reference, allowed, p, hplay, rfl⟩

end Gatherer

/-- A tiny tiling job: factors left to merge, and the depth so far. -/
structure Job where
  left : ℕ
  depth : ℕ

/-- Action 0 merges a factor and any other action wastes a layer; the heuristic only merges. -/
noncomputable instance : Tilers Job ℕ Unit ℝ where
  done e := e.left == 0
  depth e := e.depth
  numObjectives e := e.left
  numAncillas _ := 0
  height _ := 1
  width _ := 1
  factorProgress game final := (game.left - final.left, game.left)
  achievedGoalEnv game final :=
    if final.left < game.left then some ⟨game.left - final.left, 0⟩ else none
  validActions _ := [0, 1]
  encode _ a := some a
  decode _ id := some id
  step e a := if a = 0 then ⟨e.left - 1, e.depth + 1⟩ else ⟨e.left, e.depth + 1⟩
  finishCultivating e := e
  setCultivationTime e _ := e
  buildObs _ _ := ()
  solve e _ := (some (List.replicate e.left 0), ⟨0, e.depth + e.left⟩)

def scripted : Player Job ℝ (List ℕ) where
  newSearch _ r := r
  draw r := (0, r)
  perturbRootPrior _ _ r := r
  run _ _ _ _ r := some (⟨0, List.replicate (r.headD 0) 0 ++ [1], none⟩, r)
  selectAction _ _ _ r := r.head?.map fun a => (a, r)
  advanceRoot _ r := r.tail

end Mcts.Episodes
