import Mcts.Episodes

/-!
`evaluate_single`: one greedy attempt on a holdout environment, and its reward.
Finished attempts are graded by a saturated depth margin and unfinished ones by
the fraction of merged factors. The two scales meet at a depth that `crossing`
gives in closed form; beyond it finishing scores below not finishing.
-/
namespace Mcts.EvalReward

open Episodes

structure Evaluator (F : Type) where
  mctsSteps : ℕ
  rewardSaturationTemperature : F
  maxActionMultiplier : F

structure Attempt (F : Type) where
  actionsTaken : List ℕ
  solutionDepth : Option F
  achievedObjectives : ℤ
  evalReward : Option F
  heuristicUnsolvable : Bool
  factorProg : Option (ℕ × ℕ)

variable {G P B F R : Type} [Field F] [LinearOrder F] [FloorSemiring F] [Saturation F]
variable [Tilers G P B F]

/-- The last of the actions with the most visits, as `max_by_key` has it. -/
def greedyAction (edgeVisits : List ℕ) (ids : List ℕ) : Option ℕ :=
  ids.foldl (fun best id =>
    match best with
    | none => some id
    | some b => if edgeVisits.getD b 0 ≤ edgeVisits.getD id 0 then some id else some b) none

namespace Evaluator

def terminalEvaluator (ev : Evaluator F) (referenceDepth : F) (e : G) : F :=
  if done e then
    saturatedMargin ev.rewardSaturationTemperature referenceDepth referenceDepth (depth e)
  else -1

def playOut (ev : Evaluator F) (pl : Player G F R) (referenceDepth : F) :
    ℕ → G → List ℕ → R → Option (G × List ℕ × R)
  | 0, env, actionsTaken, r => some (env, actionsTaken, r)
  | left + 1, env, actionsTaken, r =>
    if done env || (validActions env).isEmpty then some (env, actionsTaken, r)
    else do
      let (root, r) ← pl.run env ev.mctsSteps (ev.terminalEvaluator referenceDepth) false r
      let ids ← (validActions env).mapM (encode env)
      let action ← greedyAction root.edgeVisits ids
      let a ← decode env action
      ev.playOut pl referenceDepth left (finishCultivating (Tilers.step env a))
        (actionsTaken ++ [action]) (pl.advanceRoot action r)

def grade (ev : Evaluator F) (env final : G) (referenceDepth : F) (actionsTaken : List ℕ) :
    Attempt F :=
  if done final then
    { actionsTaken := actionsTaken
      solutionDepth := some (depth final)
      achievedObjectives := numObjectives env
      evalReward := some (saturatedMargin ev.rewardSaturationTemperature referenceDepth
        referenceDepth (depth final))
      heuristicUnsolvable := false
      factorProg := none }
  else
    let (merged, total) := factorProgress env final
    { actionsTaken := actionsTaken
      solutionDepth := none
      achievedObjectives := max ((numObjectives env : ℤ) - numObjectives final) 0
      evalReward := some (if merged = 0 ∨ total = 0 then -1 else (merged : F) / total - 1)
      heuristicUnsolvable := false
      factorProg := some (merged, total) }

def actionBudget (ev : Evaluator F) (env : G) : ℕ :=
  match (solve env false).1 with
  | some plan => ⌈(plan.length : F) * ev.maxActionMultiplier⌉₊
  | none => 1000

/-- An environment the heuristic gives up on is not attempted. -/
def evaluateSingle (ev : Evaluator F) (pl : Player G F R) (env : G) (r : R) :
    Option (Attempt F × R) :=
  let r := pl.newSearch 8 r
  let start := setCultivationTime env 10
  match solve start true with
  | (none, _) => some (⟨[], none, 0, none, true, none⟩, r)
  | (some _, solved) => do
    let (final, actionsTaken, r) ← ev.playOut pl (depth solved) (ev.actionBudget env) start [] r
    return (ev.grade env final (depth solved) actionsTaken, r)

/-- An attempt that was made is the grade of where its play stopped. -/
theorem evaluateSingle_some {ev : Evaluator F} {pl : Player G F R} {env : G} {r r' : R}
    {a : Attempt F} {plan : List P} {solved : G}
    (hsolve : solve (setCultivationTime env 10) true = (some plan, solved))
    (h : ev.evaluateSingle pl env r = some (a, r')) :
    ∃ final actionsTaken,
      ev.playOut pl (depth solved) (ev.actionBudget env) (setCultivationTime env 10) []
        (pl.newSearch 8 r) = some (final, actionsTaken, r') ∧
      a = ev.grade env final (depth solved) actionsTaken := by
  unfold evaluateSingle at h
  simp only [hsolve] at h
  obtain ⟨⟨final, actionsTaken, r''⟩, hplay, heq⟩ := Option.bind_eq_some_iff.mp h
  obtain ⟨rfl, rfl⟩ := Prod.mk.inj (Option.some.inj heq)
  exact ⟨final, actionsTaken, hplay, rfl⟩

end Evaluator

section Reals

variable {T ref d : ℝ}

/-- The saturated margin is compared with a level through the inverse of tanh. -/
theorem le_saturatedMargin_iff {level : ℝ} (hT : 0 < T) (href : 0 < ref)
    (hlevel : level ∈ Set.Ioo (-1 : ℝ) 1) :
    level ≤ saturatedMargin T ref ref d ↔ d ≤ ref - T * (ref + 1e-6) * Real.artanh level := by
  have hscale := scale_pos href.le
  show level ≤ Real.tanh ((ref - d) / (ref + 1e-6) / T) ↔ _
  rw [← Real.artanh_le_artanh_iff hlevel (tanh_mem _), Real.artanh_tanh, div_div,
    le_div_iff₀ (mul_pos hscale hT)]
  constructor
  · intro h
    nlinarith
  · intro h
    nlinarith

/-- Deeper solutions never score higher. -/
theorem saturatedMargin_anti {d₁ d₂ : ℝ} (hT : 0 < T) (href : 0 < ref) (h : d₁ ≤ d₂) :
    saturatedMargin T ref ref d₂ ≤ saturatedMargin T ref ref d₁ := by
  have hscale := scale_pos href.le
  show Real.tanh _ ≤ Real.tanh _
  rw [← Real.artanh_le_artanh_iff (tanh_mem _) (tanh_mem _), Real.artanh_tanh, Real.artanh_tanh]
  have hmargin : ref - d₂ ≤ ref - d₁ := by linarith
  gcongr

/-- The depth at which a finished attempt scores like one with `merged` factors of `total`. -/
noncomputable def crossing (T ref : ℝ) (merged total : ℕ) : ℝ :=
  ref + 0.5 * T * (ref + 1e-6) * Real.log ((total + (total - merged)) / merged)

theorem fraction_le_iff {merged total : ℕ} (hT : 0 < T) (href : 0 < ref) (hmerged : 0 < merged)
    (hle : merged ≤ total) :
    (merged : ℝ) / total - 1 ≤ saturatedMargin T ref ref d ↔ d ≤ crossing T ref merged total := by
  have hm : (0 : ℝ) < merged := Nat.cast_pos.mpr hmerged
  have ht : (merged : ℝ) ≤ total := Nat.cast_le.mpr hle
  have hfraction : 0 < (merged : ℝ) / total := div_pos hm (hm.trans_le ht)
  have hone : (merged : ℝ) / total ≤ 1 := (div_le_one (hm.trans_le ht)).mpr ht
  have hlevel : (merged : ℝ) / total - 1 ∈ Set.Ioo (-1 : ℝ) 1 := by
    constructor <;> linarith
  have hratio : (1 + ((merged : ℝ) / total - 1)) / (1 - ((merged : ℝ) / total - 1)) =
      ((total + (total - merged)) / merged : ℝ)⁻¹ := by
    have htotal : (total : ℝ) ≠ 0 := (hm.trans_le ht).ne'
    have hrest : (2 * total - merged : ℝ) ≠ 0 := by linarith
    have hdouble : (total + (total - merged) : ℝ) = 2 * total - merged := by ring
    rw [hdouble]
    field_simp
    ring
  rw [le_saturatedMargin_iff hT href hlevel,
    Real.artanh_eq_half_log ⟨hlevel.1.le, hlevel.2.le⟩, hratio, Real.log_inv]
  unfold crossing
  constructor
  · intro h
    linarith
  · intro h
    linarith

end Reals

section Attempts

variable {G P B R : Type} [Tilers G P B ℝ]

/-- Both attempts were rewarded, the first at least as much as the second. -/
def AtLeast (a₁ a₂ : Attempt ℝ) : Prop :=
  ∃ x₁ x₂, a₁.evalReward = some x₁ ∧ a₂.evalReward = some x₂ ∧ x₂ ≤ x₁

theorem grade_finished (ev : Evaluator ℝ) (env final : G) (ref : ℝ) (acts : List ℕ)
    (hdone : done final = true) : (ev.grade env final ref acts).evalReward =
      some (saturatedMargin ev.rewardSaturationTemperature ref ref (depth final)) := by
  simp [Evaluator.grade, hdone]

theorem grade_unfinished (ev : Evaluator ℝ) (env final : G) (ref : ℝ) (acts : List ℕ)
    {merged total : ℕ} (htotal : 0 < total) (hdone : done final = false)
    (hprogress : factorProgress env final = (merged, total)) :
    (ev.grade env final ref acts).evalReward = some ((merged : ℝ) / total - 1) := by
  rcases Nat.eq_zero_or_pos merged with rfl | hmerged
  · simp [Evaluator.grade, hdone, hprogress]
  · simp [Evaluator.grade, hdone, hprogress, hmerged.ne', htotal.ne']

/-- More merged factors of as many are worth no less. -/
theorem grade_unfinished_mono (ev : Evaluator ℝ) {env e₁ e₂ : G} (ref : ℝ) (acts₁ acts₂ : List ℕ)
    {m₁ m₂ total : ℕ} (htotal : 0 < total) (hprogress₁ : factorProgress env e₁ = (m₁, total))
    (hprogress₂ : factorProgress env e₂ = (m₂, total)) (hdone₁ : done e₁ = false)
    (hdone₂ : done e₂ = false) (hle : m₂ ≤ m₁) :
    AtLeast (ev.grade env e₁ ref acts₁) (ev.grade env e₂ ref acts₂) := by
  refine ⟨_, _, grade_unfinished ev env e₁ _ acts₁ htotal hdone₁ hprogress₁,
    grade_unfinished ev env e₂ _ acts₂ htotal hdone₂ hprogress₂, ?_⟩
  have ht : (0 : ℝ) < total := Nat.cast_pos.mpr htotal
  have hcast : (m₂ : ℝ) ≤ m₁ := Nat.cast_le.mpr hle
  gcongr

/-- A finished attempt is worth as much as an unfinished one up to the crossing. -/
theorem grade_cross_iff (ev : Evaluator ℝ) {env e₁ e₂ : G} {ref : ℝ} (acts₁ acts₂ : List ℕ)
    {merged total : ℕ} (hT : 0 < ev.rewardSaturationTemperature) (href : 0 < ref)
    (htotal : 0 < total) (hle : merged ≤ total) (hprogress : factorProgress env e₂ = (merged, total))
    (hdone₁ : done e₁ = true) (hdone₂ : done e₂ = false) :
    AtLeast (ev.grade env e₁ ref acts₁) (ev.grade env e₂ ref acts₂) ↔
      merged = 0 ∨ depth e₁ ≤ crossing ev.rewardSaturationTemperature ref merged total := by
  unfold AtLeast
  rw [grade_finished ev env e₁ _ acts₁ hdone₁,
    grade_unfinished ev env e₂ _ acts₂ htotal hdone₂ hprogress]
  simp only [Option.some.injEq, exists_and_left, exists_eq_left']
  rcases Nat.eq_zero_or_pos merged with rfl | hmerged
  · have : -1 < saturatedMargin ev.rewardSaturationTemperature ref ref (depth e₁) :=
      Real.neg_one_lt_tanh _
    simp [this.le]
  · rw [fraction_le_iff hT href hmerged hle]
    simp [hmerged.ne']

/-- More merged factors and less depth never cost anything, but finishing does
where the solution is deeper than the crossing of the other attempt's fraction. -/
theorem evalReward_monotone_iff (ev : Evaluator ℝ) (pl₁ pl₂ : Player G ℝ R) (env solved : G)
    (plan : List P) (r₁ r₂ r₁' r₂' : R) (a₁ a₂ : Attempt ℝ)
    (hT : 0 < ev.rewardSaturationTemperature)
    (hsolve : solve (setCultivationTime env 10) true = (some plan, solved))
    (href : 0 < depth solved)
    (h₁ : ev.evaluateSingle pl₁ env r₁ = some (a₁, r₁'))
    (h₂ : ev.evaluateSingle pl₂ env r₂ = some (a₂, r₂')) :
    ∃ e₁ e₂ acts₁ acts₂,
      ev.playOut pl₁ (depth solved) (ev.actionBudget env) (setCultivationTime env 10) []
        (pl₁.newSearch 8 r₁) = some (e₁, acts₁, r₁') ∧
      ev.playOut pl₂ (depth solved) (ev.actionBudget env) (setCultivationTime env 10) []
        (pl₂.newSearch 8 r₂) = some (e₂, acts₂, r₂') ∧
      ∀ m₁ m₂ total, 0 < total → m₁ ≤ total → m₂ ≤ total →
        factorProgress env e₁ = (m₁, total) → factorProgress env e₂ = (m₂, total) →
        (((done e₁ = false → done e₂ = false → m₂ ≤ m₁ → AtLeast a₁ a₂) ∧
          (done e₁ = true → done e₂ = true → depth e₁ ≤ depth e₂ → AtLeast a₁ a₂) ∧
          (done e₁ = true → done e₂ = false → AtLeast a₁ a₂)) ↔
        (done e₁ = true → done e₂ = false → m₂ = 0 ∨
          depth e₁ ≤ crossing ev.rewardSaturationTemperature (depth solved) m₂ total)) := by
  obtain ⟨e₁, acts₁, hplay₁, rfl⟩ := Evaluator.evaluateSingle_some hsolve h₁
  obtain ⟨e₂, acts₂, hplay₂, rfl⟩ := Evaluator.evaluateSingle_some hsolve h₂
  refine ⟨e₁, e₂, acts₁, acts₂, hplay₁, hplay₂, ?_⟩
  intro m₁ m₂ total htotal _ hm₂ hprogress₁ hprogress₂
  constructor
  · intro ⟨_, _, hboth⟩ hdone₁ hdone₂
    exact (grade_cross_iff ev acts₁ acts₂ hT href htotal hm₂ hprogress₂ hdone₁ hdone₂).mp
      (hboth hdone₁ hdone₂)
  · intro hcond
    refine ⟨?_, ?_, ?_⟩
    · exact grade_unfinished_mono ev _ acts₁ acts₂ htotal hprogress₁ hprogress₂
    · intro hdone₁ hdone₂ hle
      exact ⟨_, _, grade_finished ev env e₁ _ acts₁ hdone₁,
        grade_finished ev env e₂ _ acts₂ hdone₂, saturatedMargin_anti hT href hle⟩
    · intro hdone₁ hdone₂
      exact (grade_cross_iff ev acts₁ acts₂ hT href htotal hm₂ hprogress₂ hdone₁ hdone₂).mpr
        (hcond hdone₁ hdone₂)

noncomputable def historical : Evaluator ℝ where
  mctsSteps := 100
  rewardSaturationTemperature := 0.3
  maxActionMultiplier := 1.2

theorem historical_budget : historical.actionBudget (⟨2, 0⟩ : Job) = 3 := by
  have hceil : ⌈((2 : ℕ) : ℝ) * 1.2⌉₊ = 3 := by
    rw [Nat.ceil_eq_iff (by norm_num)]
    norm_num
  simpa [Evaluator.actionBudget, historical, solve] using hceil

/-- A job of two factors, finished one layer late. -/
theorem late_finish : historical.evaluateSingle scripted (⟨2, 0⟩ : Job) [1, 0, 0] =
    some (historical.grade (⟨2, 0⟩ : Job) ⟨0, 3⟩ 2 [1, 0, 0], []) := by
  simp [Evaluator.evaluateSingle, historical_budget, Evaluator.playOut, scripted, solve, done,
    validActions, encode, decode, Tilers.step, finishCultivating, setCultivationTime,
    greedyAction, depth]

/-- The same job left half done. -/
theorem half_done : historical.evaluateSingle scripted (⟨2, 0⟩ : Job) [1, 1, 0] =
    some (historical.grade (⟨2, 0⟩ : Job) ⟨1, 3⟩ 2 [1, 1, 0], []) := by
  simp [Evaluator.evaluateSingle, historical_budget, Evaluator.playOut, scripted, solve, done,
    validActions, encode, decode, Tilers.step, finishCultivating, setCultivationTime,
    greedyAction, depth]

/-- One layer more than the heuristic is past the crossing of one factor of two. -/
theorem crossing_half_lt : crossing 0.3 2 1 2 < 3 := by
  have hlog : Real.log 3 ≤ 2 := by
    have := Real.log_le_sub_one_of_pos (x := 3) (by norm_num)
    linarith
  unfold crossing
  norm_num at hlog ⊢
  linarith

/-- Finishing one layer late is worth less than leaving half of the job. -/
theorem finishing_loses : ∃ (a₁ a₂ : Attempt ℝ) (r₁ r₂ : List ℕ),
    historical.evaluateSingle scripted (⟨2, 0⟩ : Job) [1, 0, 0] = some (a₁, r₁) ∧
    historical.evaluateSingle scripted (⟨2, 0⟩ : Job) [1, 1, 0] = some (a₂, r₂) ∧
    a₁.solutionDepth = some 3 ∧ a₂.factorProg = some (1, 2) ∧ ¬ AtLeast a₁ a₂ := by
  refine ⟨_, _, _, _, late_finish, half_done, ?_, ?_, ?_⟩
  · simp [Evaluator.grade, done, depth]
  · simp [Evaluator.grade, done, factorProgress]
  · intro ⟨x₁, x₂, hx₁, hx₂, hle⟩
    rw [grade_finished historical _ _ _ _ rfl] at hx₁
    have hhalf : (historical.grade (⟨2, 0⟩ : Job) ⟨1, 3⟩ 2 [1, 1, 0]).evalReward =
        some (((1 : ℕ) : ℝ) / (2 : ℕ) - 1) := grade_unfinished historical _ _ _ _ two_pos rfl rfl
    rw [hhalf] at hx₂
    obtain rfl := Option.some.inj hx₁
    obtain rfl := Option.some.inj hx₂
    have hT : 0 < historical.rewardSaturationTemperature := by norm_num [historical]
    have hdepth := (fraction_le_iff hT two_pos Nat.one_pos one_le_two).mp hle
    have hcross : crossing historical.rewardSaturationTemperature 2 1 2 < 3 := crossing_half_lt
    have hthree : depth (⟨0, 3⟩ : Job) = (3 : ℝ) := by norm_num [depth]
    linarith

/-- The rule at these two attempts. -/
theorem evalReward_monotone_iff_late :
    ∃ (a₁ a₂ : Attempt ℝ) (e₁ e₂ : Job), ∀ m₁ m₂ total, 0 < total → m₁ ≤ total → m₂ ≤ total →
      factorProgress (⟨2, 0⟩ : Job) e₁ = (m₁, total) →
      factorProgress (⟨2, 0⟩ : Job) e₂ = (m₂, total) →
      (((done e₁ = false → done e₂ = false → m₂ ≤ m₁ → AtLeast a₁ a₂) ∧
        (done e₁ = true → done e₂ = true → depth e₁ ≤ depth e₂ → AtLeast a₁ a₂) ∧
        (done e₁ = true → done e₂ = false → AtLeast a₁ a₂)) ↔
      (done e₁ = true → done e₂ = false → m₂ = 0 ∨
        depth e₁ ≤ crossing historical.rewardSaturationTemperature 2 m₂ total)) := by
  have hT : 0 < historical.rewardSaturationTemperature := by norm_num [historical]
  have hsolve : solve (setCultivationTime (⟨2, 0⟩ : Job) 10) true = (some [0, 0], ⟨0, 2⟩) := rfl
  have hdepth : depth (⟨0, 2⟩ : Job) = (2 : ℝ) := by norm_num [depth]
  have href : 0 < depth (⟨0, 2⟩ : Job) := by norm_num [hdepth]
  obtain ⟨e₁, e₂, _, _, _, _, hrule⟩ := evalReward_monotone_iff historical scripted scripted
    ⟨2, 0⟩ ⟨0, 2⟩ [0, 0] [1, 0, 0] [1, 1, 0] [] [] _ _ hT hsolve href late_finish half_done
  rw [hdepth] at hrule
  exact ⟨_, _, e₁, e₂, hrule⟩

end Attempts

end Mcts.EvalReward
