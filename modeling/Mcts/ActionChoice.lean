import Mcts.Episodes
import Mcts.Proportions
import Mathlib.Algebra.Order.BigOperators.Group.List
import Mathlib.Data.List.GetD

/-!
How the gatherer picks an action from the visit counts of the root:
`select_action` with its `_action_probabilities` and `_dirichlet_noise`. The
exponents of the counts are shifted by their maximum before `exp` is taken,
which cancels. The distributions of `rand_distr` are parameters; a panic is `none`.
-/
namespace Mcts.ActionChoice

open Episodes Proportions

/-- The two functions on f64 that are not field operations. -/
class Exponential (F : Type) where
  exp : F → F
  ln : F → F

export Exponential (exp ln)

noncomputable instance : Exponential ℝ where
  exp := Real.exp
  ln := Real.log

/-- A sample of the Gamma distribution with this shape; and `WeightedIndex` for some weights,
which draws an index unless it refuses them. -/
structure Dice (F R : Type) where
  gamma : F → R → F × R
  weightedIndex : List F → Option (R → ℕ × R)

section Model

variable {G P B F R : Type} [Field F] [LinearOrder F] [Exponential F]

/-- `(l - max_log).exp()`, where `⊥` is the negative infinity. -/
def expShifted (maxLog l : WithBot F) : F :=
  match l, maxLog with
  | some l, some m => exp (l - m)
  | _, _ => 0

def actionProbabilities (visitCounts : List ℕ) (temperature : F) : List F :=
  if visitCounts.sum = 0 then List.replicate visitCounts.length (1 / (visitCounts.length : F))
  else if temperature < 1e-8 then
    let maxCount := visitCounts.foldl max 0
    let numMax := (visitCounts.filter fun c => c = maxCount).length
    visitCounts.map fun c => if c = maxCount then 1 / (numMax : F) else 0
  else
    let invTemp := 1 / temperature
    let logCounts : List (WithBot F) := visitCounts.map fun c : ℕ =>
      if 0 < c then ((ln (c : F) * invTemp : F) : WithBot F) else ⊥
    let maxLog := logCounts.foldl max ⊥
    let exps := logCounts.map (expShifted maxLog)
    exps.map fun e => e / exps.sum

def gammaSamples (dice : Dice F R) (alpha : F) : ℕ → R → List F × R
  | 0, r => ([], r)
  | n + 1, r =>
    let (x, r) := dice.gamma alpha r
    let (xs, r) := gammaSamples dice alpha n r
    (x :: xs, r)

def dirichletNoise (dice : Dice F R) (numActions : ℕ) (r : R) : List F × R :=
  let alpha := min (10 / (numActions : F)) 0.5
  let (xs, r) := gammaSamples dice alpha numActions r
  (if 0 < xs.sum then xs.map fun x => x / xs.sum else xs, r)

def temperatureAt (step : ℕ) : F := 0.1 + 0.9 * exp (-0.5 * (step : F))

def noiseStrengthAt (noiseStrength : F) (step : ℕ) : F := noiseStrength * exp (-0.5 * (step : F))

def drawNoise (dice : Dice F R) (strength : F) (numActions : ℕ) (r : R) : List F × R :=
  if 0 < strength then dirichletNoise dice numActions r else (List.replicate numActions 0, r)

def mixedProbs (strength : F) (probs noise : List F) : List F :=
  (List.zipWith (fun p n => (1 - strength) * p + strength * n) probs noise).map fun x => max x 0

def selectAction [Tilers G P B F] (dice : Dice F R) (noiseStrength : F) (node : Searched F) (env : G)
    (step : ℕ) (r : R) : Option (ℕ × R) :=
  ((validActions env).mapM (encode env)).bind fun ids =>
    if ids.length = 0 then none
    else
      let probs := actionProbabilities (ids.map fun a => node.edgeVisits.getD a 0)
        (temperatureAt step)
      let (noise, r) := drawNoise dice (noiseStrengthAt noiseStrength step) ids.length r
      let mixed := mixedProbs (noiseStrengthAt noiseStrength step) probs noise
      (dice.weightedIndex mixed).bind fun draw =>
        let (i, r) := draw r
        (ids[i]?).map fun action => (action, r)

end Model

section Probabilities

variable {visitCounts : List ℕ} {T : ℝ}

noncomputable def weight (T : ℝ) (c : ℕ) : ℝ := (c : ℝ) ^ (1 / T)

theorem weight_nonneg (T : ℝ) (c : ℕ) : 0 ≤ weight T c := Real.rpow_nonneg (Nat.cast_nonneg c) _

theorem weight_zero (hT : 0 < T) : weight T 0 = 0 := by
  rw [weight, Nat.cast_zero, Real.zero_rpow]
  exact (one_div_pos.mpr hT).ne'

theorem weight_pos {c : ℕ} (hc : 0 < c) : 0 < weight T c :=
  Real.rpow_pos_of_pos (Nat.cast_pos.mpr hc) _

theorem weight_mono (hT : 0 < T) {c d : ℕ} (h : c ≤ d) : weight T c ≤ weight T d :=
  Real.rpow_le_rpow (Nat.cast_nonneg c) (Nat.cast_le.mpr h) (one_div_pos.mpr hT).le

theorem le_foldl_max {α : Type} [LinearOrder α] (xs : List α) (start : α) :
    start ≤ xs.foldl max start ∧ ∀ x ∈ xs, x ≤ xs.foldl max start := by
  induction xs generalizing start with
  | nil => exact ⟨le_rfl, by simp⟩
  | cons y rest ih =>
    obtain ⟨hstart, hrest⟩ := ih (max start y)
    refine ⟨(le_max_left start y).trans hstart, fun x hx => ?_⟩
    rcases List.mem_cons.mp hx with rfl | hx
    · exact (le_max_right start x).trans hstart
    · exact hrest x hx

theorem foldl_max_mem (xs : List ℕ) (start : ℕ) :
    xs.foldl max start = start ∨ xs.foldl max start ∈ xs := by
  induction xs generalizing start with
  | nil => exact Or.inl rfl
  | cons y rest ih =>
    rw [List.foldl_cons]
    rcases ih (max start y) with heq | hmem
    · rw [heq]
      rcases max_choice start y with hstart | hy
      · exact Or.inl hstart
      · rw [hy]
        exact Or.inr List.mem_cons_self
    · exact Or.inr (List.mem_cons_of_mem y hmem)

theorem sum_indicator (xs : List ℕ) (top : ℕ) :
    (xs.map fun c => if c = top then (1 : ℝ) else 0).sum = ((xs.filter fun c => c = top).length : ℝ) := by
  induction xs with
  | nil => simp
  | cons y rest ih =>
    rw [List.map_cons, List.sum_cons, ih, List.filter_cons]
    by_cases hy : y = top
    · simp [hy, add_comm]
    · simp [hy]

theorem exists_pos_of_sum (h : visitCounts.sum ≠ 0) : ∃ c ∈ visitCounts, 0 < c := by
  by_contra hnone
  push Not at hnone
  apply h
  rw [List.sum_eq_zero_iff]
  exact fun c hc => Nat.le_zero.mp (hnone c hc)

theorem weights_sum_pos (T : ℝ) (h : visitCounts.sum ≠ 0) : 0 < (visitCounts.map (weight T)).sum := by
  obtain ⟨c, hc, hpos⟩ := exists_pos_of_sum h
  refine lt_of_lt_of_le (weight_pos hpos) (List.single_le_sum ?_ _ (List.mem_map_of_mem hc))
  intro w hw
  obtain ⟨d, _, rfl⟩ := List.mem_map.mp hw
  exact weight_nonneg T d

/-- The shift by the maximum cancels: what is computed are the proportions of the
counts to the power of the inverse temperature. -/
theorem actionProbabilities_eq (hT : 1e-8 ≤ T) (h : visitCounts.sum ≠ 0) :
    actionProbabilities visitCounts T = visitCounts.map (proportion (weight T) visitCounts) := by
  have hpos : 0 < T := lt_of_lt_of_le (by norm_num) hT
  obtain ⟨c₀, hc₀, hc₀pos⟩ := exists_pos_of_sum h
  rw [actionProbabilities, if_neg h, if_neg hT.not_gt]
  dsimp only
  obtain ⟨logCounts, hlogs⟩ : ∃ logCounts : List (WithBot ℝ), logCounts = visitCounts.map fun c : ℕ =>
    if 0 < c then ((ln (c : ℝ) * (1 / T) : ℝ) : WithBot ℝ) else ⊥ := ⟨_, rfl⟩
  rw [← hlogs]
  obtain ⟨maxLog, hmax⟩ : ∃ m : ℝ, logCounts.foldl max ⊥ = (m : WithBot ℝ) := by
    have hle := (le_foldl_max logCounts ⊥).2 ((ln (c₀ : ℝ) * (1 / T) : ℝ) : WithBot ℝ) (by
      rw [hlogs]
      exact List.mem_map.mpr ⟨c₀, hc₀, if_pos hc₀pos⟩)
    cases hfold : logCounts.foldl max ⊥ with
    | bot =>
      rw [hfold] at hle
      exact absurd (le_bot_iff.mp hle) (WithBot.coe_ne_bot)
    | coe m => exact ⟨m, rfl⟩
  have hexps : logCounts.map (expShifted (logCounts.foldl max ⊥)) =
      visitCounts.map fun c => weight T c * Real.exp (-maxLog) := by
    rw [hmax, hlogs, List.map_map]
    apply List.map_congr_left
    intro c _
    rcases Nat.eq_zero_or_pos c with rfl | hc
    · simp [expShifted, weight_zero hpos]
    · have hcast : (0 : ℝ) < c := Nat.cast_pos.mpr hc
      simp only [Function.comp_apply, if_pos hc]
      show Real.exp (Real.log c * (1 / T) - maxLog) = _
      rw [weight, Real.rpow_def_of_pos hcast, ← Real.exp_add, sub_eq_add_neg]
  rw [hexps, List.map_map, List.sum_map_mul_right]
  apply List.map_congr_left
  intro c _
  exact mul_div_mul_right _ _ (Real.exp_pos _).ne'

/-- In each of the three branches the probabilities are proportions of weights
that grow with the count. -/
theorem actionProbabilities_weights (T : ℝ) (hne : visitCounts ≠ []) :
    ∃ w : ℕ → ℝ, (∀ c ∈ visitCounts, 0 ≤ w c) ∧ 0 < (visitCounts.map w).sum ∧
      (∀ c ∈ visitCounts, ∀ d ∈ visitCounts, c ≤ d → w c ≤ w d) ∧
      (visitCounts.sum ≠ 0 → w 0 = 0) ∧
      actionProbabilities visitCounts T = visitCounts.map (proportion w visitCounts) := by
  have hlength : (0 : ℝ) < visitCounts.length := Nat.cast_pos.mpr (List.length_pos_iff.mpr hne)
  by_cases hsum : visitCounts.sum = 0
  · have htotal : (visitCounts.map fun _ => (1 : ℝ)).sum = visitCounts.length := by simp
    refine ⟨fun _ => 1, fun _ _ => zero_le_one, ?_, fun _ _ _ _ _ => le_rfl,
      fun hpos => absurd hsum hpos, ?_⟩
    · rw [htotal]
      exact hlength
    · rw [actionProbabilities, if_pos hsum, ← List.map_const']
      apply List.map_congr_left
      intro c _
      rw [proportion, htotal]
  · obtain ⟨c₀, hc₀, hc₀pos⟩ := exists_pos_of_sum hsum
    by_cases hT : T < 1e-8
    · obtain ⟨top, htop⟩ : ∃ top, top = visitCounts.foldl max 0 := ⟨_, rfl⟩
      have hle : ∀ c ∈ visitCounts, c ≤ top := htop ▸ (le_foldl_max visitCounts 0).2
      have htotal : (visitCounts.map fun c => if c = top then (1 : ℝ) else 0).sum =
          ((visitCounts.filter fun c => c = top).length : ℝ) := by
        rw [sum_indicator]
      have hmem : top ∈ visitCounts := by
        rcases foldl_max_mem visitCounts 0 with hzero | hmem
        · have hpos := hle c₀ hc₀
          omega
        · exact htop ▸ hmem
      have hcount : 0 < (visitCounts.filter fun c => c = top).length :=
        List.length_pos_of_mem (List.mem_filter.mpr ⟨hmem, by simp⟩)
      refine ⟨fun c => if c = top then 1 else 0, fun c _ => ?_, ?_, fun c hc d hd hcd => ?_,
        fun _ => ?_, ?_⟩
      · dsimp only
        split <;> norm_num
      · rw [htotal]
        exact Nat.cast_pos.mpr hcount
      · dsimp only
        split
        · next hc' => rw [if_pos (le_antisymm (hle d hd) (hc' ▸ hcd))]
        · split <;> norm_num
      · have hpos := hle c₀ hc₀
        exact if_neg (by omega)
      · rw [actionProbabilities, if_neg hsum, if_pos hT, ← htop]
        apply List.map_congr_left
        intro c _
        rw [proportion, htotal]
        split <;> simp
    · exact ⟨weight T, fun c _ => weight_nonneg T c, weights_sum_pos T hsum,
        fun c _ d _ hcd => weight_mono (lt_of_lt_of_le (by norm_num) (not_lt.mp hT)) hcd,
        fun _ => weight_zero (lt_of_lt_of_le (by norm_num) (not_lt.mp hT)),
        actionProbabilities_eq (not_lt.mp hT) hsum⟩

theorem actionProbabilities_shape (T : ℝ) (hne : visitCounts ≠ []) :
    (actionProbabilities visitCounts T).length = visitCounts.length ∧
    (∀ p ∈ actionProbabilities visitCounts T, 0 ≤ p) ∧
    (actionProbabilities visitCounts T).sum = 1 := by
  obtain ⟨w, hnonneg, htotal, _, _, heq⟩ := actionProbabilities_weights T hne
  obtain ⟨hpnonneg, hpsum⟩ := proportion_distribution hnonneg htotal
  refine ⟨by rw [heq, List.length_map], ?_, heq ▸ hpsum⟩
  intro p hp
  rw [heq] at hp
  obtain ⟨c, hc, rfl⟩ := List.mem_map.mp hp
  exact hpnonneg c hc

/-- The probabilities of the counts are a distribution that keeps their order. As
long as one action was visited, those that were not get nothing; above the greedy
threshold the probabilities are the proportions of the counts to the power of the
inverse temperature. -/
theorem actionProbabilities_distribution (T : ℝ) (hne : visitCounts ≠ []) :
    (actionProbabilities visitCounts T).length = visitCounts.length ∧
    (∀ p ∈ actionProbabilities visitCounts T, 0 ≤ p) ∧
    (actionProbabilities visitCounts T).sum = 1 ∧
    (∀ i < visitCounts.length, ∀ j < visitCounts.length,
      visitCounts.getD i 0 ≤ visitCounts.getD j 0 →
      (actionProbabilities visitCounts T).getD i 0 ≤
        (actionProbabilities visitCounts T).getD j 0) ∧
    (visitCounts.sum ≠ 0 → ∀ i < visitCounts.length, visitCounts.getD i 0 = 0 →
      (actionProbabilities visitCounts T).getD i 0 = 0) ∧
    (visitCounts.sum ≠ 0 → 1e-8 ≤ T → ∀ i < visitCounts.length,
      (actionProbabilities visitCounts T).getD i 0 =
        (visitCounts.getD i 0 : ℝ) ^ (1 / T) /
          (visitCounts.map fun c : ℕ => (c : ℝ) ^ (1 / T)).sum) := by
  obtain ⟨w, _, htotal, hmono, hzero, heq⟩ := actionProbabilities_weights T hne
  obtain ⟨hlength, hnonneg, hsum⟩ := actionProbabilities_shape T hne
  have hget : ∀ i < visitCounts.length, (actionProbabilities visitCounts T).getD i 0 =
      proportion w visitCounts (visitCounts.getD i 0) := by
    intro i hi
    rw [heq, List.getD_eq_getElem _ _ (by simpa using hi), List.getElem_map,
      List.getD_eq_getElem _ _ hi]
  have hmem : ∀ i < visitCounts.length, visitCounts.getD i 0 ∈ visitCounts := by
    intro i hi
    rw [List.getD_eq_getElem _ _ hi]
    exact List.getElem_mem hi
  refine ⟨hlength, hnonneg, hsum, ?_, ?_, ?_⟩
  · intro i hi j hj hij
    rw [hget i hi, hget j hj]
    exact proportion_le htotal (hmono _ (hmem i hi) _ (hmem j hj) hij)
  · intro hsum i hi hcount
    rw [hget i hi, hcount, proportion, hzero hsum, zero_div]
  · intro hsum hT i hi
    rw [actionProbabilities_eq hT hsum, List.getD_eq_getElem _ _ (by simpa using hi),
      List.getElem_map, List.getD_eq_getElem _ _ hi]
    rfl

/-- Three visits against one at temperature one. -/
theorem actionProbabilities_distribution_visits :
    (actionProbabilities [3, 1] (1 : ℝ)).getD 0 0 = 3 / 4 := by
  obtain ⟨_, _, _, _, _, hformula⟩ := actionProbabilities_distribution 1
    (show [3, 1] ≠ [] by simp)
  rw [hformula (by simp) (by norm_num) 0 (by simp)]
  norm_num

end Probabilities

section Choice

variable {R : Type} {dice : Dice ℝ R}

/-- What `rand_distr` promises of a Gamma sample, and `rand` of a weighted index: weights
that are not negative are refused just when they add up to nothing, and an index is drawn
from among theirs, never one without weight. -/
structure Dice.Lawful (dice : Dice ℝ R) : Prop where
  gamma_nonneg : ∀ alpha r, 0 < alpha → 0 ≤ (dice.gamma alpha r).1
  refuses : ∀ weights, (∀ w ∈ weights, 0 ≤ w) → (dice.weightedIndex weights = none ↔ weights.sum = 0)
  in_range : ∀ weights draw r, (∀ w ∈ weights, 0 ≤ w) → dice.weightedIndex weights = some draw →
    (draw r).1 < weights.length
  weighty : ∀ weights draw r, (∀ w ∈ weights, 0 ≤ w) → dice.weightedIndex weights = some draw →
    0 < weights.getD (draw r).1 0

/-- The factor by which temperature and noise fade. -/
theorem fading_range (step : ℕ) :
    0 < Real.exp (-0.5 * (step : ℝ)) ∧ Real.exp (-0.5 * (step : ℝ)) ≤ 1 := by
  refine ⟨Real.exp_pos _, Real.exp_le_one_iff.mpr ?_⟩
  have hstep : (0 : ℝ) ≤ step := Nat.cast_nonneg step
  linarith

variable {noiseStrength : ℝ} {step : ℕ}

theorem noiseStrengthAt_range (h : noiseStrength ∈ Set.Icc 0 1) :
    noiseStrengthAt noiseStrength step ∈ Set.Icc 0 1 := by
  obtain ⟨hpos, hle⟩ := fading_range step
  exact ⟨mul_nonneg h.1 hpos.le, mul_le_one₀ h.2 hpos.le hle⟩

/-- Only a full strength at the first step is still full. -/
theorem noiseStrengthAt_lt (h : noiseStrength ∈ Set.Icc 0 1) (hone : noiseStrength < 1 ∨ 0 < step) :
    noiseStrengthAt noiseStrength step < 1 := by
  obtain ⟨hpos, hle⟩ := fading_range step
  show noiseStrength * Real.exp (-0.5 * (step : ℝ)) < 1
  rcases hone with hone | hstep
  · exact (mul_le_of_le_one_right h.1 hle).trans_lt hone
  · have hlt : Real.exp (-0.5 * (step : ℝ)) < 1 := by
      rw [Real.exp_lt_one_iff]
      have hcast : (0 : ℝ) < step := Nat.cast_pos.mpr hstep
      linarith
    exact (mul_le_of_le_one_left hpos.le h.2).trans_lt hlt

theorem gammaSamples_spec (hdice : dice.Lawful) {alpha : ℝ} (halpha : 0 < alpha) (n : ℕ) (r : R) :
    (gammaSamples dice alpha n r).1.length = n ∧ ∀ x ∈ (gammaSamples dice alpha n r).1, 0 ≤ x := by
  induction n generalizing r with
  | zero => simp [gammaSamples]
  | succ n ih =>
    obtain ⟨hlength, hnonneg⟩ := ih (dice.gamma alpha r).2
    refine ⟨congrArg (· + 1) hlength, fun x hx => ?_⟩
    rcases List.mem_cons.mp hx with rfl | hx
    · exact hdice.gamma_nonneg alpha r halpha
    · exact hnonneg x hx

/-- What a list of noise is: one share for each action, at most one in total. -/
structure IsNoise (noise : List ℝ) (n : ℕ) : Prop where
  length : noise.length = n
  nonneg : ∀ x ∈ noise, 0 ≤ x
  total : noise.sum = 1 ∨ noise.sum = 0

theorem IsNoise.le_one {noise : List ℝ} {n : ℕ} (h : IsNoise noise n) {x : ℝ} (hx : x ∈ noise) :
    x ≤ 1 := by
  have hle : x ≤ noise.sum := List.single_le_sum h.nonneg x hx
  rcases h.total with htotal | htotal <;> linarith

theorem alpha_pos {n : ℕ} (hn : 0 < n) : (0 : ℝ) < min (10 / (n : ℝ)) 0.5 := by
  apply lt_min
  · exact div_pos (by norm_num) (Nat.cast_pos.mpr hn)
  · norm_num

theorem shares_sum {xs : List ℝ} (h : xs.sum ≠ 0) : (xs.map fun x => x / xs.sum).sum = 1 := by
  simp only [div_eq_mul_inv]
  rw [List.sum_map_mul_right, List.map_id', mul_inv_cancel₀ h]

theorem dirichletNoise_spec (hdice : dice.Lawful) {n : ℕ} (hn : 0 < n) (r : R) :
    IsNoise (dirichletNoise dice n r).1 n := by
  obtain ⟨hlength, hnonneg⟩ := gammaSamples_spec hdice (alpha_pos hn) n r
  obtain ⟨xs, hxs⟩ : ∃ xs, xs = (gammaSamples dice (min (10 / (n : ℝ)) 0.5) n r).1 := ⟨_, rfl⟩
  rw [← hxs] at hlength hnonneg
  have hfst : (dirichletNoise dice n r).1 = if 0 < xs.sum then xs.map fun x => x / xs.sum else xs := by
    rw [hxs]
    rfl
  rw [hfst]
  split
  · next hpos =>
    refine ⟨by rw [List.length_map, hlength], fun x hx => ?_, Or.inl ?_⟩
    · obtain ⟨y, hy, rfl⟩ := List.mem_map.mp hx
      exact div_nonneg (hnonneg y hy) hpos.le
    · exact shares_sum hpos.ne'
  · next hpos =>
    exact ⟨hlength, hnonneg, Or.inr (le_antisymm (not_lt.mp hpos) (List.sum_nonneg hnonneg))⟩

theorem drawNoise_spec (hdice : dice.Lawful) {n : ℕ} (hn : 0 < n) (strength : ℝ) (r : R) :
    IsNoise (drawNoise dice strength n r).1 n := by
  unfold drawNoise
  split
  · exact dirichletNoise_spec hdice hn r
  · exact ⟨List.length_replicate, fun x hx => (List.eq_of_mem_replicate hx).ge, Or.inr (by simp)⟩

/-- What mixing leaves: for noise of the right length the clamp at zero does nothing. -/
structure IsMix (strength : ℝ) (probs mixed : List ℝ) : Prop where
  length : mixed.length = probs.length
  nonneg : ∀ x ∈ mixed, 0 ≤ x
  total : mixed.sum = 1 ∨ mixed.sum = 1 - strength
  near : ∀ i < probs.length, (1 - strength) * probs.getD i 0 ≤ mixed.getD i 0 ∧
    mixed.getD i 0 ≤ (1 - strength) * probs.getD i 0 + strength

theorem sum_zipWith_mix (s : ℝ) (probs noise : List ℝ) (hlength : noise.length = probs.length) :
    (List.zipWith (fun p n => (1 - s) * p + s * n) probs noise).sum =
      (1 - s) * probs.sum + s * noise.sum := by
  induction probs generalizing noise with
  | nil =>
    have hnil : noise = [] := List.length_eq_zero_iff.mp hlength
    simp [hnil]
  | cons p probs ih =>
    cases noise with
    | nil => simp at hlength
    | cons n noise =>
      have hrest := ih noise (by simpa using hlength)
      simp only [List.zipWith_cons_cons, List.sum_cons, hrest]
      ring

theorem mixedProbs_eq {s : ℝ} {probs noise : List ℝ} (hs : s ∈ Set.Icc 0 1)
    (hprobs : ∀ p ∈ probs, 0 ≤ p) (hnoise : ∀ x ∈ noise, 0 ≤ x) :
    mixedProbs s probs noise = List.zipWith (fun p n => (1 - s) * p + s * n) probs noise := by
  unfold mixedProbs
  rw [List.map_zipWith]
  apply List.ext_getElem (by simp)
  intro i hi hi'
  rw [List.getElem_zipWith, List.getElem_zipWith]
  apply max_eq_left
  exact add_nonneg (mul_nonneg (sub_nonneg.mpr hs.2) (hprobs _ (List.getElem_mem _)))
    (mul_nonneg hs.1 (hnoise _ (List.getElem_mem _)))

theorem mixedProbs_sum {s : ℝ} {probs noise : List ℝ} (hs : s ∈ Set.Icc 0 1)
    (hprobs : ∀ p ∈ probs, 0 ≤ p) (hsum : probs.sum = 1) (hnoise : IsNoise noise probs.length) :
    (mixedProbs s probs noise).sum = 1 - s + s * noise.sum := by
  rw [mixedProbs_eq hs hprobs hnoise.nonneg, sum_zipWith_mix s probs noise hnoise.length, hsum,
    mul_one]

theorem mixedProbs_spec {s : ℝ} {probs noise : List ℝ} (hs : s ∈ Set.Icc 0 1)
    (hprobs : ∀ p ∈ probs, 0 ≤ p) (hsum : probs.sum = 1) (hnoise : IsNoise noise probs.length) :
    IsMix s probs (mixedProbs s probs noise) := by
  have heq := mixedProbs_eq hs hprobs hnoise.nonneg
  have hmixed : (mixedProbs s probs noise).length = probs.length := by
    rw [heq, List.length_zipWith, hnoise.length, min_self]
  constructor
  · exact hmixed
  · intro x hx
    obtain ⟨y, _, rfl⟩ := List.mem_map.mp hx
    exact le_max_right y 0
  · rw [mixedProbs_sum hs hprobs hsum hnoise]
    rcases hnoise.total with htotal | htotal <;> rw [htotal]
    · exact Or.inl (by ring)
    · exact Or.inr (by ring)
  · intro i hi
    have hi' : i < noise.length := hnoise.length ▸ hi
    have hget : (mixedProbs s probs noise).getD i 0 =
        (1 - s) * probs.getD i 0 + s * noise.getD i 0 := by
      rw [List.getD_eq_getElem _ _ (hmixed ▸ hi), List.getD_eq_getElem _ _ hi,
        List.getD_eq_getElem _ _ hi']
      simp only [heq, List.getElem_zipWith]
    have hmem : noise.getD i 0 ∈ noise := by
      rw [List.getD_eq_getElem _ _ hi']
      exact List.getElem_mem hi'
    have hlow : 0 ≤ s * noise.getD i 0 := mul_nonneg hs.1 (hnoise.nonneg _ hmem)
    have hhigh : s * noise.getD i 0 ≤ s := mul_le_of_le_one_right hs.1 (hnoise.le_one hmem)
    rw [hget]
    constructor <;> linarith

/-- Noise adds up to nothing only where every sample was zero. -/
theorem dirichletNoise_zero (hdice : dice.Lawful) {n : ℕ} (hn : 0 < n) {r : R}
    (h : (dirichletNoise dice n r).1.sum = 0) :
    ∀ x ∈ (gammaSamples dice (min (10 / (n : ℝ)) 0.5) n r).1, x = 0 := by
  obtain ⟨_, hnonneg⟩ := gammaSamples_spec hdice (alpha_pos hn) n r
  obtain ⟨xs, hxs⟩ : ∃ xs, xs = (gammaSamples dice (min (10 / (n : ℝ)) 0.5) n r).1 := ⟨_, rfl⟩
  have hfst : (dirichletNoise dice n r).1 = if 0 < xs.sum then xs.map fun x => x / xs.sum else xs := by
    rw [hxs]
    rfl
  rw [hfst] at h
  rw [← hxs] at hnonneg ⊢
  split at h
  · next hpos =>
    rw [shares_sum hpos.ne'] at h
    exact absurd h one_ne_zero
  · exact fun x hx => List.all_zero_of_le_zero_le_of_sum_eq_zero hnonneg h hx

section Select

variable {G P B : Type} [Tilers G P B ℝ] {node : Searched ℝ} {env : G} {ids : List ℕ}

noncomputable def choiceProbs (node : Searched ℝ) (step : ℕ) (ids : List ℕ) : List ℝ :=
  actionProbabilities (ids.map fun a => node.edgeVisits.getD a 0) (temperatureAt step)

/-- What `select_action` does with its draws: it mixes the probabilities with noise, and
draws by the mixed weights if they are accepted. -/
theorem selectAction_weighed (hdice : dice.Lawful) (hstrength : noiseStrength ∈ Set.Icc 0 1)
    (hids : (validActions env).mapM (encode env) = some ids) (hne : ids ≠ [])
    (node : Searched ℝ) (step : ℕ) (r : R) :
    ∃ noise mixed r',
      drawNoise dice (noiseStrengthAt noiseStrength step) ids.length r = (noise, r') ∧
      IsNoise noise ids.length ∧
      IsMix (noiseStrengthAt noiseStrength step) (choiceProbs node step ids) mixed ∧
      mixed.length = ids.length ∧
      mixed.sum = 1 - noiseStrengthAt noiseStrength step +
        noiseStrengthAt noiseStrength step * noise.sum ∧
      selectAction dice noiseStrength node env step r =
        (dice.weightedIndex mixed).bind fun draw =>
          (ids[(draw r').1]?).map fun action => (action, (draw r').2) := by
  have hpos : 0 < ids.length := List.length_pos_iff.mpr hne
  have hcounts : (ids.map fun a => node.edgeVisits.getD a 0) ≠ [] := by simpa using hne
  obtain ⟨hlength, hnonneg, hsum⟩ := actionProbabilities_shape (temperatureAt step) hcounts
  obtain ⟨s, hs⟩ : ∃ s, s = noiseStrengthAt noiseStrength step := ⟨_, rfl⟩
  have hrange : s ∈ Set.Icc 0 1 := hs ▸ noiseStrengthAt_range hstrength
  obtain ⟨noise, r', hdraw⟩ : ∃ noise r', drawNoise dice s ids.length r = (noise, r') :=
    ⟨_, _, rfl⟩
  have hprobs : (choiceProbs node step ids).length = ids.length := by
    rw [choiceProbs, hlength, List.length_map]
  have hnoise : IsNoise noise ids.length := by
    have hspec := drawNoise_spec hdice hpos s r
    rwa [hdraw] at hspec
  have hmix := mixedProbs_spec hrange hnonneg hsum (hprobs ▸ hnoise)
  refine ⟨noise, mixedProbs s (choiceProbs node step ids) noise, r', hs ▸ hdraw, hnoise,
    hs ▸ hmix, hmix.length.trans hprobs,
    hs ▸ mixedProbs_sum hrange hnonneg hsum (hprobs ▸ hnoise), ?_⟩
  rw [selectAction, hids, Option.bind_some, if_neg hpos.ne']
  dsimp only
  rw [← hs, hdraw]
  rfl

/-- Weights that add up to something are accepted, and lead to an action of positive weight. -/
theorem drawn_action (hdice : dice.Lawful) {s : ℝ} {probs mixed : List ℝ}
    (hmix : IsMix s probs mixed) (hlength : mixed.length = ids.length) (hmass : mixed.sum ≠ 0)
    (r : R) : ∃ draw, dice.weightedIndex mixed = some draw ∧
      ∃ hi : (draw r).1 < ids.length, 0 < mixed.getD (draw r).1 0 ∧
        ((dice.weightedIndex mixed).bind fun draw =>
          (ids[(draw r).1]?).map fun action => (action, (draw r).2)) =
            some (ids[(draw r).1], (draw r).2) := by
  obtain ⟨draw, hdraw⟩ : ∃ draw, dice.weightedIndex mixed = some draw :=
    Option.ne_none_iff_exists'.mp fun hnone => hmass ((hdice.refuses mixed hmix.nonneg).mp hnone)
  have hi : (draw r).1 < ids.length := hlength ▸ hdice.in_range mixed draw r hmix.nonneg hdraw
  refine ⟨draw, hdraw, hi, hdice.weighty mixed draw r hmix.nonneg hdraw, ?_⟩
  rw [hdraw, Option.bind_some, List.getElem?_eq_getElem hi, Option.map_some]

/-- Without noise only visited actions have weight, as long as there are any. -/
theorem drawn_visited {mixed : List ℝ} (hmix : IsMix 0 (choiceProbs node step ids) mixed)
    (hvisits : (ids.map fun a => node.edgeVisits.getD a 0).sum ≠ 0) {i : ℕ} (hi : i < ids.length)
    (hweight : 0 < mixed.getD i 0) : 0 < node.edgeVisits.getD ids[i] 0 := by
  have hne : (ids.map fun a => node.edgeVisits.getD a 0) ≠ [] := by
    intro hnil
    rw [hnil] at hvisits
    exact hvisits rfl
  obtain ⟨w, -, -, -, hzero, heq⟩ := actionProbabilities_weights (temperatureAt step) hne
  by_contra hnone
  have hlt : i < (choiceProbs node step ids).length := by
    rwa [choiceProbs, (actionProbabilities_shape _ hne).1, List.length_map]
  have hprob : (choiceProbs node step ids).getD i 0 = 0 := by
    rw [List.getD_eq_getElem _ _ hlt]
    simp only [choiceProbs, heq, List.getElem_map]
    rw [Nat.le_zero.mp (not_lt.mp hnone), proportion, hzero hvisits, zero_div]
  have hle := (hmix.near i hlt).2
  rw [hprob] at hle
  linarith

/-- Short of full strength there is always an action to select. -/
theorem selectAction_returns (hdice : dice.Lawful) (hstrength : noiseStrength ∈ Set.Ico 0 1)
    (node : Searched ℝ) (hids : (validActions env).mapM (encode env) = some ids) (hne : ids ≠ [])
    (step : ℕ) (r : R) :
    ∃ x, selectAction dice noiseStrength node env step r = some x := by
  have hclosed : noiseStrength ∈ Set.Icc 0 1 := Set.Ico_subset_Icc_self hstrength
  obtain ⟨noise, mixed, r', -, hnoise, hmix, hlength, htotal, hselect⟩ :=
    selectAction_weighed hdice hclosed hids hne node step r
  have hlt : noiseStrengthAt noiseStrength step < 1 := noiseStrengthAt_lt hclosed (.inl hstrength.2)
  have hrange : noiseStrengthAt noiseStrength step ∈ Set.Icc 0 1 := noiseStrengthAt_range hclosed
  have hmass : 0 < mixed.sum := by
    rw [htotal]
    have hshare := mul_nonneg hrange.1 (List.sum_nonneg hnoise.nonneg)
    linarith
  obtain ⟨draw, -, hi, -, hdrawn⟩ := drawn_action hdice hmix hlength hmass.ne' r'
  exact ⟨_, hselect.trans hdrawn⟩

/-- `select_action` panics where a full strength at the first step meets samples that are
all zero. Else it draws by weights that stay within the strength of the probabilities, and
returns the valid action with the drawn index, whose weight is positive. -/
theorem selectAction_drawn (hdice : dice.Lawful) (hstrength : noiseStrength ∈ Set.Icc 0 1)
    (hids : (validActions env).mapM (encode env) = some ids) (hne : ids ≠ []) (r : R) :
    (noiseStrength = 1 ∧ step = 0 ∧
      (∀ x ∈ (gammaSamples dice (min (10 / (ids.length : ℝ)) 0.5) ids.length r).1, x = 0) ∧
      selectAction dice noiseStrength node env step r = none) ∨
    ∃ mixed r' draw,
      IsMix (noiseStrengthAt noiseStrength step) (choiceProbs node step ids) mixed ∧
      dice.weightedIndex mixed = some draw ∧
      ∃ hi : (draw r').1 < ids.length, 0 < mixed.getD (draw r').1 0 ∧
        selectAction dice noiseStrength node env step r =
          some (ids[(draw r').1], (draw r').2) := by
  obtain ⟨noise, mixed, r', hdraw, hnoise, hspec, hlength, htotal, hselect⟩ :=
    selectAction_weighed hdice hstrength hids hne node step r
  by_cases hzero : mixed.sum = 0
  · -- the noise is missing and nothing is left to the probabilities
    left
    have hone : noiseStrengthAt noiseStrength step = 1 ∧ noise.sum = 0 := by
      rcases hnoise.total with hnoised | hnoised <;> rw [hnoised] at htotal
      · linarith
      · exact ⟨by linarith, hnoised⟩
    have hfull : noiseStrength = 1 ∧ step = 0 := by
      by_contra hnot
      have hlt : noiseStrengthAt noiseStrength step < 1 := noiseStrengthAt_lt hstrength (by
        by_contra hboth
        push Not at hboth
        exact hnot ⟨le_antisymm hstrength.2 hboth.1, Nat.le_zero.mp hboth.2⟩)
      rw [hone.1] at hlt
      exact lt_irrefl _ hlt
    have hrefused := (hdice.refuses mixed hspec.nonneg).mpr hzero
    refine ⟨hfull.1, hfull.2, ?_, by rw [hselect, hrefused, Option.bind_none]⟩
    apply dirichletNoise_zero hdice (List.length_pos_iff.mpr hne)
    rw [drawNoise, if_pos (by rw [hone.1]; exact one_pos)] at hdraw
    rw [hdraw]
    exact hone.2
  · right
    obtain ⟨draw, hdrawn, hi, hweight, haction⟩ := drawn_action hdice hspec hlength hzero r'
    exact ⟨mixed, r', draw, hspec, hdrawn, hi, hweight, hselect.trans haction⟩

noncomputable def firstWeighty {R : Type} (weights : List ℝ) : Option (R → ℕ × R) :=
  if weights.sum = 0 then none else some fun r => (weights.findIdx fun w => 0 < w, r)

theorem firstWeighty_spec {weights : List ℝ} (hw : ∀ w ∈ weights, 0 ≤ w) {draw : R → ℕ × R}
    (h : firstWeighty weights = some draw) (r : R) :
    (draw r).1 < weights.length ∧ 0 < weights.getD (draw r).1 0 := by
  unfold firstWeighty at h
  split at h
  · cases h
  · next hsum =>
    obtain rfl := Option.some.inj h
    have hsome : ∃ w ∈ weights, decide (0 < w) = true := by
      by_contra hnone
      push Not at hnone
      apply hsum
      apply List.sum_eq_zero
      intro w hmem
      exact le_antisymm (not_lt.mp fun hpos => hnone w hmem (decide_eq_true hpos)) (hw w hmem)
    have hlt := List.findIdx_lt_length.mpr hsome
    refine ⟨hlt, ?_⟩
    rw [List.getD_eq_getElem _ _ hlt]
    exact of_decide_eq_true (List.findIdx_getElem (w := hlt))

noncomputable def loaded : Dice ℝ R := ⟨fun _ r => (0, r), firstWeighty⟩

theorem loaded_lawful : (loaded : Dice ℝ R).Lawful where
  gamma_nonneg _ _ _ := le_rfl
  refuses weights _ := by simp [loaded, firstWeighty]
  in_range _ _ r hw h := (firstWeighty_spec hw h r).1
  weighty _ _ r hw h := (firstWeighty_spec hw h r).2

/-- On the fourth turn of the tiny job one of its two actions is drawn. -/
theorem selectAction_drawn_job : ∃ action, action ∈ [0, 1] ∧
    selectAction (G := Job) loaded 0.25 ⟨0, [3, 1], none⟩ ⟨2, 0⟩ 3 () = some (action, ()) := by
  have hstrength : (0.25 : ℝ) ∈ Set.Icc 0 1 := by constructor <;> norm_num
  have hids : (validActions (⟨2, 0⟩ : Job)).mapM (encode (⟨2, 0⟩ : Job)) = some [0, 1] := rfl
  rcases selectAction_drawn loaded_lawful hstrength hids (by simp) () with
    ⟨hone, _⟩ | ⟨_, _, _, _, _, hi, _, hselect⟩
  · norm_num at hone
  · exact ⟨_, List.getElem_mem hi, hselect⟩

end Select

end Choice

end Mcts.ActionChoice
