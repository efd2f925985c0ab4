import Mcts.PruningRule
import Mcts.Proportions
import Mathlib.Analysis.SpecialFunctions.Pow.Real
import Mathlib.Analysis.Real.Sqrt

/-!
The prior that the scores at the root are computed with. The two transformations
of the buffer are read as functions of the action: the noise is blended in and
the result divided by its total, then the temperature takes a power of it and
divides again. What comes out is a distribution that the power has only drawn
together; elsewhere in the tree the stored priors are used as they are.
-/
namespace Mcts.RootPrior

open Environments Nodes Engine ArenaInvariant PruningRule Proportions

noncomputable instance : Roots ℝ where
  sqrt := Real.sqrt
  powf := (· ^ ·)

variable {A F : Type} [Act A] [Field F]

section Blend

variable [DecidableEq A]

def mixed (m : MCTS A F) (node : Node A F) (a : A) : F :=
  match m.rootNoise with
  | some noise =>
    (1 - m.rootNoiseEpsilon) * node.prior a + m.rootNoiseEpsilon * (noise.lookup a).getD 0
  | none => node.prior a

theorem mixed_none {m : MCTS A F} (h : m.rootNoise = none) (node : Node A F) :
    mixed m node = node.prior := by
  funext a
  simp [mixed, h]

theorem mixed_some {m : MCTS A F} {noise : HashMap A F} (h : m.rootNoise = some noise)
    (node : Node A F) : mixed m node = fun a =>
      (1 - m.rootNoiseEpsilon) * node.prior a + m.rootNoiseEpsilon * (noise.lookup a).getD 0 := by
  funext a
  simp [mixed, h]

def blend (m : MCTS A F) (node : Node A F) : A → F :=
  proportion (mixed m node) node.validActions

/-- Noise that leaves some mass on the valid actions. -/
structure Blendable [LinearOrder F] (noise : HashMap A F) (epsilon : F) (node : Node A F) : Prop where
  nonneg : ∀ a x, noise.lookup a = some x → 0 ≤ x
  epsilon_nonneg : 0 ≤ epsilon
  epsilon_le : epsilon ≤ 1
  mass : epsilon < 1 ∨ ∃ a ∈ node.validActions, ∃ x, noise.lookup a = some x ∧ 0 < x

end Blend

section Reading

structure Reads (node : Node A F) (buf : List F) (p : A → F) : Prop where
  length : buf.length = node.numActions
  value : ∀ a ∈ node.validActions, buf.getD (toActionIndex a) 0 = p a

variable {node : Node A F} {buf : List F} {p : A → F}

theorem Reads.modify (hinj : Function.Injective (toActionIndex : A → ℕ)) (hn : node.WellFormed)
    (h : Reads node buf p) (f : A → F → F) :
    Reads node (node.validActions.foldl (fun buf a => buf.modify (toActionIndex a) (f a)) buf)
      (fun a => f a (p a)) where
  length := (Dense.length_foldl_modify _ f _ _).trans h.length
  value a ha := by
    have hnodup := hn.valid_nodup.map hinj
    rw [Dense.getD_foldl_modify _ f _ _ a 0 hnodup ha (h.length ▸ hn.valid_lt a ha), h.value a ha]

theorem Reads.total (h : Reads node buf p) :
    MCTS.bufferTotal node buf = (node.validActions.map p).sum := by
  unfold MCTS.bufferTotal
  rw [List.map_congr_left h.value]

/-- Renormalising makes proportions of the entries. -/
theorem Reads.renormalize [LinearOrder F] (hinj : Function.Injective (toActionIndex : A → ℕ))
    (hn : node.WellFormed) (h : Reads node buf p) (htotal : 0 < (node.validActions.map p).sum) :
    Reads node (MCTS.renormalize node buf) (proportion p node.validActions) := by
  have heq : MCTS.renormalize node buf = node.validActions.foldl (fun buf a =>
      buf.modify (toActionIndex a) (· / (node.validActions.map p).sum)) buf := by
    unfold MCTS.renormalize
    dsimp only
    rw [h.total, if_pos htotal]
  rw [heq]
  exact h.modify hinj hn fun _ x => x / (node.validActions.map p).sum

theorem reads_priors (hn : node.WellFormed) : Reads node node.priorProbs node.prior where
  length := hn.prior_length
  value _ _ := rfl

end Reading

section Blending

variable [DecidableEq A] [LinearOrder F] [IsStrictOrderedRing F]
variable {m : MCTS A F} {node : Node A F}

/-- What is left to divide by is positive. -/
theorem mixed_total (hp : IsDistribution node.prior node.validActions)
    (hnoise : ∀ noise, m.rootNoise = some noise → Blendable noise m.rootNoiseEpsilon node) :
    (∀ a ∈ node.validActions, 0 ≤ mixed m node a) ∧
      0 < (node.validActions.map (mixed m node)).sum := by
  cases hregistered : m.rootNoise with
  | none =>
    rw [mixed_none hregistered, hp.total]
    exact ⟨hp.nonneg, one_pos⟩
  | some noise =>
    obtain ⟨hentries, heps, heps', hmass⟩ := hnoise noise hregistered
    have hextra : ∀ a, 0 ≤ (noise.lookup a).getD 0 := by
      intro a
      cases hlookup : noise.lookup a with
      | none => exact le_refl 0
      | some x => exact hentries a x hlookup
    have hkept : 0 ≤ 1 - m.rootNoiseEpsilon := sub_nonneg.mpr heps'
    rw [mixed_some hregistered]
    refine ⟨fun a ha => add_nonneg (mul_nonneg hkept (hp.nonneg a ha))
      (mul_nonneg heps (hextra a)), ?_⟩
    rw [List.sum_map_add, List.sum_map_mul_left, List.sum_map_mul_left, hp.total, mul_one]
    have hsum : 0 ≤ (node.validActions.map fun a => (noise.lookup a).getD 0).sum := by
      apply List.sum_nonneg
      intro x hx
      obtain ⟨a, _, rfl⟩ := List.mem_map.mp hx
      exact hextra a
    rcases heps'.lt_or_eq with hlt | hone
    · exact add_pos_of_pos_of_nonneg (sub_pos.mpr hlt) (mul_nonneg heps hsum)
    · obtain ⟨a, ha, x, hx, hpos⟩ := hmass.resolve_left hone.not_lt
      have hle : x ≤ (node.validActions.map fun a => (noise.lookup a).getD 0).sum := by
        refine List.single_le_sum ?_ x (List.mem_map.mpr ⟨a, ha, by rw [hx, Option.getD_some]⟩)
        intro y hy
        obtain ⟨b, _, rfl⟩ := List.mem_map.mp hy
        exact hextra b
      rw [hone, sub_self, zero_add, one_mul]
      exact hpos.trans_le hle

/-- The blend is a distribution. -/
theorem blend_distribution (hp : IsDistribution node.prior node.validActions)
    (hnoise : ∀ noise, m.rootNoise = some noise → Blendable noise m.rootNoiseEpsilon node) :
    IsDistribution (blend m node) node.validActions :=
  proportion_distribution (mixed_total hp hnoise).1 (mixed_total hp hnoise).2

/-- The buffer before the temperature is applied holds the blend. -/
theorem reads_blend (hinj : Function.Injective (toActionIndex : A → ℕ)) (hn : node.WellFormed)
    (hp : IsDistribution node.prior node.validActions)
    (hnoise : ∀ noise, m.rootNoise = some noise → Blendable noise m.rootNoiseEpsilon node) :
    Reads node (match m.rootNoise with
      | some noise => MCTS.blendNoise node noise m.rootNoiseEpsilon node.priorProbs
      | none => node.priorProbs) (blend m node) := by
  have htotal := (mixed_total hp hnoise).2
  cases hregistered : m.rootNoise with
  | none =>
    refine ⟨hn.prior_length, fun a ha => ?_⟩
    rw [blend, mixed_none hregistered, proportion_self hp.total]
    rfl
  | some noise =>
    show Reads node (MCTS.blendNoise node noise m.rootNoiseEpsilon node.priorProbs) (blend m node)
    unfold MCTS.blendNoise
    rw [mixed_some hregistered] at htotal
    rw [Dense.foldl_set, blend, mixed_some hregistered]
    exact ((reads_priors hn).modify hinj hn fun a _ =>
      (1 - m.rootNoiseEpsilon) * node.prior a +
        m.rootNoiseEpsilon * (noise.lookup a).getD 0).renormalize hinj hn htotal

end Blending

section Temperature

variable {m : MCTS A ℝ} {node : Node A ℝ} {buf : List ℝ} {p : A → ℝ}

noncomputable def tempered (temp : ℝ) (p : A → ℝ) (a : A) : ℝ := max (p a) 1e-30 ^ (1 / temp)

omit [Act A] in
theorem tempered_pos (temp : ℝ) (p : A → ℝ) (a : A) : 0 < tempered temp p a :=
  Real.rpow_pos_of_pos (lt_max_of_lt_right (by norm_num)) _

omit [Act A] in
theorem tempered_total (temp : ℝ) (p : A → ℝ) {actions : List A} (h : actions ≠ []) :
    0 < (actions.map (tempered temp p)).sum := by
  refine List.sum_pos _ ?_ (by simpa using h)
  intro x hx
  obtain ⟨a, _, rfl⟩ := List.mem_map.mp hx
  exact tempered_pos temp p a

theorem Reads.softmaxTemperature (hinj : Function.Injective (toActionIndex : A → ℕ))
    (hn : node.WellFormed) (h : Reads node buf p) (hnil : node.validActions ≠ []) (temp : ℝ) :
    Reads node (MCTS.softmaxTemperature node temp buf)
      (proportion (tempered temp p) node.validActions) :=
  (h.modify hinj hn fun _ x => powf (max x 1e-30) (1 / temp)).renormalize hinj hn
    (tempered_total temp p hnil)

variable [DecidableEq A]

/-- The two transformations as one function: the blend, tempered where the
temperature differs from one by more than the tolerance. -/
theorem effectivePrior_root (hinj : Function.Injective (toActionIndex : A → ℕ))
    (hn : node.WellFormed) (hp : IsDistribution node.prior node.validActions)
    (hnoise : ∀ noise, m.rootNoise = some noise → Blendable noise m.rootNoiseEpsilon node)
    {a : A} (ha : a ∈ node.validActions) :
    m.effectivePrior node true a =
      if 1e-6 < |m.rootSoftmaxTemp - 1| then
        proportion (tempered m.rootSoftmaxTemp (blend m node)) node.validActions a
      else blend m node a := by
  have hblend := reads_blend hinj hn hp hnoise
  have hsoftened := hblend.softmaxTemperature hinj hn hp.ne_nil m.rootSoftmaxTemp
  unfold MCTS.effectivePrior MCTS.effectiveBuf
  by_cases hsoft : 1e-6 < |m.rootSoftmaxTemp - 1|
  · simp only [hsoft, decide_true, Bool.and_self, Bool.or_true, if_true]
    exact hsoftened.value a ha
  · cases hregistered : m.rootNoise with
    | none =>
      rw [hregistered] at hblend
      simp only [hsoft, decide_false, Bool.and_false, Option.isSome_none, Bool.or_false,
        Bool.false_eq_true, if_false]
      exact hblend.value a ha
    | some noise =>
      rw [hregistered] at hblend
      simp only [hsoft, decide_false, Bool.and_false, Option.isSome_some, Bool.and_self,
        Bool.or_false, Bool.false_eq_true, if_true, if_false]
      exact hblend.value a ha

omit [Act A] [DecidableEq A] in
/-- A floor below every prior changes none. -/
theorem tempered_above_floor (temp : ℝ) {p : A → ℝ} {actions : List A}
    (h : ∀ a ∈ actions, 1e-30 ≤ p a) :
    ∀ a ∈ actions, proportion (tempered temp p) actions a =
      proportion (fun a => p a ^ (1 / temp)) actions a := by
  have heach : ∀ a ∈ actions, tempered temp p a = p a ^ (1 / temp) := by
    intro a ha
    rw [tempered, max_eq_left (h a ha)]
  intro a ha
  rw [proportion, proportion, heach a ha, List.map_congr_left heach]

/-- At the root the prior used for scoring is a distribution, in the order of the
renormalised blend, equal to it at temperature one and no more spread out than it
at higher temperatures; elsewhere it is the stored prior. -/
theorem rootPrior_flattens (hinj : Function.Injective (toActionIndex : A → ℕ))
    (m : MCTS A ℝ) (node : Node A ℝ) (hn : node.WellFormed)
    (hp : IsDistribution node.prior node.validActions)
    (hnoise : ∀ noise, m.rootNoise = some noise → Blendable noise m.rootNoiseEpsilon node)
    (htemp : 0 < m.rootSoftmaxTemp) :
    IsDistribution (m.effectivePrior node true) node.validActions ∧
      (∀ a ∈ node.validActions, ∀ b ∈ node.validActions, blend m node b ≤ blend m node a →
        m.effectivePrior node true b ≤ m.effectivePrior node true a) ∧
      (m.rootSoftmaxTemp = 1 →
        ∀ a ∈ node.validActions, m.effectivePrior node true a = blend m node a) ∧
      (1 ≤ m.rootSoftmaxTemp → (∀ a ∈ node.validActions, 1e-30 ≤ blend m node a) →
        (node.validActions.map (m.effectivePrior node true)).maximum ≤
            (node.validActions.map (blend m node)).maximum ∧
          (node.validActions.map (blend m node)).minimum ≤
            (node.validActions.map (m.effectivePrior node true)).minimum) ∧
      ∀ a, m.effectivePrior node false a = node.prior a := by
  have heff := fun a ha => effectivePrior_root hinj hn hp hnoise (a := a) ha
  have hblend := blend_distribution hp hnoise
  have htotal := tempered_total m.rootSoftmaxTemp (blend m node) hp.ne_nil
  refine ⟨?_, ?_, ?_, ?_, fun a => rfl⟩
  · split at heff
    · exact (proportion_distribution (fun a _ => (tempered_pos _ _ a).le) htotal).congr heff
    · exact hblend.congr heff
  · intro a ha b hb hle
    rw [heff a ha, heff b hb]
    split
    · apply proportion_le htotal
      show max (blend m node b) 1e-30 ^ _ ≤ max (blend m node a) 1e-30 ^ _
      gcongr
    · exact hle
  · intro hone a ha
    rw [heff a ha, hone, sub_self, abs_zero, if_neg (by norm_num)]
  · intro hone hfloor
    rw [List.map_congr_left heff]
    split
    · have hpos : ∀ a ∈ node.validActions, 0 < blend m node a := by
        intro a ha
        have hfloor' := hfloor a ha
        have hsmall : (0 : ℝ) < 1e-30 := by norm_num
        linarith
      have hinv : 1 / m.rootSoftmaxTemp ≤ 1 := (div_le_one htemp).mpr hone
      rw [List.map_congr_left (tempered_above_floor m.rootSoftmaxTemp hfloor)]
      exact ⟨maximum_powers_le hblend hpos (by positivity) hinv,
        le_minimum_powers hblend hpos (by positivity) hinv⟩
    · exact ⟨le_refl _, le_refl _⟩

end Temperature

section Skewed

noncomputable def skewed : Node Bool ℝ := Node.new 2 [⟨false, 0.9⟩, ⟨true, 0.1⟩] 0 1

noncomputable def partialNoise : HashMap Bool ℝ := (∅ : HashMap Bool ℝ).insert true 0.6

noncomputable def noisySearch : MCTS Bool ℝ :=
  { (MCTS.new 4 : MCTS Bool ℝ).perturbRootPrior partialNoise 0.25 with rootSoftmaxTemp := 2.0 }

theorem skewed_flattens :
    IsDistribution (noisySearch.effectivePrior skewed true) skewed.validActions ∧
      (∀ a ∈ skewed.validActions, ∀ b ∈ skewed.validActions,
        blend noisySearch skewed b ≤ blend noisySearch skewed a →
          noisySearch.effectivePrior skewed true b ≤ noisySearch.effectivePrior skewed true a) ∧
      (noisySearch.rootSoftmaxTemp = 1 → ∀ a ∈ skewed.validActions,
        noisySearch.effectivePrior skewed true a = blend noisySearch skewed a) ∧
      (1 ≤ noisySearch.rootSoftmaxTemp →
        (∀ a ∈ skewed.validActions, 1e-30 ≤ blend noisySearch skewed a) →
        (skewed.validActions.map (noisySearch.effectivePrior skewed true)).maximum ≤
            (skewed.validActions.map (blend noisySearch skewed)).maximum ∧
          (skewed.validActions.map (blend noisySearch skewed)).minimum ≤
            (skewed.validActions.map (noisySearch.effectivePrior skewed true)).minimum) ∧
      ∀ a, noisySearch.effectivePrior skewed false a = skewed.prior a := by
  have hprior : skewed.prior false = 0.9 ∧ skewed.prior true = 0.1 := ⟨rfl, rfl⟩
  refine rootPrior_flattens heapGame_lawful.index_injective noisySearch skewed ?_ ?_ ?_ ?_
  · exact Node.new_wellFormed 2 _ 0 1 (by simp) fun e _ => Bool.toNat_lt e.1
  · refine ⟨fun a _ => ?_, ?_⟩
    · cases a with
      | false => rw [hprior.1]; norm_num
      | true => rw [hprior.2]; norm_num
    · show ([false, true].map skewed.prior).sum = 1
      simp only [List.map_cons, List.map_nil, List.sum_cons, List.sum_nil, hprior]
      norm_num
  · intro noise hnoise
    have heq : partialNoise = noise := Option.some.inj hnoise
    subst heq
    refine ⟨fun a x hx => ?_, ?_, ?_, Or.inl ?_⟩
    · cases a with
      | false =>
        rw [partialNoise, AList.lookup_insert_ne (by decide)] at hx
        exact absurd hx (by simp)
      | true =>
        rw [partialNoise, AList.lookup_insert] at hx
        rw [← Option.some.inj hx]
        norm_num
    · show (0 : ℝ) ≤ 0.25
      norm_num
    · show (0.25 : ℝ) ≤ 1
      norm_num
    · show (0.25 : ℝ) < 1
      norm_num
  · show (0 : ℝ) < 2.0
    norm_num

end Skewed

end Mcts.RootPrior
