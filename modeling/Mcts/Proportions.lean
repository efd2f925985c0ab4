import Mathlib.Algebra.Order.BigOperators.Group.List
import Mathlib.Algebra.BigOperators.Ring.List
import Mathlib.Analysis.SpecialFunctions.Pow.Real
import Mathlib.Data.List.MinMax

/-!
Weights over a list divided by their total. Proportions keep the order of the
weights; raising the weights of a distribution to a power of at most one draws
the proportions together, so that they stay within the range of the weights.
-/
namespace Mcts.Proportions

variable {α F : Type*}

section Field

variable [Field F] [LinearOrder F]

structure IsDistribution (p : α → F) (xs : List α) : Prop where
  nonneg : ∀ a ∈ xs, 0 ≤ p a
  total : (xs.map p).sum = 1

def proportion (w : α → F) (xs : List α) (a : α) : F := w a / (xs.map w).sum

variable {w : α → F} {xs : List α} {a b : α}

theorem IsDistribution.ne_nil (h : IsDistribution w xs) : xs ≠ [] := by
  intro hnil
  have htotal := h.total
  simp [hnil] at htotal

theorem IsDistribution.congr {q : α → F} (h : IsDistribution w xs) (heq : ∀ a ∈ xs, q a = w a) :
    IsDistribution q xs where
  nonneg a ha := heq a ha ▸ h.nonneg a ha
  total := by rw [List.map_congr_left heq, h.total]

omit [LinearOrder F] in
/-- Weights that add up to one are their own proportions. -/
theorem proportion_self (h : (xs.map w).sum = 1) : proportion w xs a = w a := by
  rw [proportion, h, div_one]

omit [LinearOrder F] in
theorem proportion_sum (h : (xs.map w).sum ≠ 0) : (xs.map (proportion w xs)).sum = 1 := by
  have hscale : xs.map (proportion w xs) = xs.map fun a => (xs.map w).sum⁻¹ * w a :=
    List.map_congr_left fun a _ => div_eq_inv_mul _ _
  rw [hscale, List.sum_map_mul_left, inv_mul_cancel₀ h]

variable [IsStrictOrderedRing F]

theorem proportion_distribution (hw : ∀ a ∈ xs, 0 ≤ w a) (htotal : 0 < (xs.map w).sum) :
    IsDistribution (proportion w xs) xs where
  nonneg a ha := div_nonneg (hw a ha) htotal.le
  total := proportion_sum htotal.ne'

/-- The greater weight has the greater proportion. -/
theorem proportion_le (htotal : 0 < (xs.map w).sum) (h : w b ≤ w a) :
    proportion w xs b ≤ proportion w xs a :=
  div_le_div_of_nonneg_right h htotal.le

end Field

section Powers

variable {p : α → ℝ} {xs : List α} {a : α} {s bound : ℝ}

/-- The total of the powers is at least that of the distribution scaled by the
power that its greatest weight lacks. -/
theorem le_total_powers (hp : IsDistribution p xs) (hpos : ∀ a ∈ xs, 0 < p a) (hs : s ≤ 1)
    (hbound : ∀ a ∈ xs, p a ≤ bound) :
    bound ^ (s - 1) ≤ (xs.map fun a => p a ^ s).sum := by
  have heach : ∀ a ∈ xs, bound ^ (s - 1) * p a ≤ p a ^ s := by
    intro a ha
    have hlow : bound ^ (s - 1) ≤ p a ^ (s - 1) :=
      Real.rpow_le_rpow_of_nonpos (hpos a ha) (hbound a ha) (by linarith)
    calc bound ^ (s - 1) * p a ≤ p a ^ (s - 1) * p a :=
          mul_le_mul_of_nonneg_right hlow (hpos a ha).le
      _ = p a ^ s := by
          rw [← Real.rpow_add_one (hpos a ha).ne', sub_add_cancel]
  have hsum := List.sum_le_sum heach
  rwa [List.sum_map_mul_left, hp.total, mul_one] at hsum

theorem total_powers_le (hp : IsDistribution p xs) (hs : s ≤ 1) (hpos : 0 < bound)
    (hbound : ∀ a ∈ xs, bound ≤ p a) :
    (xs.map fun a => p a ^ s).sum ≤ bound ^ (s - 1) := by
  have heach : ∀ a ∈ xs, p a ^ s ≤ bound ^ (s - 1) * p a := by
    intro a ha
    have hpa : 0 < p a := hpos.trans_le (hbound a ha)
    have hhigh : p a ^ (s - 1) ≤ bound ^ (s - 1) :=
      Real.rpow_le_rpow_of_nonpos hpos (hbound a ha) (by linarith)
    calc p a ^ s = p a ^ (s - 1) * p a := by
          rw [← Real.rpow_add_one hpa.ne', sub_add_cancel]
      _ ≤ bound ^ (s - 1) * p a := mul_le_mul_of_nonneg_right hhigh hpa.le
  have hsum := List.sum_le_sum heach
  rwa [List.sum_map_mul_left, hp.total, mul_one] at hsum

/-- No proportion of the powers exceeds a bound on the weights. -/
theorem proportion_powers_le (hp : IsDistribution p xs) (hpos : ∀ a ∈ xs, 0 < p a)
    (hs : 0 ≤ s) (hs' : s ≤ 1) (hbound : ∀ a ∈ xs, p a ≤ bound) (ha : a ∈ xs) :
    proportion (fun a => p a ^ s) xs a ≤ bound := by
  have hb : 0 < bound := (hpos a ha).trans_le (hbound a ha)
  have htotal := le_total_powers hp hpos hs' hbound
  have hscaled : 0 < bound ^ (s - 1) := Real.rpow_pos_of_pos hb _
  show p a ^ s / (xs.map fun a => p a ^ s).sum ≤ bound
  rw [div_le_iff₀ (hscaled.trans_le htotal)]
  calc p a ^ s ≤ bound ^ s := Real.rpow_le_rpow (hpos a ha).le (hbound a ha) hs
    _ = bound * bound ^ (s - 1) := by
        rw [mul_comm, ← Real.rpow_add_one hb.ne', sub_add_cancel]
    _ ≤ bound * (xs.map fun a => p a ^ s).sum := mul_le_mul_of_nonneg_left htotal hb.le

/-- No proportion of the powers falls below a positive bound on the weights. -/
theorem le_proportion_powers (hp : IsDistribution p xs) (hs : 0 ≤ s) (hs' : s ≤ 1)
    (hb : 0 < bound) (hbound : ∀ a ∈ xs, bound ≤ p a) (ha : a ∈ xs) :
    bound ≤ proportion (fun a => p a ^ s) xs a := by
  have hpos : ∀ a ∈ xs, 0 < p a := fun a ha => hb.trans_le (hbound a ha)
  have htotal := total_powers_le hp hs' hb hbound
  have hsum : 0 < (xs.map fun a => p a ^ s).sum := by
    refine List.sum_pos _ ?_ (by simpa using hp.ne_nil)
    intro x hx
    obtain ⟨c, hc, rfl⟩ := List.mem_map.mp hx
    exact Real.rpow_pos_of_pos (hpos c hc) s
  show bound ≤ p a ^ s / (xs.map fun a => p a ^ s).sum
  rw [le_div_iff₀ hsum]
  calc bound * (xs.map fun a => p a ^ s).sum ≤ bound * bound ^ (s - 1) :=
        mul_le_mul_of_nonneg_left htotal hb.le
    _ = bound ^ s := by rw [mul_comm, ← Real.rpow_add_one hb.ne', sub_add_cancel]
    _ ≤ p a ^ s := Real.rpow_le_rpow hb.le (hbound a ha) hs

/-- The greatest proportion of the powers is at most the greatest weight. -/
theorem maximum_powers_le (hp : IsDistribution p xs) (hpos : ∀ a ∈ xs, 0 < p a)
    (hs : 0 ≤ s) (hs' : s ≤ 1) :
    (xs.map (proportion (fun a => p a ^ s) xs)).maximum ≤ (xs.map p).maximum := by
  have hnil : xs.map p ≠ [] := by simpa using hp.ne_nil
  obtain ⟨top, htop⟩ := WithBot.ne_bot_iff_exists.mp (List.maximum_ne_bot_of_ne_nil hnil)
  obtain ⟨_, hgreatest⟩ := List.maximum_eq_coe_iff.mp htop.symm
  rw [← htop]
  refine List.maximum_le_of_forall_le fun x hx => ?_
  obtain ⟨a, ha, rfl⟩ := List.mem_map.mp hx
  exact WithBot.coe_le_coe.mpr (proportion_powers_le hp hpos hs hs'
    (fun b hb => hgreatest _ (List.mem_map_of_mem hb)) ha)

/-- The least proportion of the powers is at least the least weight. -/
theorem le_minimum_powers (hp : IsDistribution p xs) (hpos : ∀ a ∈ xs, 0 < p a)
    (hs : 0 ≤ s) (hs' : s ≤ 1) :
    (xs.map p).minimum ≤ (xs.map (proportion (fun a => p a ^ s) xs)).minimum := by
  have hnil : xs.map p ≠ [] := by simpa using hp.ne_nil
  obtain ⟨low, hlow⟩ := WithTop.ne_top_iff_exists.mp (List.minimum_ne_top_of_ne_nil hnil)
  obtain ⟨hmem, hleast⟩ := List.minimum_eq_coe_iff.mp hlow.symm
  obtain ⟨c, hc, hvalue⟩ := List.mem_map.mp hmem
  have hlowpos : 0 < low := hvalue ▸ hpos c hc
  rw [← hlow]
  refine List.le_minimum_of_forall_le fun x hx => ?_
  obtain ⟨a, ha, rfl⟩ := List.mem_map.mp hx
  exact WithTop.coe_le_coe.mpr (le_proportion_powers hp hs hs' hlowpos
    (fun b hb => hleast _ (List.mem_map_of_mem hb)) ha)

end Powers

end Mcts.Proportions
