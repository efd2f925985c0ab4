import Mcts.PolicyTarget
import Mathlib.Order.Bounds.Basic
import Mathlib.Order.Interval.Set.Defs

/-!
How many visits `policy_target` takes from a child, against the rule it documents:
the most that keep the child's score below the best one's. The code compares with
the stored prior, without the small constant under the root, and lets the scores
be equal; the two amounts differ where a threshold lies in between.
-/
namespace Mcts.PruningRule

open Environments Nodes Engine Arena SearchRun ArenaInvariant Updates PolicyTarget

section Greatest

/-- The greatest number up to a bound that is zero or passes a test. -/
abbrev GreatestPassing (bound : ℕ) (p : ℕ → Prop) (n : ℕ) : Prop :=
  IsGreatest {s | s ≤ bound ∧ (s = 0 ∨ p s)} n

variable {bound n : ℕ} {p q : ℕ → Prop}

/-- Two tests that smaller numbers pass too agree on the greatest iff they agree up to the bound. -/
theorem greatestPassing_iff (hp : ∀ s t, s ≤ t → p t → p s) (hq : ∀ s t, s ≤ t → q t → q s)
    (h : GreatestPassing bound p n) :
    GreatestPassing bound q n ↔ ∀ s, 1 ≤ s → s ≤ bound → (p s ↔ q s) := by
  obtain ⟨⟨hn, hpass⟩, hgreatest⟩ := h
  constructor
  · rintro ⟨⟨_, hpass'⟩, hgreatest'⟩ s hs hbound
    constructor
    · intro hps
      have hle : s ≤ n := hgreatest ⟨hbound, Or.inr hps⟩
      exact hq s n hle (hpass'.resolve_left (by omega))
    · intro hqs
      have hle : s ≤ n := hgreatest' ⟨hbound, Or.inr hqs⟩
      exact hp s n hle (hpass.resolve_left (by omega))
  · intro hagree
    refine ⟨⟨hn, ?_⟩, ?_⟩
    · rcases hpass with hzero | hpn
      · exact Or.inl hzero
      · by_cases hzero : n = 0
        · exact Or.inl hzero
        · exact Or.inr ((hagree n (by omega) hn).mp hpn)
    · rintro s ⟨hs, hpass'⟩
      by_cases hzero : s = 0
      · omega
      · exact hgreatest ⟨hs, Or.inr ((hagree s (by omega) hs).mpr (hpass'.resolve_left hzero))⟩

end Greatest

variable {A F : Type} [Act A] [DecidableEq A] [Field F] [LinearOrder F] [Roots F]

section Scores

/-- The score vector holds the score of each valid action at its index. -/
theorem puctScores_valid (hinj : Function.Injective (toActionIndex : A → ℕ)) {m : MCTS A F}
    {root : NodeId} {node : Node A F} (hnode : m.getNode root = some node) (hn : node.WellFormed)
    (cPuct : F) (isRoot applyForced : Bool) {a : A} (ha : a ∈ node.validActions) :
    (m.puctScores root cPuct isRoot applyForced).getD (toActionIndex a) ⊥ =
      m.puctScore node cPuct isRoot applyForced a := by
  simp only [MCTS.puctScores, hnode]
  rw [Dense.foldl_set]
  exact Dense.getD_foldl_modify _ _ _ _ a ⊥ (hn.valid_nodup.map hinj) ha
    (by simpa using hn.valid_lt a ha)

/-- `PUCT(c, n)`: the root's score for the action if its visit count were `n`. -/
def scoreAt (m : MCTS A F) (node : Node A F) (cPuct : F) (a : A) (n : ℕ) : F :=
  m.qValue node (m.fpuQ node true) a +
    cPuct * m.effectivePrior node true a * ((sqrt (node.totalVisits : F) + 1e-8) / (1 + (n : F)))

theorem puctScore_eq (m : MCTS A F) (node : Node A F) (cPuct : F) (a : A) :
    m.puctScore node cPuct true false a =
      ((scoreAt m node cPuct a (node.visits a + node.losses a) : F) : WithTop F) := by
  simp [MCTS.puctScore, scoreAt]

omit [DecidableEq A] [LinearOrder F] in
theorem fpuQ_root (m : MCTS A F) (node : Node A F) : m.fpuQ node true = node.value := by
  simp [MCTS.fpuQ]

end Scores

section Priors

variable [IsStrictOrderedRing F] {node : Node A F}

omit [DecidableEq A] [Roots F] [IsStrictOrderedRing F] in
private theorem modify_nonneg {f : F → F} (hf : ∀ x, 0 ≤ x → 0 ≤ f x) (actions : List A)
    (buf : List F) (h : ∀ i, 0 ≤ buf.getD i 0) :
    ∀ i, 0 ≤ (actions.foldl (fun buf a => buf.modify (toActionIndex a) f) buf).getD i 0 := by
  induction actions generalizing buf with
  | nil => exact h
  | cons a rest ih =>
    refine ih _ fun i => ?_
    rw [Dense.getD_modify]
    split
    · exact hf _ (h i)
    · exact h i

omit [DecidableEq A] in
theorem softmaxTemperature_nonneg (hpow : ∀ x y : F, 0 < x → 0 ≤ powf x y) (temp : F)
    (buf : List F) (h : ∀ i, 0 ≤ buf.getD i 0) :
    ∀ i, 0 ≤ (MCTS.softmaxTemperature node temp buf).getD i 0 := by
  have hpowered := modify_nonneg (f := fun p => powf (max p 1e-30) (1 / temp))
    (fun x _ => hpow _ _ (lt_max_of_lt_right (by norm_num))) node.validActions buf h
  unfold MCTS.softmaxTemperature MCTS.renormalize
  dsimp only
  split
  · rename_i htotal
    exact modify_nonneg (fun x hx => div_nonneg hx htotal.le) node.validActions _ hpowered
  · exact hpowered

/-- Without noise the effective priors are as little negative as the stored ones. -/
theorem effectivePrior_nonneg (hpow : ∀ x y : F, 0 < x → 0 ≤ powf x y) {m : MCTS A F}
    (hnoise : m.rootNoise = none) (hpriors : ∀ i, 0 ≤ node.priorProbs.getD i 0) (isRoot : Bool)
    (a : A) : 0 ≤ m.effectivePrior node isRoot a := by
  unfold MCTS.effectivePrior
  split
  · rename_i buf hbuf
    simp only [MCTS.effectiveBuf, hnoise] at hbuf
    split at hbuf
    · cases hbuf
      split
      · exact softmaxTemperature_nonneg hpow _ _ hpriors _
      · exact hpriors _
    · exact absurd hbuf (by simp)
  · exact hpriors _

end Priors

omit [Roots F] [DecidableEq A] in
theorem priors_nonneg {node : Node A F} (hn : node.WellFormed)
    (h : ∀ a ∈ node.validActions, 0 ≤ node.prior a) (i : ℕ) : 0 ≤ node.priorProbs.getD i 0 := by
  by_cases hvalid : ∃ a ∈ node.validActions, toActionIndex a = i
  · obtain ⟨a, ha, rfl⟩ := hvalid
    exact h a ha
  · rw [(hn.blank i fun a ha heq => hvalid ⟨a, ha, heq⟩).1]

section Amount

variable [FloorSemiring F] [IsStrictOrderedRing F]
variable {m : MCTS A F} {node : Node A F} {root : NodeId} {cPuct : F} {a best : A}

omit [Roots F] in
/-- What may go is what leaves the bonus at the boundary or below. -/
theorem le_maxSubtract_iff (score q numerator : F) (visits : ℕ) {s : ℕ} (hs : 1 ≤ s) :
    s ≤ maxSubtract (some (some score)) q numerator visits ↔
      0 < score - q ∧ numerator ≤ (score - q) * (1 + visits - s) := by
  unfold maxSubtract
  dsimp only
  split
  · rename_i hneg
    exact ⟨fun h => absurd h (by omega), fun h => absurd h.1 (not_lt.mpr hneg)⟩
  · rename_i hpos
    rw [not_le] at hpos
    rw [Nat.le_floor_iff' (by omega)]
    have hmove : (s : F) ≤ visits - (numerator / (score - q) - 1) ↔
        numerator / (score - q) ≤ 1 + visits - s := by
      constructor
      · intro h
        linarith
      · intro h
        linarith
    rw [hmove, div_le_iff₀ hpos, mul_comm]
    exact ⟨fun h => ⟨hpos, h⟩, fun h => h.2⟩

/-- The visits that `policy_target` takes from the action before the one-visit filter. -/
def subtracted (m : MCTS A F) (root : NodeId) (node : Node A F) (cPuct : F) (best a : A) : ℕ :=
  node.visits a - pruneChild m node cPuct best
    ((m.puctScores root cPuct true false).getD (toActionIndex best) ⊥) a (node.visits a)

def forcedVisits (m : MCTS A F) (node : Node A F) (a : A) : ℕ :=
  ⌊sqrt (m.kForced * node.prior a * (node.totalVisits : F))⌋₊

omit [LinearOrder F] [Roots F] [FloorSemiring F] [IsStrictOrderedRing F] in
theorem qValues_lookup (hn : node.WellFormed) (ha : a ∈ node.validActions) :
    (qValues m node).lookup a = some (m.qValue node node.value a) := by
  have hnodup : ((node.validActions.map fun a => (a, m.qValue node node.value a)).map
      (·.1)).Nodup := by
    rw [List.map_map]
    simpa [Function.comp_def] using hn.valid_nodup
  exact (collectMap_lookup hnodup a _).mpr (List.mem_map.mpr ⟨a, ha, rfl⟩)

variable (cPuct) in
/-- The amount taken is the greatest that leaves the bonus, with the stored prior
and the bare root, at the boundary or below. -/
theorem subtracted_greatest (hinj : Function.Injective (toActionIndex : A → ℕ))
    (hnode : m.getNode root = some node) (hn : node.WellFormed)
    (hbest : best ∈ node.validActions) (ha : a ∈ node.validActions) (hne : a ≠ best)
    (hprior : 0 < node.prior a) :
    GreatestPassing (min (forcedVisits m node a) (node.visits a))
      (fun s => 0 < scoreAt m node cPuct best (node.visits best + node.losses best) -
          m.qValue node node.value a ∧
        cPuct * node.prior a * sqrt (node.totalVisits : F) ≤
          (scoreAt m node cPuct best (node.visits best + node.losses best) -
            m.qValue node node.value a) * (1 + node.visits a - s))
      (subtracted m root node cPuct best a) := by
  set score := scoreAt m node cPuct best (node.visits best + node.losses best)
  have hscore : (m.puctScores root cPuct true false).getD (toActionIndex best) ⊥ =
      (some (some score) : Score F) :=
    (puctScores_valid hinj hnode hn cPuct true false hbest).trans (puctScore_eq m node cPuct best)
  have hle := fun (s : ℕ) (hs : 1 ≤ s) => le_maxSubtract_iff score (m.qValue node node.value a)
    (cPuct * node.prior a * sqrt (node.totalVisits : F)) (node.visits a) hs
  unfold subtracted
  rw [hscore]
  by_cases hzero : forcedVisits m node a = 0
  · have hnothing : pruneChild m node cPuct best (some (some score)) a (node.visits a) =
        node.visits a := if_pos (Or.inr (Or.inr hzero))
    rw [hnothing, hzero]
    exact ⟨⟨by omega, Or.inl (by omega)⟩, fun s hs => by have := hs.1; omega⟩
  · have htaken : pruneChild m node cPuct best (some (some score)) a (node.visits a) =
        node.visits a - min (forcedVisits m node a) (maxSubtract (some (some score))
          (((qValues m node).lookup a).getD node.value)
          (cPuct * node.prior a * sqrt (node.totalVisits : F)) (node.visits a)) :=
      if_neg (by simp only [not_or]; exact ⟨hne, hprior.ne', hzero⟩)
    rw [htaken, qValues_lookup hn ha, Option.getD_some]
    refine ⟨⟨by omega, ?_⟩, ?_⟩
    · by_cases hnone : 1 ≤ node.visits a - (node.visits a - min (forcedVisits m node a)
          (maxSubtract (some (some score)) (m.qValue node node.value a)
            (cPuct * node.prior a * sqrt (node.totalVisits : F)) (node.visits a)))
      · exact Or.inr ((hle _ hnone).mp (by omega))
      · exact Or.inl (by omega)
    · rintro s ⟨hs, hpass⟩
      rcases hpass with hnone | hpass
      · omega
      · by_cases hone : 1 ≤ s
        · have hmax := (hle s hone).mpr hpass
          omega
        · omega

omit [FloorSemiring F] in
/-- The rule's test on the bonus: it is below the boundary. -/
theorem scoreAt_lt_iff (score : F) {s : ℕ} (hs : s ≤ node.visits a) :
    scoreAt m node cPuct a (node.visits a - s) < score ↔
      cPuct * m.effectivePrior node true a * (sqrt (node.totalVisits : F) + 1e-8) <
        (score - m.qValue node node.value a) * (1 + node.visits a - s) := by
  have hcast : (1 : F) + ((node.visits a - s : ℕ) : F) = 1 + node.visits a - s := by
    rw [Nat.cast_sub hs, add_sub_assoc]
  have hpos : (0 : F) < 1 + node.visits a - s := by
    rw [← hcast]
    positivity
  rw [scoreAt, fpuQ_root, hcast, ← mul_div_assoc, ← lt_sub_iff_add_lt', div_lt_iff₀ hpos]

omit [FloorSemiring F] in
/-- Fewer visits, higher score. -/
theorem scoreAt_antitone (hbonus : 0 ≤ cPuct * m.effectivePrior node true a)
    (hroot : 0 ≤ sqrt (node.totalVisits : F)) {n n' : ℕ} (h : n ≤ n') :
    scoreAt m node cPuct a n' ≤ scoreAt m node cPuct a n := by
  have hnum : 0 ≤ sqrt (node.totalVisits : F) + 1e-8 := by
    have hsmall : (0 : F) ≤ 1e-8 := by norm_num
    exact add_nonneg hroot hsmall
  have hcast : (n : F) ≤ n' := by exact_mod_cast h
  unfold scoreAt
  gcongr

omit [Field F] [Roots F] [FloorSemiring F] [IsStrictOrderedRing F] in
/-- A threshold tells two bonuses apart iff it lies between them. -/
theorem agree_iff {raw eff threshold : F} : (raw ≤ threshold ↔ eff < threshold) ↔
    threshold ∉ Set.Icc raw eff ∪ Set.Ioo eff raw := by
  simp only [Set.mem_union, Set.mem_Icc, Set.mem_Ioo, not_or, not_and, not_le, not_lt]
  constructor
  · intro h
    exact ⟨h.mp, fun heff => h.mpr heff⟩
  · rintro ⟨hclosed, hopen⟩
    exact ⟨hclosed, fun heff => hopen heff⟩

omit [FloorSemiring F] in
/-- Where the best score does not exceed the child's value neither test passes, and
elsewhere the two tests compare one threshold with the two bonuses. -/
theorem tests_agree_iff {score : F} {s : ℕ} (hs : s ≤ node.visits a)
    (hbonus : 0 ≤ cPuct * m.effectivePrior node true a * (sqrt (node.totalVisits : F) + 1e-8)) :
    (0 < score - m.qValue node node.value a ∧ cPuct * node.prior a * sqrt (node.totalVisits : F) ≤
        (score - m.qValue node node.value a) * (1 + node.visits a - s) ↔
      scoreAt m node cPuct a (node.visits a - s) < score) ↔
    score ≤ m.qValue node node.value a ∨
      (score - m.qValue node node.value a) * (1 + node.visits a - s) ∉
        Set.Icc (cPuct * node.prior a * sqrt (node.totalVisits : F))
          (cPuct * m.effectivePrior node true a * (sqrt (node.totalVisits : F) + 1e-8)) ∪
        Set.Ioo (cPuct * m.effectivePrior node true a * (sqrt (node.totalVisits : F) + 1e-8))
          (cPuct * node.prior a * sqrt (node.totalVisits : F)) := by
  rw [scoreAt_lt_iff _ hs]
  by_cases hpos : 0 < score - m.qValue node node.value a
  · have hscore : ¬ score ≤ m.qValue node node.value a := not_le.mpr (sub_pos.mp hpos)
    rw [or_iff_right hscore, and_iff_right hpos]
    exact agree_iff
  · have hcast : (s : F) ≤ node.visits a := by exact_mod_cast hs
    have hroom : (0 : F) ≤ 1 + node.visits a - s := by linarith
    have hbelow := mul_nonpos_of_nonpos_of_nonneg (not_lt.mp hpos) hroom
    refine iff_of_true (iff_of_false (fun h => hpos h.1) ?_)
      (Or.inl (sub_nonpos.mp (not_lt.mp hpos)))
    exact not_lt.mpr (hbelow.trans hbonus)

/-- `policy_target` takes the greatest number of visits that the rule allows
exactly when no threshold of the child lies between its bonus with the stored
prior and its bonus with the effective one, equality with the former included. -/
theorem pruning_exact_iff (hinj : Function.Injective (toActionIndex : A → ℕ))
    (hsqrt : ∀ x : F, 0 ≤ sqrt x) (hpow : ∀ x y : F, 0 < x → 0 ≤ powf x y)
    (hm : WellFormed m) (hnode : m.getNode root = some node) (hnoise : m.rootNoise = none)
    (hlosses : ∀ v ∈ node.virtualLosses, v = 0) (hcPuct : 0 ≤ cPuct)
    (hpriors : ∀ a ∈ node.validActions, 0 ≤ node.prior a)
    (hbest : bestAction node = some best) (ha : a ∈ node.validActions) (hne : a ≠ best)
    (hprior : 0 < node.prior a) :
    IsGreatest {s | s ≤ forcedVisits m node a ∧ s ≤ node.visits a ∧
        (s = 0 ∨ scoreAt m node cPuct a (node.visits a - s) <
          scoreAt m node cPuct best (node.visits best))} (subtracted m root node cPuct best a) ↔
      scoreAt m node cPuct best (node.visits best) ≤ m.qValue node node.value a ∨
        ∀ s, 1 ≤ s → s ≤ forcedVisits m node a → s ≤ node.visits a →
          (scoreAt m node cPuct best (node.visits best) - m.qValue node node.value a) *
            (1 + node.visits a - s) ∉
              Set.Icc (cPuct * node.prior a * sqrt (node.totalVisits : F))
                (cPuct * m.effectivePrior node true a * (sqrt (node.totalVisits : F) + 1e-8)) ∪
              Set.Ioo
                (cPuct * m.effectivePrior node true a * (sqrt (node.totalVisits : F) + 1e-8))
                (cPuct * node.prior a * sqrt (node.totalVisits : F)) := by
  have hn := hm.node root node hnode
  have hnoloss : node.losses best = 0 := by
    rw [Node.losses, List.getD_eq_getElem _ _ (hn.losses_lt (bestAction_max hbest).1)]
    exact hlosses _ (List.getElem_mem _)
  have hamount := subtracted_greatest (m := m) cPuct hinj hnode hn (bestAction_max hbest).1 ha hne
    hprior
  rw [hnoloss, Nat.add_zero] at hamount
  have hbonus : 0 ≤ cPuct * m.effectivePrior node true a :=
    mul_nonneg hcPuct (effectivePrior_nonneg hpow hnoise (priors_nonneg hn hpriors) true a)
  have heff : 0 ≤ cPuct * m.effectivePrior node true a *
      (sqrt (node.totalVisits : F) + 1e-8) :=
    mul_nonneg hbonus (add_nonneg (hsqrt _) (by norm_num))
  have hset : {s | s ≤ forcedVisits m node a ∧ s ≤ node.visits a ∧
      (s = 0 ∨ scoreAt m node cPuct a (node.visits a - s) <
        scoreAt m node cPuct best (node.visits best))} =
      {s | s ≤ min (forcedVisits m node a) (node.visits a) ∧
        (s = 0 ∨ scoreAt m node cPuct a (node.visits a - s) <
          scoreAt m node cPuct best (node.visits best))} := by
    ext s
    simp only [Set.mem_ofPred_eq, Nat.le_min, and_assoc]
  rw [hset]
  refine (greatestPassing_iff (q := fun s => scoreAt m node cPuct a (node.visits a - s) <
    scoreAt m node cPuct best (node.visits best)) ?_ ?_ hamount).trans ?_
  · rintro s t hst ⟨hpos, hle⟩
    have hcast : (s : F) ≤ t := by exact_mod_cast hst
    have hroom : (1 : F) + node.visits a - t ≤ 1 + node.visits a - s := by linarith
    exact ⟨hpos, hle.trans (mul_le_mul_of_nonneg_left hroom hpos.le)⟩
  · intro s t hst hlt
    exact (scoreAt_antitone hbonus (hsqrt _) (by omega)).trans_lt hlt
  · constructor
    · intro h
      by_cases hscore : scoreAt m node cPuct best (node.visits best) ≤ m.qValue node node.value a
      · exact Or.inl hscore
      · exact Or.inr fun s hs hforced hvisits =>
          ((tests_agree_iff hvisits heff).mp (h s hs (le_min hforced hvisits))).resolve_left hscore
    · rintro (hscore | h) s hs hbound
      · exact (tests_agree_iff (hbound.trans (Nat.min_le_right _ _)) heff).mpr (Or.inl hscore)
      · have hvisits := hbound.trans (Nat.min_le_right _ _)
        have hforced := hbound.trans (Nat.min_le_left _ _)
        exact (tests_agree_iff hvisits heff).mpr (Or.inr (h s hs hforced hvisits))

end Amount

section HeapSearch

def heapRoot : Node Bool ℚ := (heapSearch.mcts.getNode 0).getD (Node.newTerminal 0 0)

theorem heapRoot_found : heapSearch.mcts.getNode 0 = some heapRoot := by
  have hsome : (heapSearch.mcts.getNode 0).isSome = true := by decide +kernel
  obtain ⟨node, hnode⟩ := Option.isSome_iff_exists.mp hsome
  rw [heapRoot, hnode, Option.getD_some]

theorem heapRoot_exact :
    IsGreatest {s | s ≤ forcedVisits heapSearch.mcts heapRoot true ∧ s ≤ heapRoot.visits true ∧
      (s = 0 ∨ scoreAt heapSearch.mcts heapRoot 1 true (heapRoot.visits true - s) <
        scoreAt heapSearch.mcts heapRoot 1 false (heapRoot.visits false))}
      (subtracted heapSearch.mcts 0 heapRoot 1 false true) := by
  have hm := (session_wellFormed heapGame_lawful (heapSearch_session (fun _ => True) trivial)).1
  have hone : heapRoot.visits true = 1 := by decide +kernel
  refine (pruning_exact_iff heapGame_lawful.index_injective (fun x => ?_) (fun x y hx => hx.le) hm
    heapRoot_found (by decide +kernel) (by decide +kernel) (by decide) (by decide +kernel)
    (by decide +kernel) (by decide +kernel) (by decide) (by decide +kernel)).mpr
      (Or.inr fun s hs _ hvisits => ?_)
  · exact div_nonneg (Nat.cast_nonneg _) (Nat.cast_nonneg _)
  · have hlast : s = 1 := by omega
    subst hlast
    simp only [Set.mem_union, Set.mem_Icc, Set.mem_Ioo]
    decide +kernel

/-- A visit goes although the score without it ties with the best one. -/
theorem heapRoot_tie :
    bestAction heapRoot = some false ∧ heapSearch.mcts.rootNoise = none ∧
      (∀ v ∈ heapRoot.virtualLosses, v = 0) ∧ heapRoot.priorProbs = [1 / 2, 1 / 2] ∧
      scoreAt heapSearch.mcts heapRoot ((2 / 3) / (3 / 4 - 1e-8 / 8)) false
        (heapRoot.visits false) = (2 / 3) / (3 / 4 - 1e-8 / 8) ∧
      ¬ IsGreatest {s | s ≤ forcedVisits heapSearch.mcts heapRoot true ∧ s ≤ heapRoot.visits true ∧
        (s = 0 ∨ scoreAt heapSearch.mcts heapRoot ((2 / 3) / (3 / 4 - 1e-8 / 8)) true
            (heapRoot.visits true - s) <
          scoreAt heapSearch.mcts heapRoot ((2 / 3) / (3 / 4 - 1e-8 / 8)) false
            (heapRoot.visits false))}
        (subtracted heapSearch.mcts 0 heapRoot ((2 / 3) / (3 / 4 - 1e-8 / 8)) false true) := by
  refine ⟨by decide +kernel, by decide +kernel, by decide +kernel, by decide +kernel,
    by decide +kernel, fun h => ?_⟩
  have hone : subtracted heapSearch.mcts 0 heapRoot ((2 / 3) / (3 / 4 - 1e-8 / 8)) false true = 1 := by
    decide +kernel
  have hpass := h.1.2.2
  rw [hone] at hpass
  exact absurd hpass (by decide +kernel)

end HeapSearch

end Mcts.PruningRule
