import Mcts.Updates
import Mathlib.Algebra.Order.Floor.Semiring
import Mathlib.Algebra.Order.BigOperators.Group.List
import Mathlib.Data.Rat.Floor

/-!
`policy_target`: the visit distribution of the root with forced playouts pruned.
Pruning only takes visits away, and none from the most visited child, which is
why what remains is a distribution with its mode there, for any scores and roots.
-/
namespace Mcts.PolicyTarget

open Environments Nodes Engine Arena SearchRun ArenaInvariant Updates

variable {A F V : Type} [Act A] [DecidableEq A]

/-- `HashMap::from_iter`. -/
def collectMap (entries : List (A × V)) : HashMap A V :=
  entries.foldl (fun acc e => acc.insert e.1 e.2) ∅

/-- The first of the most visited actions. -/
def bestAction (node : Node A F) : Option A :=
  (node.validActions.foldl (fun best a =>
    match best with
    | some (b, bv) => if node.visits a ≤ bv then some (b, bv) else some (a, node.visits a)
    | none => some (a, node.visits a)) (none : Option (A × ℕ))).map (·.1)

variable [Field F] [LinearOrder F] [FloorSemiring F] [Roots F]

def qValues (m : MCTS A F) (node : Node A F) : HashMap A F :=
  collectMap (node.validActions.map fun a => (a, m.qValue node node.value a))

/-- The visits that can go before the boundary is crossed; no infinite score is
ever the best one. -/
def maxSubtract (puctBest : Score F) (qC numerator : F) (visits : ℕ) : ℕ :=
  match puctBest with
  | none => 0
  | some none => visits + 1
  | some (some best) =>
    let puctDiff := best - qC
    if puctDiff ≤ 0 then 0
    else
      let nBoundary := numerator / puctDiff - 1
      ⌊(visits : F) - nBoundary⌋₊

def pruneChild (m : MCTS A F) (node : Node A F) (cPuct : F) (best : A) (puctBest : Score F)
    (a : A) (visits : ℕ) : ℕ :=
  let prior := node.prior a
  let nForced := ⌊sqrt (m.kForced * prior * (node.totalVisits : F))⌋₊
  if a = best ∨ prior = 0 ∨ nForced = 0 then visits
  else
    let qC := ((qValues m node).lookup a).getD node.value
    let numerator := cPuct * prior * sqrt (node.totalVisits : F)
    visits - min nForced (maxSubtract puctBest qC numerator visits)

def prunedCounts (m : MCTS A F) (node : Node A F) (cPuct : F) (best : A) (puctBest : Score F) :
    List (A × ℕ) :=
  (node.validActions.filter fun a => 0 < node.visits a).map fun a =>
    (a, pruneChild m node cPuct best puctBest a (node.visits a))

def policyTarget (m : MCTS A F) (cPuct : F) : Option (HashMap A F) :=
  m.rootId.bind fun rootId => (m.getNode rootId).bind fun node =>
    if node.totalVisits = 0 then none
    else (bestAction node).map fun best =>
      let puctBest := (m.puctScores rootId cPuct true false).getD (toActionIndex best) ⊥
      let pruned := (prunedCounts m node cPuct best puctBest).filter fun e => 1 < e.2
      if pruned.isEmpty then collectMap [(best, 1)]
      else
        let total : F := ((pruned.map (·.2)).sum : ℕ)
        collectMap (pruned.map fun e => (e.1, (e.2 : F) / total))

section Maps

omit [Act A] [Field F] [LinearOrder F] [FloorSemiring F] [Roots F]

theorem collect_entries (entries : List (A × V)) (acc : HashMap A V)
    (hnodup : (entries.map (·.1)).Nodup) (hfresh : ∀ e ∈ entries, e.1 ∉ acc) :
    (entries.foldl (fun acc e => acc.insert e.1 e.2) acc).entries =
      (entries.map fun e => (⟨e.1, e.2⟩ : Σ _ : A, V)).reverse ++ acc.entries := by
  induction entries generalizing acc with
  | nil => rfl
  | cons e rest ih =>
    obtain ⟨he, hrest⟩ := List.nodup_cons.mp hnodup
    have hlater : ∀ x ∈ rest, x.1 ∉ acc.insert e.1 e.2 := by
      intro x hx hmem
      rcases (AList.mem_insert acc).mp hmem with heq | hmem
      · exact he (List.mem_map.mpr ⟨x, hx, heq⟩)
      · exact hfresh x (List.mem_cons_of_mem e hx) hmem
    rw [List.foldl_cons, ih _ hrest hlater,
      AList.entries_insert_of_notMem (hfresh e List.mem_cons_self)]
    simp

/-- A map collected from distinct keys holds what was listed. -/
theorem collectMap_lookup {entries : List (A × V)} (hnodup : (entries.map (·.1)).Nodup) (a : A)
    (v : V) : (collectMap entries).lookup a = some v ↔ (a, v) ∈ entries := by
  rw [← Option.mem_def, AList.mem_lookup_iff, collectMap,
    collect_entries entries ∅ hnodup fun e _ => AList.notMem_empty e.1]
  simp only [List.mem_append, List.mem_reverse, List.mem_map]
  constructor
  · rintro (⟨e, he, heq⟩ | hnone)
    · cases heq
      exact he
    · exact absurd hnone List.not_mem_nil
  · exact fun h => Or.inl ⟨(a, v), h, rfl⟩

theorem collectMap_mem {entries : List (A × V)} (hnodup : (entries.map (·.1)).Nodup) (a : A) :
    a ∈ collectMap entries ↔ ∃ v, (a, v) ∈ entries := by
  rw [← AList.lookup_isSome, Option.isSome_iff_exists]
  simp only [collectMap_lookup hnodup]

theorem collectMap_sum [AddCommMonoid V] {entries : List (A × V)}
    (hnodup : (entries.map (·.1)).Nodup) :
    ((collectMap entries).entries.map (·.2)).sum = (entries.map (·.2)).sum := by
  rw [collectMap, collect_entries entries ∅ hnodup fun e _ => AList.notMem_empty e.1]
  have hempty : (∅ : HashMap A V).entries = [] := rfl
  rw [hempty, List.append_nil, List.map_reverse, List.sum_reverse, List.map_map]
  rfl

end Maps

section Best

omit [DecidableEq A] [Field F] [LinearOrder F] [FloorSemiring F] [Roots F]

variable {node : Node A F} {best : A}

variable (node) in
private theorem bestAction_fold (actions : List A) (b : A) :
    ∃ c, (actions.foldl (fun best a =>
      match best with
      | some (b, bv) => if node.visits a ≤ bv then some (b, bv) else some (a, node.visits a)
      | none => some (a, node.visits a)) (some (b, node.visits b))) = some (c, node.visits c) ∧
      c ∈ b :: actions ∧ ∀ a ∈ b :: actions, node.visits a ≤ node.visits c := by
  induction actions generalizing b with
  | nil => exact ⟨b, rfl, List.mem_cons_self, fun a ha => by rw [List.mem_singleton.mp ha]⟩
  | cons a rest ih =>
    rw [List.foldl_cons]
    by_cases hle : node.visits a ≤ node.visits b
    · obtain ⟨c, hfold, hc, hmax⟩ := ih b
      have hb : node.visits b ≤ node.visits c := hmax b List.mem_cons_self
      simp only [if_pos hle]
      refine ⟨c, hfold, ?_, fun x hx => ?_⟩
      · rcases List.mem_cons.mp hc with rfl | hc
        · exact List.mem_cons_self
        · exact List.mem_cons_of_mem b (List.mem_cons_of_mem a hc)
      · rcases List.mem_cons.mp hx with rfl | hx
        · exact hb
        · rcases List.mem_cons.mp hx with rfl | hx
          · exact hle.trans hb
          · exact hmax x (List.mem_cons_of_mem b hx)
    · obtain ⟨c, hfold, hc, hmax⟩ := ih a
      have ha : node.visits a ≤ node.visits c := hmax a List.mem_cons_self
      simp only [if_neg hle]
      refine ⟨c, hfold, List.mem_cons_of_mem b hc, fun x hx => ?_⟩
      rcases List.mem_cons.mp hx with rfl | hx
      · omega
      · exact hmax x hx

/-- `c*` is a valid action that no other one outvisits. -/
theorem bestAction_max (h : bestAction node = some best) :
    best ∈ node.validActions ∧ ∀ a ∈ node.validActions, node.visits a ≤ node.visits best := by
  unfold bestAction at h
  cases hvalid : node.validActions with
  | nil => simp [hvalid] at h
  | cons b rest =>
    rw [hvalid, List.foldl_cons] at h
    obtain ⟨c, hfold, hc, hmax⟩ := bestAction_fold node rest b
    rw [hfold, Option.map_some, Option.some.injEq] at h
    exact h ▸ ⟨hc, hmax⟩

theorem bestAction_isSome (h : node.validActions ≠ []) : ∃ best, bestAction node = some best := by
  unfold bestAction
  cases hvalid : node.validActions with
  | nil => exact absurd hvalid h
  | cons b rest =>
    obtain ⟨c, hfold, _⟩ := bestAction_fold node rest b
    rw [List.foldl_cons]
    exact ⟨c, by rw [hfold]; rfl⟩

end Best

section Counts

variable {m : MCTS A F} {node : Node A F} {cPuct : F} {best a : A} {puctBest : Score F} {v : ℕ}

theorem pruneChild_le (m : MCTS A F) (node : Node A F) (cPuct : F) (best : A)
    (puctBest : Score F) (a : A) (v : ℕ) : pruneChild m node cPuct best puctBest a v ≤ v := by
  unfold pruneChild
  dsimp only
  split
  · exact Nat.le_refl v
  · exact Nat.sub_le _ _

theorem pruneChild_best (m : MCTS A F) (node : Node A F) (cPuct : F) (best : A)
    (puctBest : Score F) (v : ℕ) : pruneChild m node cPuct best puctBest best v = v := by
  simp [pruneChild]

/-- The children kept: more than one visit is left. -/
abbrev kept (m : MCTS A F) (node : Node A F) (cPuct : F) (best : A) (puctBest : Score F) :
    List (A × ℕ) := (prunedCounts m node cPuct best puctBest).filter fun e => 1 < e.2

theorem mem_kept : (a, v) ∈ kept m node cPuct best puctBest ↔
    a ∈ node.validActions ∧ 0 < node.visits a ∧
      v = pruneChild m node cPuct best puctBest a (node.visits a) ∧ 1 < v := by
  simp only [kept, prunedCounts, List.mem_filter, List.mem_map, Prod.mk.injEq, decide_eq_true_eq]
  constructor
  · rintro ⟨⟨x, ⟨hx, hvisited⟩, rfl, rfl⟩, hmore⟩
    exact ⟨hx, hvisited, rfl, hmore⟩
  · rintro ⟨ha, hvisited, rfl, hmore⟩
    exact ⟨⟨a, ⟨ha, hvisited⟩, rfl, rfl⟩, hmore⟩

theorem kept_nodup (h : node.validActions.Nodup) :
    ((kept m node cPuct best puctBest).map (·.1)).Nodup := by
  have hkeys : (prunedCounts m node cPuct best puctBest).map (·.1) =
      node.validActions.filter fun a => 0 < node.visits a := by
    simp [prunedCounts, Function.comp_def]
  have hall : ((prunedCounts m node cPuct best puctBest).map (·.1)).Nodup := by
    rw [hkeys]
    exact h.filter _
  exact hall.sublist (List.filter_sublist.map _)

/-- What is kept was visited. -/
theorem kept_sum_le (m : MCTS A F) (node : Node A F) (cPuct : F) (best : A) (puctBest : Score F) :
    ((kept m node cPuct best puctBest).map (·.2)).sum ≤ (node.validActions.map node.visits).sum := by
  unfold kept prunedCounts
  induction node.validActions with
  | nil => simp
  | cons x rest ih =>
    have hle := pruneChild_le m node cPuct best puctBest x (node.visits x)
    rw [List.map_cons, List.sum_cons, List.filter_cons]
    split
    · rw [List.map_cons, List.filter_cons]
      split
      · rw [List.map_cons, List.sum_cons]
        omega
      · omega
    · omega

/-- If anything is kept, the most visited child is, with all its visits. -/
theorem best_mem_kept (hmax : best ∈ node.validActions ∧
    ∀ a ∈ node.validActions, node.visits a ≤ node.visits best)
    (hkept : kept m node cPuct best puctBest ≠ []) :
    (best, node.visits best) ∈ kept m node cPuct best puctBest := by
  obtain ⟨⟨a, v⟩, hmem⟩ := List.exists_mem_of_ne_nil _ hkept
  obtain ⟨ha, _, hv, hmore⟩ := mem_kept.mp hmem
  have hle := pruneChild_le m node cPuct best puctBest a (node.visits a)
  have htop := hmax.2 a ha
  exact mem_kept.mpr ⟨hmax.1, by omega, (pruneChild_best ..).symm, by omega⟩

omit [Act A] [DecidableEq A] in
theorem le_sum_of_mem {xs : List (A × ℕ)} (h : (a, v) ∈ xs) : v ≤ (xs.map (·.2)).sum := by
  have hmem : v ∈ xs.map (·.2) := List.mem_map_of_mem (f := (·.2)) h
  exact List.single_le_sum (fun _ _ => Nat.zero_le _) v hmem

abbrev shares (counts : List (A × ℕ)) : List (A × F) :=
  counts.map fun e => (e.1, (e.2 : F) / (((counts.map (·.2)).sum : ℕ) : F))

omit [Act A] [DecidableEq A] [LinearOrder F] [Roots F] [FloorSemiring F] in
theorem shares_nodup {counts : List (A × ℕ)} (h : (counts.map (·.1)).Nodup) :
    ((shares (F := F) counts).map (·.1)).Nodup := by
  rw [List.map_map]
  exact h

omit [Act A] [LinearOrder F] [Roots F] [FloorSemiring F] in
theorem shares_lookup {counts : List (A × ℕ)} (h : (counts.map (·.1)).Nodup) (a : A) (p : F) :
    (collectMap (shares counts)).lookup a = some p ↔
      ∃ v, (a, v) ∈ counts ∧ p = (v : F) / (((counts.map (·.2)).sum : ℕ) : F) := by
  rw [collectMap_lookup (shares_nodup h), List.mem_map]
  constructor
  · rintro ⟨⟨x, v⟩, hmem, heq⟩
    cases heq
    exact ⟨v, hmem, rfl⟩
  · rintro ⟨v, hmem, rfl⟩
    exact ⟨(a, v), hmem, rfl⟩

omit [Act A] [LinearOrder F] [Roots F] [FloorSemiring F] in
theorem shares_mem {counts : List (A × ℕ)} (h : (counts.map (·.1)).Nodup) {a : A}
    (ha : a ∈ collectMap (shares (F := F) counts)) : ∃ v, (a, v) ∈ counts := by
  obtain ⟨p, hp⟩ := Option.isSome_iff_exists.mp (AList.lookup_isSome.mpr ha)
  obtain ⟨v, hv, _⟩ := (shares_lookup h a p).mp hp
  exact ⟨v, hv⟩

omit [Act A] [LinearOrder F] [Roots F] [FloorSemiring F] in
/-- Shares of a positive number of visits sum to one. -/
theorem shares_sum {counts : List (A × ℕ)} (h : (counts.map (·.1)).Nodup)
    (htotal : (((counts.map (·.2)).sum : ℕ) : F) ≠ 0) :
    ((collectMap (shares (F := F) counts)).entries.map (·.2)).sum = 1 := by
  have hsum : ∀ (xs : List (A × ℕ)) (total : F),
      (xs.map ((·.2) ∘ fun e => (e.1, (e.2 : F) / total))).sum =
        (((xs.map (·.2)).sum : ℕ) : F) / total := by
    intro xs total
    induction xs with
    | nil => simp
    | cons x rest ih =>
      rw [List.map_cons, List.sum_cons, ih, List.map_cons, List.sum_cons, Nat.cast_add, add_div]
      rfl
  rw [collectMap_sum (shares_nodup h), List.map_map, hsum]
  exact div_self htotal

end Counts

section Distribution

variable {m : MCTS A F} {cPuct : F}

/-- What a training target for the node is: a distribution on visited valid
actions, with its mode at a most visited one, that gives this one at least its
share of the visits, and leaves out everything kept with fewer than two. -/
structure Proper (m : MCTS A F) (node : Node A F) (cPuct : F) (best : A) (puctBest : Score F)
    (target : HashMap A F) : Prop where
  nonneg : ∀ a p, target.lookup a = some p → 0 ≤ p
  total : (target.entries.map (·.2)).sum = 1
  visited : ∀ a ∈ target, a ∈ node.validActions ∧ 1 ≤ node.visits a
  most : best ∈ node.validActions ∧ ∀ a ∈ node.validActions, node.visits a ≤ node.visits best
  mode : ∃ p, target.lookup best = some p ∧ (∀ a q, target.lookup a = some q → q ≤ p) ∧
    (node.visits best : F) / (node.totalVisits : F) ≤ p
  twice : target.keys = [best] ∨ ∀ a ∈ target, 2 ≤ node.visits a ∧
    2 ≤ pruneChild m node cPuct best puctBest a (node.visits a)

variable [IsStrictOrderedRing F] {node : Node A F} {best : A} {puctBest : Score F}

/-- Everything was pruned away but the most visited child. -/
theorem proper_single (hvisits : 1 ≤ node.visits best)
    (hmost : best ∈ node.validActions ∧ ∀ a ∈ node.validActions, node.visits a ≤ node.visits best) :
    Proper m node cPuct best puctBest (collectMap [(best, 1)]) := by
  have hnodup : ([(best, (1 : F))].map (·.1)).Nodup := List.nodup_singleton best
  have hone : ∀ a p, (collectMap [(best, (1 : F))]).lookup a = some p → a = best ∧ p = 1 := by
    intro a p h
    simpa using (collectMap_lookup hnodup a p).mp h
  refine ⟨fun a p h => ?_, ?_, fun a h => ?_, hmost, ⟨1, ?_, fun a q h => ?_, ?_⟩, Or.inl rfl⟩
  · rw [(hone a p h).2]
    exact zero_le_one
  · rw [collectMap_sum hnodup]
    simp
  · obtain ⟨p, h⟩ := (collectMap_mem hnodup a).mp h
    have heq : a = best ∧ p = 1 := by simpa using h
    exact heq.1 ▸ ⟨hmost.1, hvisits⟩
  · exact (collectMap_lookup hnodup best 1).mpr List.mem_cons_self
  · rw [(hone a q h).2]
  · have hle : node.visits best ≤ node.totalVisits := Dense.getD_le_sum _ _
    exact div_le_one_of_le₀ (by exact_mod_cast hle) (Nat.cast_nonneg _)

/-- The visits kept, normalised. -/
theorem proper_normalised (hn : node.WellFormed)
    (hinj : Function.Injective (toActionIndex : A → ℕ))
    (hmost : best ∈ node.validActions ∧ ∀ a ∈ node.validActions, node.visits a ≤ node.visits best)
    (hkept : kept m node cPuct best puctBest ≠ []) :
    Proper m node cPuct best puctBest
      (collectMap (shares (kept m node cPuct best puctBest))) := by
  set counts := kept m node cPuct best puctBest
  have hnodup : (counts.map (·.1)).Nodup := kept_nodup hn.valid_nodup
  have hbest : (best, node.visits best) ∈ counts := best_mem_kept hmost hkept
  have htotal : (counts.map (·.2)).sum ≤ node.totalVisits := by
    rw [hn.totalVisits_eq hinj]
    exact kept_sum_le m node cPuct best puctBest
  have hpos : (0 : F) < ((counts.map (·.2)).sum : ℕ) := by
    have hone := (mem_kept.mp hbest).2.2.2
    have hle : node.visits best ≤ (counts.map (·.2)).sum := le_sum_of_mem hbest
    exact_mod_cast (by omega : 0 < (counts.map (·.2)).sum)
  refine ⟨fun a p h => ?_, shares_sum hnodup hpos.ne', fun a h => ?_, hmost,
    ⟨_, (shares_lookup hnodup _ _).mpr ⟨_, hbest, rfl⟩, fun a q h => ?_, ?_⟩,
    Or.inr fun a h => ?_⟩
  · obtain ⟨v, _, rfl⟩ := (shares_lookup hnodup a p).mp h
    positivity
  · obtain ⟨v, hv⟩ := shares_mem hnodup h
    exact ⟨(mem_kept.mp hv).1, (mem_kept.mp hv).2.1⟩
  · obtain ⟨v, hv, rfl⟩ := (shares_lookup hnodup a q).mp h
    obtain ⟨ha, _, hprune, _⟩ := mem_kept.mp hv
    have hle : v ≤ node.visits best :=
      hprune ▸ (pruneChild_le ..).trans (hmost.2 a ha)
    gcongr
  · gcongr
  · obtain ⟨v, hv⟩ := shares_mem hnodup h
    obtain ⟨_, _, hprune, hmore⟩ := mem_kept.mp hv
    have hle : v ≤ node.visits a := hprune ▸ pruneChild_le ..
    exact ⟨by omega, by omega⟩

omit [DecidableEq A] [LinearOrder F] [FloorSemiring F] [Roots F] [IsStrictOrderedRing F] in
/-- A root with visits has a valid action to call the best. -/
theorem bestAction_of_visits (hn : node.WellFormed)
    (hinj : Function.Injective (toActionIndex : A → ℕ)) (hvisits : node.totalVisits ≠ 0) :
    ∃ best, bestAction node = some best ∧ 1 ≤ node.visits best := by
  have hvalid : node.validActions ≠ [] := by
    intro hnil
    apply hvisits
    rw [hn.totalVisits_eq hinj, hnil]
    rfl
  obtain ⟨best, hbest⟩ := bestAction_isSome hvalid
  refine ⟨best, hbest, Nat.one_le_iff_ne_zero.mpr fun hzero => hvisits ?_⟩
  rw [hn.totalVisits_eq hinj]
  apply List.sum_eq_zero
  intro v hv
  obtain ⟨a, ha, rfl⟩ := List.mem_map.mp hv
  have hle := (bestAction_max hbest).2 a ha
  omega

omit [IsStrictOrderedRing F] in
/-- The two ways to a training target: everything but the most visited child was
pruned away, or the visits kept were normalised. -/
theorem policyTarget_some (hinj : Function.Injective (toActionIndex : A → ℕ)) (hm : WellFormed m)
    {root : NodeId} (hroot : m.rootId = some root) (hnode : m.getNode root = some node)
    {target : HashMap A F} (h : policyTarget m cPuct = some target) :
    ∃ best puctBest, bestAction node = some best ∧ 1 ≤ node.visits best ∧
      (target = collectMap [(best, 1)] ∨ kept m node cPuct best puctBest ≠ [] ∧
        target = collectMap (shares (kept m node cPuct best puctBest))) := by
  rw [policyTarget, hroot, Option.bind_some, hnode, Option.bind_some] at h
  by_cases hzero : node.totalVisits = 0
  · rw [if_pos hzero] at h
    exact absurd h (by simp)
  · obtain ⟨best, hbest, hone⟩ := bestAction_of_visits (hm.node root node hnode) hinj hzero
    rw [if_neg hzero, hbest, Option.map_some, Option.some.injEq] at h
    refine ⟨best, (m.puctScores root cPuct true false).getD (toActionIndex best) ⊥, hbest,
      hone, ?_⟩
    rw [← h]
    dsimp only
    split
    · exact .inl rfl
    · next hkept => exact .inr ⟨fun hnil => hkept (List.isEmpty_iff.mpr hnil), rfl⟩

/-- Each entry of a target is of a valid action, and worth a visit at least. -/
theorem policyTarget_worth (hinj : Function.Injective (toActionIndex : A → ℕ)) (hm : WellFormed m)
    {root : NodeId} (hroot : m.rootId = some root) (hnode : m.getNode root = some node)
    {target : HashMap A F} (h : policyTarget m cPuct = some target) {a : A} {p : F}
    (hp : target.lookup a = some p) :
    a ∈ node.validActions ∧ 1 ≤ p * (node.edgeVisits.sum : ℕ) := by
  have hn := hm.node root node hnode
  obtain ⟨best, puctBest, hbest, hone, rfl | ⟨hkept, rfl⟩⟩ :=
    policyTarget_some hinj hm hroot hnode h
  · have hnodup : ([(best, (1 : F))].map (·.1)).Nodup := List.nodup_singleton best
    obtain ⟨rfl, rfl⟩ : a = best ∧ p = 1 := by simpa using (collectMap_lookup hnodup a p).mp hp
    have hle : node.visits a ≤ node.edgeVisits.sum := Dense.getD_le_sum _ _
    refine ⟨(bestAction_max hbest).1, ?_⟩
    rw [one_mul]
    exact_mod_cast hone.trans hle
  · obtain ⟨v, hv, rfl⟩ := (shares_lookup (kept_nodup hn.valid_nodup) a p).mp hp
    obtain ⟨ha, -, -, hmore⟩ := mem_kept.mp hv
    have hpart : v ≤ ((kept m node cPuct best puctBest).map (·.2)).sum := le_sum_of_mem hv
    have htotal : ((kept m node cPuct best puctBest).map (·.2)).sum ≤ node.edgeVisits.sum := by
      have hall := hn.totalVisits_eq hinj
      exact (kept_sum_le m node cPuct best puctBest).trans hall.ge
    have hpos : (0 : F) < (((kept m node cPuct best puctBest).map (·.2)).sum : ℕ) := by
      exact_mod_cast (by omega : 0 < ((kept m node cPuct best puctBest).map (·.2)).sum)
    refine ⟨ha, ?_⟩
    rw [div_mul_eq_mul_div, one_le_div hpos, ← Nat.cast_mul, Nat.cast_le]
    exact htotal.trans (Nat.le_mul_of_pos_left _ (by omega))

/-- `policy_target` is a proper training target, unless the root is missing or unvisited. -/
theorem policyTarget_proper (hinj : Function.Injective (toActionIndex : A → ℕ))
    (hm : WellFormed m) (cPuct : F) :
    (policyTarget m cPuct = none ↔ ∀ root node, m.rootId = some root →
      m.getNode root = some node → ∀ v ∈ node.edgeVisits, v = 0) ∧
    ∀ target, policyTarget m cPuct = some target → ∃ root node best, m.rootId = some root ∧
      m.getNode root = some node ∧ Proper m node cPuct best
        ((m.puctScores root cPuct true false).getD (toActionIndex best) ⊥) target := by
  unfold policyTarget
  cases hroot : m.rootId with
  | none => simp
  | some root =>
    cases hnode : m.getNode root with
    | none =>
      refine ⟨⟨fun _ r node hr hn => ?_, fun _ => by simp [hnode]⟩,
        fun target h => absurd h (by simp [hnode])⟩
      cases hr
      exact absurd (hnode.symm.trans hn) (by simp)
    | some node =>
      have hn := hm.node root node hnode
      rw [Option.bind_some, hnode, Option.bind_some]
      by_cases hzero : node.totalVisits = 0
      · rw [if_pos hzero]
        refine ⟨⟨fun _ r n hr hn' v hv => ?_, fun _ => rfl⟩, fun target h => absurd h (by simp)⟩
        cases hr
        rw [hnode, Option.some.injEq] at hn'
        exact List.sum_eq_zero_iff.mp (hn' ▸ hzero) v hv
      · obtain ⟨best, hbest, hone⟩ := bestAction_of_visits hn hinj hzero
        rw [if_neg hzero, hbest, Option.map_some]
        refine ⟨⟨fun h => absurd h (by simp), fun h => ?_⟩, fun target h => ?_⟩
        · exact absurd (List.sum_eq_zero_iff.mpr (h root node rfl hnode)) hzero
        · rw [Option.some.injEq] at h
          refine ⟨root, node, best, rfl, hnode, ?_⟩
          rw [← h]
          dsimp only
          split
          · exact proper_single hone (bestAction_max hbest)
          · rename_i hkept
            exact proper_normalised hn hinj (bestAction_max hbest) fun hnil => hkept (by
              rw [List.isEmpty_iff]
              exact hnil)

theorem policyTarget_proper_heapSearch :
    ∃ target, policyTarget heapSearch.mcts 1 = some target ∧
      (target.entries.map (·.2)).sum = 1 := by
  have hm := (session_wellFormed heapGame_lawful (heapSearch_session (fun _ => True) trivial)).1
  obtain ⟨hnone, hsome⟩ := policyTarget_proper heapGame_lawful.index_injective hm 1
  obtain ⟨target, htarget⟩ : ∃ target, policyTarget heapSearch.mcts 1 = some target := by
    rw [← Option.ne_none_iff_exists']
    intro h
    have hvisits : (heapSearch.mcts.getNode 0).map (·.edgeVisits) = some [3, 1] := by decide +kernel
    obtain ⟨node, hnode, hthree⟩ := Option.map_eq_some_iff.mp hvisits
    have hzero := hnone.mp h 0 node (by decide +kernel) hnode 3 (by rw [hthree]; simp)
    omega
  obtain ⟨_, _, _, _, _, hproper⟩ := hsome target htarget
  exact ⟨target, htarget, hproper.total⟩

end Distribution

end Mcts.PolicyTarget
