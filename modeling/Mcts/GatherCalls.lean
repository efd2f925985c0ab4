import Mcts.Curriculum
import Mathlib.Data.List.Forall2

/-!
`gather`: one call of the gatherer. Either it climbs the reverse curriculum, or the
agent plays one episode, and where it fails a hard job a demonstration by the
heuristic may follow. `write_demo_episode` walks along the plan of the heuristic and
keeps some of its steps.
-/
namespace Mcts.GatherCalls

open Episodes Trajectories Curriculum

structure Settings (F : Type) extends Gatherer F where
  reverseCurriculum : Bool
  reverseCurriculumMinLen : ℕ
  reverseCurriculumProb : F
  demoFraction : F
  demoMinObjectives : ℕ
  demoSubsample : F

/-- A record of kind "demo", with a one-hot target. -/
structure DemoRecord (B F : Type) where
  height : ℕ
  width : ℕ
  numAncillas : ℕ
  board : B
  validActions : List ℕ
  edgeVisits : List (ℕ × F)
  reward : F
  achievedObjectives : ℕ
  reverseCurriculum : Bool

/-- What one call appends: the lines of the episodes it writes, and the
demonstration after them. -/
structure Gathered (B F : Type) where
  written : List (Written B F)
  demo : List (DemoRecord B F)

variable {G P B F R : Type} [Field F] [LinearOrder F] [FloorSemiring F] [Saturation F]
variable [Tilers G P B F]

/-- `unwrap_or_default`: no plan where the solver gave up, and the depth it left. -/
def heuristicTypedPlan (env : G) : F × List P :=
  let (plan, e) := solve env true
  (depth e, plan.getD [])

def demoRecord (s : Settings F) (start e : G) (valid : List ℕ) (encoded : ℕ) : DemoRecord B F where
  height := height start
  width := width start
  numAncillas := numAncillas e
  board := buildObs e s.lookahead
  validActions := valid
  edgeVisits := [(encoded, 1)]
  reward := 0
  achievedObjectives := 0
  reverseCurriculum := false

/-- The loop over the plan. A step whose action has no id, or is not valid, is
taken without a record, and without a draw. -/
def demoSteps (s : Settings F) (draw : R → F × R) (start : G) :
    List P → G → R → Option (List (DemoRecord B F) × R)
  | [], _, r => some ([], r)
  | a :: rest, e, r =>
    let after := finishCultivating (Tilers.step e a)
    match encode e a with
    | none => demoSteps s draw start rest after r
    | some encoded => do
      let valid ← (validActions e).mapM (encode e)
      if valid.contains encoded then
        let (u, r) := draw r
        let (records, r) ← demoSteps s draw start rest after r
        if u < s.demoSubsample then return (demoRecord s start e valid encoded :: records, r)
        else return (records, r)
      else demoSteps s draw start rest after r

def writeDemoEpisode (s : Settings F) (draw : R → F × R) (game : G) (r : R) :
    Option (List (DemoRecord B F) × R) :=
  let plan := (heuristicTypedPlan game).2
  if plan.isEmpty then some ([], r)
  else
    let start := setCultivationTime game 10
    demoSteps s draw start plan start r

/-- The part of `gather` after the choice against the reverse curriculum. -/
def gatherEpisode (s : Settings F) (pl : Player G F R) (game : G) (r : R) :
    Option ((F × F × Bool) × Gathered B F × R) := do
  let (o, r) ← s.runEpisodeFrom pl game none r
  let (written, ret, r) := writeEpisode s.toGatherer pl.draw o false r
  if decide (0 < s.demoFraction) && !o.done && decide (s.demoMinObjectives < numObjectives game) then
    let (u, r) := pl.draw r
    if u < s.demoFraction then
      let (demo, r) ← writeDemoEpisode s pl.draw game r
      return (ret, ⟨[written], demo⟩, r)
    else return (ret, ⟨[written], []⟩, r)
  else return (ret, ⟨[written], []⟩, r)

def gather (s : Settings F) (pl : Player G F R) (env : G) (r : R) :
    Option ((F × F × Bool) × Gathered B F × R) :=
  let game := setCultivationTime env 10
  if s.reverseCurriculum then
    let (u, r) := pl.draw r
    let (dFull, plan) := heuristicTypedPlan game
    if decide (u < s.reverseCurriculumProb) && decide (s.reverseCurriculumMinLen ≤ plan.length) then
      (gatherReverseCurriculum s.toGatherer pl game dFull plan r).map fun x =>
        (x.1, ⟨x.2.1, []⟩, x.2.2)
    else gatherEpisode s pl game r
  else gatherEpisode s pl game r

section Demo

variable {s : Settings F} {draw : R → F × R} {game start : G} {plan : List P}

/-- The record is that of step `i` of the plan: made where the heuristic stood, with
the valid actions there, and its action for a target. -/
structure DemoAt (s : Settings F) (game : G) (plan : List P) (i : ℕ) (d : DemoRecord B F) :
    Prop where
  reached : ∃ a encoded, plan[i]? = some a ∧
    encode (makeReverseStart game plan i) a = some encoded ∧ encoded ∈ d.validActions ∧
    d.edgeVisits = [(encoded, 1)]
  valid : (validActions (makeReverseStart game plan i)).mapM (encode (makeReverseStart game plan i)) =
    some d.validActions
  board : d.board = buildObs (makeReverseStart game plan i) s.lookahead
  numAncillas : d.numAncillas = numAncillas (makeReverseStart game plan i)
  reward : d.reward = 0

omit [Field F] [LinearOrder F] [FloorSemiring F] [Saturation F] in
/-- One more step of the plan. -/
theorem makeReverseStart_succ {before rest : List P} {a : P} (hplan : plan = before ++ a :: rest) :
    makeReverseStart game plan (before.length + 1) =
      finishCultivating (Tilers.step (makeReverseStart game plan before.length) a) := by
  have hbefore : plan.take before.length = before := by rw [hplan, List.take_left]
  have hlater : plan.take (before.length + 1) = before ++ [a] := by
    rw [hplan, List.take_append]
    simp
  simp only [makeReverseStart, hbefore, hlater, List.foldl_append, List.foldl_cons, List.foldl_nil]

omit [FloorSemiring F] [Saturation F] in
/-- The records are those of steps of the plan, in order and each at most once. -/
theorem demoSteps_at {rest : List P} {records : List (DemoRecord B F)} {e : G} {r r' : R}
    {before : List P} (hplan : plan = before ++ rest)
    (he : e = makeReverseStart game plan before.length)
    (h : demoSteps s draw start rest e r = some (records, r')) :
    ∃ steps : List ℕ, steps.Pairwise (· < ·) ∧ (∀ i ∈ steps, before.length ≤ i) ∧
      List.Forall₂ (DemoAt s game plan) steps records := by
  induction rest generalizing records e r before with
  | nil =>
    obtain ⟨rfl, -⟩ := Prod.mk.inj (Option.some.inj h)
    exact ⟨[], List.Pairwise.nil, by simp, .nil⟩
  | cons a rest ih =>
    have hafter : finishCultivating (Tilers.step e a) =
        makeReverseStart game plan (before ++ [a]).length := by
      rw [List.length_append, List.length_singleton, makeReverseStart_succ hplan, he]
    -- the steps after this one come later
    have hlater : ∀ {records r}, demoSteps s draw start rest (finishCultivating (Tilers.step e a)) r =
        some (records, r') → ∃ steps : List ℕ, steps.Pairwise (· < ·) ∧
          (∀ i ∈ steps, before.length < i) ∧ List.Forall₂ (DemoAt s game plan) steps records := by
      intro records r hrest
      have hplan' : plan = (before ++ [a]) ++ rest := by simp [hplan]
      obtain ⟨steps, hsorted, hlow, hat⟩ := ih hplan' hafter hrest
      refine ⟨steps, hsorted, fun i hi => ?_, hat⟩
      have := hlow i hi
      simp only [List.length_append, List.length_singleton] at this
      omega
    have hskip : ∀ {records r}, demoSteps s draw start rest (finishCultivating (Tilers.step e a)) r =
        some (records, r') → ∃ steps : List ℕ, steps.Pairwise (· < ·) ∧
          (∀ i ∈ steps, before.length ≤ i) ∧ List.Forall₂ (DemoAt s game plan) steps records := by
      intro records r hrest
      obtain ⟨steps, hsorted, hlow, hat⟩ := hlater hrest
      exact ⟨steps, hsorted, fun i hi => (hlow i hi).le, hat⟩
    rw [demoSteps] at h
    cases hencode : encode e a with
    | none =>
      simp only [hencode] at h
      exact hskip h
    | some encoded =>
      simp only [hencode] at h
      obtain ⟨valid, hvalid, h⟩ := Option.bind_eq_some_iff.mp h
      by_cases hcontains : valid.contains encoded = true
      · rw [if_pos hcontains] at h
        obtain ⟨⟨records', r₁⟩, hrest, h⟩ := Option.bind_eq_some_iff.mp h
        by_cases hkept : (draw r).1 < s.demoSubsample
        · obtain ⟨rfl, rfl⟩ : demoRecord s start e valid encoded :: records' = records ∧ r₁ = r' := by
            simpa [hkept] using h
          obtain ⟨steps, hsorted, hlow, hat⟩ := hlater hrest
          refine ⟨before.length :: steps, List.pairwise_cons.mpr ⟨hlow, hsorted⟩, ?_,
            .cons ⟨⟨a, encoded, ?_, he ▸ hencode, ?_, rfl⟩, he ▸ hvalid, he ▸ rfl, he ▸ rfl, rfl⟩ hat⟩
          · intro i hi
            rcases List.mem_cons.mp hi with rfl | hi
            · exact le_rfl
            · exact (hlow i hi).le
          · rw [hplan, List.getElem?_append_right le_rfl, Nat.sub_self, List.getElem?_cons_zero]
          · simpa [demoRecord] using hcontains
        · obtain ⟨rfl, rfl⟩ : records' = records ∧ r₁ = r' := by
            simpa [hkept] using h
          exact hskip hrest
      · rw [if_neg hcontains] at h
        exact hskip h

omit [FloorSemiring F] [Saturation F] in
theorem writeDemoEpisode_at {records : List (DemoRecord B F)} {r r' : R}
    (h : writeDemoEpisode s draw game r = some (records, r')) :
    ∃ steps : List ℕ, steps.Pairwise (· < ·) ∧
      List.Forall₂ (DemoAt s game (heuristicTypedPlan game).2) steps records := by
  unfold writeDemoEpisode at h
  dsimp only at h
  split at h
  · obtain ⟨rfl, -⟩ := Prod.mk.inj (Option.some.inj h)
    exact ⟨[], List.Pairwise.nil, .nil⟩
  · have hplan : (heuristicTypedPlan game).2 = [] ++ (heuristicTypedPlan game).2 := rfl
    obtain ⟨steps, hsorted, -, hat⟩ := demoSteps_at hplan rfl h
    exact ⟨steps, hsorted, hat⟩

end Demo

section Lines

variable {G P B R : Type} [Tilers G P B ℝ]

theorem cuspPartialReward_mem (achieved n frontier margin : ℕ) :
    (cuspPartialReward achieved n frontier margin : ℝ) ∈ Set.Icc (-1) 0 := by
  refine ⟨?_, cuspPartialReward_nonpos achieved n frontier margin⟩
  unfold cuspPartialReward
  dsimp only
  rw [le_sub_iff_add_le, neg_add_cancel]
  positivity

theorem cuspFactorReward_mem (merged total n frontier margin : ℕ) :
    (cuspFactorReward merged total n frontier margin : ℝ) ∈ Set.Icc (-1) 0 := by
  refine ⟨?_, cuspFactorReward_nonpos merged total n frontier margin⟩
  unfold cuspFactorReward
  split
  · exact le_rfl
  · dsimp only
    have hbudget : (1 : ℝ) ≤ max ((total : ℝ) * (max (min n (frontier + margin)) 1 : ℕ) / n) 1 :=
      le_max_right _ _
    rw [le_sub_iff_add_le, neg_add_cancel]
    apply div_nonneg _ (zero_le_one.trans hbudget)
    exact le_min (Nat.cast_nonneg merged) (zero_le_one.trans hbudget)

theorem saturatedMargin_mem (T baseline ref d : ℝ) :
    saturatedMargin T baseline ref d ∈ Set.Ioo (-1) 1 := tanh_mem _

structure Graded (isReverse : Bool) (kind : RewardKind) (reward : ℝ) : Prop where
  range : reward ∈ Set.Icc (-1) 1
  floor : kind = .floor → reward = -1
  cusp : kind = .cusp → reward ≤ 0 ∧ isReverse = false
  reverse : kind = .her → isReverse = true → reward ≤ 0

theorem score_graded (g : Gatherer ℝ) (game final : G) (referenceDepth : ℝ) (isReverse : Bool) :
    Graded isReverse (g.score game final referenceDepth isReverse).2.1
      (g.score game final referenceDepth isReverse).1 := by
  have hfloor : ∀ b, Graded b .floor (-1) := fun b =>
    ⟨by norm_num, fun _ => rfl, by simp, by simp⟩
  unfold Gatherer.score
  by_cases hdone : done final = true
  · rw [if_pos hdone]
    exact ⟨Set.Ioo_subset_Icc_self (saturatedMargin_mem _ _ _ _), by simp, by simp, by simp⟩
  · rw [if_neg hdone]
    by_cases hreverse : isReverse = true
    · rw [if_pos hreverse]
      dsimp only
      split
      · exact hfloor _
      · obtain ⟨hlow, hhigh⟩ := cuspPartialReward_mem (numObjectives game - numObjectives final)
          (numObjectives game) g.cuspFrontier g.cuspMargin
        exact ⟨⟨hlow, hhigh.trans zero_le_one⟩, by simp, by simp, fun _ _ => hhigh⟩
    · rw [if_neg hreverse]
      have hforward : isReverse = false := by simpa using hreverse
      by_cases hcusp : (g.cuspReward && decide (g.cuspFrontier < numObjectives game)) = true
      · rw [if_pos hcusp]
        dsimp only
        split
        · exact hfloor _
        · obtain ⟨hlow, hhigh⟩ := cuspFactorReward_mem (factorProgress game final).1
            (factorProgress game final).2 (numObjectives game) g.cuspFrontier g.cuspMargin
          exact ⟨⟨hlow, hhigh.trans zero_le_one⟩, by simp, fun _ => ⟨hhigh, hforward⟩, by simp⟩
      · rw [if_neg hcusp]
        cases achievedGoalEnv game final with
        | none => exact hfloor _
        | some herEnv =>
          dsimp only
          rcases solve herEnv true with ⟨_ | plan, solved⟩
          · exact hfloor _
          · exact ⟨Set.Ioo_subset_Icc_self (saturatedMargin_mem _ _ _ _), by simp, by simp,
              fun _ h => absurd h hreverse⟩

structure Line (isReverse gold : Bool) (o : EpisodeOutcome B ℝ) (x : SearchRecord B)
    (t : TrainingRecord B ℝ) : Prop where
  size : t.height = o.height ∧ t.width = o.width
  position : t.board = x.board ∧ t.numAncillas = x.numAncillas ∧ t.validActions = x.validActions
  edgeVisits : t.edgeVisits = x.edgeVisits
  reward : t.reward = o.score ∧ t.rewardKind = o.rewardKind
  achievedObjectives : t.achievedObjectives = o.achievedObjectives
  tags : t.reverseCurriculum = isReverse ∧ t.gold = gold

/-- `write_episode` leaves these episodes out: a saturated hindsight score, or a floor. -/
def Dropped (g : Gatherer ℝ) (o : EpisodeOutcome B ℝ) : Prop :=
  o.rewardKind = .her ∧ o.score ≤ -0.999 ∨ o.rewardKind = .floor ∧ g.floorKeepFraction < 1

/-- A finished episode of the whole job that is good and long enough. -/
structure Earned (g : Gatherer ℝ) (isReverse : Bool) (o : EpisodeOutcome B ℝ) : Prop where
  shard : g.goldShardDir.isSome = true
  forward : isReverse = false
  done : o.done = true
  reward : g.goldMinReward ≤ o.score
  long : g.goldMinLen ≤ o.referenceActionCount

/-- The lines that `write_episode` appends to the shard and to the gold file for an episode:
one for each full-search record, or none at all. -/
structure Lines (g : Gatherer ℝ) (isReverse : Bool) (o : EpisodeOutcome B ℝ) (w : Written B ℝ) :
    Prop where
  graded : Graded isReverse o.rewardKind o.score
  output : List.Forall₂ (Line isReverse false o) o.tempData w.output ∨
    Dropped g o ∧ w.output = [] ∧ w.gold = []
  saturated : o.rewardKind = .her → w.output ≠ [] → -0.999 < o.score
  banked : Earned g isReverse o → List.Forall₂ (Line isReverse true o) o.tempData w.gold
  other : ¬ Earned g isReverse o → w.gold = []

theorem forall₂_trainingRecord (isReverse gold : Bool) (o : EpisodeOutcome B ℝ) :
    List.Forall₂ (Line isReverse gold o) o.tempData
      (o.tempData.map (trainingRecord o isReverse gold)) := by
  rw [List.forall₂_map_right_iff, List.forall₂_same]
  intro x _
  exact ⟨⟨rfl, rfl⟩, ⟨rfl, rfl, rfl⟩, rfl, ⟨rfl, rfl⟩, rfl, ⟨rfl, rfl⟩⟩

theorem banksGold_iff {g : Gatherer ℝ} {isReverse : Bool} {o : EpisodeOutcome B ℝ} :
    banksGold g o isReverse = true ↔ Earned g isReverse o := by
  unfold banksGold
  simp only [Bool.and_eq_true, Bool.not_eq_true', decide_eq_true_eq]
  constructor
  · rintro ⟨⟨⟨⟨hshard, hdone⟩, hforward⟩, hreward⟩, hlong⟩
    exact ⟨hshard, hforward, hdone, hreward, hlong⟩
  · intro h
    exact ⟨⟨⟨⟨h.shard, h.done⟩, h.forward⟩, h.reward⟩, h.long⟩

theorem skips_dropped {g : Gatherer ℝ} {draw : R → ℝ × R} {o : EpisodeOutcome B ℝ} {r : R}
    (h : (skips g draw o r).1 = true) : Dropped g o := by
  unfold skips at h
  split at h
  · next hsaturated => exact .inl hsaturated
  · split at h
    · next hfloor => exact .inr hfloor
    · cases h

theorem writeEpisode_lines {g : Gatherer ℝ} {draw : R → ℝ × R} {o : EpisodeOutcome B ℝ}
    {isReverse : Bool} (hgraded : Graded isReverse o.rewardKind o.score)
    (hdone : o.done = true → o.rewardKind = .done) (r : R) :
    Lines g isReverse o (writeEpisode g draw o isReverse r).1 := by
  have hwritten : (writeEpisode g draw o isReverse r).1.output = (if (skips g draw o r).1 then []
      else o.tempData.map (trainingRecord o isReverse false)) ∧
      (writeEpisode g draw o isReverse r).1.gold = (if !(skips g draw o r).1 && banksGold g o isReverse
        then o.tempData.map (trainingRecord o isReverse true) else []) := ⟨rfl, rfl⟩
  obtain ⟨houtput, hgold⟩ := hwritten
  cases hskips : (skips g draw o r).1 with
  | true =>
    rw [hskips] at houtput hgold
    simp only [if_true, Bool.not_true, Bool.false_and, Bool.false_eq_true, if_false] at houtput hgold
    have hdropped := skips_dropped hskips
    refine ⟨hgraded, .inr ⟨hdropped, houtput, hgold⟩, fun _ hne => absurd houtput hne, ?_,
      fun _ => hgold⟩
    intro hearned
    rcases hdropped with ⟨hkind, -⟩ | ⟨hkind, -⟩
    · exact absurd ((hdone hearned.done).symm.trans hkind) (by simp)
    · exact absurd ((hdone hearned.done).symm.trans hkind) (by simp)
  | false =>
    rw [hskips] at houtput hgold
    simp only [Bool.false_eq_true, if_false, Bool.not_false, Bool.true_and] at houtput hgold
    refine ⟨hgraded, .inl (houtput ▸ forall₂_trainingRecord isReverse false o), ?_, ?_, ?_⟩
    · intro hher _
      by_contra hlow
      have hskip : (skips g draw o r).1 = true := by
        rw [skips, if_pos ⟨hher, not_lt.mp hlow⟩]
      rw [hskip] at hskips
      exact Bool.noConfusion hskips
    · intro hearned
      rw [hgold, if_pos (banksGold_iff.mpr hearned)]
      exact forall₂_trainingRecord isReverse true o
    · intro hnot
      rw [hgold, if_neg fun hbanks => hnot (banksGold_iff.mp hbanks)]

theorem score_done (g : Gatherer ℝ) {game final : G} (h : done final = true) (referenceDepth : ℝ)
    (isReverse : Bool) : (g.score game final referenceDepth isReverse).2.1 = .done := by
  rw [Gatherer.score, if_pos h]

/-- Every episode that is run can be written. -/
theorem runEpisodeFrom_lines {g : Gatherer ℝ} {pl : Player G ℝ R} {startEnv : G}
    {override : Option (ℝ × ℕ)} {r r' : R} {o : EpisodeOutcome B ℝ}
    (h : g.runEpisodeFrom pl startEnv override r = some (o, r')) (r₁ : R) :
    Lines g override.isSome o (writeEpisode g pl.draw o override.isSome r₁).1 := by
  obtain ⟨reference, allowed, p, -, rfl⟩ := Gatherer.runEpisodeFrom_some h
  apply writeEpisode_lines
  · exact score_graded g _ _ _ _
  · intro hdone
    exact score_done g hdone _ _

omit [Tilers G P B ℝ] in
/-- What holds of every probe holds of the two episodes kept. -/
theorem climb_kept {len : ℕ} {probe : ℕ → R → Option (EpisodeOutcome B ℝ × R)}
    {p : EpisodeOutcome B ℝ → Prop}
    (hprobe : ∀ k r o r', 1 ≤ k → k ≤ len → probe k r = some (o, r') → p o)
    {left : ℕ} {st st' : Climb B ℝ} {r r' : R} (hin : Inside st) (hhi : st.hi ≤ len + 1)
    (hbest : ∀ o, st.best = some o → p o) (hfailed : ∀ o, st.failed = some o → p o)
    (h : climb len probe left st r = some (st', r')) :
    (∀ o, st'.best = some o → p o) ∧ ∀ o, st'.failed = some o → p o := by
  induction left generalizing st r with
  | zero =>
    obtain ⟨rfl, -⟩ := Prod.mk.inj (Option.some.inj h)
    exact ⟨hbest, hfailed⟩
  | succ left ih =>
    obtain ⟨o, r₁, hmade, hrest⟩ := climb_succ h
    have hp := hprobe _ _ _ _ hin.1.bot_lt (Nat.le_of_lt_succ (hin.2.trans_le hhi)) hmade
    have hrecord : (∀ o', (st.record o).best = some o' → p o') ∧
        ∀ o', (st.record o).failed = some o' → p o' := by
      cases hdone : o.done with
      | true =>
        obtain ⟨-, -, -, hnew, hold⟩ := record_solved (s := st) hdone
        rw [hnew, hold]
        exact ⟨fun o' ho => Option.some.inj ho ▸ hp, hfailed⟩
      | false =>
        obtain ⟨-, -, -, hold, hnew⟩ := record_failed (s := st) hdone
        rw [hnew, hold]
        exact ⟨hbest, fun o' ho => Option.some.inj ho ▸ hp⟩
    rcases hrest with ⟨-, rfl, -⟩ | ⟨k, hnext, hclimb, -⟩
    · exact hrecord
    · exact ih (next_inside hin hhi hnext) (record_hi hin hhi o) hrecord.1 hrecord.2 hclimb

omit [Tilers G P B ℝ] in
theorem writeKept_lines {g : Gatherer ℝ} {draw : R → ℝ × R} {kept : Option (EpisodeOutcome B ℝ)}
    (h : ∀ o, kept = some o → ∀ r, Lines g true o (writeEpisode g draw o true r).1) (r : R) :
    List.Forall₂ (Lines g true) kept.toList (writeKept g draw kept r).1 := by
  cases kept with
  | none => exact .nil
  | some o => exact .cons (h o rfl r) .nil

end Lines

section Calls

variable {G P B R : Type} [Tilers G P B ℝ] {s : Settings ℝ} {pl : Player G ℝ R} {env game : G}
variable {r r' : R} {ret : ℝ × ℝ × Bool} {c : Gathered B ℝ}

/-- The call climbed: of the probes it made, each of a tail of the plan, it wrote the lines of
at most two. -/
structure Climbed (s : Settings ℝ) (pl : Player G ℝ R) (game : G) (c : Gathered B ℝ) : Prop where
  chosen : s.reverseCurriculum = true
  plan : (heuristicTypedPlan game).2 ≠ []
  long : s.reverseCurriculumMinLen ≤ (heuristicTypedPlan game).2.length
  probes : ∃ kept : List (EpisodeOutcome B ℝ), kept.length ≤ 2 ∧
    (∀ o ∈ kept, ∃ k r r', 1 ≤ k ∧ k ≤ (heuristicTypedPlan game).2.length ∧
      probeTail s.toGatherer pl game (heuristicTypedPlan game).1 (heuristicTypedPlan game).2 k r =
        some (o, r')) ∧
    List.Forall₂ (Lines s.toGatherer true) kept c.written
  demo : c.demo = []

/-- The call played one episode and wrote its lines. What is demonstrated is a hard job that
this episode failed, in order, step by step of the heuristic's plan. -/
structure PlayedOnce (s : Settings ℝ) (pl : Player G ℝ R) (game : G) (c : Gathered B ℝ) :
    Prop where
  episode : ∃ o w r r', s.runEpisodeFrom pl game none r = some (o, r') ∧ c.written = [w] ∧
    Lines s.toGatherer false o w ∧ (c.demo ≠ [] → o.done = false)
  hard : c.demo ≠ [] → s.demoMinObjectives < numObjectives game
  demo : ∃ steps : List ℕ, steps.Pairwise (· < ·) ∧
    List.Forall₂ (DemoAt s game (heuristicTypedPlan game).2) steps c.demo

theorem gatherEpisode_lines (h : gatherEpisode s pl game r = some (ret, c, r')) :
    PlayedOnce s pl game c := by
  unfold gatherEpisode at h
  obtain ⟨⟨o, r₁⟩, hplay, h⟩ := Option.bind_eq_some_iff.mp h
  have hlines := runEpisodeFrom_lines hplay r₁
  have hquiet : ∀ {x}, c = ⟨[x], []⟩ → Lines s.toGatherer false o x → PlayedOnce s pl game c := by
    rintro x rfl hx
    exact ⟨⟨o, x, r, r₁, hplay, rfl, hx, fun hne => absurd rfl hne⟩, fun hne => absurd rfl hne,
      [], List.Pairwise.nil, .nil⟩
  dsimp only at h
  split at h
  · next hfailed =>
    simp only [Bool.and_eq_true, Bool.not_eq_true', decide_eq_true_eq] at hfailed
    split at h
    · obtain ⟨⟨demo, r₂⟩, hdemo, h⟩ := Option.bind_eq_some_iff.mp h
      obtain ⟨-, rfl, -⟩ : _ = ret ∧ _ = c ∧ r₂ = r' := by
        simpa only [Prod.mk.injEq] using Option.some.inj h
      exact ⟨⟨o, _, r, r₁, hplay, rfl, hlines, fun _ => hfailed.1.2⟩, fun _ => hfailed.2,
        writeDemoEpisode_at hdemo⟩
    · obtain ⟨-, hc, -⟩ : _ = ret ∧ _ = c ∧ _ = r' := by
        simpa only [Prod.mk.injEq] using Option.some.inj h
      exact hquiet hc.symm hlines
  · obtain ⟨-, hc, -⟩ : _ = ret ∧ _ = c ∧ _ = r' := by
      simpa only [Prod.mk.injEq] using Option.some.inj h
    exact hquiet hc.symm hlines

theorem gatherReverseCurriculum_lines {g : Gatherer ℝ} {dFull : ℝ} {plan : List P}
    {written : List (Written B ℝ)}
    (h : gatherReverseCurriculum g pl game dFull plan r = some (ret, written, r')) :
    plan ≠ [] ∧ ∃ kept : List (EpisodeOutcome B ℝ), kept.length ≤ 2 ∧
      (∀ o ∈ kept, ∃ k r r', 1 ≤ k ∧ k ≤ plan.length ∧
        probeTail g pl game dFull plan k r = some (o, r')) ∧
      List.Forall₂ (Lines g true) kept written := by
  unfold gatherReverseCurriculum at h
  split at h
  · cases h
  · next hempty =>
    obtain ⟨⟨st, r₁⟩, hclimb, h⟩ := Option.bind_eq_some_iff.mp h
    obtain ⟨hbest, hfailed⟩ := climb_kept
      (p := fun o => ∃ k r r', 1 ≤ k ∧ k ≤ plan.length ∧
        probeTail g pl game dFull plan k r = some (o, r'))
      (fun k r o r' hpos hle hprobe => ⟨k, r, r', hpos, hle, hprobe⟩)
      (start_inside (Nat.one_le_iff_ne_zero.mpr hempty) _) le_rfl
      (fun o ho => by simp [Climb.start] at ho) (fun o ho => by simp [Climb.start] at ho) hclimb
    have hlines : ∀ {kept : Option (EpisodeOutcome B ℝ)}, (∀ o, kept = some o → ∃ k r r', 1 ≤ k ∧
        k ≤ plan.length ∧ probeTail g pl game dFull plan k r = some (o, r')) →
        ∀ r, List.Forall₂ (Lines g true) kept.toList (writeKept g pl.draw kept r).1 := by
      intro kept hkept r
      apply writeKept_lines
      intro o ho r₂
      obtain ⟨k, r₃, r₄, -, -, hprobe⟩ := hkept o ho
      exact runEpisodeFrom_lines hprobe r₂
    obtain ⟨-, rfl, -⟩ : _ = ret ∧ _ = written ∧ _ = r' := by
      simpa only [Prod.mk.injEq] using Option.some.inj h
    refine ⟨fun hnil => hempty (by simp [hnil]), st.best.toList ++ st.failed.toList, ?_, ?_,
      List.rel_append (hlines hbest r₁) (hlines hfailed _)⟩
    · rw [List.length_append]
      have hone : ∀ kept : Option (EpisodeOutcome B ℝ), kept.toList.length ≤ 1 := by
        intro kept
        cases kept <;> simp
      exact Nat.add_le_add (hone st.best) (hone st.failed)
    · intro o ho
      rcases List.mem_append.mp ho with ho | ho
      · exact hbest o (Option.mem_toList.mp ho)
      · exact hfailed o (Option.mem_toList.mp ho)

noncomputable def showing : Settings ℝ where
  toGatherer := generous
  reverseCurriculum := false
  reverseCurriculumMinLen := 1
  reverseCurriculumProb := 0
  demoFraction := 1
  demoMinObjectives := 1
  demoSubsample := 1

end Calls

end Mcts.GatherCalls
