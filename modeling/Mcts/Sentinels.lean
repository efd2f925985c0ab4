import Mcts.EvalReward
import Mcts.Holdout
import Mcts.Promotions

/-!
Environments without a heuristic baseline, from the evaluator's rows to the
promotion. The evaluator marks them in the actions column; the comparison reads
the depth column only, counts them as draws, and so dilutes the win rate.
-/
namespace Mcts.Sentinels

open Episodes EvalReward Holdout Orchestrator

structure SolutionRow extends Solution where
  actions : String
  achievedObjectives : ℤ
  evalReward : Option ℚ
  attemptedAt : String
deriving DecidableEq

def unsolvableMark : String := "\"heuristic_unsolvable\""

/-- The row says that the heuristic had no baseline. -/
def Sentinel (row : SolutionRow) : Prop :=
  row.actions = unsolvableMark ∧ row.solutionDepth = none ∧ row.evalReward = none

instance : DecidablePred Sentinel := fun row => by unfold Sentinel; infer_instance

section Writer

variable {G P B F R : Type} [Field F] [LinearOrder F] [FloorSemiring F] [Saturation F]
variable [Tilers G P B F]

/-- The row inserted for an attempt. Stored numbers are exact, and the list of
actions is serialised by `toJson`. -/
def solutionRow (store : F → ℚ) (toJson : List ℕ → String) (agentId environmentId : ℤ)
    (attemptedAt : String) (a : Attempt F) : SolutionRow where
  agentId := agentId
  environmentId := environmentId
  solutionDepth := a.solutionDepth.map store
  actions := if a.heuristicUnsolvable then unsolvableMark else toJson a.actionsTaken
  achievedObjectives := a.achievedObjectives
  evalReward := a.evalReward.map store
  attemptedAt := attemptedAt

/-- `evaluate_agent_with_client`: attempted environments and those that cannot be
read are skipped, the others get a row each. -/
def evaluateAgentWithClient (ev : Evaluator F) (pl : Player G F R) (fromJson : String → Option G)
    (store : F → ℚ) (toJson : List ℕ → String) (now : R → String) (agentId : ℤ) :
    List HoldoutEnvironment → List SolutionRow → R → Option (List SolutionRow × R)
  | [], table, r => some (table, r)
  | holdout :: rest, table, r =>
    if table.any fun row => row.agentId = agentId ∧ row.environmentId = holdout.environmentId then
      evaluateAgentWithClient ev pl fromJson store toJson now agentId rest table r
    else
      match fromJson holdout.json with
      | none => evaluateAgentWithClient ev pl fromJson store toJson now agentId rest table r
      | some env => do
        let (a, r) ← ev.evaluateSingle pl env r
        evaluateAgentWithClient ev pl fromJson store toJson now agentId rest
          (table ++ [solutionRow store toJson agentId holdout.environmentId (now r) a]) r

/-- Whatever the player does, an environment the heuristic gives up on gets a sentinel. -/
theorem solutionRow_sentinel {ev : Evaluator F} {pl : Player G F R} {env : G} {r r' : R}
    {a : Attempt F} (store : F → ℚ) (toJson : List ℕ → String) (agentId environmentId : ℤ)
    (attemptedAt : String) (hsolve : (solve (setCultivationTime env 10) true).1 = none)
    (h : ev.evaluateSingle pl env r = some (a, r')) :
    Sentinel (solutionRow store toJson agentId environmentId attemptedAt a) := by
  unfold Evaluator.evaluateSingle at h
  rcases hplan : solve (setCultivationTime env 10) true with ⟨plan, solved⟩
  rw [hplan] at hsolve
  obtain rfl : plan = none := hsolve
  simp only [hplan, Option.some.injEq, Prod.mk.injEq] at h
  obtain ⟨rfl, _⟩ := h
  exact ⟨rfl, rfl, rfl⟩

/-- Every row that an evaluation adds is of one of its environments, and a sentinel
if the heuristic gives up on that. -/
theorem evaluateAgent_rows {ev : Evaluator F} {pl : Player G F R} {fromJson : String → Option G}
    {store : F → ℚ} {toJson : List ℕ → String} {now : R → String} {agentId : ℤ}
    (environments : List HoldoutEnvironment) : ∀ (table table' : List SolutionRow) (r r' : R),
    evaluateAgentWithClient ev pl fromJson store toJson now agentId environments table r =
      some (table', r') →
    ∀ row ∈ table', row ∈ table ∨ ∃ holdout ∈ environments, ∃ env,
      fromJson holdout.json = some env ∧ row.agentId = agentId ∧
      row.environmentId = holdout.environmentId ∧
      ((solve (setCultivationTime env 10) true).1 = none → Sentinel row) := by
  induction environments with
  | nil =>
    intro table table' r r' h row hrow
    obtain ⟨rfl, _⟩ := Prod.mk.inj (Option.some.inj h)
    exact Or.inl hrow
  | cons holdout rest ih =>
    have hlater : ∀ (table table' : List SolutionRow) (r r' : R),
        evaluateAgentWithClient ev pl fromJson store toJson now agentId rest table r =
          some (table', r') →
        ∀ row ∈ table', row ∈ table ∨ ∃ h ∈ holdout :: rest, ∃ env,
          fromJson h.json = some env ∧ row.agentId = agentId ∧
          row.environmentId = h.environmentId ∧
          ((solve (setCultivationTime env 10) true).1 = none → Sentinel row) := by
      intro table table' r r' h row hrow
      rcases ih table table' r r' h row hrow with hold | ⟨h', hmem, hrest⟩
      · exact Or.inl hold
      · exact Or.inr ⟨h', List.mem_cons_of_mem holdout hmem, hrest⟩
    intro table table' r r' h row hrow
    unfold evaluateAgentWithClient at h
    split at h
    · exact hlater table table' r r' h row hrow
    · split at h
      · exact hlater table table' r r' h row hrow
      · next env henv =>
        obtain ⟨⟨a, r₁⟩, hsingle, hgo⟩ := Option.bind_eq_some_iff.mp h
        rcases hlater _ table' r₁ r' hgo row hrow with hmem | hnew
        · rcases List.mem_append.mp hmem with hold | hlast
          · exact Or.inl hold
          · obtain rfl := List.mem_singleton.mp hlast
            refine Or.inr ⟨holdout, List.mem_cons_self, env, henv, rfl, rfl, ?_⟩
            intro hsolve
            exact solutionRow_sentinel store toJson agentId _ _ hsolve hsingle
        · exact Or.inr hnew

end Writer

section Counts

def beats : Option ℚ → Option ℚ → Bool
  | some c, some i => c < i
  | some _, none => true
  | none, _ => false

/-- The three counts of a comparison, as counts of rows. -/
theorem foldl_score (rows : List (Option ℚ × Option ℚ)) (counts : ℕ × ℕ × ℕ) :
    (rows.foldl score counts).1 = counts.1 + rows.countP (fun row => beats row.1 row.2) ∧
    (rows.foldl score counts).2.1 = counts.2.1 + rows.countP (fun row => beats row.2 row.1) := by
  induction rows generalizing counts with
  | nil => exact ⟨rfl, rfl⟩
  | cons row rows ih =>
    obtain ⟨hcandidate, hincumbent⟩ := ih (score counts row)
    rw [List.foldl_cons, hcandidate, hincumbent, List.countP_cons, List.countP_cons]
    rcases row with ⟨_ | c, _ | i⟩
    · simp [score, beats]
    · simp [score, beats]
      omega
    · simp [score, beats]
      omega
    · rcases lt_trichotomy c i with hlt | rfl | hgt
      · simp [score, beats, hlt, hlt.not_gt]
        omega
      · simp [score, beats]
      · simp [score, beats, hgt, hgt.not_gt]
        omega

def sharedRows (table : List SolutionRow) (candidateId incumbentId : ℤ) :
    List (SolutionRow × SolutionRow) :=
  (table.filter fun c => c.agentId = candidateId).flatMap fun c =>
    (table.filter fun i => i.agentId = incumbentId ∧ i.environmentId = c.environmentId).map
      fun i => (c, i)

theorem mem_sharedRows {table : List SolutionRow} {candidateId incumbentId : ℤ}
    {p : SolutionRow × SolutionRow} (h : p ∈ sharedRows table candidateId incumbentId) :
    p.1 ∈ table ∧ p.2 ∈ table ∧ p.1.agentId = candidateId ∧ p.2.agentId = incumbentId ∧
      p.2.environmentId = p.1.environmentId := by
  obtain ⟨c, hc, hp⟩ := List.mem_flatMap.mp h
  obtain ⟨i, hi, rfl⟩ := List.mem_map.mp hp
  simp only [List.mem_filter, decide_eq_true_eq] at hc hi
  exact ⟨hc.1, hi.1, hc.2, hi.2.1, hi.2.2⟩

/-- The join reads the depths of the shared rows. -/
theorem joinSolutions_eq (table : List SolutionRow) (candidateId incumbentId : ℤ) :
    joinSolutions (table.map (·.toSolution)) candidateId incumbentId =
      (sharedRows table candidateId incumbentId).map fun p =>
        (p.1.solutionDepth, p.2.solutionDepth) := by
  unfold joinSolutions sharedRows
  rw [List.filter_map, List.flatMap_map, List.map_flatMap]
  apply List.flatMap_congr
  intro c _
  rw [List.filter_map, List.map_map, List.map_map]
  rfl

variable (U : Set ℤ) [DecidablePred (· ∈ U)]

def without (table : List SolutionRow) : List SolutionRow :=
  table.filter fun row => row.environmentId ∉ U

theorem sharedRows_without (table : List SolutionRow) (candidateId incumbentId : ℤ) :
    sharedRows (without U table) candidateId incumbentId =
      (sharedRows table candidateId incumbentId).filter fun p => p.1.environmentId ∉ U := by
  have hinner : ∀ c : SolutionRow,
      ((table.filter fun i =>
        i.agentId = incumbentId ∧ i.environmentId = c.environmentId).map fun i => (c, i)).filter
          (fun p => p.1.environmentId ∉ U) =
      if c.environmentId ∈ U then []
      else ((without U table).filter fun i =>
        i.agentId = incumbentId ∧ i.environmentId = c.environmentId).map fun i => (c, i) := by
    intro c
    rw [List.filter_map]
    by_cases hc : c.environmentId ∈ U
    · simp [hc, Function.comp_def]
    · rw [if_neg hc, without, List.filter_filter, List.filter_filter]
      congr 1
      apply List.filter_congr
      intro i _
      by_cases henv : i.environmentId = c.environmentId
      · simp [henv, hc]
      · simp [henv]
  have houter : ∀ (rows : List SolutionRow) (g : SolutionRow → List (SolutionRow × SolutionRow)),
      ((rows.filter fun c => c.environmentId ∉ U).filter fun c => c.agentId = candidateId).flatMap g =
      (rows.filter fun c => c.agentId = candidateId).flatMap fun c =>
        if c.environmentId ∈ U then [] else g c := by
    intro rows g
    induction rows with
    | nil => rfl
    | cons c rows ih =>
      by_cases hU : c.environmentId ∈ U <;> by_cases hid : c.agentId = candidateId <;>
        simp_all
  unfold sharedRows
  rw [List.filter_flatMap]
  simp only [hinner]
  exact houter table _

/-- Rows without depths win nothing. -/
theorem beats_sentinel {c i : SolutionRow} (hc : Sentinel c) (hi : Sentinel i) :
    beats c.solutionDepth i.solutionDepth = false := by
  rw [hc.2.1, hi.2.1]
  rfl

/-- What the comparison counts of a table. -/
theorem counts_eq (table : List SolutionRow) (candidateId incumbentId : ℤ) :
    ((joinSolutions (table.map (·.toSolution)) candidateId incumbentId).foldl score (0, 0, 0)).1 =
      (sharedRows table candidateId incumbentId).countP
        (fun p => beats p.1.solutionDepth p.2.solutionDepth) ∧
    ((joinSolutions (table.map (·.toSolution)) candidateId incumbentId).foldl score (0, 0, 0)).2.1 =
      (sharedRows table candidateId incumbentId).countP
        (fun p => beats p.2.solutionDepth p.1.solutionDepth) ∧
    (joinSolutions (table.map (·.toSolution)) candidateId incumbentId).length =
      (sharedRows table candidateId incumbentId).length := by
  obtain ⟨hcandidate, hincumbent⟩ := foldl_score
    (joinSolutions (table.map (·.toSolution)) candidateId incumbentId) (0, 0, 0)
  rw [hcandidate, hincumbent, joinSolutions_eq, List.countP_map, List.countP_map, List.length_map]
  exact ⟨Nat.zero_add _, Nat.zero_add _, rfl⟩

variable {U} {table : List SolutionRow} {candidateId incumbentId : ℤ}

/-- A test that fails on the set counts the same without it. -/
theorem countP_without (test : SolutionRow × SolutionRow → Bool)
    (h : ∀ p ∈ sharedRows table candidateId incumbentId, p.1.environmentId ∈ U → test p = false) :
    (sharedRows (without U table) candidateId incumbentId).countP test =
      (sharedRows table candidateId incumbentId).countP test := by
  rw [sharedRows_without, List.countP_filter]
  apply List.countP_congr
  intro p hp
  by_cases hU : p.1.environmentId ∈ U
  · simp [h p hp hU]
  · simp [hU]

end Counts

/-- Without a row there is no win, and the rate is that of no win as well. -/
theorem winRate_eq (rows : List (Option ℚ × Option ℚ)) :
    winRate rows = Rounding.float 53 ((rows.foldl score (0, 0, 0)).1 / rows.length : ℚ) := by
  rw [winRate]
  split
  · rfl
  · next hnone =>
    have hlength : rows.length = 0 := Nat.eq_zero_of_not_pos hnone
    rw [hlength, Nat.cast_zero, div_zero, Rounding.float_zero]

section Decision

variable {T : Type} {table : List SolutionRow} {candidateId incumbentId : ℤ}

def Shared (table : List SolutionRow) (candidateId incumbentId : ℤ) (c i : SolutionRow) : Prop :=
  c ∈ table ∧ i ∈ table ∧ c.agentId = candidateId ∧ i.agentId = incumbentId ∧
    i.environmentId = c.environmentId

theorem mem_sharedRows_iff {c i : SolutionRow} :
    (c, i) ∈ sharedRows table candidateId incumbentId ↔ Shared table candidateId incumbentId c i := by
  constructor
  · exact mem_sharedRows
  · rintro ⟨hc, hi, hcid, hiid, henv⟩
    apply List.mem_flatMap.mpr
    refine ⟨c, List.mem_filter.mpr ⟨hc, decide_eq_true hcid⟩, ?_⟩
    apply List.mem_map.mpr
    exact ⟨i, List.mem_filter.mpr ⟨hi, decide_eq_true ⟨hiid, henv⟩⟩, rfl⟩

variable (U : Set ℤ) [DecidablePred (· ∈ U)]

/-- The comparison comes to the same numbers of wins and the same decision with the rows
of these environments and without them. -/
def Neutral (db : Database T) (table : List SolutionRow) (candidateId incumbentId : ℤ)
    (promotionThreshold : ℚ) (now : T) : Prop :=
  ∃ withThem withoutThem : Evaluation T,
    (promoteCandidate candidateId incumbentId promotionThreshold now
      { db with solutions := table.map (·.toSolution) }).evaluations =
        db.evaluations ++ [withThem] ∧
    (promoteCandidate candidateId incumbentId promotionThreshold now
      { db with solutions := (without U table).map (·.toSolution) }).evaluations =
        db.evaluations ++ [withoutThem] ∧
    withThem.candidateWins = withoutThem.candidateWins ∧
    withThem.incumbentWins = withoutThem.incumbentWins ∧
    withThem.promoted = withoutThem.promoted

/-- The three numbers that the two comparisons have of a table: the wins of both are the
same with and without the sentinels, the total is not. -/
theorem sentinel_counts
    (hsentinel : ∀ c i, Shared table candidateId incumbentId c i → c.environmentId ∈ U →
      Sentinel c ∧ Sentinel i) :
    (sharedRows (without U table) candidateId incumbentId).countP
        (fun p => beats p.1.solutionDepth p.2.solutionDepth) =
      (sharedRows table candidateId incumbentId).countP
        (fun p => beats p.1.solutionDepth p.2.solutionDepth) ∧
    (sharedRows (without U table) candidateId incumbentId).countP
        (fun p => beats p.2.solutionDepth p.1.solutionDepth) =
      (sharedRows table candidateId incumbentId).countP
        (fun p => beats p.2.solutionDepth p.1.solutionDepth) ∧
    (sharedRows (without U table) candidateId incumbentId).length =
      (sharedRows table candidateId incumbentId).countP fun p => p.1.environmentId ∉ U := by
  refine ⟨countP_without _ fun p hp hU => ?_, countP_without _ fun p hp hU => ?_, ?_⟩
  · obtain ⟨hc, hi⟩ := hsentinel p.1 p.2 (mem_sharedRows_iff.mp hp) hU
    exact beats_sentinel hc hi
  · obtain ⟨hc, hi⟩ := hsentinel p.1 p.2 (mem_sharedRows_iff.mp hp) hU
    exact beats_sentinel hi hc
  · rw [sharedRows_without, List.countP_eq_length_filter]

/-- The wins are the same in any case, so it is the decision that matters. -/
theorem neutral_iff (db : Database T) (promotionThreshold : ℚ) (now : T)
    (hsentinel : ∀ c i, Shared table candidateId incumbentId c i → c.environmentId ∈ U →
      Sentinel c ∧ Sentinel i) :
    Neutral U db table candidateId incumbentId promotionThreshold now ↔
      (promotionThreshold < Rounding.float 53
          ((sharedRows table candidateId incumbentId).countP
            (fun p => beats p.1.solutionDepth p.2.solutionDepth) /
          (sharedRows table candidateId incumbentId).length : ℚ) ↔
        promotionThreshold < Rounding.float 53
          ((sharedRows table candidateId incumbentId).countP
            (fun p => beats p.1.solutionDepth p.2.solutionDepth) /
          ((sharedRows table candidateId incumbentId).countP
            fun p => p.1.environmentId ∉ U) : ℚ)) := by
  obtain ⟨hwins, hlosses, hlength⟩ := counts_eq table candidateId incumbentId
  obtain ⟨hwins', hlosses', hlength'⟩ := counts_eq (without U table) candidateId incumbentId
  obtain ⟨hsame, hsame', houtside⟩ := sentinel_counts U hsentinel
  rw [← hwins, ← hlength, ← winRate_eq, ← houtside, ← hlength', hwins, ← hsame, ← hwins',
    ← winRate_eq]
  constructor
  · rintro ⟨withThem, withoutThem, heval, heval', -, -, hpromoted⟩
    obtain rfl := List.singleton_inj.mp (List.append_cancel_left heval)
    obtain rfl := List.singleton_inj.mp (List.append_cancel_left heval')
    exact decide_eq_decide.mp hpromoted
  · intro hrates
    refine ⟨_, _, rfl, rfl, ?_, ?_, decide_eq_decide.mpr hrates⟩
    · exact hwins.trans (hsame.symm.trans hwins'.symm)
    · exact hlosses.trans (hsame'.symm.trans hlosses'.symm)

/-- Environments with two sentinels change nothing at any threshold just when the two agents
share none of them or the candidate is better nowhere. Otherwise the total they belong to
lowers the win rate, and some threshold lies between. The bound is far above what the
database can hold; beyond it two win rates may round to the same number. -/
theorem sentinels_neutral_iff (db : Database T) (table : List SolutionRow)
    (candidateId incumbentId : ℤ) (now : T)
    (hsentinel : ∀ c i, Shared table candidateId incumbentId c i → c.environmentId ∈ U →
      Sentinel c ∧ Sentinel i)
    (hrows : (sharedRows table candidateId incumbentId).length < 2 ^ 52) :
    (∀ q : ℚ, 0 ≤ Rounding.float 53 q → Rounding.float 53 q < 1 →
        Neutral U db table candidateId incumbentId (Rounding.float 53 q) now) ↔
      (∀ c i, Shared table candidateId incumbentId c i → c.environmentId ∉ U) ∨
        ∀ c i, Shared table candidateId incumbentId c i →
          beats c.solutionDepth i.solutionDepth = false := by
  simp only [neutral_iff U db _ now hsentinel]
  obtain ⟨wins, hwins⟩ : ∃ wins, wins = (sharedRows table candidateId incumbentId).countP
    (fun p => beats p.1.solutionDepth p.2.solutionDepth) := ⟨_, rfl⟩
  obtain ⟨outside, houtside⟩ : ∃ outside, outside =
    (sharedRows table candidateId incumbentId).countP (fun p => p.1.environmentId ∉ U) := ⟨_, rfl⟩
  rw [← hwins, ← houtside]
  constructor
  · intro hneutral
    by_contra hboth
    simp only [not_or, not_forall] at hboth
    obtain ⟨⟨c, i, hshared, hU⟩, c', i', hshared', hbeats⟩ := hboth
    rw [not_not] at hU
    rw [Bool.not_eq_false] at hbeats
    have hpos : 0 < wins := by
      rw [hwins, List.countP_pos_iff]
      exact ⟨(c', i'), mem_sharedRows_iff.mpr hshared', hbeats⟩
    have hless : outside < (sharedRows table candidateId incumbentId).length := by
      rw [houtside]
      apply lt_of_le_of_ne List.countP_le_length
      intro hall
      have hnone := List.countP_eq_length.mp hall (c, i) (mem_sharedRows_iff.mpr hshared)
      exact absurd hU (of_decide_eq_true hnone)
    have hwon : wins ≤ outside := by
      rw [hwins, houtside]
      apply List.countP_mono_left
      intro p hp hbeats
      apply decide_eq_true
      intro hU
      obtain ⟨hc, hi⟩ := hsentinel p.1 p.2 (mem_sharedRows_iff.mp hp) hU
      rw [beats_sentinel hc hi] at hbeats
      cases hbeats
    -- The rate with the sentinels is a threshold that only the rate without them passes.
    have hrate := Rounding.float_ratio_lt (K := ℚ) (p := 53) hpos (by omega) hless (by omega)
    have hcut := hneutral (wins / (sharedRows table candidateId incumbentId).length)
      (Rounding.float_nonneg 53 (by positivity))
      (Rounding.float_ratio_lt_one hwon hless (by omega))
    exact absurd (hcut.mpr hrate) (lt_irrefl _)
  · rintro (hnone | hnever) q hnonneg -
    · have hall : outside = (sharedRows table candidateId incumbentId).length := by
        rw [houtside, List.countP_eq_length]
        intro p hp
        exact decide_eq_true (hnone p.1 p.2 (mem_sharedRows_iff.mp hp))
      rw [hall]
    · have hzero : wins = 0 := by
        rw [hwins, List.countP_eq_zero]
        intro p hp
        rw [hnever p.1 p.2 (mem_sharedRows_iff.mp hp)]
        simp
      rw [hzero, Nat.cast_zero, zero_div, zero_div]

end Decision

def dilutedTable : List SolutionRow :=
  [⟨⟨1, 1, some 5⟩, "[3]", 1, some (1 / 4), ""⟩, ⟨⟨0, 1, none⟩, "[4]", 0, some (-1), ""⟩,
    ⟨⟨1, 2, none⟩, unsolvableMark, 0, none, ""⟩, ⟨⟨0, 2, none⟩, unsolvableMark, 0, none, ""⟩]

theorem dilutedTable_sentinel : ∀ row ∈ dilutedTable, row.environmentId ∈ ({2} : Set ℤ) →
    Sentinel row := by
  intro row hrow hU
  have henv : row.environmentId = 2 := hU
  simp only [dilutedTable, List.mem_cons, List.not_mem_nil, or_false] at hrow
  rcases hrow with rfl | rfl | rfl | rfl
  · cases henv
  · cases henv
  · exact ⟨rfl, rfl, rfl⟩
  · exact ⟨rfl, rfl, rfl⟩

def noEvaluations : Database ℕ := ⟨[⟨0, "", some 0⟩, ⟨1, "", none⟩], [], []⟩

/-- An unsolvable environment more costs the candidate its promotion at 55 %. -/
theorem sentinel_blocks :
    (∀ row ∈ dilutedTable, row.environmentId ∈ ({2} : Set ℤ) → Sentinel row) ∧
    (promoteCandidate 1 0 (Rounding.float 53 (11 / 20)) 7
      { noEvaluations with solutions := (without {2} dilutedTable).map (·.toSolution) }
        ).evaluations = [⟨1, 0, 1, 0, 0, true, 7⟩] ∧
    (promoteCandidate 1 0 (Rounding.float 53 (11 / 20)) 7
      { noEvaluations with solutions := dilutedTable.map (·.toSolution) }
        ).evaluations = [⟨1, 0, 1, 0, 1, false, 7⟩] := by
  refine ⟨dilutedTable_sentinel, ?_, ?_⟩
  · decide +kernel
  · decide +kernel

/-- The pair of sentinels on environment 2 is not neutral at every threshold for the table
where the candidate wins environment 1. -/
theorem sentinels_neutral_iff_diluted :
    ¬ ∀ q : ℚ, 0 ≤ Rounding.float 53 q → Rounding.float 53 q < 1 →
      Neutral {2} noEvaluations dilutedTable 1 0 (Rounding.float 53 q) 7 := by
  rw [sentinels_neutral_iff {2} noEvaluations dilutedTable 1 0 7
    (fun c i hshared hU => ⟨dilutedTable_sentinel c hshared.1 hU,
      dilutedTable_sentinel i hshared.2.1 (hshared.2.2.2.2 ▸ hU)⟩) (by decide +kernel)]
  rintro (hnone | hnever)
  · have hshared : Shared dilutedTable 1 0 ⟨⟨1, 2, none⟩, unsolvableMark, 0, none, ""⟩
        ⟨⟨0, 2, none⟩, unsolvableMark, 0, none, ""⟩ := by
      simp [Shared, dilutedTable]
    exact hnone _ _ hshared rfl
  · have hshared : Shared dilutedTable 1 0 ⟨⟨1, 1, some 5⟩, "[3]", 1, some (1 / 4), ""⟩
        ⟨⟨0, 1, none⟩, "[4]", 0, some (-1), ""⟩ := by
      simp [Shared, dilutedTable]
    exact absurd (hnever _ _ hshared) (by decide)

end Mcts.Sentinels
