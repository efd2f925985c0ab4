import Mcts.EvaluatorRuns

/-!
From the evaluators to the promotion. The comparison joins the rows of two agents
as they are; what makes it a comparison on the holdout is that the evaluators leave
exactly one row for each agent and environment, whatever happened to them.
-/
namespace Mcts.Comparisons

open Episodes EvalReward Orchestrator Holdout Sentinels KeyedTables EvaluatorRuns

section Tables

variable {table : List SolutionRow} {candidateId incumbentId : ℤ} {row : SolutionRow}

def depthOn (table : List SolutionRow) (agentId environmentId : ℤ) : Option ℚ :=
  (table.find? fun row => solutionKey row = (agentId, environmentId)).bind (·.solutionDepth)

theorem depthOn_eq (h : (keys table).Nodup) (hrow : row ∈ table) :
    depthOn table row.agentId row.environmentId = row.solutionDepth := by
  have honly := filter_key h hrow
  rw [depthOn, ← List.head?_filter]
  change ((table.filter fun other => solutionKey other = solutionKey row).head?).bind _ = _
  rw [honly]
  rfl

def attempted (table : List SolutionRow) (agentId : ℤ) : List ℤ :=
  (table.filter fun row => row.agentId = agentId).map (·.environmentId)

theorem mem_attempted {agentId environmentId : ℤ} :
    environmentId ∈ attempted table agentId ↔ (agentId, environmentId) ∈ keys table := by
  simp only [attempted, List.mem_map, List.mem_filter, decide_eq_true_eq, mem_keys, solutionKey,
    Prod.mk.injEq, and_assoc]

theorem nodup_attempted (h : (keys table).Nodup) (agentId : ℤ) : (attempted table agentId).Nodup := by
  apply List.Nodup.map_on _ ((List.Nodup.of_map _ h).filter _)
  intro x hx y hy henv
  rw [List.mem_filter, decide_eq_true_eq] at hx hy
  apply List.inj_on_of_nodup_map h hx.1 hy.1
  rw [solutionKey, solutionKey, hx.2, hy.2, henv]

/-- The join, where the incumbent has a row wherever the candidate has one. -/
theorem joinSolutions_attempted (h : (keys table).Nodup)
    (hboth : ∀ x ∈ attempted table candidateId, (incumbentId, x) ∈ keys table) :
    joinSolutions (table.map (·.toSolution)) candidateId incumbentId =
      (attempted table candidateId).map fun x =>
        (depthOn table candidateId x, depthOn table incumbentId x) := by
  rw [joinSolutions_eq, sharedRows, List.map_flatMap, attempted, List.map_map,
    ← List.flatMap_pure_eq_map]
  apply List.flatMap_congr
  intro c hc
  rw [List.mem_filter, decide_eq_true_eq] at hc
  obtain ⟨i, hi, hkey⟩ := mem_keys.mp
    (hboth c.environmentId (List.mem_map_of_mem (List.mem_filter.mpr ⟨hc.1, by simpa using hc.2⟩)))
  obtain ⟨hid, henv⟩ := Prod.mk.inj hkey
  have honly := filter_key h hi
  have hinner : (table.filter fun other => other.agentId = incumbentId ∧
      other.environmentId = c.environmentId) = [i] := by
    rw [← honly, ← hid, ← henv]
    apply List.filter_congr
    intro other _
    rw [decide_eq_decide]
    exact Prod.mk_inj.symm
  rw [hinner]
  have hcandidate := depthOn_eq h hc.1
  have hincumbent := depthOn_eq h hi
  rw [hc.2] at hcandidate
  rw [hid, henv] at hincumbent
  simp [hcandidate, hincumbent]

end Tables

section Scores

variable {rows : List (Option ℚ × Option ℚ)}

/-- Every row is a win of one agent or a draw. -/
theorem foldl_score_total (rows : List (Option ℚ × Option ℚ)) (counts : ℕ × ℕ × ℕ) :
    (rows.foldl score counts).1 + (rows.foldl score counts).2.1 + (rows.foldl score counts).2.2 =
      counts.1 + counts.2.1 + counts.2.2 + rows.length := by
  induction rows generalizing counts with
  | nil => rfl
  | cons row rows ih =>
    rw [List.foldl_cons, ih, List.length_cons]
    rcases row with ⟨_ | c, _ | i⟩
    · simp only [score]
      omega
    · simp only [score]
      omega
    · simp only [score]
      omega
    · simp only [score]
      split
      · dsimp only
        omega
      · split
        · dsimp only
          omega
        · dsimp only
          omega

end Scores

section Verdict

variable {P G Q B F R T : Type} [DecidableEq P] [Field F] [LinearOrder F] [FloorSemiring F]
variable [Saturation F] [Tilers G Q B F]
variable {S : Setting P G F R} {countFails : Prop} {w₀ w : World P G}
variable {candidateId incumbentId : ℤ} {maxDifficultyBin : Option ℤ}

/-- What an agent is evaluated on: the environments up to the bin that can be read. -/
def holdout (S : Setting P G F R) (maxDifficultyBin : Option ℤ) : List HoldoutEnvironment :=
  (eligible S.environments maxDifficultyBin).filter fun e => (S.fromJson e.json).isSome

/-- How many of these environments the first agent solves better than the second. -/
def wins (table : List SolutionRow) (environments : List HoldoutEnvironment) (first second : ℤ) : ℕ :=
  environments.countP fun e =>
    beats (depthOn table first e.environmentId) (depthOn table second e.environmentId)

omit [DecidableEq P] [Field F] [LinearOrder F] [FloorSemiring F] [Saturation F] in
theorem mem_holdout {e : HoldoutEnvironment} : e ∈ holdout S maxDifficultyBin ↔
    e ∈ eligible S.environments maxDifficultyBin ∧ S.fromJson e.json ≠ none := by
  rw [holdout, List.mem_filter, Option.isSome_iff_ne_none]

theorem slice_subset (numNodes nodeIdx : ℤ) {rows : List HoldoutEnvironment}
    {e : HoldoutEnvironment} (h : e ∈ slice numNodes nodeIdx (ordered rows)) : e ∈ rows := by
  obtain ⟨numbered, hnumbered, rfl⟩ := List.mem_map.mp h
  obtain ⟨x, hx, rfl⟩ := List.mem_map.mp (List.mem_filter.mp hnumbered).1
  exact (List.mem_insertionSort Before).mp (List.fst_mem_of_mem_zipIdx hx)

/-- Whatever slice a process asks for, it is of the eligible environments. -/
theorem loads_eligible {table rows : List HoldoutEnvironment} {nodeIdx numNodes : ℤ}
    (h : Loads table maxDifficultyBin nodeIdx numNodes rows) {e : HoldoutEnvironment}
    (he : e ∈ rows) : e ∈ eligible table maxDifficultyBin := by
  obtain ⟨result, hquery, hperm, -⟩ := h
  have hresult := hperm.mem_iff.mp he
  cases maxDifficultyBin with
  | none =>
    obtain rfl : slice numNodes nodeIdx (ordered table) = result := Option.some.inj hquery
    simpa [eligible] using slice_subset _ _ hresult
  | some maxBin =>
    obtain rfl : slice numNodes nodeIdx (ordered (table.filter fun e => e.difficultyBin ≤ maxBin)) =
      result := Option.some.inj hquery
    simpa [eligible] using slice_subset _ _ hresult

omit [DecidableEq P] in
/-- Once the candidate's calls have returned, it has been tried on the holdout and
on nothing else. -/
theorem attempted_perm (h : S.Sound w₀ w) (hids : (S.environments.map (·.environmentId)).Nodup)
    {n : ℕ} (hn : 1 ≤ n) (hreturned : S.AllReturned w candidateId maxDifficultyBin n)
    (hbin : ∀ p, (S.calls p).agentId = candidateId →
      (S.calls p).maxDifficultyBin = maxDifficultyBin)
    (hearlier : ∀ row ∈ w₀.solutions, row.agentId = candidateId →
      ∃ e ∈ holdout S maxDifficultyBin, e.environmentId = row.environmentId) :
    (attempted w.solutions candidateId).Perm
      ((holdout S maxDifficultyBin).map (·.environmentId)) := by
  have hnodup : ((holdout S maxDifficultyBin).map (·.environmentId)).Nodup :=
    hids.sublist ((List.filter_sublist.trans List.filter_sublist).map _)
  rw [List.perm_ext_iff_of_nodup (nodup_attempted h.table candidateId) hnodup]
  intro x
  rw [mem_attempted, List.mem_map]
  constructor
  · intro hx
    obtain ⟨row, hrow, hkey⟩ := mem_keys.mp hx
    obtain ⟨hid, rfl⟩ := Prod.mk.inj hkey
    rcases h.rows row hrow with hold | ⟨p, rows, e, hloaded, he, hattempted⟩
    · exact hearlier row hold hid
    · obtain ⟨hagent, henv⟩ := Prod.mk.inj hattempted.key
      obtain ⟨env, r, r', a, attemptedAt, hread, -, -⟩ := hattempted
      rw [Setting.Loaded, hbin p (hagent.symm.trans hid)] at hloaded
      exact ⟨e, mem_holdout.mpr ⟨loads_eligible hloaded he, by simp [hread]⟩, henv.symm⟩
  · rintro ⟨e, he, rfl⟩
    obtain ⟨heligible, hread⟩ := mem_holdout.mp he
    exact h.all_returned hids hn hreturned heligible hread

/-- Whatever became of the evaluators on the way, once a call for each slice of both
agents has returned the comparison is over the holdout, each environment once: the
counts it stores are those of the holdout, and the candidate is promoted exactly if the
double nearest to its share of wins among all the environments exceeds the threshold. -/
theorem comparison_complete [LinearOrder T] (h₀ : Fresh w₀) (h : S.Reached countFails w₀ w)
    (hids : (S.environments.map (·.environmentId)).Nodup) {n m : ℕ} (hn : 1 ≤ n) (hm : 1 ≤ m)
    (hcandidate : S.AllReturned w candidateId maxDifficultyBin n)
    (hincumbent : S.AllReturned w incumbentId maxDifficultyBin m)
    (hbin : ∀ p, (S.calls p).agentId = candidateId →
      (S.calls p).maxDifficultyBin = maxDifficultyBin)
    (hearlier : ∀ row ∈ w₀.solutions, row.agentId = candidateId →
      ∃ e ∈ holdout S maxDifficultyBin, e.environmentId = row.environmentId)
    {db : Database T} (hdb : db.solutions = w.solutions.map (·.toSolution)) {threshold : ℚ}
    (now : T) :
    ∃ draws promoted,
      promoteCandidate candidateId incumbentId threshold now db =
        { db with
          agents := if promoted then db.agents.map (promoteAgent candidateId now) else db.agents
          evaluations := db.evaluations ++ [⟨candidateId, incumbentId,
            wins w.solutions (holdout S maxDifficultyBin) candidateId incumbentId,
            wins w.solutions (holdout S maxDifficultyBin) incumbentId candidateId, draws, promoted,
            now⟩] } ∧
      wins w.solutions (holdout S maxDifficultyBin) candidateId incumbentId +
        wins w.solutions (holdout S maxDifficultyBin) incumbentId candidateId + draws =
          (holdout S maxDifficultyBin).length ∧
      (promoted = true ↔ threshold < Rounding.float 53
        (wins w.solutions (holdout S maxDifficultyBin) candidateId incumbentId /
          (holdout S maxDifficultyBin).length : ℚ)) := by
  have hsound := Setting.Sound.run h₀ h
  have hperm := attempted_perm hsound hids hn hcandidate hbin hearlier
  have hboth : ∀ x ∈ attempted w.solutions candidateId,
      (incumbentId, x) ∈ keys w.solutions := by
    intro x hx
    obtain ⟨e, he, rfl⟩ := List.mem_map.mp (hperm.mem_iff.mp hx)
    obtain ⟨heligible, hread⟩ := mem_holdout.mp he
    exact hsound.all_returned hids hm hincumbent heligible hread
  obtain ⟨rows, hrows⟩ : ∃ rows, rows =
      joinSolutions (w.solutions.map (·.toSolution)) candidateId incumbentId := ⟨_, rfl⟩
  have hjoin : rows.Perm ((holdout S maxDifficultyBin).map fun e =>
      (depthOn w.solutions candidateId e.environmentId,
        depthOn w.solutions incumbentId e.environmentId)) := by
    rw [hrows, joinSolutions_attempted hsound.table hboth]
    have hmapped := hperm.map fun x =>
      (depthOn w.solutions candidateId x, depthOn w.solutions incumbentId x)
    rwa [List.map_map] at hmapped
  have hlength : rows.length = (holdout S maxDifficultyBin).length := by
    rw [hjoin.length_eq, List.length_map]
  obtain ⟨hfirst, hsecond⟩ := foldl_score rows (0, 0, 0)
  rw [hjoin.countP_eq, List.countP_map, Nat.zero_add] at hfirst hsecond
  have hwins : wins w.solutions (holdout S maxDifficultyBin) candidateId incumbentId =
      (rows.foldl score (0, 0, 0)).1 := hfirst.symm
  have hlosses : wins w.solutions (holdout S maxDifficultyBin) incumbentId candidateId =
      (rows.foldl score (0, 0, 0)).2.1 := hsecond.symm
  have htotal := foldl_score_total rows (0, 0, 0)
  rw [hlength] at htotal
  dsimp only at htotal
  rw [hwins, hlosses]
  refine ⟨(rows.foldl score (0, 0, 0)).2.2, decide (threshold < winRate rows), ?_, ?_, ?_⟩
  · rw [promoteCandidate, hdb, ← hrows]
  · omega
  · rw [decide_eq_true_eq, ← hlength, winRate_eq]

noncomputable def twoAgents : Setting Bool Job ℝ (List ℕ) where
  environments := [⟨1, "", 2, 0, 2⟩]
  calls candidate := ⟨historical, if candidate then 7 else 8, none, 0, 1⟩
  player := scripted
  fromJson _ := some ⟨2, 0⟩
  store _ := 0
  toJson _ := ""

/-- Each of the two plays the job, one after the other. -/
theorem twoAgents_return : ∃ w, twoAgents.Reached True idle w ∧ w.returned = [true, false] := by
  have hloaded : ∀ b, twoAgents.Loaded b [⟨1, "", 2, 0, 2⟩] := by
    intro b
    have hload := loads_load twoAgents.environments none (n := 1) (i := 0) Nat.one_pos
    exact hload
  obtain ⟨first, hfirst⟩ : ∃ first, first = solutionRow (fun _ => 0) (fun _ => "") 7 1 ""
    (historical.grade (⟨2, 0⟩ : Job) ⟨0, 3⟩ 2 [1, 0, 0]) := ⟨_, rfl⟩
  have heval : evaluateAgentWithClient (twoAgents.calls true).evaluator twoAgents.player
      twoAgents.fromJson twoAgents.store twoAgents.toJson (fun _ => "") (twoAgents.calls true).agentId
      [⟨1, "", 2, 0, 2⟩] idle.solutions [1, 0, 0] = some ([first], []) := by
    simp only [evaluateAgentWithClient, twoAgents, idle, late_finish, hfirst]
    rfl
  obtain ⟨w₁, h₁, hsolutions, hreturned, -, hother⟩ :=
    Setting.lone_call (fun _ => "") Setting.Reached.start rfl (hloaded true) heval
  have hagent : first.agentId = 7 := by rw [hfirst]; rfl
  have heval' : evaluateAgentWithClient (twoAgents.calls false).evaluator twoAgents.player
      twoAgents.fromJson twoAgents.store twoAgents.toJson (fun _ => "")
      (twoAgents.calls false).agentId [⟨1, "", 2, 0, 2⟩] w₁.solutions [1, 0, 0] =
        some ([first, solutionRow (fun _ => 0) (fun _ => "") 8 1 ""
          (historical.grade (⟨2, 0⟩ : Job) ⟨0, 3⟩ 2 [1, 0, 0])], []) := by
    rw [hsolutions]
    simp only [evaluateAgentWithClient, twoAgents, late_finish, List.any_cons, List.any_nil, hagent]
    rfl
  obtain ⟨w₂, h₂, -, hreturned', -, -⟩ := Setting.lone_call (fun _ => "") h₁
    ((hother false (by simp)).trans rfl) (hloaded false) heval'
  exact ⟨w₂, h₂, by rw [hreturned', hreturned]; rfl⟩

/-- The comparison of the two is stored with the counts of the one job. -/
theorem comparison_complete_job : ∃ (w : World Bool Job) (draws : ℕ) (promoted : Bool),
    twoAgents.Reached True idle w ∧ w.returned = [true, false] ∧
    (promoteCandidate 7 8 0.5 (0 : ℕ) ⟨[], w.solutions.map (·.toSolution), []⟩).evaluations =
      [⟨7, 8, wins w.solutions (holdout twoAgents none) 7 8,
        wins w.solutions (holdout twoAgents none) 8 7, draws, promoted, 0⟩] ∧
    wins w.solutions (holdout twoAgents none) 7 8 + wins w.solutions (holdout twoAgents none) 8 7 +
      draws = 1 := by
  obtain ⟨w, hw, hreturned⟩ := twoAgents_return
  have hcalls : ∀ b : Bool, twoAgents.AllReturned w (if b then 7 else 8) none 1 := by
    intro b i hi
    obtain rfl : i = 0 := by omega
    exact ⟨b, by cases b <;> simp [hreturned], rfl, rfl, rfl, rfl⟩
  have hdb : (⟨[], w.solutions.map (·.toSolution), []⟩ : Database ℕ).solutions =
      w.solutions.map (·.toSolution) := rfl
  obtain ⟨draws, promoted, heq, htotal, -⟩ := comparison_complete idle_fresh hw
    (by simp [twoAgents]) le_rfl le_rfl (hcalls true) (hcalls false) (fun _ _ => rfl)
    (by simp [idle]) hdb 0
  refine ⟨w, draws, promoted, hw, hreturned, ?_, htotal⟩
  exact congrArg Database.evaluations heq

end Verdict

end Mcts.Comparisons
