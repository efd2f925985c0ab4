import Mcts.Comparisons

/-!
The rows of `solutions` as certificates. A row stores the depth that the comparison
reads beside the actions that led to it. The actions can be read back and played
again, and then have to come to that depth, whoever wrote the row and after
whatever kills.
-/
namespace Mcts.SolutionRows

open Episodes EvalReward Orchestrator Holdout Sentinels EvaluatorRuns Comparisons

section Json

/-- `json!(actions).to_string()`. -/
def actionsJson (actions : List ℕ) : String :=
  "[" ++ ",".intercalate (actions.map Nat.repr) ++ "]"

def readNumber (digits : List Char) : Option ℕ :=
  if digits ≠ [] ∧ digits.all Char.isDigit then some (Nat.ofDigitChars 10 digits 0) else none

/-- Reads a list of actions back; the mark of the environments without a baseline is none. -/
def readActions (s : String) : Option (List ℕ) :=
  match s.toList with
  | '[' :: rest =>
    if rest.getLast? = some ']' then
      if rest.dropLast = [] then some [] else (rest.dropLast.splitOn ',').mapM readNumber
    else none
  | _ => none

theorem readNumber_repr (n : ℕ) : readNumber (Nat.toDigits 10 n) = some n := by
  have hdigits : (Nat.toDigits 10 n).all Char.isDigit = true := by
    rw [List.all_eq_true]
    intro c hc
    exact Nat.isDigit_of_mem_toDigits (by omega) (by omega) hc
  rw [readNumber, if_pos ⟨Nat.toDigits_ne_nil, hdigits⟩, Nat.ofDigitChars_ten_toDigits]

theorem comma_notMem (n : ℕ) : ',' ∉ Nat.toDigits 10 n := by
  intro h
  have hdigit := Nat.isDigit_of_mem_toDigits (by omega) (by omega) h
  exact absurd hdigit (by decide)

theorem mapM_readNumber (actions : List ℕ) :
    (actions.map (Nat.toDigits 10)).mapM readNumber = some actions := by
  induction actions with
  | nil => rfl
  | cons n rest ih => simp [readNumber_repr, ih]

/-- The list that was written is the list that is read. -/
theorem readActions_actionsJson (actions : List ℕ) :
    readActions (actionsJson actions) = some actions := by
  have hchars : (actionsJson actions).toList =
      '[' :: ([','].intercalate (actions.map (Nat.toDigits 10)) ++ [']']) := by
    simp [actionsJson, Function.comp_def]
  rw [readActions, hchars]
  simp only [List.getLast?_append, List.getLast?_singleton, Option.some_or, if_true,
    List.dropLast_concat]
  cases actions with
  | nil => rfl
  | cons n rest =>
    rw [if_neg, List.splitOn_intercalate, mapM_readNumber]
    · intro digits hdigits
      obtain ⟨m, -, rfl⟩ := List.mem_map.mp hdigits
      exact comma_notMem m
    · simp
    · cases rest with
      | nil => simp
      | cons m rest => simp [Nat.toDigits_ne_nil]

theorem readActions_unsolvable : readActions unsolvableMark = none := rfl

end Json

section Greedy

def LastMax {α : Type} (f : α → ℕ) (xs : List α) (x : α) : Prop :=
  ∃ before after, xs = before ++ x :: after ∧ (∀ y ∈ before, f y ≤ f x) ∧ ∀ y ∈ after, f y < f x

variable {edgeVisits ids : List ℕ}

theorem greedyAction_concat (id : ℕ) : greedyAction edgeVisits (ids ++ [id]) =
    match greedyAction edgeVisits ids with
    | none => some id
    | some b => if edgeVisits.getD b 0 ≤ edgeVisits.getD id 0 then some id else some b := by
  rw [greedyAction, List.foldl_append]
  rfl

theorem greedyAction_eq_none (h : greedyAction edgeVisits ids = none) : ids = [] := by
  induction ids using List.reverseRecOn with
  | nil => rfl
  | append_singleton ids id _ =>
    rw [greedyAction_concat] at h
    cases hbest : greedyAction edgeVisits ids with
    | none => simp [hbest] at h
    | some b =>
      simp only [hbest] at h
      split at h
      · cases h
      · cases h

/-- Among the ids with the most visits the greedy action is the last. -/
theorem greedyAction_lastMax {action : ℕ} (h : greedyAction edgeVisits ids = some action) :
    LastMax (fun id => edgeVisits.getD id 0) ids action := by
  induction ids using List.reverseRecOn generalizing action with
  | nil => cases h
  | append_singleton ids id ih =>
    rw [greedyAction_concat] at h
    cases hbest : greedyAction edgeVisits ids with
    | none =>
      obtain rfl := greedyAction_eq_none hbest
      obtain rfl : id = action := by simpa [hbest] using h
      exact ⟨[], [], rfl, by simp, by simp⟩
    | some b =>
      obtain ⟨before, after, rfl, hbefore, hafter⟩ := ih hbest
      simp only [hbest] at h
      split at h
      · next hle =>
        obtain rfl := Option.some.inj h
        refine ⟨before ++ b :: after, [], by simp, ?_, by simp⟩
        intro y hy
        rcases List.mem_append.mp hy with hy | hy
        · exact (hbefore y hy).trans hle
        · rcases List.mem_cons.mp hy with rfl | hy
          · exact hle
          · exact (hafter y hy).le.trans hle
      · next hlt =>
        obtain rfl := Option.some.inj h
        refine ⟨before, after ++ [id], by simp, hbefore, ?_⟩
        intro y hy
        rcases List.mem_append.mp hy with hy | hy
        · exact hafter y hy
        · obtain rfl := List.mem_singleton.mp hy
          exact Nat.lt_of_not_le hlt

end Greedy

section Attempts

variable {G P B F R : Type} [Field F] [LinearOrder F] [FloorSemiring F] [Saturation F]
variable [Tilers G P B F]

def path : G → List ℕ → Option G
  | e, [] => some e
  | e, action :: actions => do
    let a ← decode e action
    path (finishCultivating (Tilers.step e a)) actions

def solveWithHeuristic (env : G) : Option F :=
  match solve env true with
  | (some _, solved) => some (depth solved)
  | (none, _) => none

structure Chosen (ev : Evaluator F) (pl : Player G F R) (referenceDepth : F) (e : G) (action : ℕ) :
    Prop where
  unfinished : done e = false
  searched : ∃ root r r' ids,
    pl.run e ev.mctsSteps (ev.terminalEvaluator referenceDepth) false r = some (root, r') ∧
    (validActions e).mapM (encode e) = some ids ∧
    LastMax (fun id => root.edgeVisits.getD id 0) ids action

/-- The actions lead from `start` to `final` within the budget, each of them chosen
in the position that it is played in, and no sooner than the rules have it they stop. -/
structure Certificate (ev : Evaluator F) (pl : Player G F R) (referenceDepth : F) (budget : ℕ)
    (start : G) (actions : List ℕ) (final : G) : Prop where
  replayed : path start actions = some final
  within : actions.length ≤ budget
  chosen : ∀ k action, actions[k]? = some action →
    ∃ e, path start (actions.take k) = some e ∧ Chosen ev pl referenceDepth e action
  stopped : actions.length = budget ∨ done final = true ∨ validActions final = []

variable {ev : Evaluator F} {pl : Player G F R} {referenceDepth : F} {left : ℕ}
variable {env final : G} {taken actionsTaken : List ℕ} {r r' : R}

omit [LinearOrder F] [FloorSemiring F] in
/-- One action more in front. -/
theorem Certificate.cons {action : ℕ} {a : P} {actions : List ℕ}
    (hchosen : Chosen ev pl referenceDepth env action) (hdecode : decode env action = some a)
    (h : Certificate ev pl referenceDepth left (finishCultivating (Tilers.step env a)) actions
      final) : Certificate ev pl referenceDepth (left + 1) env (action :: actions) final where
  replayed := by simp [path, hdecode, h.replayed]
  within := Nat.succ_le_succ h.within
  chosen k id hid := by
    cases k with
    | zero =>
      obtain rfl : action = id := by simpa using hid
      exact ⟨env, rfl, hchosen⟩
    | succ k =>
      obtain ⟨e, hpath, hid⟩ := h.chosen k id hid
      exact ⟨e, by simp [path, hdecode, hpath], hid⟩
  stopped := by
    rcases h.stopped with hlength | hrest
    · exact .inl (congrArg Nat.succ hlength)
    · exact .inr hrest

omit [LinearOrder F] [FloorSemiring F] in
/-- The loop from any turn on. -/
theorem playOut_certificate
    (h : ev.playOut pl referenceDepth left env actionsTaken r = some (final, taken, r')) :
    ∃ actions, taken = actionsTaken ++ actions ∧
      Certificate ev pl referenceDepth left env actions final := by
  induction left generalizing env actionsTaken r with
  | zero =>
    obtain ⟨rfl, rfl, rfl⟩ : env = final ∧ actionsTaken = taken ∧ r = r' := by
      simpa [Evaluator.playOut] using h
    exact ⟨[], by simp, rfl, le_rfl, by simp, .inl rfl⟩
  | succ left ih =>
    rw [Evaluator.playOut] at h
    split at h
    · next hstop =>
      obtain ⟨rfl, rfl, rfl⟩ : env = final ∧ actionsTaken = taken ∧ r = r' := by simpa using h
      refine ⟨[], by simp, rfl, Nat.zero_le _, by simp, .inr ?_⟩
      simpa using hstop
    · next hgo =>
      obtain ⟨⟨root, r₁⟩, hrun, h⟩ := Option.bind_eq_some_iff.mp h
      obtain ⟨ids, hids, h⟩ := Option.bind_eq_some_iff.mp h
      obtain ⟨action, haction, h⟩ := Option.bind_eq_some_iff.mp h
      obtain ⟨a, ha, h⟩ := Option.bind_eq_some_iff.mp h
      obtain ⟨actions, rfl, hrest⟩ := ih h
      have hopen : done env = false := by
        simp only [Bool.or_eq_true, not_or, Bool.not_eq_true] at hgo
        exact hgo.1
      have hchosen : Chosen ev pl referenceDepth env action :=
        ⟨hopen, root, r, r₁, ids, hrun, hids, greedyAction_lastMax haction⟩
      exact ⟨action :: actions, by simp, hrest.cons hchosen ha⟩

/-- An attempt is given up without a baseline, or graded with a certificate. -/
theorem evaluateSingle_certificate {attempt : Attempt F}
    (h : ev.evaluateSingle pl env r = some (attempt, r')) :
    (solveWithHeuristic (setCultivationTime env 10) = none ∧
      attempt = ⟨[], none, 0, none, true, none⟩) ∨
    ∃ referenceDepth actions final,
      solveWithHeuristic (setCultivationTime env 10) = some referenceDepth ∧
      Certificate ev pl referenceDepth (ev.actionBudget env) (setCultivationTime env 10) actions
        final ∧
      attempt = ev.grade env final referenceDepth actions := by
  rcases hsolve : solve (setCultivationTime env 10) true with ⟨plan, solved⟩
  cases plan with
  | none =>
    left
    rw [Evaluator.evaluateSingle, hsolve] at h
    obtain ⟨rfl, -⟩ := Prod.mk.inj (Option.some.inj h)
    exact ⟨by rw [solveWithHeuristic, hsolve], rfl⟩
  | some plan =>
    right
    obtain ⟨final, taken, hplay, rfl⟩ := Evaluator.evaluateSingle_some hsolve h
    obtain ⟨actions, rfl, hcertificate⟩ := playOut_certificate hplay
    exact ⟨depth solved, _, final, by rw [solveWithHeuristic, hsolve], hcertificate, rfl⟩

end Attempts

section Runs

variable {P G Q B F R T : Type} [DecidableEq P] [Field F] [LinearOrder F] [FloorSemiring F]
variable [Saturation F] [Tilers G Q B F]

section Rows

variable (S : Setting P G F R)

def environmentOf (environmentId : ℤ) : Option G :=
  (S.environments.find? fun e => e.environmentId = environmentId).bind fun e => S.fromJson e.json

/-- The row of an attempt that one of the processes made: given up where the heuristic
has no solution, and otherwise the grade of a play with a certificate. -/
def Certified (row : SolutionRow) : Prop :=
  ∃ p env, (S.calls p).agentId = row.agentId ∧ environmentOf S row.environmentId = some env ∧
    (solveWithHeuristic (setCultivationTime env 10) = none ∧ Sentinel row ∨
    ∃ referenceDepth actions final,
      solveWithHeuristic (setCultivationTime env 10) = some referenceDepth ∧
      Certificate (S.calls p).evaluator S.player referenceDepth
        ((S.calls p).evaluator.actionBudget env) (setCultivationTime env 10) actions final ∧
      row = solutionRow S.store S.toJson row.agentId row.environmentId row.attemptedAt
        ((S.calls p).evaluator.grade env final referenceDepth actions))

/-- The depth that the actions of a row lead to, if they finish the tiling. -/
def replayedDepth (row : SolutionRow) : Option ℚ := do
  let env ← environmentOf S row.environmentId
  let actions ← readActions row.actions
  let final ← path (setCultivationTime env 10) actions
  if done final then some (S.store (depth final)) else none

/-- What the comparison would read if the depths were not stored. -/
def replayed (row : SolutionRow) : Solution :=
  ⟨row.agentId, row.environmentId, replayedDepth S row⟩

end Rows

variable {S : Setting P G F R} {countFails : Prop} {w₀ w : World P G} {row : SolutionRow}

omit [DecidableEq P] [Field F] [LinearOrder F] [FloorSemiring F] [Saturation F] in
theorem environmentOf_eq (hids : (S.environments.map (·.environmentId)).Nodup)
    {e : HoldoutEnvironment} (he : e ∈ S.environments) :
    environmentOf S e.environmentId = S.fromJson e.json := by
  have hfind : (S.environments.find? fun x => x.environmentId = e.environmentId) = some e := by
    obtain ⟨x, hx⟩ : ∃ x, (S.environments.find? fun x => x.environmentId = e.environmentId) =
        some x := by
      rw [← Option.isSome_iff_exists, List.find?_isSome]
      exact ⟨e, he, by simp⟩
    have hid : x.environmentId = e.environmentId := by simpa using List.find?_some hx
    rw [hx, List.inj_on_of_nodup_map hids (List.mem_of_find?_eq_some hx) he hid]
  rw [environmentOf, hfind]
  rfl

omit [DecidableEq P] in
theorem genuine_certified (hids : (S.environments.map (·.environmentId)).Nodup)
    (h : S.Genuine row) : Certified S row := by
  obtain ⟨p, rows, e, hloaded, he, env, r, r', attempt, attemptedAt, hread, heval, rfl⟩ := h
  have heligible := loads_eligible hloaded he
  have henv := environmentOf_eq hids ((mem_eligible _ _ _).mp heligible).1
  refine ⟨p, env, rfl, henv.trans hread, ?_⟩
  rcases evaluateSingle_certificate heval with ⟨hnone, rfl⟩ | hgraded
  · exact .inl ⟨hnone, rfl, rfl, rfl⟩
  · obtain ⟨referenceDepth, actions, final, hsome, hcertificate, rfl⟩ := hgraded
    exact .inr ⟨referenceDepth, actions, final, hsome, hcertificate, rfl⟩

omit [DecidableEq P] in
/-- The depth of a certified row is the one its actions lead to. -/
theorem Certified.depth (hjson : S.toJson = actionsJson) (h : Certified S row) :
    row.solutionDepth = replayedDepth S row := by
  obtain ⟨p, env, -, henv, hgiven | hgraded⟩ := h
  · obtain ⟨-, hmark, hdepth, -⟩ := hgiven
    rw [hdepth, replayedDepth, henv, hmark, readActions_unsolvable]
    rfl
  · obtain ⟨ref, actions, final, -, hcertificate, hrow⟩ := hgraded
    have hactions : row.actions = actionsJson actions := by
      rw [hrow, ← hjson]
      unfold solutionRow Evaluator.grade
      cases done final <;> rfl
    have hdepth : row.solutionDepth =
        if done final then some (S.store (Tilers.depth final)) else none := by
      rw [hrow]
      unfold solutionRow Evaluator.grade
      cases done final <;> rfl
    rw [hdepth, replayedDepth, henv, hactions, readActions_actionsJson]
    simp [hcertificate.replayed]

/-- Nobody has to trust the depths that the promotion is decided on. Whatever became of
the evaluators, every row they left has a certificate, and a comparison that plays the
stored actions again instead of reading the stored depths has the same outcome. -/
theorem solutions_audited (h₀ : Fresh w₀) (h : S.Reached countFails w₀ w)
    (hids : (S.environments.map (·.environmentId)).Nodup) (hjson : S.toJson = actionsJson)
    (hearlier : ∀ row ∈ w₀.solutions, Certified S row) :
    (∀ row ∈ w.solutions, Certified S row ∧ row.solutionDepth = replayedDepth S row) ∧
    ∀ (candidateId incumbentId : ℤ) (threshold : ℚ) (now : T) (db : Database T),
      promoteCandidate candidateId incumbentId threshold now
          { db with solutions := w.solutions.map (·.toSolution) } =
        promoteCandidate candidateId incumbentId threshold now
          { db with solutions := w.solutions.map (replayed S) } := by
  have hcertified : ∀ row ∈ w.solutions, Certified S row := by
    intro row hrow
    rcases (Setting.Sound.run h₀ h).rows row hrow with hold | hnew
    · exact hearlier row hold
    · exact genuine_certified hids hnew
  refine ⟨fun row hrow => ⟨hcertified row hrow, (hcertified row hrow).depth hjson⟩, ?_⟩
  intro candidateId incumbentId threshold now db
  have hsame : w.solutions.map (·.toSolution) = w.solutions.map (replayed S) := by
    apply List.map_congr_left
    intro row hrow
    rw [replayed, ← (hcertified row hrow).depth hjson]
  rw [hsame]

noncomputable def storedJobs : Setting Bool Job ℝ (List ℕ) := { twoJobs with toJson := actionsJson }

/-- The row of the first says that it was finished at depth 3 by the actions 1, 0 and 0. -/
theorem solutions_audited_job : ∃ w row, storedJobs.Reached True idle w ∧ w.solutions = [row] ∧
    row.actions = "[1,0,0]" ∧ row.solutionDepth = some 3 ∧ Certified storedJobs row ∧
    row.solutionDepth = replayedDepth storedJobs row := by
  have heval : evaluateAgentWithClient (storedJobs.calls false).evaluator storedJobs.player
      storedJobs.fromJson storedJobs.store storedJobs.toJson (fun _ => "")
      (storedJobs.calls false).agentId [⟨1, "", 2, 0, 2⟩] idle.solutions [1, 0, 0] =
        some ([solutionRow storedJobs.store actionsJson 7 1 ""
          (historical.grade (⟨2, 0⟩ : Job) ⟨0, 3⟩ 2 [1, 0, 0])], []) := by
    simp only [evaluateAgentWithClient, storedJobs, twoJobs, idle, late_finish]
    rfl
  obtain ⟨w, hw, hsolutions, -⟩ := Setting.lone_call (S := storedJobs) (p := false) (w := idle)
    (fun _ => "") Setting.Reached.start rfl twoJobs_first heval
  obtain ⟨hrows, -⟩ := solutions_audited (T := ℕ) idle_fresh hw (by simp [storedJobs, twoJobs]) rfl
    (by simp [idle])
  obtain ⟨hcertified, hdepth⟩ := hrows _ (by rw [hsolutions]; exact List.mem_singleton_self _)
  refine ⟨w, _, hw, hsolutions, rfl, ?_, hcertified, hdepth⟩
  simp [solutionRow, Evaluator.grade, done, depth, storedJobs, twoJobs]

end Runs

end Mcts.SolutionRows
