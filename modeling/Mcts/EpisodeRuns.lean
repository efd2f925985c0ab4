import Mcts.ActionChoice
import Mcts.Trajectories
import Mathlib.Data.List.Infix

/-!
What an episode leaves behind. The steps recorded can be replayed: their actions
lead from the start to the final position, through the boards that were recorded.
A trajectory that was written tells the whole episode. The traced values decide
where any rule of resignation would have stopped an episode that was played out.
-/
namespace Mcts.EpisodeRuns

open Episodes Trajectories

variable {G P B F R : Type} [Field F] [LinearOrder F] [FloorSemiring F] [Saturation F]
variable [Tilers G P B F]

section Turns

variable {g : Gatherer F} {pl : Player G F R} {referenceDepth : F} {allowed : Bool} {step : ℕ}
variable {p p' : Play G B F} {r r' : R} {goOn : Bool}

def searchRoot (g : Gatherer F) (pl : Player G F R) (referenceDepth : F) (env : G) (r : R) :
    Option (Searched F × R) :=
  let (u, r) := pl.draw r
  let isFullSearch : Bool := decide (u < g.pFullSearch)
  let steps := if isFullSearch then g.mctsSteps else g.fastSteps
  let r := if isFullSearch && decide (0 < g.dirichletEpsilon) then
      pl.perturbRootPrior env g.dirichletEpsilon r
    else r
  pl.run env steps (g.terminalEvaluator referenceDepth) isFullSearch r

def searched (g : Gatherer F) (q : F) (overSolver : Bool) (p : Play G B F) : Play G B F :=
  let p := if g.resignationLogDir.isSome then
      { p with
        qTrace := p.qTrace ++ [q]
        overSolverTrace := p.overSolverTrace ++ [overSolver] }
    else p
  if g.resignationEnabled then
    { p with lowValueStreak := if q ≤ g.resignValueThreshold then p.lowValueStreak + 1 else 0 }
  else p

def stepRecord (g : Gatherer F) (e : G) (valid : List ℕ) (action : ℕ) : StepRecord B :=
  ⟨buildObs e g.lookahead, numAncillas e, valid, action, height e, width e⟩

/-- The rest of a turn that was not resigned: an action is selected, recorded and played. -/
def playOn (g : Gatherer F) (pl : Player G F R) (step : ℕ) (isFullSearch : Bool)
    (root : Searched F) (p : Play G B F) (r : R) : Option (Play G B F × R × Bool) := do
  let valid ← (validActions p.env).mapM (encode p.env)
  let edgeVisits := (root.policyTarget.getD []).map fun e =>
    (e.1, round (e.2 * (root.edgeVisits.sum : F)))
  let (action, r) ← pl.selectAction root p.env step r
  let a ← decode p.env action
  let env := finishCultivating (Tilers.step p.env a)
  let p := { p with
    env := env
    tempData := if isFullSearch then
        p.tempData ++ [⟨buildObs p.env g.lookahead, numAncillas p.env, valid, edgeVisits⟩]
      else p.tempData
    allStepsData := p.allStepsData ++ [stepRecord g p.env valid action] }
  if done env then return (p, r, false) else return (p, pl.advanceRoot action r, true)

/-- A turn is its search, the check for resignation and the action. -/
theorem turn_eq : g.turn pl referenceDepth allowed step p r =
    (searchRoot g pl referenceDepth p.env r).bind fun x =>
      let s := searched g x.1.value (decide (referenceDepth < depth p.env)) p
      if g.resignationEnabled && allowed &&
          decide (g.resignConsecutiveMoves ≤ s.lowValueStreak) then
        some ({ s with resigned := true }, x.2, false)
      else playOn g pl step (decide ((pl.draw r).1 < g.pFullSearch)) x.1 s x.2 := rfl

section Searched

omit [FloorSemiring F] [Saturation F] [Tilers G P B F]

variable (g) (q : F) (overSolver : Bool) (p)

@[simp] theorem searched_env : (searched g q overSolver p).env = p.env := by
  unfold searched
  cases g.resignationEnabled <;> cases g.resignationLogDir.isSome <;> rfl

@[simp] theorem searched_tempData : (searched g q overSolver p).tempData = p.tempData := by
  unfold searched
  cases g.resignationEnabled <;> cases g.resignationLogDir.isSome <;> rfl

@[simp] theorem searched_allStepsData :
    (searched g q overSolver p).allStepsData = p.allStepsData := by
  unfold searched
  cases g.resignationEnabled <;> cases g.resignationLogDir.isSome <;> rfl

@[simp] theorem searched_resigned : (searched g q overSolver p).resigned = p.resigned := by
  unfold searched
  cases g.resignationEnabled <;> cases g.resignationLogDir.isSome <;> rfl

end Searched

structure Played (g : Gatherer F) (pl : Player G F R) (step : ℕ) (p p' : Play G B F)
    (valid : List ℕ) (action : ℕ) (a : P) : Prop where
  ids : (validActions p.env).mapM (encode p.env) = some valid
  selected : ∃ root r r', pl.selectAction root p.env step r = some (action, r')
  decoded : decode p.env action = some a
  env : p'.env = finishCultivating (Tilers.step p.env a)
  steps : p'.allStepsData = p.allStepsData ++ [stepRecord g p.env valid action]
  searches : p'.tempData = p.tempData ∨ ∃ visits, p'.tempData = p.tempData ++
    [⟨buildObs p.env g.lookahead, numAncillas p.env, valid, visits⟩]
  resigned : p'.resigned = p.resigned

structure GaveUp (p p' : Play G B F) : Prop where
  env : p'.env = p.env
  steps : p'.allStepsData = p.allStepsData
  searches : p'.tempData = p.tempData
  resigned : p'.resigned = true

omit [Field F] [LinearOrder F] [FloorSemiring F] [Saturation F] in
theorem stopped_eq {env : G} {q : Play G B F} {r₁ r₂ : R}
    (h : (if done env then some (q, r₁, false) else some (q, r₂, true)) = some (p', r', goOn)) :
    q = p' ∧ goOn = !done env := by
  by_cases hdone : done env = true
  · rw [if_pos hdone] at h
    simp_all
  · rw [if_neg hdone] at h
    simp_all

omit [Saturation F] in
theorem playOn_some {isFullSearch : Bool} {root : Searched F}
    (h : playOn g pl step isFullSearch root p r = some (p', r', goOn)) :
    (∃ valid action a, Played g pl step p p' valid action a ∧ goOn = !done p'.env) ∧
      p'.qTrace = p.qTrace ∧ p'.overSolverTrace = p.overSolverTrace := by
  unfold playOn at h
  obtain ⟨valid, hvalid, h⟩ := Option.bind_eq_some_iff.mp h
  obtain ⟨⟨action, r₁⟩, hselect, h⟩ := Option.bind_eq_some_iff.mp h
  obtain ⟨a, ha, h⟩ := Option.bind_eq_some_iff.mp h
  obtain ⟨rfl, rfl⟩ := stopped_eq h
  refine ⟨⟨valid, action, a, ⟨hvalid, ⟨root, r, r₁, hselect⟩, ha, rfl, rfl, ?_, rfl⟩, rfl⟩, rfl, rfl⟩
  cases isFullSearch
  · exact .inl rfl
  · exact .inr ⟨_, rfl⟩

omit [Saturation F] in
/-- A full search that was played on is recorded. -/
theorem playOn_full {root : Searched F} (h : playOn g pl step true root p r = some (p', r', goOn)) :
    p'.tempData ≠ [] := by
  unfold playOn at h
  obtain ⟨valid, -, h⟩ := Option.bind_eq_some_iff.mp h
  obtain ⟨⟨action, r₁⟩, -, h⟩ := Option.bind_eq_some_iff.mp h
  obtain ⟨a, -, h⟩ := Option.bind_eq_some_iff.mp h
  obtain ⟨rfl, -⟩ := stopped_eq h
  exact List.append_ne_nil_of_right_ne_nil _ (List.cons_ne_nil _ _)

/-- A turn that does not panic resigns or plays. -/
theorem turn_cases (h : g.turn pl referenceDepth allowed step p r = some (p', r', goOn)) :
    GaveUp p p' ∧ goOn = false ∨
      ∃ valid action a, Played g pl step p p' valid action a ∧ goOn = !done p'.env := by
  rw [turn_eq] at h
  obtain ⟨⟨root, r₁⟩, -, h⟩ := Option.bind_eq_some_iff.mp h
  dsimp only at h
  split at h
  · obtain ⟨rfl, -, rfl⟩ : _ = p' ∧ _ = r' ∧ false = goOn := by
      simpa only [Prod.mk.injEq] using Option.some.inj h
    exact .inl ⟨⟨by simp, by simp, by simp, rfl⟩, rfl⟩
  · obtain ⟨⟨valid, action, a, hplayed, hgo⟩, -⟩ := playOn_some h
    right
    refine ⟨valid, action, a, ?_, hgo⟩
    constructor
    · simpa using hplayed.ids
    · simpa using hplayed.selected
    · simpa using hplayed.decoded
    · simpa using hplayed.env
    · simpa using hplayed.steps
    · simpa using hplayed.searches
    · simpa using hplayed.resigned

end Turns

section Replay

omit [Field F] [LinearOrder F] [FloorSemiring F] [Saturation F]

variable {g : Gatherer F} {pl : Player G F R} {left step : ℕ} {p p' : Play G B F}

/-- Plays these actions from `e`: the records this makes, and the position reached. -/
def replay (g : Gatherer F) : G → List ℕ → Option (List (StepRecord B) × G)
  | e, [] => some ([], e)
  | e, action :: actions => do
    let valid ← (validActions e).mapM (encode e)
    let a ← decode e action
    let (records, final) ← replay g (finishCultivating (Tilers.step e a)) actions
    return (stepRecord g e valid action :: records, final)

def seenBySearch (s : SearchRecord B) : B × ℕ × List ℕ := (s.board, s.numAncillas, s.validActions)

def seenByStep (s : StepRecord B) : B × ℕ × List ℕ := (s.board, s.numAncillas, s.validActions)

/-- Why the loop ended, having recorded these steps with `left` turns to go. -/
inductive Ended (left : ℕ) (steps : List (StepRecord B)) (p : Play G B F) : Prop
  | resigned : p.resigned = true → steps.length < left → (steps = [] ∨ done p.env = false) →
      Ended left steps p
  | finished : p.resigned = false → steps ≠ [] → done p.env = true → Ended left steps p
  | exhausted : p.resigned = false → steps.length = left → (steps = [] ∨ done p.env = false) →
      Ended left steps p

/-- Turn `k` of these steps was made in the position they lead to, which was not
finished, with an action that the player selected there. -/
def TurnMade (g : Gatherer F) (pl : Player G F R) (step : ℕ) (start : G)
    (steps : List (StepRecord B)) (k : ℕ) (s : StepRecord B) : Prop :=
  ∃ e, replay g start ((steps.take k).map StepRecord.action) = some (steps.take k, e) ∧
    (k = 0 ∨ done e = false) ∧ (validActions e).mapM (encode e) = some s.validActions ∧
    ∃ root r r', pl.selectAction root e (step + k) r = some (s.action, r')

structure Ran (g : Gatherer F) (pl : Player G F R) (left step : ℕ) (p p' : Play G B F)
    (steps : List (StepRecord B)) : Prop where
  recorded : p'.allStepsData = p.allStepsData ++ steps
  replayed : replay g p.env (steps.map StepRecord.action) = some (steps, p'.env)
  within : steps.length ≤ left
  ended : Ended left steps p'
  made : ∀ k s, steps[k]? = some s → TurnMade g pl step p.env steps k s
  searches : ∃ fulls : List (StepRecord B), fulls.Sublist steps ∧
    p'.tempData.map seenBySearch = p.tempData.map seenBySearch ++ fulls.map seenByStep

theorem ran_nil (h : p.resigned = false) : Ran g pl 0 step p p [] where
  recorded := by simp
  replayed := rfl
  within := by simp
  ended := .exhausted h rfl (.inl rfl)
  made k s hs := by simp at hs
  searches := ⟨[], List.Sublist.refl _, by simp⟩

theorem ran_resigned (h : GaveUp p p') : Ran g pl (left + 1) step p p' [] where
  recorded := by simp [h.steps]
  replayed := by simp [replay, h.env]
  within := by simp
  ended := .resigned h.resigned (by simp) (.inl rfl)
  made k s hs := by simp at hs
  searches := ⟨[], List.Sublist.refl _, by simp [h.searches]⟩

section Played

variable {q : Play G B F} {valid : List ℕ} {action : ℕ} {a : P} {steps : List (StepRecord B)}

theorem Played.replay_cons (h : Played g pl step p q valid action a) {actions : List ℕ} {e : G}
    (hrest : replay g q.env actions = some (steps, e)) :
    replay g p.env (action :: actions) = some (stepRecord g p.env valid action :: steps, e) := by
  rw [h.env] at hrest
  simp [replay, h.ids, h.decoded, hrest]

theorem Played.made_first (h : Played g pl step p q valid action a) :
    TurnMade g pl step p.env (stepRecord g p.env valid action :: steps) 0
      (stepRecord g p.env valid action) :=
  ⟨p.env, rfl, .inl rfl, h.ids, h.selected⟩

theorem Played.made_later (h : Played g pl step p q valid action a) (hgo : done q.env = false)
    {k : ℕ} {s : StepRecord B} (hs : TurnMade g pl (step + 1) q.env steps k s) :
    TurnMade g pl step p.env (stepRecord g p.env valid action :: steps) (k + 1) s := by
  obtain ⟨e, hreplay, hdone, hvalid, hselect⟩ := hs
  refine ⟨e, h.replay_cons hreplay, .inr ?_, hvalid, by rwa [← Nat.add_assoc, Nat.add_right_comm]⟩
  rcases hdone with rfl | hdone
  · obtain rfl : q.env = e := by simpa [replay] using hreplay
    exact hgo
  · exact hdone

theorem Played.searches_cons (h : Played g pl step p q valid action a)
    (hrest : ∃ fulls : List (StepRecord B), fulls.Sublist steps ∧
      p'.tempData.map seenBySearch = q.tempData.map seenBySearch ++ fulls.map seenByStep) :
    ∃ fulls : List (StepRecord B), fulls.Sublist (stepRecord g p.env valid action :: steps) ∧
      p'.tempData.map seenBySearch = p.tempData.map seenBySearch ++ fulls.map seenByStep := by
  obtain ⟨fulls, hsub, hfulls⟩ := hrest
  rcases h.searches with hsame | ⟨visits, hmore⟩
  · exact ⟨fulls, hsub.cons _, by rw [hfulls, hsame]⟩
  · refine ⟨stepRecord g p.env valid action :: fulls, hsub.cons_cons _, ?_⟩
    rw [hfulls, hmore]
    simp [seenBySearch, seenByStep, stepRecord]

/-- A turn that finished the tiling is the last. -/
theorem Played.ran_last (h : Played g pl step p q valid action a) (hp : p.resigned = false)
    (hdone : done q.env = true) :
    Ran g pl (left + 1) step p q [stepRecord g p.env valid action] where
  recorded := h.steps
  replayed := h.replay_cons rfl
  within := by simp
  ended := .finished (h.resigned.trans hp) (by simp) hdone
  made k s hs := by
    cases k with
    | zero =>
      obtain rfl : stepRecord g p.env valid action = s := by simpa using hs
      exact h.made_first
    | succ k => simp at hs
  searches := h.searches_cons ⟨[], List.Sublist.refl _, by simp⟩

/-- Any other turn comes before those that follow. -/
theorem Played.ran_cons (h : Played g pl step p q valid action a) (hgo : done q.env = false)
    (hrest : Ran g pl left (step + 1) q p' steps) :
    Ran g pl (left + 1) step p p' (stepRecord g p.env valid action :: steps) where
  recorded := by rw [hrest.recorded, h.steps, List.append_assoc, List.singleton_append]
  replayed := h.replay_cons hrest.replayed
  within := Nat.succ_le_succ hrest.within
  ended := by
    have hopen : steps = [] ∨ done p'.env = false → done p'.env = false := by
      rintro (rfl | hopen)
      · obtain hsame : q.env = p'.env := by simpa [replay] using hrest.replayed
        rwa [← hsame]
      · exact hopen
    cases hrest.ended with
    | resigned hresigned hlt hdone =>
      exact .resigned hresigned (Nat.succ_lt_succ hlt) (.inr (hopen hdone))
    | finished hresigned _ hdone => exact .finished hresigned (by simp) hdone
    | exhausted hresigned hlength hdone =>
      exact .exhausted hresigned (congrArg Nat.succ hlength) (.inr (hopen hdone))
  made k s hs := by
    cases k with
    | zero =>
      obtain rfl : stepRecord g p.env valid action = s := by simpa using hs
      exact h.made_first
    | succ k => exact h.made_later hgo (hrest.made k s hs)
  searches := h.searches_cons hrest.searches

end Played

end Replay

section Episode

variable {g : Gatherer F} {pl : Player G F R} {referenceDepth : F} {allowed : Bool}
variable {left step : ℕ} {game : G} {override : Option (F × ℕ)} {reference : F × ℕ}
variable {p p' : Play G B F} {r r' : R}

/-- The loop from any turn on. -/
theorem turns_ran (h : g.turns pl referenceDepth allowed left step p r = some (p', r'))
    (hp : p.resigned = false) : ∃ steps, Ran g pl left step p p' steps := by
  induction left generalizing step p r with
  | zero =>
    obtain ⟨rfl, -⟩ := Prod.mk.inj (Option.some.inj h)
    exact ⟨[], ran_nil hp⟩
  | succ left ih =>
    obtain ⟨⟨q, r₁, goOn⟩, hturn, h⟩ := Option.bind_eq_some_iff.mp h
    rcases turn_cases hturn with ⟨hgave, rfl⟩ | ⟨valid, action, a, hplayed, rfl⟩
    · obtain ⟨rfl, -⟩ := Prod.mk.inj (Option.some.inj h)
      exact ⟨[], ran_resigned hgave⟩
    · cases hdone : done q.env with
      | true =>
        obtain ⟨rfl, -⟩ : q = p' ∧ r₁ = r' := by simpa [hdone] using h
        exact ⟨_, hplayed.ran_last hp hdone⟩
      | false =>
        have hrest : g.turns pl referenceDepth allowed left (step + 1) q r₁ = some (p', r') := by
          simpa [hdone] using h
        obtain ⟨steps, hran⟩ := ih hrest (hplayed.resigned.trans hp)
        exact ⟨_, hplayed.ran_cons hdone hran⟩

def opening (game : G) : Play G B F := ⟨game, [], [], 0, [], [], false⟩

theorem playEpisode_turns
    (h : g.playEpisode pl game override r = some (reference, allowed, p, r')) :
    ∃ r₀, g.turns pl reference.1 allowed (g.actionBudget reference.2) 0 (opening game) r₀ =
      some (p, r') := by
  unfold Gatherer.playEpisode at h
  obtain ⟨⟨d, n⟩, -, h⟩ := Option.bind_eq_some_iff.mp h
  obtain ⟨⟨q, r₁⟩, hturns, h⟩ := Option.bind_eq_some_iff.mp h
  obtain ⟨rfl, rfl, rfl, rfl⟩ : (d, n) = reference ∧ _ = allowed ∧ q = p ∧ r₁ = r' := by
    simpa only [Prod.mk.injEq] using Option.some.inj h
  exact ⟨_, hturns⟩

/-- Whatever the search, the dice and the selection of actions come to: replaying
the recorded actions from the start makes exactly the records of the episode and
ends in its last position, and the loop stopped within the budget and for one of
its three reasons. -/
theorem episode_replays
    (h : g.playEpisode pl game override r = some (reference, allowed, p, r')) :
    Ran g pl (g.actionBudget reference.2) 0 (opening game) p p.allStepsData := by
  obtain ⟨r₀, hturns⟩ := playEpisode_turns h
  obtain ⟨steps, hran⟩ := turns_ran hturns rfl
  have hsteps : p.allStepsData = steps := hran.recorded
  rwa [hsteps]

/-- An episode that wastes a layer, merges twice and is finished. -/
theorem episode_replays_patient : ∃ (reference : ℝ × ℕ) (allowed : Bool) (p : Play Job Unit ℝ)
    (r' : List ℕ),
    patient.playEpisode scripted (⟨2, 0⟩ : Job) none [1, 0, 0] = some (reference, allowed, p, r') ∧
    p.allStepsData.map StepRecord.action = [1, 0, 0] ∧ p.env = ⟨0, 3⟩ ∧
    Ran patient scripted (patient.actionBudget reference.2) 0 (opening ⟨2, 0⟩) p
      p.allStepsData := by
  have hplay : ∃ reference allowed p r',
      patient.playEpisode scripted (⟨2, 0⟩ : Job) none [1, 0, 0] =
        some (reference, allowed, p, r') ∧
      p.allStepsData.map StepRecord.action = [1, 0, 0] ∧ p.env = ⟨0, 3⟩ := by
    obtain ⟨p₁, hfirst, henv₁, hactions₁⟩ := patient_goesOn 2 2 0 (opening ⟨2, 0⟩) 1 [0, 0]
      rfl
    obtain ⟨p₂, hsecond, henv₂, hactions₂⟩ := patient_goesOn 2 1 1 p₁ 0 [0]
      (by rw [henv₁]; rfl)
    obtain ⟨p₃, hthird, henv₃, hactions₃⟩ := patient_ends 2 0 2 p₂ 0 []
      (by rw [henv₂, henv₁]; rfl)
    refine ⟨(2, 2), false, p₃, [0], ?_, ?_, ?_⟩
    · have hreference : Gatherer.reference (⟨2, 0⟩ : Job) none = some ((2 : ℝ), 2) := by
        simp [Gatherer.reference, Gatherer.solveWithHeuristic, solve, encode, depth]
      simp only [Gatherer.playEpisode, hreference]
      rw [show patient.resignationEnabled = false from rfl]
      exact congrArg (Option.bind · _) ((hfirst.trans hsecond).trans hthird)
    · rw [hactions₃, hactions₂, hactions₁]
      rfl
    · rw [henv₃, henv₂, henv₁]
      rfl
  obtain ⟨reference, allowed, p, r', hplay, hactions, henv⟩ := hplay
  exact ⟨reference, allowed, p, r', hplay, hactions, henv, episode_replays hplay⟩

end Episode

section Written

variable {g : Gatherer F} {pl : Player G F R} {startEnv : G} {override : Option (F × ℕ)}
variable {r r' : R} {o : EpisodeOutcome B F} {noiseStrength : F}

omit [FloorSemiring F] [Saturation F] in
theorem selectAction_mem [ActionChoice.Exponential F] {dice : ActionChoice.Dice F R}
    {node : Searched F} {e : G} {step action : ℕ} {ids : List ℕ}
    (hids : (validActions e).mapM (encode e) = some ids)
    (h : ActionChoice.selectAction dice noiseStrength node e step r = some (action, r')) :
    action ∈ ids := by
  unfold ActionChoice.selectAction at h
  rw [hids, Option.bind_some] at h
  by_cases hempty : ids.length = 0
  · simp [hempty] at h
  · rw [if_neg hempty] at h
    obtain ⟨draw, -, h⟩ := Option.bind_eq_some_iff.mp h
    obtain ⟨chosen, hchosen, heq⟩ := Option.map_eq_some_iff.mp h
    obtain rfl : chosen = action := (Prod.mk.inj heq).1
    exact List.mem_of_getElem? hchosen

/-- Strictly more visits went to this action than to any other. -/
def Favours (t : TrajectoryRecord B F) (action : ℕ) : Prop :=
  ∃ n, (action, n) ∈ t.edgeVisits ∧ ∀ e ∈ t.edgeVisits, e ≠ (action, n) → e.2 < n

omit [FloorSemiring F] [Saturation F] in
theorem favours_trajectoryRecord {s : StepRecord B} (hs : s.action ∈ s.validActions)
    (depth step : ℕ) : Favours (trajectoryRecord depth step s : TrajectoryRecord B F) s.action := by
  obtain ⟨winner, hwinner⟩ : ∃ winner, winner =
      if 0 < s.validActions.length - 1 then (s.validActions.length - 1) * 99 else 1 := ⟨_, rfl⟩
  have hvisits : (trajectoryRecord depth step s : TrajectoryRecord B F).edgeVisits =
      s.validActions.dedup.map fun va => (va, if va = s.action then winner else 1) := by
    rw [hwinner]
    rfl
  have hother : ∀ va ∈ s.validActions, va ≠ s.action → 1 < winner := by
    intro va hva hne
    have hlength : 1 < s.validActions.length := by
      by_contra hshort
      obtain ⟨x, hx⟩ : ∃ x, s.validActions = [x] := by
        apply List.length_eq_one_iff.mp
        have hsome := List.length_pos_of_mem hva
        omega
      rw [hx, List.mem_singleton] at hs hva
      exact hne (hva.trans hs.symm)
    rw [hwinner, if_pos (by omega)]
    omega
  refine ⟨winner, ?_, ?_⟩
  · rw [hvisits, List.mem_map]
    exact ⟨s.action, List.mem_dedup.mpr hs, by simp⟩
  · intro e he hne
    rw [hvisits] at he
    obtain ⟨va, hva, rfl⟩ := List.mem_map.mp he
    have hva' : va ≠ s.action := by
      intro heq
      apply hne
      simp [heq]
    simp only [if_neg hva']
    exact hother va (List.mem_dedup.mp hva) hva'

section Rewards

omit [FloorSemiring F] [Saturation F]

def trajectoryReward (remaining : ℕ) : F :=
  if 2 < remaining then min (2.0 * 0.80 ^ remaining) 2.0 - 1 else 1

theorem trajectoryRecord_reward (depth step : ℕ) (s : StepRecord B) :
    (trajectoryRecord depth step s : TrajectoryRecord B F).reward =
      trajectoryReward (depth - step) := rfl

variable [IsStrictOrderedRing F]

theorem trajectoryReward_mem (n : ℕ) : (trajectoryReward n : F) ∈ Set.Icc (-1) 1 := by
  unfold trajectoryReward
  split
  · have hpos : (0 : F) < 2.0 * 0.80 ^ n := by positivity
    have htwo : (0 : F) < 2.0 := by norm_num
    have htop : min (2.0 * 0.80 ^ n) 2.0 ≤ (2.0 : F) := min_le_right _ _
    have hbottom : (0 : F) < min (2.0 * 0.80 ^ n) 2.0 := lt_min hpos htwo
    constructor <;> linarith
  · constructor <;> norm_num

/-- Nearer to the end the reward is no lower. -/
theorem trajectoryReward_anti {m n : ℕ} (h : m ≤ n) :
    (trajectoryReward n : F) ≤ trajectoryReward m := by
  by_cases hm : 2 < m
  · have hn : 2 < n := by omega
    have hpow : (0.80 : F) ^ n ≤ 0.80 ^ m :=
      pow_le_pow_of_le_one (by norm_num) (by norm_num) h
    simp only [trajectoryReward, if_pos hm, if_pos hn]
    gcongr
  · have hone : (trajectoryReward m : F) = 1 := if_neg hm
    rw [hone]
    exact (trajectoryReward_mem n).2

end Rewards

section Tells

variable [ActionChoice.Exponential F] {dice : ActionChoice.Dice F R}

omit [FloorSemiring F] [Saturation F] [Tilers G P B F] [ActionChoice.Exponential F] in
theorem trajectory_cases (g : Gatherer F) (o : EpisodeOutcome B F) :
    trajectory g o = [] ∨ trajectory g o =
      o.allStepsData.mapIdx fun step s => trajectoryRecord o.allStepsData.length step s := by
  unfold trajectory
  split
  · split
    · exact .inr rfl
    · exact .inl rfl
  · exact .inl rfl

omit [FloorSemiring F] [Saturation F] [Tilers G P B F] [ActionChoice.Exponential F] in
theorem favours_trajectory {steps : List (StepRecord B)}
    (h : ∀ s ∈ steps, s.action ∈ s.validActions) (depth : ℕ) :
    List.Forall₂ Favours
      (steps.mapIdx fun step s => (trajectoryRecord depth step s : TrajectoryRecord B F))
      (steps.map StepRecord.action) := by
  rw [List.forall₂_iff_get]
  refine ⟨by simp, ?_⟩
  intro k hk hk'
  have hlt : k < steps.length := by simpa using hk'
  simp only [List.get_eq_getElem, List.getElem_map, List.getElem_mapIdx]
  exact favours_trajectoryRecord (h _ (List.getElem_mem hlt)) depth k

omit [FloorSemiring F] [Saturation F] [Tilers G P B F] [ActionChoice.Exponential F] in
theorem trajectory_rewards [IsStrictOrderedRing F] (steps : List (StepRecord B)) (depth : ℕ) :
    (steps.mapIdx fun step s => (trajectoryRecord depth step s : TrajectoryRecord B F)).Pairwise
      (fun t t' => t.reward ≤ t'.reward) ∧
    ∀ t ∈ steps.mapIdx fun step s => (trajectoryRecord depth step s : TrajectoryRecord B F),
      t.reward ∈ Set.Icc (-1) 1 := by
  constructor
  · rw [List.pairwise_iff_getElem]
    intro i j hi hj hij
    simp only [List.getElem_mapIdx, trajectoryRecord_reward]
    exact trajectoryReward_anti (by omega)
  · intro t ht
    obtain ⟨k, hk, rfl⟩ := List.mem_mapIdx.mp ht
    exact trajectoryReward_mem _

/-- A trajectory that was written tells the episode: each of its records favours one
action, which is valid where it is played; replaying these from the start makes the
records again and comes to the outcome that was reported; and the rewards, in exact
arithmetic, rise towards the end. -/
theorem trajectory_tells [IsStrictOrderedRing F]
    (hrun : g.runEpisodeFrom { pl with selectAction := ActionChoice.selectAction dice noiseStrength }
      startEnv override r = some (o, r')) :
    trajectory g o = [] ∨ ∃ actions steps final,
      List.Forall₂ Favours (trajectory g o) actions ∧
      replay g (setCultivationTime startEnv 10) actions = some (steps, final) ∧
      (∀ s ∈ steps, s.action ∈ s.validActions) ∧
      trajectory g o = steps.mapIdx (trajectoryRecord steps.length) ∧
      o.done = done (setCultivationTime final 10) ∧
      o.solutionDepth = depth (setCultivationTime final 10) ∧
      (trajectory g o).Pairwise (fun t t' => t.reward ≤ t'.reward) ∧
      ∀ t ∈ trajectory g o, t.reward ∈ Set.Icc (-1) 1 := by
  obtain ⟨reference, allowed, p, hplay, rfl⟩ := Gatherer.runEpisodeFrom_some hrun
  obtain ⟨r₀, hturns⟩ := playEpisode_turns hplay
  obtain ⟨steps, hran⟩ := turns_ran hturns rfl
  obtain rfl : p.allStepsData = steps := hran.recorded
  have hvalid : ∀ s ∈ p.allStepsData, s.action ∈ s.validActions := by
    intro s hs
    obtain ⟨k, hk⟩ := List.getElem?_of_mem hs
    obtain ⟨e, -, -, hids, root, r₁, r₂, hselect⟩ := hran.made k s hk
    exact selectAction_mem hids hselect
  rcases trajectory_cases g (g.outcome (setCultivationTime startEnv 10) override.isSome reference
    allowed p) with hnone | hwritten
  · exact .inl hnone
  · right
    rw [Gatherer.outcome_allStepsData] at hwritten
    obtain ⟨hrise, hrange⟩ := trajectory_rewards (F := F) p.allStepsData p.allStepsData.length
    rw [← hwritten] at hrise hrange
    refine ⟨p.allStepsData.map StepRecord.action, p.allStepsData, p.env, ?_, hran.replayed, hvalid,
      hwritten, rfl, rfl, hrise, hrange⟩
    rw [hwritten]
    exact favours_trajectory hvalid p.allStepsData.length

end Tells

section Quiet

/-- Without noise `select_action` picks the action that all visits went to. -/
theorem loaded_merges : ∃ r', ActionChoice.selectAction ActionChoice.loaded 0 ⟨0, [1], none⟩
    (⟨2, 0⟩ : Job) 0 [0] = some (0, r') := by
  have hids : (validActions (⟨2, 0⟩ : Job)).mapM (encode (⟨2, 0⟩ : Job)) = some [0, 1] := rfl
  obtain ⟨noise, mixed, r', -, -, hmix, hlength, htotal, hselect⟩ :=
    ActionChoice.selectAction_weighed ActionChoice.loaded_lawful
      (Set.left_mem_Icc.mpr zero_le_one) hids (by simp) ⟨0, [1], none⟩ 0 [0]
  have hstrength : ActionChoice.noiseStrengthAt (0 : ℝ) 0 = 0 := zero_mul _
  rw [hstrength] at hmix htotal
  obtain ⟨draw, -, hi, hweight, hdrawn⟩ := ActionChoice.drawn_action ActionChoice.loaded_lawful
    hmix hlength (by linarith) r'
  have hvisited := ActionChoice.drawn_visited hmix (by simp) hi hweight
  have hfirst : (draw r').1 = 0 := by
    by_contra hnot
    obtain hone : (draw r').1 = 1 := by
      simp only [List.length_cons, List.length_nil] at hi
      omega
    simp [hone] at hvisited
  refine ⟨(draw r').2, hselect.trans ?_⟩
  rw [hdrawn]
  simp [hfirst]

/-- An episode of one action whose trajectory is written, and tells it. -/
theorem trajectory_tells_generous : ∃ (o : EpisodeOutcome Unit ℝ) (r' : List ℕ),
    generous.runEpisodeFrom
      { scripted with selectAction := ActionChoice.selectAction ActionChoice.loaded 0 }
      (⟨2, 0⟩ : Job) none [0] = some (o, r') ∧
    ∃ actions steps final, actions ≠ [] ∧
      List.Forall₂ Favours (trajectory generous o) actions ∧
      replay generous (setCultivationTime (⟨2, 0⟩ : Job) 10) actions = some (steps, final) ∧
      (∀ s ∈ steps, s.action ∈ s.validActions) ∧
      trajectory generous o = steps.mapIdx (trajectoryRecord steps.length) ∧
      o.done = done (setCultivationTime final 10) ∧
      o.solutionDepth = depth (setCultivationTime final 10) ∧
      (trajectory generous o).Pairwise (fun t t' => t.reward ≤ t'.reward) ∧
      ∀ t ∈ trajectory generous o, t.reward ∈ Set.Icc (-1) 1 := by
  obtain ⟨r', hselect⟩ := loaded_merges
  obtain ⟨o, hrun, -, hsteps, hscore⟩ := generous_run hselect
  have hwritten : trajectory generous o ≠ [] :=
    (trajectory_ne_nil generous o).mpr ⟨hscore, rfl, hsteps⟩
  refine ⟨o, _, hrun, ?_⟩
  rcases trajectory_tells hrun with hnone | ⟨actions, steps, final, htells, hrest⟩
  · exact absurd hnone hwritten
  · refine ⟨actions, steps, final, ?_, htells, hrest⟩
    rintro rfl
    exact hwritten (List.forall₂_nil_right_iff.mp htells)

end Quiet

end Written

section Resignation

variable {g : Gatherer F} {pl : Player G F R} {referenceDepth threshold noResignRate : F}
variable {moves left step : ℕ} {p p' : Play G B F} {r r' : R} {goOn : Bool} {values : List F}

section Streaks

omit [Field F] [FloorSemiring F] [Saturation F] [Tilers G P B F]

/-- How many of the values stay low up to the last. -/
def lowStreak (threshold : F) (values : List F) : ℕ :=
  (values.reverse.takeWhile (· ≤ threshold)).length

theorem lowStreak_concat (threshold : F) (values : List F) (q : F) :
    lowStreak threshold (values ++ [q]) =
      if q ≤ threshold then lowStreak threshold values + 1 else 0 := by
  unfold lowStreak
  rw [List.reverse_append, List.reverse_singleton, List.singleton_append, List.takeWhile_cons]
  split <;> simp_all

end Streaks

def Resigns (threshold : F) (moves : ℕ) (values : List F) : Prop :=
  moves ≤ lowStreak threshold values

def withRule (g : Gatherer F) (threshold : F) (moves : ℕ) (noResignRate : F) : Gatherer F :=
  { g with
    resignValueThreshold := threshold
    resignConsecutiveMoves := moves
    noResignRate := noResignRate }

omit [Saturation F] in
theorem playOn_withRule {isFullSearch : Bool} {root : Searched F}
    (h : playOn g pl step isFullSearch root p r = some (p', r', goOn)) (streak : ℕ) :
    playOn (withRule g threshold moves noResignRate) pl step isFullSearch root
      { p with lowValueStreak := streak } r =
        some ({ p' with lowValueStreak := streak }, r', goOn) := by
  unfold playOn at h ⊢
  obtain ⟨valid, hvalid, h⟩ := Option.bind_eq_some_iff.mp h
  obtain ⟨⟨action, r₁⟩, hselect, h⟩ := Option.bind_eq_some_iff.mp h
  obtain ⟨a, ha, h⟩ := Option.bind_eq_some_iff.mp h
  rw [hvalid, Option.bind_eq_bind, Option.bind_some]
  dsimp only
  rw [hselect, Option.bind_eq_bind, Option.bind_some]
  dsimp only
  rw [ha, Option.bind_eq_bind, Option.bind_some]
  dsimp only at h ⊢
  by_cases hdone : done (finishCultivating (Tilers.step p.env a)) = true
  · rw [if_pos hdone] at h ⊢
    obtain ⟨rfl, rfl, rfl⟩ : _ = p' ∧ _ = r' ∧ false = goOn := by
      simpa only [Prod.mk.injEq] using Option.some.inj h
    rfl
  · rw [if_neg hdone] at h ⊢
    obtain ⟨rfl, rfl, rfl⟩ : _ = p' ∧ _ = r' ∧ true = goOn := by
      simpa only [Prod.mk.injEq] using Option.some.inj h
    rfl

section Searched

omit [FloorSemiring F] [Saturation F] [Tilers G P B F]

theorem searched_withRule
    (henabled : (withRule g threshold moves noResignRate).resignationEnabled = true)
    (q : F) (overSolver : Bool) (streak : ℕ) :
    searched (withRule g threshold moves noResignRate) q overSolver
      { p with lowValueStreak := streak } =
      { searched g q overSolver p with
        lowValueStreak := if q ≤ threshold then streak + 1 else 0 } := by
  unfold searched
  rw [if_pos henabled]
  cases hlog : g.resignationLogDir.isSome <;> cases g.resignationEnabled <;> simp [withRule, hlog]

theorem searched_traces (hlog : g.resignationLogDir.isSome = true) (q : F) (overSolver : Bool) :
    (searched g q overSolver p).qTrace = p.qTrace ++ [q] ∧
      (searched g q overSolver p).overSolverTrace = p.overSolverTrace ++ [overSolver] := by
  unfold searched
  rw [if_pos hlog]
  cases g.resignationEnabled <;> exact ⟨rfl, rfl⟩

end Searched

/-- The play `p'` stopped where `p` has made `k` searches: it resigned there. -/
structure StopsAt (p : Play G B F) (k : ℕ) (p' : Play G B F) : Prop where
  resigned : p'.resigned = true
  values : p'.qTrace = p.qTrace.take k
  overSolver : p'.overSolverTrace = p.overSolverTrace.take k
  steps : p'.allStepsData = p.allStepsData.take (k - 1)
  searches : p'.tempData.IsPrefix p.tempData

structure Logged (p : Play G B F) : Prop where
  steps : p.allStepsData.length = p.qTrace.length
  overSolver : p.overSolverTrace.length = p.qTrace.length

structure Extends (p p' : Play G B F) : Prop where
  values : p.qTrace.IsPrefix p'.qTrace
  overSolver : p.overSolverTrace.IsPrefix p'.overSolverTrace
  steps : p.allStepsData.IsPrefix p'.allStepsData
  searches : p.tempData.IsPrefix p'.tempData

section Extends

omit [Field F] [LinearOrder F] [FloorSemiring F] [Saturation F] [Tilers G P B F]

variable {q p₂ : Play G B F}

theorem Extends.refl (p : Play G B F) : Extends p p :=
  ⟨List.prefix_rfl, List.prefix_rfl, List.prefix_rfl, List.prefix_rfl⟩

theorem Extends.trans (h : Extends p q) (h' : Extends q p') : Extends p p' :=
  ⟨h.values.trans h'.values, h.overSolver.trans h'.overSolver, h.steps.trans h'.steps,
    h.searches.trans h'.searches⟩

theorem Extends.take_values (h : Extends p p') : p'.qTrace.take p.qTrace.length = p.qTrace :=
  (List.prefix_iff_eq_take.mp h.values).symm

/-- Where a play stopped does not depend on what was recorded later. -/
theorem StopsAt.extend (h : StopsAt q q.qTrace.length p₂) (hlogged : Logged q)
    (hext : Extends q p') : StopsAt p' q.qTrace.length p₂ where
  resigned := h.resigned
  values := by rw [h.values, hext.take_values, List.take_length]
  overSolver := by
    rw [h.overSolver, ← hlogged.overSolver, List.take_length]
    exact List.prefix_iff_eq_take.mp hext.overSolver
  steps := by
    obtain ⟨later, hlater⟩ := hext.steps
    rw [h.steps, ← hlater, List.take_append_of_le_length]
    rw [hlogged.steps]
    omega
  searches := h.searches.trans hext.searches

end Extends

/-- One turn that was played on, under another rule: the player resigns after the
same search, or plays the same. -/
theorem turn_withRule
    (henabled : (withRule g threshold moves noResignRate).resignationEnabled = true)
    (hlog : g.resignationLogDir.isSome = true) (hlogged : Logged p)
    (h : g.turn pl referenceDepth false step p r = some (p', r', goOn)) :
    Extends p p' ∧ Logged p' ∧ p'.qTrace.length = p.qTrace.length + 1 ∧ ∃ p₂ r₂,
      StopsAt p' p'.qTrace.length p₂ ∧
      (withRule g threshold moves noResignRate).turn pl referenceDepth true step
          { p with lowValueStreak := lowStreak threshold p.qTrace } r =
        if moves ≤ lowStreak threshold p'.qTrace then some (p₂, r₂, false)
        else some ({ p' with lowValueStreak := lowStreak threshold p'.qTrace }, r', goOn) := by
  rw [turn_eq] at h
  obtain ⟨⟨root, r₁⟩, hsearch, h⟩ := Option.bind_eq_some_iff.mp h
  dsimp only at h
  rw [if_neg (by simp)] at h
  obtain ⟨beyond, hdepth⟩ : ∃ beyond, beyond = decide (referenceDepth < depth p.env) := ⟨_, rfl⟩
  rw [← hdepth] at h
  obtain ⟨⟨valid, action, a, hplayed, -⟩, hvalues, hover⟩ := playOn_some h
  obtain ⟨hq, ho⟩ := searched_traces (p := p) hlog root.value beyond
  rw [hq] at hvalues
  rw [ho] at hover
  have hsteps := hplayed.steps
  rw [searched_allStepsData] at hsteps
  have hext : Extends p p' := by
    refine ⟨hvalues ▸ List.prefix_append _ _, hover ▸ List.prefix_append _ _,
      hsteps ▸ List.prefix_append _ _, ?_⟩
    rcases hplayed.searches with hsame | ⟨visits, hmore⟩
    · rw [hsame, searched_tempData]
    · rw [hmore, searched_tempData]
      exact List.prefix_append _ _
  have hlength : p'.qTrace.length = p.qTrace.length + 1 := by simp [hvalues]
  refine ⟨hext, ⟨by simp [hsteps, hvalues, hlogged.steps], by simp [hover, hvalues, hlogged.overSolver]⟩,
    hlength, { searched g root.value beyond p with
      lowValueStreak := lowStreak threshold p'.qTrace
      resigned := true }, r₁, ?_, ?_⟩
  · constructor
    · rfl
    · rw [List.take_length, hvalues, ← hq]
    · rw [hlength, ← hlogged.overSolver, hover, ← ho]
      simp [ho]
    · rw [hlength, Nat.add_sub_cancel, ← hlogged.steps, hsteps]
      simp
    · simpa using hext.searches
  · have hsame : searchRoot (withRule g threshold moves noResignRate) pl referenceDepth p.env r =
        some (root, r₁) := hsearch
    have hstreak : (if root.value ≤ threshold then lowStreak threshold p.qTrace + 1 else 0) =
        lowStreak threshold p'.qTrace := by rw [hvalues, lowStreak_concat]
    rw [turn_eq]
    dsimp only
    rw [hsame, Option.bind_some, ← hdepth, searched_withRule henabled, henabled, hstreak]
    simp only [Bool.and_true, Bool.true_and, decide_eq_true_eq]
    by_cases hresigns : moves ≤ lowStreak threshold p'.qTrace
    · rw [if_pos hresigns]
      exact if_pos hresigns
    · rw [if_neg hresigns, ← playOn_withRule h]
      exact if_neg hresigns

/-- The rule resigns after the first `k` values of the play, and no earlier among
those after the first `before`. -/
structure FirstResigns (threshold : F) (moves : ℕ) (p : Play G B F) (before k : ℕ) : Prop where
  later : before < k
  within : k ≤ p.qTrace.length
  resigns : Resigns threshold moves (p.qTrace.take k)
  first : ∀ j, before < j → j < k → ¬ Resigns threshold moves (p.qTrace.take j)

/-- The rest of the loop under another rule, where the player did not resign before:
it resigns at the first value that calls for it, or plays to the same end. -/
theorem turns_withRule
    (henabled : (withRule g threshold moves noResignRate).resignationEnabled = true)
    (hlog : g.resignationLogDir.isSome = true) (hlogged : Logged p)
    (h : g.turns pl referenceDepth false left step p r = some (p', r')) :
    Extends p p' ∧ ∃ p₂ r₂,
      (withRule g threshold moves noResignRate).turns pl referenceDepth true left step
        { p with lowValueStreak := lowStreak threshold p.qTrace } r = some (p₂, r₂) ∧
      ((∃ k, FirstResigns threshold moves p' p.qTrace.length k ∧ StopsAt p' k p₂) ∨
        (∀ j, p.qTrace.length < j → j ≤ p'.qTrace.length →
          ¬ Resigns threshold moves (p'.qTrace.take j)) ∧
        p₂ = { p' with lowValueStreak := p₂.lowValueStreak } ∧ r₂ = r') := by
  induction left generalizing step p r with
  | zero =>
    obtain ⟨rfl, rfl⟩ := Prod.mk.inj (Option.some.inj h)
    refine ⟨Extends.refl p, _, _, rfl, .inr ⟨?_, rfl, rfl⟩⟩
    intro j hlow hhigh
    omega
  | succ left ih =>
    obtain ⟨⟨q, r₁, goOn⟩, hturn, h⟩ := Option.bind_eq_some_iff.mp h
    obtain ⟨hext, hlogged', hlength, p₂, r₂, hstops, hrule⟩ :=
      turn_withRule henabled hlog hlogged hturn
    have hrest : goOn = false ∧ q = p' ∧ r₁ = r' ∨
        goOn = true ∧ g.turns pl referenceDepth false left (step + 1) q r₁ = some (p', r') := by
      cases goOn
      · exact .inl (by simpa using h)
      · exact .inr (by simpa using h)
    have hmore : Extends q p' := by
      rcases hrest with ⟨-, rfl, -⟩ | ⟨-, hrest⟩
      · exact Extends.refl q
      · exact (ih hlogged' hrest).1
    refine ⟨hext.trans hmore, ?_⟩
    by_cases hresigns : moves ≤ lowStreak threshold q.qTrace
    · -- the first value after `p` is low enough for long enough
      rw [if_pos hresigns] at hrule
      refine ⟨p₂, r₂, ?_, .inl ⟨q.qTrace.length, ⟨by omega, hmore.values.length_le, ?_, ?_⟩,
        hstops.extend hlogged' hmore⟩⟩
      · rw [Gatherer.turns, hrule]
        rfl
      · rwa [hmore.take_values]
      · intro j hlow hhigh
        omega
    · rw [if_neg hresigns] at hrule
      have hnot : ¬ Resigns threshold moves (p'.qTrace.take q.qTrace.length) := by
        rwa [hmore.take_values]
      rcases hrest with ⟨rfl, rfl, rfl⟩ | ⟨rfl, hrest⟩
      · refine ⟨{ q with lowValueStreak := lowStreak threshold q.qTrace }, r₁, ?_,
          .inr ⟨?_, rfl, rfl⟩⟩
        · rw [Gatherer.turns, hrule]
          rfl
        · intro j hlow hhigh
          obtain rfl : j = q.qTrace.length := by omega
          exact hnot
      · obtain ⟨-, p₃, r₃, hturns, hcases⟩ := ih hlogged' hrest
        refine ⟨p₃, r₃, ?_, ?_⟩
        · rw [Gatherer.turns, hrule]
          exact hturns
        · rcases hcases with ⟨k, hfirst, hstops⟩ | ⟨hnever, hsame⟩
          · refine .inl ⟨k, ⟨by have := hfirst.later; omega, hfirst.within, hfirst.resigns, ?_⟩, hstops⟩
            intro j hlow hhigh
            rcases Nat.lt_or_ge q.qTrace.length j with hlater | hnow
            · exact hfirst.first j hlater hhigh
            · obtain rfl : j = q.qTrace.length := by omega
              exact hnot
          · refine .inr ⟨?_, hsame⟩
            intro j hlow hhigh
            rcases Nat.lt_or_ge q.qTrace.length j with hlater | hnow
            · exact hnever j hlater hhigh
            · obtain rfl : j = q.qTrace.length := by omega
              exact hnot

/-- An episode of a gatherer that resigns: one draw, then the loop. -/
theorem playEpisode_enabled {game : G} {override : Option (F × ℕ)} {reference : F × ℕ}
    (henabled : g.resignationEnabled = true)
    (hreference : Gatherer.reference game override = some reference) (r : R) :
    g.playEpisode pl game override r =
      (g.turns pl reference.1 (decide (g.noResignRate ≤ (pl.draw (pl.newSearch g.batchSize r)).1))
        (g.actionBudget reference.2) 0 (opening game)
        (pl.draw (pl.newSearch g.batchSize r)).2).map fun x =>
          (reference, decide (g.noResignRate ≤ (pl.draw (pl.newSearch g.batchSize r)).1), x) := by
  unfold Gatherer.playEpisode
  rw [hreference, Option.bind_eq_bind, Option.bind_some, if_pos henabled, Option.map_eq_bind]
  rfl

/-- The log of an episode in which the player was not allowed to resign tells what
any other rule would have done to it: the episode under that rule is the same one
up to the first value that ends a streak which is long enough, and the same to its
end where there is none. -/
theorem resignation_counterfactual {game : G} {override : Option (F × ℕ)} {reference : F × ℕ}
    (hlog : g.resignationLogDir.isSome = true) (hg : g.resignationEnabled = true)
    (henabled : (withRule g threshold moves noResignRate).resignationEnabled = true)
    (hdraw : noResignRate ≤ (pl.draw (pl.newSearch g.batchSize r)).1)
    (h : g.playEpisode pl game override r = some (reference, false, p, r')) :
    ∃ p₂ r₂, (withRule g threshold moves noResignRate).playEpisode pl game override r =
        some (reference, true, p₂, r₂) ∧
      ((∃ k, FirstResigns threshold moves p 0 k ∧ StopsAt p k p₂) ∨
        (∀ k ≤ p.qTrace.length, ¬ Resigns threshold moves (p.qTrace.take k)) ∧
        p₂ = { p with lowValueStreak := p₂.lowValueStreak } ∧ r₂ = r') := by
  have hmoves : moves ≠ 0 := by
    have hboth := henabled
    unfold Gatherer.resignationEnabled withRule at hboth
    simp only [Bool.and_eq_true, decide_eq_true_eq] at hboth
    exact hboth.1.ne'
  obtain ⟨reference', hreference⟩ : ∃ reference', Gatherer.reference game override =
      some reference' := by
    obtain ⟨reference', hreference, -⟩ := Option.bind_eq_some_iff.mp h
    exact ⟨reference', hreference⟩
  rw [playEpisode_enabled hg hreference] at h
  obtain ⟨x, hturns, hx⟩ := Option.map_eq_some_iff.mp h
  obtain ⟨rfl, hallowed, rfl⟩ : reference' = reference ∧ _ = false ∧ x = (p, r') := by
    simpa only [Prod.mk.injEq] using hx
  rw [hallowed] at hturns
  obtain ⟨-, p₂, r₂, hrule, hcases⟩ := turns_withRule henabled hlog
    (p := opening game) ⟨rfl, rfl⟩ hturns
  refine ⟨p₂, r₂, ?_, ?_⟩
  · have hrate : decide ((withRule g threshold moves noResignRate).noResignRate ≤ (pl.draw
        (pl.newSearch (withRule g threshold moves noResignRate).batchSize r)).1) = true :=
      decide_eq_true hdraw
    rw [playEpisode_enabled henabled hreference, hrate]
    exact Option.map_eq_some_iff.mpr ⟨(p₂, r₂), hrule, rfl⟩
  · rcases hcases with hcut | ⟨hnever, hsame⟩
    · exact .inl hcut
    · refine .inr ⟨fun k hk => ?_, hsame⟩
      rcases Nat.eq_zero_or_pos k with rfl | hpos
      · simpa [Resigns, lowStreak] using hmoves
      · exact hnever k hpos hk

noncomputable def logged : Gatherer ℝ :=
  { patient with resignConsecutiveMoves := 4, resignationLogDir := some "log" }

theorem logged_play : ∃ reference p r',
    logged.playEpisode scripted (⟨2, 0⟩ : Job) none [1, 0, 0] = some (reference, false, p, r') ∧
      p.qTrace = [0, 0, 0] := by
  have hrate : ¬ (0.1 : ℝ) ≤ 0 := by norm_num
  have hlow : ¬ (0 : ℝ) ≤ -0.9 := by norm_num
  have hthreshold : (-0.9 : ℝ) < 1 := by norm_num
  simp [Gatherer.playEpisode, Gatherer.reference, Gatherer.solveWithHeuristic, Gatherer.turns,
    Gatherer.turn, Gatherer.actionBudget, Gatherer.resignationEnabled, logged, patient, generous,
    scripted, solve, encode, decode, validActions, Tilers.step, finishCultivating, done, hrate, hlow,
    hthreshold]

theorem lowStreak_zeros (n : ℕ) : lowStreak (0.5 : ℝ) (List.replicate n 0) = n := by
  have hlow : (0 : ℝ) ≤ 0.5 := by norm_num
  simp [lowStreak, hlow]

/-- A rule that minds two values below 1/2 would have resigned before the second of
the three actions. -/
theorem resignation_counterfactual_logged : ∃ (reference : ℝ × ℕ) (p p₂ : Play Job Unit ℝ)
    (r' r₂ : List ℕ),
    logged.playEpisode scripted (⟨2, 0⟩ : Job) none [1, 0, 0] = some (reference, false, p, r') ∧
    p.qTrace = [0, 0, 0] ∧
    (withRule logged 0.5 2 0).playEpisode scripted (⟨2, 0⟩ : Job) none [1, 0, 0] =
      some (reference, true, p₂, r₂) ∧
    FirstResigns 0.5 2 p 0 2 ∧ StopsAt p 2 p₂ := by
  have hg : logged.resignationEnabled = true := by
    norm_num [Gatherer.resignationEnabled, logged, patient, generous]
  have henabled : (withRule logged 0.5 2 0).resignationEnabled = true := by
    norm_num [Gatherer.resignationEnabled, withRule]
  obtain ⟨reference, p, r', hplay, htrace⟩ := logged_play
  obtain ⟨p₂, r₂, hrule, hcases⟩ := resignation_counterfactual rfl hg henabled le_rfl hplay
  have hone : ¬ Resigns 0.5 2 (p.qTrace.take 1) := by
    rw [htrace, Resigns, show [(0 : ℝ), 0, 0].take 1 = List.replicate 1 0 from rfl, lowStreak_zeros]
    omega
  have htwo : Resigns 0.5 2 (p.qTrace.take 2) := by
    rw [htrace, Resigns, show [(0 : ℝ), 0, 0].take 2 = List.replicate 2 0 from rfl, lowStreak_zeros]
  refine ⟨reference, p, p₂, r', r₂, hplay, htrace, hrule, ?_⟩
  rcases hcases with ⟨k, hfirst, hstops⟩ | ⟨hnever, -⟩
  · obtain rfl : k = 2 := by
      have hlater := hfirst.later
      have hnot : k ≠ 1 := by
        rintro rfl
        exact hone hfirst.resigns
      by_contra hne
      exact hfirst.first 2 (by omega) (by omega) htwo
    exact ⟨hfirst, hstops⟩
  · exact absurd htwo (hnever 2 (by simp [htrace]))

end Resignation

end Mcts.EpisodeRuns
