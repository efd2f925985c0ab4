import Mcts.GatherCalls
import Mcts.EpisodeRuns
import Mcts.Ledger
import Mcts.PolicyTarget
import Mcts.RootPrior
import Mcts.Tiling

/-!
Self-play with the real search: the episode loop over `MCTS` on the tiling game,
with the inference service behind it. A worker that goes through shared memory
gathers what it would gather with the model in its own hands.
-/
namespace Mcts.SelfPlay

open Nodes Engine Arena Rerooting SearchRun ArenaInvariant Turns Transposition Ledger PolicyTarget
open Episodes EpisodeRuns Curriculum GatherCalls Tiling ServedSearch BatchedInference
open ActionChoice (Exponential Dice dirichletNoise)
open Slots (TilersObs LOOKAHEAD_MAX InRange)
open Handler (Batch Array2)
open Rows (Row)
open SlotProtocol (MAX_BATCH)

/-- `InferenceClient::infer`; `none` is an error. -/
abbrev Client (F : Type) := List TilersObs → Option (List (HashMap ℕ F) × List F)

/-- The arguments of `gather` beside the job, the settings that only the search reads,
and what the model of the search asks for. -/
structure Setup (F D : Type) where
  cPuct : F
  noiseStrength : F
  dice : Dice F D
  draw : D → F × D
  order : ℕ → IterationOrder (Σ _ : ℕ, F)
  fuel : ℕ

structure Worker (G F D : Type) where
  search : Search ℕ (TilersEnv G) F
  runs : ℕ
  dice : D

section Model

variable {G P F D : Type} [Field F] [LinearOrder F] [FloorSemiring F] [Roots F] [Exponential F]
variable [Tilers G P Layers F] [TilingRules G P]

/-- The noise of the valid actions, by id. An action without an id is a panic, which
`Contract` excludes. -/
def noiseMap (env : G) (noise : List F) : HashMap ℕ F :=
  collectMap (((validActions env).zip noise).filterMap fun e => (encode env e.1).map (·, e.2))

/-- The arguments of a run of an episode. The clients are numbered by runs and queries. -/
def runInput (g : Gatherer F) (u : Setup F D) (client : ℕ → ℕ → Client F) (env : G) (steps : ℕ)
    (terminalEvaluator : G → F) (isFullSearch : Bool) (runs : ℕ) :
    RunInput (TilersEnv G) ℕ TilersObs F where
  env := ⟨env, g.lookahead⟩
  client := client runs
  numSteps := steps
  cPuct := u.cPuct
  terminalEvaluator e := terminalEvaluator e.inner
  forcedPlayouts := isFullSearch
  order := u.order runs
  fuel := u.fuel

def searchedOf (u : Setup F D) (root : Node ℕ F) (m : MCTS ℕ F) : Searched F where
  value := root.value
  edgeVisits := root.edgeVisits
  policyTarget := (policyTarget m u.cPuct).map fun target => target.entries.map fun e => (e.1, e.2)

def perturbRootPrior (u : Setup F D) (env : G) (epsilon : F) (w : Worker G F D) : Worker G F D :=
  let (noise, dice) := dirichletNoise u.dice (validActions env).length w.dice
  let mcts := w.search.mcts.perturbRootPrior (noiseMap env noise) epsilon
  { w with dice := dice, search := { w.search with mcts := mcts } }

/-- The player of `run_episode_from`: `MCTS` on `TilersEnv`. A run panics where the
wrapper does. -/
def player (g : Gatherer F) (u : Setup F D) (client : ℕ → ℕ → Client F) :
    Player G F (Worker G F D) where
  newSearch batchSize w := { w with search := ⟨MCTS.new batchSize, []⟩ }
  draw w := ((u.draw w.dice).1, { w with dice := (u.draw w.dice).2 })
  perturbRootPrior := perturbRootPrior u
  run env steps terminalEvaluator isFullSearch w :=
    match run (runInput g u client env steps terminalEvaluator isFullSearch w.runs) w.search with
    | (none, _) => none
    | (some root, t) =>
      if t.log.any panics then none
      else some (searchedOf u root t.mcts, { w with search := t, runs := w.runs + 1 })
  selectAction root env step w :=
    (ActionChoice.selectAction u.dice u.noiseStrength root env step w.dice).map fun x =>
      (x.1, { w with dice := x.2 })
  advanceRoot action w :=
    { w with search := { w.search with mcts := advanceRoot action w.search.mcts } }

section Draws

variable (g : Gatherer F) (u : Setup F D) (client : ℕ → ℕ → Client F) (w : Worker G F D)

theorem player_run_eq (env : G) (steps : ℕ) (te : G → F) (full : Bool) :
    (player g u client).run env steps te full w =
      match run (runInput g u client env steps te full w.runs) w.search with
      | (none, _) => none
      | (some node, t) =>
        if t.log.any panics then none
        else some (searchedOf u node t.mcts, { w with search := t, runs := w.runs + 1 }) :=
  rfl

@[simp] theorem player_newSearch (batchSize : ℕ) :
    (player g u client).newSearch batchSize w = { w with search := ⟨MCTS.new batchSize, []⟩ } :=
  rfl

@[simp] theorem player_draw :
    (player g u client).draw w = ((u.draw w.dice).1, { w with dice := (u.draw w.dice).2 }) :=
  rfl

end Draws

/-- The client of shared memory: query `k` of run `n` goes through this traffic. -/
def served (model : Batch → Array2 F × List F) (lookahead : ℕ) (traffic : ℕ → ℕ → Traffic F) :
    ℕ → ℕ → Client F :=
  fun n k => infer model lookahead (traffic n k)

def asked (f : Row → List F × F) (n : ℕ) : ℕ → ℕ → Client F :=
  fun _ _ observations => some (ask f n observations)

/-- Every query is answered, with one prior map and one value for each observation. -/
def Answers (client : ℕ → ℕ → Client F) : Prop :=
  ∀ n k observations, ∃ priors values, client n k observations = some (priors, values) ∧
    priors.length = observations.length ∧ values.length = observations.length

omit [LinearOrder F] [FloorSemiring F] [Roots F] [Exponential F] in
theorem asked_answers (f : Row → List F × F) (n : ℕ) : Answers (asked f n) :=
  fun _ _ _ => ⟨_, _, rfl, List.length_map _, List.length_map _⟩

end Model

section Runs

variable {G P F D : Type} [Field F] [LinearOrder F] [Roots F]
variable [Tilers G P Layers F] [TilingRules G P]
variable {g : Gatherer F} {u : Setup F D} {S : Set G} {k : ℕ}
variable {s t : Search ℕ (TilersEnv G) F}

/-- The nodes that one turn can add: its root, and a leaf for each simulation. -/
def perTurn (g : Gatherer F) : ℕ :=
  1 + max g.mctsSteps g.fastSteps ⌈/⌉ g.batchSize * g.batchSize

/-- The search of an episode between two calls, after `k` turns. -/
structure Ready (g : Gatherer F) (S : Set G) (k : ℕ) (s : Search ℕ (TilersEnv G) F) : Prop where
  session : Session (On (wrapped S g.lookahead)) s
  batch : s.mcts.batchSize = g.batchSize
  clear : Booked [] s.mcts
  size : s.mcts.nodes.length ≤ k * perTurn g

theorem ready_new (hb : 1 ≤ g.batchSize) : Ready g S 0 ⟨MCTS.new g.batchSize, []⟩ where
  session := .new g.batchSize hb
  batch := rfl
  clear id n hn := absurd hn (by simp [MCTS.getNode, MCTS.new])
  size := by simp [MCTS.new]

theorem Ready.perturb (h : Ready g S k s) (noise : HashMap ℕ F) (epsilon : F) :
    Ready g S k { s with mcts := s.mcts.perturbRootPrior noise epsilon } where
  session := .perturbRootPrior noise epsilon h.session
  batch := h.batch
  clear := h.clear
  size := h.size

theorem Ready.advance (h : Ready g S k s) (action : ℕ) :
    Ready g S k { s with mcts := advanceRoot action s.mcts } := by
  have hindexed := Updates.session_indexed h.session
  have hkept : (advanceRoot action s.mcts).batchSize = s.mcts.batchSize ∧
      (advanceRoot action s.mcts).nodes.length ≤ s.mcts.nodes.length := by
    rcases advanceRoot_cases action s.mcts with heq | ⟨old, n, new, hroot, hn, hchild⟩
    · rw [heq]
      exact ⟨rfl, le_rfl⟩
    · obtain ⟨-, -, hnodes, hbatch⟩ := advanceRoot_child hindexed hroot hn hchild
      rw [hnodes]
      exact ⟨hbatch, List.length_filter_le _ _⟩
  refine ⟨.advanceRoot action h.session, hkept.1.trans h.batch, ?_, hkept.2.trans h.size⟩
  exact Everywhere.advanceRoot (p := fun n => ∀ j, n.virtualLosses.getD j 0 = 0) hindexed
    h.clear action

omit [Field F] [LinearOrder F] [Tilers G P Layers F] [TilingRules G P] [Roots F] in
theorem simulations_lt {i : RunInput (TilersEnv G) ℕ TilersObs F} (hb : 1 ≤ g.batchSize)
    (hsteps : i.numSteps ≤ max g.mctsSteps g.fastSteps) :
    1 + simulations i g.batchSize ≤ perTurn g := by
  unfold simulations perTurn
  rw [Nat.max_eq_left hb, Nat.ceilDiv_eq_add_pred_div]
  apply Nat.add_le_add_left
  apply Nat.mul_le_mul_right
  apply Nat.div_le_div_right
  omega

variable [FloorSemiring F] [Exponential F] {client : ℕ → ℕ → Client F} {env : G} {steps : ℕ}
variable {te : G → F} {full : Bool} {w : Worker G F D}

/-- A run that is answered: it leaves a search that is ready again, and it
returns where there is fuel for all the nodes there can be. -/
theorem player_run (hG : Contract G) (hS : Grounds S g.lookahead) (hb : 1 ≤ g.batchSize)
    (hans : Answers client) (hw : Ready g S k w.search) (henv : env ∈ S)
    (hsteps : steps ≤ max g.mctsSteps g.fastSteps) :
    (∀ root w', (player g u client).run env steps te full w = some (root, w') →
      Ready g S (k + 1) w'.search) ∧
    ((k + 1) * perTurn g < u.fuel →
      ∃ x, (player g u client).run env steps te full w = some x) := by
  obtain ⟨i, hi⟩ : ∃ i, i = runInput g u client env steps te full w.runs := ⟨_, rfl⟩
  have hplace : i.env ∈ wrapped S g.lookahead := hi ▸ ⟨henv, rfl⟩
  have hanswers : Answering i := hi ▸ hans w.runs
  have hadds : 1 + simulations i g.batchSize ≤ perTurn g :=
    simulations_lt hb (hi ▸ hsteps)
  have hlimit : i.fuel = u.fuel := by
    rw [hi]
    rfl
  have hsize := hw.size
  have hnext : (k + 1) * perTurn g = k * perTurn g + perTurn g := Nat.succ_mul _ _
  obtain ⟨hleft, hreturns⟩ :=
    run_books hG.lawful hS.sound hw.session hw.batch hw.clear hplace hanswers
  have hquiet := attained_quiet hG hS (.inside i hw.session hplace)
  rw [player_run_eq, ← hi]
  rcases heq : run i w.search with ⟨_ | node, t⟩
  · refine ⟨by simp, fun hfuel => ?_⟩
    obtain ⟨node, t', hsome⟩ := hreturns (by omega)
    rw [heq] at hsome
    simp at hsome
  · rw [heq] at hquiet
    obtain ⟨hclear, hbatch, hlength⟩ := hleft node t heq
    have hready : Ready g S (k + 1) t :=
      ⟨.run hw.session hplace heq, hbatch, hclear, by rw [hnext]; omega⟩
    simp only [hquiet, Bool.false_eq_true, if_false]
    refine ⟨fun root w' h => ?_, fun _ => ⟨_, rfl⟩⟩
    obtain ⟨-, rfl⟩ := Prod.mk.inj (Option.some.inj h)
    exact hready

variable {f : Row → List F × F} {model : Batch → Array2 F × List F} {cols : ℕ}
variable {traffic : ℕ → ℕ → Traffic F}

/-- What the service relies on: observations of unfinished positions fit a slot, the
batch fits too, and the model answers row by row. -/
structure Serves (g : Gatherer F) (S : Set G) (model : Batch → Array2 F × List F)
    (f : Row → List F × F) (cols : ℕ) : Prop where
  inRange : ∀ e ∈ wrapped S g.lookahead, Environments.done e = false →
    InRange (Environments.observation e)
  batch : 1 ≤ g.batchSize ∧ g.batchSize ≤ MAX_BATCH
  layers : g.lookahead + 1 ≤ LOOKAHEAD_MAX
  rowWise : RowWise model f cols

/-- A run through shared memory is the run with the model in hand. -/
theorem player_run_same (hG : Contract G) (hS : Grounds S g.lookahead)
    (hserves : Serves g S model f cols) (hw : Ready g S k w.search) (henv : env ∈ S) :
    (player g u (served model g.lookahead traffic)).run env steps te full w =
      (player g u (asked f (g.lookahead + 1))).run env steps te full w := by
  obtain ⟨hm, ht, hlog⟩ := session_truthful hG.lawful hS.sound (fun _ hi => hi) hw.session
  have hplace : (⟨env, g.lookahead⟩ : TilersEnv G) ∈ wrapped S g.lookahead := ⟨henv, rfl⟩
  have hrun := run_infer hG.lawful hS.sound hserves.inRange hserves.rowWise hserves.layers
    (traffic w.runs) hm ht hlog (hw.batch.trans_le hserves.batch.2)
    (runInput g u (served model g.lookahead traffic) env steps te full w.runs) hplace
  have hsame : run (runInput g u (served model g.lookahead traffic) env steps te full w.runs)
      w.search = run (runInput g u (asked f (g.lookahead + 1)) env steps te full w.runs) w.search :=
    hrun
  simp only [player, hsame]

end Runs

section Turns

variable {G P F D : Type} [Field F] [LinearOrder F] [FloorSemiring F] [Saturation F] [Roots F]
variable [Exponential F] [Tilers G P Layers F] [TilingRules G P]
variable {g : Gatherer F} {u : Setup F D} {S : Set G} {k step : ℕ} {w w' : Worker G F D}
variable {f : Row → List F × F} {model : Batch → Array2 F × List F} {cols : ℕ}
variable {traffic : ℕ → ℕ → Traffic F} {client : ℕ → ℕ → Client F} {env : G}
variable {referenceDepth : F} {allowed goOn full : Bool} {p p' : Play G Layers F}
variable {root : Searched F}

/-- The run of a turn, after the draw and the noise, whoever answers it. -/
theorem searchRoot_run (u : Setup F D) (referenceDepth : F) (env : G) (hw : Ready g S k w.search) :
    ∃ w₁ : Worker G F D, ∃ steps full, Ready g S k w₁.search ∧
      steps ≤ max g.mctsSteps g.fastSteps ∧ ∀ client,
        searchRoot g (player g u client) referenceDepth env w =
          (player g u client).run env steps (g.terminalEvaluator referenceDepth) full w₁ := by
  refine ⟨if decide ((u.draw w.dice).1 < g.pFullSearch) && decide (0 < g.dirichletEpsilon) then
      perturbRootPrior u env g.dirichletEpsilon { w with dice := (u.draw w.dice).2 }
    else { w with dice := (u.draw w.dice).2 },
    if decide ((u.draw w.dice).1 < g.pFullSearch) then g.mctsSteps else g.fastSteps,
    decide ((u.draw w.dice).1 < g.pFullSearch), ?_, ?_, fun client => rfl⟩
  · split
    · exact hw.perturb _ _
    · exact hw
  · split
    · exact le_max_left _ _
    · exact le_max_right _ _

theorem searchRoot_ready (hG : Contract G) (hS : Grounds S g.lookahead) (hb : 1 ≤ g.batchSize)
    (hans : Answers client) (hw : Ready g S k w.search) (henv : env ∈ S) :
    (∀ root w', searchRoot g (player g u client) referenceDepth env w = some (root, w') →
      Ready g S (k + 1) w'.search) ∧
    ((k + 1) * perTurn g < u.fuel →
      ∃ x, searchRoot g (player g u client) referenceDepth env w = some x) := by
  obtain ⟨w₁, steps, full, hready, hsteps, heq⟩ := searchRoot_run u referenceDepth env hw
  rw [heq]
  exact player_run hG hS hb hans hready henv hsteps

theorem searchRoot_same (hG : Contract G) (hS : Grounds S g.lookahead)
    (hserves : Serves g S model f cols) (hw : Ready g S k w.search) (henv : env ∈ S) :
    searchRoot g (player g u (served model g.lookahead traffic)) referenceDepth env w =
      searchRoot g (player g u (asked f (g.lookahead + 1))) referenceDepth env w := by
  obtain ⟨w₁, steps, full, hready, -, heq⟩ := searchRoot_run u referenceDepth env hw
  rw [heq, heq]
  exact player_run_same hG hS hserves hready henv

omit [Saturation F] in
/-- The action of a turn leads to a position in play. -/
theorem playOn_moves (hG : Contract G) (hS : Grounds S g.lookahead) (hw : Ready g S k w.search)
    (henv : p.env ∈ S)
    (h : playOn g (player g u client) step full root p w = some (p', w', goOn)) :
    p'.env ∈ S ∧ Ready g S k w'.search := by
  obtain ⟨ids, hids⟩ := hG.ids p.env
  unfold playOn at h
  obtain ⟨valid, -, h⟩ := Option.bind_eq_some_iff.mp h
  obtain ⟨⟨action, w₁⟩, hselect, h⟩ := Option.bind_eq_some_iff.mp h
  obtain ⟨a, ha, h⟩ := Option.bind_eq_some_iff.mp h
  obtain ⟨⟨chosen, dice⟩, hchosen, hpair⟩ := Option.map_eq_some_iff.mp hselect
  obtain ⟨rfl, rfl⟩ := Prod.mk.inj hpair
  obtain ⟨b, hb, -, hdecode⟩ := hids.decoded chosen (selectAction_mem hids.encoded hchosen)
  obtain rfl : b = a := Option.some.inj (hdecode.symm.trans ha)
  have hnext := hS.closed p.env henv b hb
  dsimp only at h
  split at h
  · obtain ⟨rfl, rfl, -⟩ : _ = p' ∧ _ = w' ∧ _ = goOn := by
      simpa only [Prod.mk.injEq] using Option.some.inj h
    exact ⟨hnext, hw⟩
  · obtain ⟨rfl, rfl, -⟩ : _ = p' ∧ _ = w' ∧ _ = goOn := by
      simpa only [Prod.mk.injEq] using Option.some.inj h
    exact ⟨hnext, hw.advance chosen⟩

/-- A turn that is answered leaves a position in play and a search that is ready. -/
theorem turn_moves (hG : Contract G) (hS : Grounds S g.lookahead) (hb : 1 ≤ g.batchSize)
    (hans : Answers client) (hw : Ready g S k w.search) (henv : p.env ∈ S)
    (h : g.turn (player g u client) referenceDepth allowed step p w = some (p', w', goOn)) :
    p'.env ∈ S ∧ Ready g S (k + 1) w'.search := by
  rw [turn_eq] at h
  obtain ⟨⟨root, w₁⟩, hsearch, h⟩ := Option.bind_eq_some_iff.mp h
  have hready := (searchRoot_ready hG hS hb hans hw henv).1 root w₁ hsearch
  dsimp only at h
  split at h
  · obtain ⟨rfl, rfl, -⟩ : _ = p' ∧ _ = w' ∧ _ = goOn := by
      simpa only [Prod.mk.injEq] using Option.some.inj h
    exact ⟨by simpa using henv, hready⟩
  · exact playOn_moves hG hS hready (by simpa using henv) h

theorem turns_ready (hG : Contract G) (hS : Grounds S g.lookahead) (hb : 1 ≤ g.batchSize)
    (hans : Answers client) {left : ℕ} (hw : Ready g S k w.search) (henv : p.env ∈ S)
    (h : g.turns (player g u client) referenceDepth allowed left step p w = some (p', w')) :
    p'.env ∈ S ∧ ∃ turns ≤ left, Ready g S (k + turns) w'.search := by
  induction left generalizing k step p w with
  | zero =>
    obtain ⟨rfl, rfl⟩ := Prod.mk.inj (Option.some.inj h)
    exact ⟨henv, 0, le_rfl, hw⟩
  | succ left ih =>
    obtain ⟨⟨q, w₁, goOn⟩, hturn, h⟩ := Option.bind_eq_some_iff.mp h
    obtain ⟨hq, hready⟩ := turn_moves hG hS hb hans hw henv hturn
    cases goOn with
    | false =>
      obtain ⟨rfl, rfl⟩ : q = p' ∧ w₁ = w' := by simpa using h
      exact ⟨hq, 1, by omega, hready⟩
    | true =>
      obtain ⟨hp, turns, hle, hmore⟩ := ih hready hq (by simpa using h)
      refine ⟨hp, turns + 1, by omega, ?_⟩
      rwa [Nat.add_right_comm] at hmore

omit [TilingRules G P] [Roots F] [Exponential F] in
/-- Two players that make the same turns where `I` holds, which their turns keep, play
the same episode. -/
theorem turns_congr {R : Type} {pl pl' : Player G F R} {I : Play G Layers F → R → Prop}
    (hsame : ∀ step p r, I p r →
      g.turn pl referenceDepth allowed step p r = g.turn pl' referenceDepth allowed step p r)
    (hkeep : ∀ step p r p' r', I p r →
      g.turn pl' referenceDepth allowed step p r = some (p', r', true) → I p' r')
    (left step : ℕ) {p : Play G Layers F} {r : R} (h : I p r) :
    g.turns pl referenceDepth allowed left step p r =
      g.turns pl' referenceDepth allowed left step p r := by
  induction left generalizing step p r with
  | zero => rfl
  | succ left ih =>
    rw [Gatherer.turns, Gatherer.turns, hsame step p r h]
    refine Option.bind_congr fun x hx => ?_
    obtain ⟨q, r', goOn⟩ := x
    cases goOn with
    | false => rfl
    | true => exact ih (step + 1) (hkeep step p r q r' h hx)

/-- The client only matters to the run of a turn. -/
theorem turn_client {client' : ℕ → ℕ → Client F}
    (h : searchRoot g (player g u client) referenceDepth p.env w =
      searchRoot g (player g u client') referenceDepth p.env w) :
    g.turn (player g u client) referenceDepth allowed step p w =
      g.turn (player g u client') referenceDepth allowed step p w := by
  have hdraw : (player g u client).draw w = (player g u client').draw w := by
    rw [player_draw, player_draw]
  have hplay : ∀ full root (q : Play G Layers F) w,
      playOn g (player g u client) step full root q w =
        playOn g (player g u client') step full root q w := by
    intro full root q w
    simp only [playOn, player]
  rw [turn_eq, turn_eq, h]
  simp only [hdraw, hplay]

/-- The episode loop is the same, whichever client answers. -/
theorem turns_same (hG : Contract G) (hS : Grounds S g.lookahead)
    (hserves : Serves g S model f cols) (left : ℕ) (hw : Ready g S k w.search) (henv : p.env ∈ S) :
    g.turns (player g u (served model g.lookahead traffic)) referenceDepth allowed left step p w =
      g.turns (player g u (asked f (g.lookahead + 1))) referenceDepth allowed left step p w := by
  apply turns_congr (I := fun p w => p.env ∈ S ∧ ∃ k, Ready g S k w.search)
  · rintro step p w ⟨henv, k, hw⟩
    exact turn_client (searchRoot_same hG hS hserves hw henv)
  · rintro step p w p' w' ⟨henv, k, hw⟩ h
    obtain ⟨hq, hready⟩ := turn_moves hG hS hserves.batch.1 (asked_answers f _) hw henv h
    exact ⟨hq, k + 1, hready⟩
  · exact ⟨henv, k, hw⟩

def seated (g : Gatherer F) (u : Setup F D) (w : Worker G F D) : Bool × Worker G F D :=
  let w : Worker G F D := { w with search := ⟨MCTS.new g.batchSize, []⟩ }
  if g.resignationEnabled then
    (decide (g.noResignRate ≤ (u.draw w.dice).1), { w with dice := (u.draw w.dice).2 })
  else (false, w)

omit [Saturation F] [Exponential F] [FloorSemiring F] in
theorem seated_ready (S : Set G) (hb : 1 ≤ g.batchSize) (u : Setup F D) (w : Worker G F D) :
    Ready g S 0 (seated g u w).2.search := by
  unfold seated
  dsimp only
  split
  · exact ready_new hb
  · exact ready_new hb

theorem playEpisode_eq (u : Setup F D) (client : ℕ → ℕ → Client F) (game : G)
    (override : Option (F × ℕ)) (w : Worker G F D) :
    g.playEpisode (player g u client) game override w =
      (Gatherer.reference game override).bind fun reference =>
        (g.turns (player g u client) reference.1 (seated g u w).1 (g.actionBudget reference.2) 0
          (opening game) (seated g u w).2).map fun x => (reference, (seated g u w).1, x) := by
  unfold Gatherer.playEpisode
  simp only [player_newSearch, player_draw]
  refine Option.bind_congr fun reference _ => ?_
  cases hrule : g.resignationEnabled with
  | true =>
    simp only [seated, hrule, if_true]
    exact Option.map_eq_bind.symm
  | false =>
    simp only [seated, hrule, Bool.false_eq_true, if_false]
    exact Option.map_eq_bind.symm

/-- An episode ends in a position in play, with a search that `new`, `run`, `advance_root`
and `perturb_root_prior` reach: its nodes are bounded by the turns, and no virtual loss is
left. -/
theorem playEpisode_ready (hG : Contract G) (hS : Grounds S g.lookahead) (hb : 1 ≤ g.batchSize)
    (hans : Answers client) {game : G} (hgame : game ∈ S) {override : Option (F × ℕ)}
    {reference : F × ℕ} (h : g.playEpisode (player g u client) game override w =
      some (reference, allowed, p, w')) :
    p.env ∈ S ∧ ∃ turns ≤ g.actionBudget reference.2, Ready g S turns w'.search := by
  rw [playEpisode_eq] at h
  obtain ⟨reference', -, h⟩ := Option.bind_eq_some_iff.mp h
  obtain ⟨⟨q, w₁⟩, hturns, heq⟩ := Option.map_eq_some_iff.mp h
  obtain ⟨rfl, -, rfl, rfl⟩ : reference' = reference ∧ _ = allowed ∧ q = p ∧ w₁ = w' := by
    simpa only [Prod.mk.injEq] using heq
  obtain ⟨hp, turns, hle, hready⟩ := turns_ready (p := opening game) hG hS hb hans
    (seated_ready S hb u w) hgame hturns
  rw [Nat.zero_add] at hready
  exact ⟨hp, turns, hle, hready⟩

/-- Every episode is the same, whichever client answers. -/
theorem runEpisodeFrom_same (hG : Contract G) (hS : Grounds S g.lookahead)
    (hserves : Serves g S model f cols) {start : G} (hstart : setCultivationTime start 10 ∈ S)
    (override : Option (F × ℕ)) (w : Worker G F D) :
    g.runEpisodeFrom (player g u (served model g.lookahead traffic)) start override w =
      g.runEpisodeFrom (player g u (asked f (g.lookahead + 1))) start override w := by
  have hready := seated_ready S hserves.batch.1 u w
  rw [Gatherer.runEpisodeFrom, Gatherer.runEpisodeFrom]
  dsimp only
  rw [playEpisode_eq, playEpisode_eq]
  simp only [turns_same hG hS hserves _ hready (p := opening (setCultivationTime start 10)) hstart]

end Turns

section Gather

variable {G P F D R : Type} [Field F] [LinearOrder F] [FloorSemiring F] [Saturation F]
variable [Tilers G P Layers F]

/-- Where the episodes of a call of `gather` may start: at the job, or where a part of
the heuristic's plan is left. -/
def starts (env : G) : Set G :=
  let game := setCultivationTime env 10
  let plan := (heuristicTypedPlan game).2
  insert game {start | ∃ n < plan.length, start = makeReverseStart game plan n}

theorem gatherReverseCurriculum_congr {g : Gatherer F} {pl pl' : Player G F R} {game : G}
    {plan : List P} (hdraw : pl.draw = pl'.draw)
    (hsame : ∀ n < plan.length, ∀ override r,
      g.runEpisodeFrom pl (makeReverseStart game plan n) override r =
        g.runEpisodeFrom pl' (makeReverseStart game plan n) override r) (dFull : F) (r : R) :
    gatherReverseCurriculum g pl game dFull plan r =
      gatherReverseCurriculum g pl' game dFull plan r := by
  rw [gatherReverseCurriculum, gatherReverseCurriculum, hdraw]
  by_cases hplan : plan.length = 0
  · rw [if_pos hplan, if_pos hplan]
  · have hprobe : ∀ k r, 1 ≤ k → k ≤ plan.length →
        probeTail g pl game dFull plan k r = probeTail g pl' game dFull plan k r :=
      fun k r hpos hle => hsame _ (by omega) _ _
    rw [climb_congr hprobe _ _ r (start_inside (by omega) _) le_rfl]

/-- A call of `gather` knows its player by the draws and the episodes. -/
theorem gather_congr {s : Settings F} {pl pl' : Player G F R} {env : G} (hdraw : pl.draw = pl'.draw)
    (hsame : ∀ start ∈ starts env, ∀ override r,
      s.runEpisodeFrom pl start override r = s.runEpisodeFrom pl' start override r) (r : R) :
    gather s pl env r = gather s pl' env r := by
  have hgame : ∀ r, gatherEpisode s pl (setCultivationTime env 10) r =
      gatherEpisode s pl' (setCultivationTime env 10) r := by
    intro r
    rw [gatherEpisode, gatherEpisode, hsame _ (Set.mem_insert _ _) none r, hdraw]
  have hclimb : ∀ dFull r, gatherReverseCurriculum s.toGatherer pl (setCultivationTime env 10) dFull
        (heuristicTypedPlan (setCultivationTime env 10)).2 r =
      gatherReverseCurriculum s.toGatherer pl' (setCultivationTime env 10) dFull
        (heuristicTypedPlan (setCultivationTime env 10)).2 r := by
    apply gatherReverseCurriculum_congr hdraw
    exact fun n hn => hsame _ (Set.mem_insert_of_mem _ ⟨n, hn, rfl⟩)
  unfold gather
  simp only [hdraw, hgame, hclimb]

variable [Roots F] [Exponential F] [TilingRules G P] {s : Settings F} {S : Set G} {env : G}
variable {f : Row → List F × F} {model : Batch → Array2 F × List F} {cols : ℕ}

/-- A worker behind shared memory gathers what it would gather with the model in its
own hands: the same lines, statistics and draws, or the same panic. -/
theorem gather_served (hG : Contract G) (hS : Grounds S s.lookahead)
    (hserves : Serves s.toGatherer S model f cols)
    (hstarts : ∀ start ∈ starts env, setCultivationTime start 10 ∈ S) (u : Setup F D)
    (traffic : ℕ → ℕ → Traffic F) (w : Worker G F D) :
    gather s (player s.toGatherer u (served model s.lookahead traffic)) env w =
      gather s (player s.toGatherer u (asked f (s.lookahead + 1))) env w := by
  apply gather_congr
  · funext w
    rw [player_draw, player_draw]
  · intro start hstart override w
    exact runEpisodeFrom_same hG hS hserves (hstarts start hstart) override w

end Gather

section Strip

def even (batch : Batch) : Array2 ℝ × List ℝ :=
  (⟨batch.heights.length, 0, [], by simp⟩, batch.widths.map fun _ => 0)

theorem even_rowWise : RowWise even (fun _ => ([], 0)) 0 where
  cols_le := Nat.zero_le _
  priors _ := rfl
  answers _ _ rows _ _ := by
    refine ⟨List.length_map _, rfl, ?_, ?_⟩
    · simp [even]
    · show ((rows.map (·.width)).map fun _ => (0 : ℝ)) = _
      rw [List.map_map]
      rfl
  pad _ := rfl

noncomputable def seat : Setup ℝ Unit where
  cPuct := 1
  noiseStrength := 0.25
  dice := ActionChoice.loaded
  draw _ := (0, ())
  order _ := ⟨fun _ xs => xs, fun _ xs => List.Perm.refl xs⟩
  fuel := 1000

def busy (n k : ℕ) : Traffic ℝ :=
  ⟨7, n + k, 4, [1, 4], List.mem_cons_of_mem 1 List.mem_cons_self, fun _ =>
    ⟨SlotProtocol.SLOT_READY, 5, 9, 9, fun _ => 9, fun _ => 9, fun _ => 9, fun _ => 3, fun _ _ => 9,
      fun _ => 1, fun _ => 1, fun _ => 1⟩, [], true, []⟩

theorem strip_serves :
    Serves showing.toGatherer (Set.univ : Set Strip) even (fun _ => ([], 0)) 0 where
  inRange e he _ := by
    have hlook : e.lookahead = 1 := he.2
    have hboard : (Environments.observation e).board =
        List.replicate (e.lookahead + 1) [⟨e.inner.left, 0, 0, 0, 0, 0, 0, 0, 0, 0⟩] := rfl
    refine ⟨by show 1 ≤ 255; omega, by show 1 ≤ 255; omega, by show 0 ≤ 255; omega,
      by show 1 * 1 ≤ 400; omega, ?_, fun layer hlayer => ?_,
      padMask_length _⟩
    · rw [hboard, List.length_replicate, hlook]
      decide
    · rw [hboard] at hlayer
      rw [List.eq_of_mem_replicate hlayer]
      rfl
  batch := by constructor <;> decide
  layers := by decide
  rowWise := even_rowWise

theorem gather_served_strip :
    gather showing (player showing.toGatherer seat (served even 1 busy)) (⟨2, 0⟩ : Strip)
        ⟨⟨MCTS.new 8, []⟩, 0, ()⟩ =
      gather showing (player showing.toGatherer seat (asked (fun _ => ([], 0)) 2)) (⟨2, 0⟩ : Strip)
        ⟨⟨MCTS.new 8, []⟩, 0, ()⟩ :=
  gather_served strip_contract (strip_grounds 1) strip_serves (fun _ _ => Set.mem_univ _) seat busy _

end Strip

end Mcts.SelfPlay
