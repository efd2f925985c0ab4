import Mcts.SelfPlay

/-!
What a call of `gather` with the real search comes to, as long as its files take every
line. It panics for four reasons only: a climb along an empty plan, a job that the
heuristic gives up, a plan with an action that has no id, or a position without a valid
action.
-/
namespace Mcts.SelfPlayRuns

open Episodes EpisodeRuns Trajectories Curriculum GatherCalls Tiling SelfPlay

section Returns

variable {G P D : Type} [Tilers G P Layers ℝ] [TilingRules G P]
variable {g : Gatherer ℝ} {u : Setup ℝ D} {S : Set G} {k step left : ℕ} {w w' : Worker G ℝ D}
variable {client : ℕ → ℕ → Client ℝ} {referenceDepth : ℝ} {allowed goOn full : Bool}
variable {p p' : Play G Layers ℝ} {root : Searched ℝ}

/-- The recorded actions of some turns lead to a position that offers none. Only the
start may be finished. -/
def Stuck (g : Gatherer ℝ) (start : G) : Prop :=
  ∃ actions, ∃ records : List (StepRecord Layers), ∃ e,
    replay g start actions = some (records, e) ∧ (actions = [] ∨ done e = false) ∧
      validActions e = []

omit [TilingRules G P] in
theorem mapM_encode_none {solved : G} {plan : List P} (h : plan.mapM (encode solved) = none) :
    ∃ a ∈ plan, encode solved a = none := by
  induction plan with
  | nil => simp at h
  | cons a rest ih =>
    rcases hcode : encode solved a with _ | id
    · exact ⟨a, List.mem_cons_self, hcode⟩
    · have hrest : rest.mapM (encode solved) = none := by
        by_contra hsome
        obtain ⟨ids, hids⟩ := Option.ne_none_iff_exists'.mp hsome
        simp [hcode, hids] at h
      obtain ⟨b, hb, hnone⟩ := ih hrest
      exact ⟨b, List.mem_cons_of_mem a hb, hnone⟩

def GivesUp (game : G) : Prop := (solve game true).1 = none

/-- The heuristic has a plan, but in the state it leaves an action of the plan has no id. -/
def Unnamed (game : G) : Prop :=
  ∃ plan, (solve game true).1 = some plan ∧ ∃ a ∈ plan, encode (solve game true).2 a = none

omit [TilingRules G P] in
theorem solveWithHeuristic_none {game : G} (h : Gatherer.solveWithHeuristic game = none) :
    GivesUp game ∨ Unnamed game := by
  unfold Gatherer.solveWithHeuristic at h
  rcases hplan : (solve game true).1 with _ | plan
  · exact .inl hplan
  · right
    dsimp only at h
    rw [hplan, Option.bind_some] at h
    exact ⟨plan, hplan, mapM_encode_none (Option.map_eq_none_iff.mp h)⟩

/-- With something to play a turn plays on. -/
theorem playOn_returns (hG : Contract G) (hdice : u.dice.Lawful)
    (hnoise : u.noiseStrength ∈ Set.Ico 0 1) (hvalid : validActions p.env ≠ []) :
    ∃ x, playOn g (player g u client) step full root p w = some x := by
  obtain ⟨ids, hids⟩ := hG.ids p.env
  have hne : ids ≠ [] := fun hnil => hvalid (hids.nil.mp hnil)
  obtain ⟨⟨action, dice⟩, hselect⟩ :=
    ActionChoice.selectAction_returns hdice hnoise root hids.encoded hne step w.dice
  obtain ⟨a, -, -, hdecode⟩ := hids.decoded action (selectAction_mem hids.encoded hselect)
  simp only [playOn, player, hids.encoded, hselect, Option.map_some, hdecode,
    Option.bind_eq_bind, Option.bind_some]
  split
  · exact ⟨_, rfl⟩
  · exact ⟨_, rfl⟩

/-- Where a turn goes on, one more action has been replayed. -/
theorem turn_stuck (h : g.turn (player g u client) referenceDepth allowed step p w =
      some (p', w', true)) (hstuck : Stuck g p'.env) : Stuck g p.env := by
  obtain ⟨actions, records, e, hreplay, hopen, hnone⟩ := hstuck
  rcases turn_cases h with ⟨-, hgo⟩ | ⟨valid, action, a, hplayed, hgo⟩
  · exact Bool.noConfusion hgo
  · refine ⟨action :: actions, _, e, hplayed.replay_cons hreplay, .inr ?_, hnone⟩
    rcases hopen with rfl | hopen
    · obtain ⟨-, rfl⟩ : records = [] ∧ p'.env = e := by simpa [replay] using hreplay
      simpa using hgo.symm
    · exact hopen

/-- The action counts that the references of a job's episodes can have. -/
def references (env : G) : Set ℕ :=
  let game := setCultivationTime env 10
  {n | n ≤ (heuristicTypedPlan game).2.length} ∪
    {n | ∃ d, Gatherer.reference (setCultivationTime game 10) none = some (d, n)}

omit [TilingRules G P] in
theorem exists_fuel (g : Gatherer ℝ) (env : G) : ∃ enough, ∀ fuel, enough ≤ fuel →
    ∀ n ∈ references env, g.actionBudget n * perTurn g < fuel := by
  have hfinite : (references env).Finite := by
    apply (Set.finite_le_nat _).union
    apply Set.Subsingleton.finite
    rintro n ⟨d, hn⟩ m ⟨d', hm⟩
    have hsame := hn.symm.trans hm
    simp only [Option.some.injEq, Prod.mk.injEq] at hsame
    exact hsame.2
  obtain ⟨most, hmost⟩ := (hfinite.image fun n => g.actionBudget n * perTurn g).bddAbove
  refine ⟨most + 1, fun fuel hfuel n hn => ?_⟩
  exact (hmost ⟨n, hn, rfl⟩).trans_lt hfuel

omit [TilingRules G P] in
/-- With ids for all actions a demonstration is never cut short. -/
theorem writeDemoEpisode_returns {s : Settings ℝ} {R : Type}
    (hcodes : ∀ e : G, ∃ ids, (validActions e).mapM (encode e) = some ids) (draw : R → ℝ × R)
    (game : G) (r : R) : ∃ x, writeDemoEpisode s draw game r = some x := by
  have hsteps : ∀ (plan : List P) (start e : G) r,
      ∃ x, demoSteps s draw start plan e r = some x := by
    intro plan start
    induction plan with
    | nil => exact fun _ _ => ⟨_, rfl⟩
    | cons a rest ih =>
      intro e r
      rw [demoSteps]
      dsimp only
      cases encode e a with
      | none => exact ih _ _
      | some encoded =>
        obtain ⟨ids, hids⟩ := hcodes e
        simp only [hids, Option.bind_eq_bind, Option.bind_some]
        split
        · obtain ⟨x, hx⟩ := ih (finishCultivating (Tilers.step e a)) (draw r).2
          rw [hx, Option.bind_some]
          split <;> exact ⟨_, rfl⟩
        · exact ih _ _
  unfold writeDemoEpisode
  dsimp only
  split
  · exact ⟨_, rfl⟩
  · exact hsteps _ _ _ _

section Search

variable (hG : Contract G) (hS : Grounds S g.lookahead) (hb : 1 ≤ g.batchSize)
variable (hans : Answers client) (hdice : u.dice.Lawful) (hnoise : u.noiseStrength ∈ Set.Ico 0 1)
include hG hS hb hans hdice hnoise

theorem turn_returns (hw : Ready g S k w.search) (henv : p.env ∈ S)
    (hfuel : (k + 1) * perTurn g < u.fuel) (hvalid : validActions p.env ≠ []) :
    ∃ x, g.turn (player g u client) referenceDepth allowed step p w = some x := by
  have hreturns : ∃ x, searchRoot g (player g u client) referenceDepth p.env w = some x :=
    (searchRoot_ready hG hS hb hans hw henv).2 hfuel
  obtain ⟨⟨root, w₁⟩, hsearch⟩ := hreturns
  rw [turn_eq, hsearch, Option.bind_some]
  dsimp only
  split
  · exact ⟨_, rfl⟩
  · exact playOn_returns hG hdice hnoise (by simpa using hvalid)

/-- With fuel for its nodes the episode loop stops short only where it is stuck. -/
theorem turns_stuck (hw : Ready g S k w.search) (henv : p.env ∈ S)
    (hfuel : (k + left) * perTurn g < u.fuel)
    (h : g.turns (player g u client) referenceDepth allowed left step p w = none) :
    Stuck g p.env := by
  induction left generalizing k step p w with
  | zero => simp [Gatherer.turns] at h
  | succ left ih =>
    have hturns : k + (left + 1) = k + 1 + left := by omega
    by_cases hvalid : validActions p.env = []
    · exact ⟨[], [], p.env, rfl, .inl rfl, hvalid⟩
    · have hnow : (k + 1) * perTurn g < u.fuel :=
        (Nat.mul_le_mul_right _ (by omega)).trans_lt hfuel
      have hreturns : ∃ x, g.turn (player g u client) referenceDepth allowed step p w = some x :=
        turn_returns hG hS hb hans hdice hnoise hw henv hnow hvalid
      obtain ⟨⟨q, w₁, goOn⟩, hturn⟩ := hreturns
      obtain ⟨hq, hready⟩ := turn_moves hG hS hb hans hw henv hturn
      rw [Gatherer.turns, hturn] at h
      cases goOn with
      | false => simp at h
      | true => exact turn_stuck hturn (ih hready hq (hturns ▸ hfuel) h)

/-- An episode panics where it has no reference, or gets stuck. -/
theorem runEpisodeFrom_stuck {start : G} (hstart : setCultivationTime start 10 ∈ S)
    {override : Option (ℝ × ℕ)}
    (hfuel : ∀ d n, Gatherer.reference (setCultivationTime start 10) override = some (d, n) →
      g.actionBudget n * perTurn g < u.fuel)
    (h : g.runEpisodeFrom (player g u client) start override w = none) :
    Gatherer.reference (setCultivationTime start 10) override = none ∨
      Stuck g (setCultivationTime start 10) := by
  rw [Gatherer.runEpisodeFrom] at h
  dsimp only at h
  rw [playEpisode_eq] at h
  rcases href : Gatherer.reference (setCultivationTime start 10) override with _ | ⟨d, n⟩
  · exact .inl rfl
  · right
    have henough : (0 + g.actionBudget n) * perTurn g < u.fuel := by
      rw [Nat.zero_add]
      exact hfuel d n href
    rw [href, Option.bind_some] at h
    have hplay : g.turns (player g u client) d (seated g u w).1 (g.actionBudget n) 0
        (opening (setCultivationTime start 10)) (seated g u w).2 = none := by
      rcases hturns : g.turns (player g u client) d (seated g u w).1 (g.actionBudget n) 0
        (opening (setCultivationTime start 10)) (seated g u w).2 with _ | x
      · rfl
      · simp [hturns] at h
    exact turns_stuck (p := opening (setCultivationTime start 10)) hG hS hb hans hdice hnoise
      (seated_ready S hb u w) hstart henough hplay

/-- A climb panics on an empty plan, or where one of its episodes gets stuck. -/
theorem gatherReverseCurriculum_none {game : G} {dFull : ℝ} {plan : List P}
    (hstart : ∀ n < plan.length, setCultivationTime (makeReverseStart game plan n) 10 ∈ S)
    (hfuel : ∀ n ≤ plan.length, g.actionBudget n * perTurn g < u.fuel)
    (h : gatherReverseCurriculum g (player g u client) game dFull plan w = none) :
    plan = [] ∨
      ∃ n < plan.length, Stuck g (setCultivationTime (makeReverseStart game plan n) 10) := by
  rw [gatherReverseCurriculum] at h
  by_cases hplan : plan.length = 0
  · exact .inl (List.length_eq_zero_iff.mp hplan)
  · right
    rw [if_neg hplan] at h
    rcases hclimb : climb plan.length (probeTail g (player g u client) game dFull plan)
      g.reverseCurriculumMaxProbes (Climb.start plan.length g.reverseCurriculumKStartActions) w
      with _ | x
    · obtain ⟨k, w₁, ⟨hpos, hk⟩, hprobe⟩ :=
        climb_none _ _ _ (start_inside (by omega) _) le_rfl hclimb
      have hless : plan.length - k < plan.length := by omega
      have hwhy := runEpisodeFrom_stuck hG hS hb hans hdice hnoise (hstart _ hless)
        (fun d n href => ?_) hprobe
      · exact ⟨_, hless, by simpa [Gatherer.reference] using hwhy⟩
      · obtain ⟨-, rfl⟩ : dFull = d ∧ k = n := by simpa [Gatherer.reference] using href
        exact hfuel k hk
    · simp [hclimb] at h

end Search

variable {s : Settings ℝ} {env : G}

/-- A forward call panics where the heuristic gives up, or the episode gets stuck. -/
theorem gatherEpisode_none (hG : Contract G) (hS : Grounds S s.lookahead) (hb : 1 ≤ s.batchSize)
    (hans : Answers client) (hdice : u.dice.Lawful) (hnoise : u.noiseStrength ∈ Set.Ico 0 1)
    {game : G} (hstart : setCultivationTime game 10 ∈ S)
    (hfuel : ∀ d n, Gatherer.reference (setCultivationTime game 10) none = some (d, n) →
      s.actionBudget n * perTurn s.toGatherer < u.fuel)
    (h : gatherEpisode s (player s.toGatherer u client) game w = none) :
    Gatherer.solveWithHeuristic (setCultivationTime game 10) = none ∨
      Stuck s.toGatherer (setCultivationTime game 10) := by
  rw [gatherEpisode] at h
  rcases hrun : s.runEpisodeFrom (player s.toGatherer u client) game none w with _ | ⟨o, w₁⟩
  · have hwhy := runEpisodeFrom_stuck hG hS hb hans hdice hnoise hstart hfuel hrun
    simpa [Gatherer.reference] using hwhy
  · exfalso
    rw [hrun, Option.bind_eq_bind, Option.bind_some] at h
    dsimp only at h
    split at h
    · split at h
      · obtain ⟨x, hx⟩ := writeDemoEpisode_returns (s := s)
          (fun e => (hG.ids e).imp fun _ h => h.encoded) (player s.toGatherer u client).draw game
          ((player s.toGatherer u client).draw (writeEpisode s.toGatherer
            (player s.toGatherer u client).draw o false w₁).2.2).2
        rw [hx] at h
        simp at h
      · simp at h
    · simp at h

/-- Where `gather` panics, with fuel for the nodes its episodes can add. -/
theorem gather_none (hG : Contract G) (hS : Grounds S s.lookahead) (hb : 1 ≤ s.batchSize)
    (hans : Answers client) (hdice : u.dice.Lawful) (hnoise : u.noiseStrength ∈ Set.Ico 0 1)
    (hstarts : ∀ start ∈ starts env, setCultivationTime start 10 ∈ S)
    (hfuel : ∀ n ∈ references env, s.actionBudget n * perTurn s.toGatherer < u.fuel)
    (h : gather s (player s.toGatherer u client) env w = none) :
    (s.reverseCurriculum = true ∧ s.reverseCurriculumMinLen = 0 ∧
      (heuristicTypedPlan (setCultivationTime env 10)).2 = []) ∨
    GivesUp (setCultivationTime (setCultivationTime env 10) 10) ∨
    Unnamed (setCultivationTime (setCultivationTime env 10) 10) ∨
    ∃ start ∈ starts env, Stuck s.toGatherer (setCultivationTime start 10) := by
  have hforward : ∀ w, gatherEpisode s (player s.toGatherer u client) (setCultivationTime env 10)
      w = none → GivesUp (setCultivationTime (setCultivationTime env 10) 10) ∨
        Unnamed (setCultivationTime (setCultivationTime env 10) 10) ∨
        ∃ start ∈ starts env, Stuck s.toGatherer (setCultivationTime start 10) := by
    intro w h
    rcases gatherEpisode_none hG hS hb hans hdice hnoise (hstarts _ (Set.mem_insert _ _))
      (fun d n href => hfuel n (.inr ⟨d, href⟩)) h with hsolve | hstuck
    · rcases solveWithHeuristic_none hsolve with hgives | hunnamed
      · exact .inl hgives
      · exact .inr (.inl hunnamed)
    · exact .inr (.inr ⟨_, Set.mem_insert _ _, hstuck⟩)
  unfold gather at h
  dsimp only at h
  split at h
  · next hreverse =>
    split at h
    · next hchosen =>
      simp only [Bool.and_eq_true, decide_eq_true_eq] at hchosen
      have hclimb := Option.map_eq_none_iff.mp h
      rcases gatherReverseCurriculum_none hG hS hb hans hdice hnoise
        (fun n hn => hstarts _ (Set.mem_insert_of_mem _ ⟨n, hn, rfl⟩))
        (fun n hn => hfuel n (.inl hn)) hclimb with hnil | ⟨n, hn, hstuck⟩
      · left
        have hlong := hchosen.2
        rw [hnil] at hlong
        exact ⟨hreverse, Nat.le_zero.mp hlong, hnil⟩
      · exact .inr (.inr (.inr ⟨_, Set.mem_insert_of_mem _ ⟨n, hn, rfl⟩, hstuck⟩))
    · exact .inr (hforward _ h)
  · exact .inr (hforward _ h)

end Returns

section Strip

theorem strip_noise : seat.noiseStrength ∈ Set.Ico (0 : ℝ) 1 := by
  constructor <;> norm_num [seat]

/-- The strip always has a place to play, and a plan with ids. -/
theorem strip_steady : ¬ ((showing.reverseCurriculum = true ∧ showing.reverseCurriculumMinLen = 0 ∧
      (heuristicTypedPlan (setCultivationTime (⟨2, 0⟩ : Strip) 10)).2 = []) ∨
    GivesUp (setCultivationTime (setCultivationTime (⟨2, 0⟩ : Strip) 10) 10) ∨
    Unnamed (setCultivationTime (setCultivationTime (⟨2, 0⟩ : Strip) 10) 10) ∨
    ∃ start ∈ starts (⟨2, 0⟩ : Strip), Stuck showing.toGatherer (setCultivationTime start 10)) := by
  rintro (⟨hreverse, -⟩ | hgives | hunnamed | ⟨start, -, actions, records, e, -, -, hstuck⟩)
  · simp [showing] at hreverse
  · simp [GivesUp, setCultivationTime, solve] at hgives
  · simp [Unnamed, setCultivationTime, solve, encode] at hunnamed
  · simp [validActions] at hstuck

end Strip

end Mcts.SelfPlayRuns
