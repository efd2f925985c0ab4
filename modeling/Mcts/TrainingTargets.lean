import Mcts.SelfPlayRuns

/-!
The targets that self-play writes for training. Whatever the search met on its way,
shared nodes, noise at the root and re-rooting included, a target stands beside the
board it was searched on and names distinct valid actions there, each with a
positive count.
-/
namespace Mcts.TrainingTargets

open Nodes Engine SearchRun Updates Transposition PolicyTarget
open Episodes EpisodeRuns Trajectories Curriculum GatherCalls Tiling SelfPlay

section Target

variable {G P D : Type} [Tilers G P Layers ℝ] [TilingRules G P]
variable {g : Gatherer ℝ} {u : Setup ℝ D} {S : Set G} {k step left steps : ℕ}
variable {w w' : Worker G ℝ D} {client : ℕ → ℕ → Client ℝ} {env : G} {te : G → ℝ}
variable {referenceDepth : ℝ} {allowed goOn full : Bool} {p p' : Play G Layers ℝ}
variable {root : Searched ℝ} {ids valid : List ℕ} {visits : List (ℕ × ℕ)} {board : Layers}

structure Legal (valid : List ℕ) (visits : List (ℕ × ℕ)) : Prop where
  nodup : (visits.map (·.1)).Nodup
  valid : ∀ e ∈ visits, e.1 ∈ valid
  positive : ∀ e ∈ visits, 1 ≤ e.2

/-- A target for a position in play that the board shows, with the ids of its valid
actions. -/
structure Target (S : Set G) (g : Gatherer ℝ) (board : Layers) (valid : List ℕ)
    (visits : List (ℕ × ℕ)) : Prop where
  position : ∃ e ∈ S, buildObs e g.lookahead = board ∧ Ids e valid
  legal : Legal valid visits

noncomputable def countsOf (root : Searched ℝ) : List (ℕ × ℕ) :=
  (root.policyTarget.getD []).map fun e => (e.1, Episodes.round (e.2 * (root.edgeVisits.sum : ℝ)))

theorem one_le_round {x : ℝ} (h : 1 ≤ x) : 1 ≤ Episodes.round x := by
  apply Nat.le_floor
  rw [Nat.cast_one]
  linarith

/-- What a run returns is the node of its position, in an engine that tells the truth. -/
theorem run_root (hG : Contract G) (hS : Grounds S g.lookahead) (hw : Ready g S k w.search)
    {i : RunInput (TilersEnv G) ℕ Slots.TilersObs ℝ} (hi : i.env ∈ wrapped S g.lookahead)
    {node : Node ℕ ℝ} {t : Search ℕ (TilersEnv G) ℝ} (h : run i w.search = (some node, t)) :
    ArenaInvariant.WellFormed t.mcts ∧ t.mcts.rootId = some (Environments.hash i.env) ∧
      t.mcts.getNode (Environments.hash i.env) = some node ∧ Walks.Describes node i.env := by
  obtain ⟨hm, ht, -⟩ := session_truthful hG.lawful hS.sound (fun _ hi => hi)
    (.run hw.session hi h)
  obtain ⟨hholding, hnode⟩ := (run_holding i (session_indexed hw.session)).returned rfl h
  exact ⟨hm, hholding.trail.fixed.1, hnode, ht _ _ hnode _ hi rfl⟩

/-- The target that is read off after a run is legal where it ran. -/
theorem player_run_legal (hG : Contract G) (hS : Grounds S g.lookahead)
    (hw : Ready g S k w.search) (henv : env ∈ S) (hids : Ids env ids)
    (h : (player g u client).run env steps te full w = some (root, w')) :
    Legal ids (countsOf root) := by
  obtain ⟨i, hi⟩ : ∃ i, i = runInput g u client env steps te full w.runs := ⟨_, rfl⟩
  have hplace : i.env ∈ wrapped S g.lookahead := hi ▸ ⟨henv, rfl⟩
  have hvalid : Environments.validActions i.env = ids := hi ▸ hids.valid
  rw [player_run_eq, ← hi] at h
  rcases heq : run i w.search with ⟨_ | node, t⟩
  · simp [heq] at h
  · rw [heq] at h
    dsimp only at h
    split at h
    · simp at h
    · obtain ⟨rfl, -⟩ := Prod.mk.inj (Option.some.inj h)
      obtain ⟨hm, hroot, hnode, hdescribes⟩ := run_root hG hS hw hplace heq
      rcases htarget : policyTarget t.mcts u.cPuct with _ | target
      · have hnone : countsOf (searchedOf u node t.mcts) = [] := by
          simp [countsOf, searchedOf, htarget]
        rw [hnone]
        exact ⟨List.nodup_nil, by simp, by simp⟩
      · have hcounts : countsOf (searchedOf u node t.mcts) =
            target.entries.map fun e : Σ _ : ℕ, ℝ =>
              (e.1, Episodes.round (e.2 * (node.edgeVisits.sum : ℝ))) := by
          simp [countsOf, searchedOf, htarget, Function.comp_def]
        have hworth : ∀ e : Σ _ : ℕ, ℝ, e ∈ target.entries →
            e.1 ∈ node.validActions ∧ 1 ≤ e.2 * (node.edgeVisits.sum : ℝ) := fun e he =>
          policyTarget_worth hG.lawful.index_injective hm hroot hnode htarget
            (AList.mem_lookup_iff.mpr he)
        rw [hcounts]
        refine ⟨?_, fun e he => ?_, fun e he => ?_⟩
        · rw [List.map_map]
          exact target.keys_nodup
        · obtain ⟨entry, hentry, rfl⟩ := List.mem_map.mp he
          have ha := (hworth entry hentry).1
          cases hrun : Environments.done i.env with
          | true =>
            rw [hdescribes.dead hrun] at ha
            exact absurd ha List.not_mem_nil
          | false => exact hvalid ▸ hdescribes.valid hrun _ ha
        · obtain ⟨entry, hentry, rfl⟩ := List.mem_map.mp he
          exact one_le_round (hworth entry hentry).2

def Recorded (S : Set G) (g : Gatherer ℝ) (records : List (SearchRecord Layers)) : Prop :=
  ∀ r ∈ records, Target S g r.board r.validActions r.edgeVisits

theorem searchRoot_legal (hG : Contract G) (hS : Grounds S g.lookahead)
    (hw : Ready g S k w.search) (henv : env ∈ S) (hids : Ids env ids)
    (h : searchRoot g (player g u client) referenceDepth env w = some (root, w')) :
    Legal ids (countsOf root) := by
  obtain ⟨w₁, steps, full, hready, -, heq⟩ := searchRoot_run u referenceDepth env hw
  exact player_run_legal hG hS hready henv hids ((heq client).symm.trans h)

/-- A turn that plays on records what its search returned, or nothing. -/
theorem playOn_recorded (hG : Contract G) (henv : p.env ∈ S) (hp : Recorded S g p.tempData)
    (hlegal : ∀ ids, Ids p.env ids → Legal ids (countsOf root))
    (h : playOn g (player g u client) step full root p w = some (p', w', goOn)) :
    Recorded S g p'.tempData := by
  obtain ⟨ids, hids⟩ := hG.ids p.env
  unfold playOn at h
  obtain ⟨valid, hvalid, h⟩ := Option.bind_eq_some_iff.mp h
  obtain ⟨⟨action, w₁⟩, -, h⟩ := Option.bind_eq_some_iff.mp h
  obtain ⟨a, -, h⟩ := Option.bind_eq_some_iff.mp h
  obtain ⟨rfl, -⟩ := stopped_eq h
  obtain rfl := hids.unique hvalid
  cases full with
  | false => exact hp
  | true =>
    intro r hr
    rcases List.mem_append.mp hr with hold | hnew
    · exact hp r hold
    · obtain rfl := List.mem_singleton.mp hnew
      exact ⟨⟨p.env, henv, rfl, hids⟩, hlegal valid hids⟩

theorem turn_recorded (hG : Contract G) (hS : Grounds S g.lookahead) (hw : Ready g S k w.search)
    (henv : p.env ∈ S) (hp : Recorded S g p.tempData)
    (h : g.turn (player g u client) referenceDepth allowed step p w = some (p', w', goOn)) :
    Recorded S g p'.tempData := by
  rw [turn_eq] at h
  obtain ⟨⟨root, w₁⟩, hsearch, h⟩ := Option.bind_eq_some_iff.mp h
  dsimp only at h
  split at h
  · obtain ⟨rfl, -⟩ := Prod.mk.inj (Option.some.inj h)
    simpa using hp
  · refine playOn_recorded hG (by simpa using henv) (by simpa using hp) (fun ids hids => ?_) h
    exact searchRoot_legal hG hS hw henv (by simpa using hids) hsearch

/-- The loop keeps that all records hold targets. -/
theorem turns_recorded (hG : Contract G) (hS : Grounds S g.lookahead) (hb : 1 ≤ g.batchSize)
    (hans : Answers client) (hw : Ready g S k w.search) (henv : p.env ∈ S)
    (hp : Recorded S g p.tempData)
    (h : g.turns (player g u client) referenceDepth allowed left step p w = some (p', w')) :
    Recorded S g p'.tempData := by
  induction left generalizing k step p w with
  | zero =>
    obtain ⟨rfl, -⟩ := Prod.mk.inj (Option.some.inj h)
    exact hp
  | succ left ih =>
    rw [Gatherer.turns] at h
    obtain ⟨⟨q, w₁, goOn⟩, hturn, h⟩ := Option.bind_eq_some_iff.mp h
    obtain ⟨hq, hready⟩ := turn_moves hG hS hb hans hw henv hturn
    have hkept := turn_recorded hG hS hw henv hp hturn
    cases goOn with
    | true => exact ih hready hq hkept h
    | false =>
      obtain ⟨rfl, -⟩ := Prod.mk.inj (Option.some.inj h)
      exact hkept

theorem runEpisodeFrom_recorded (hG : Contract G) (hS : Grounds S g.lookahead)
    (hb : 1 ≤ g.batchSize) (hans : Answers client) {start : G}
    (hstart : setCultivationTime start 10 ∈ S) {override : Option (ℝ × ℕ)}
    {o : EpisodeOutcome Layers ℝ}
    (h : g.runEpisodeFrom (player g u client) start override w = some (o, w')) :
    Recorded S g o.tempData := by
  obtain ⟨reference, allowed, p, hplay, rfl⟩ := Gatherer.runEpisodeFrom_some h
  rw [playEpisode_eq] at hplay
  obtain ⟨reference', -, hplay⟩ := Option.bind_eq_some_iff.mp hplay
  obtain ⟨⟨q, w₁⟩, hturns, hpair⟩ := Option.map_eq_some_iff.mp hplay
  obtain ⟨-, -, rfl, -⟩ : reference' = reference ∧ _ = allowed ∧ q = p ∧ w₁ = w' := by
    simpa only [Prod.mk.injEq] using hpair
  exact turns_recorded (p := opening (setCultivationTime start 10)) hG hS hb hans
    (seated_ready S hb u w) hstart (fun r hr => absurd hr List.not_mem_nil) hturns

end Target

section Gather

variable {G P D : Type} [Tilers G P Layers ℝ] [TilingRules G P]
variable {s : Settings ℝ} {u : Setup ℝ D} {S : Set G} {client : ℕ → ℕ → Client ℝ} {env : G}
variable {w w' : Worker G ℝ D} {ret : ℝ × ℝ × Bool} {c : Gathered Layers ℝ}

def Supervises (S : Set G) (g : Gatherer ℝ) (written : Written Layers ℝ) : Prop :=
  ∀ t ∈ written.output ++ written.gold, Target S g t.board t.validActions t.edgeVisits

omit [TilingRules G P] in
theorem writeEpisode_supervises {R : Type} {g : Gatherer ℝ} {o : EpisodeOutcome Layers ℝ}
    (h : Recorded S g o.tempData) (draw : R → ℝ × R) (isReverse : Bool) (r : R) :
    Supervises S g (writeEpisode g draw o isReverse r).1 := by
  have hlines : ∀ gold, ∀ t ∈ o.tempData.map (trainingRecord o isReverse gold),
      Target S g t.board t.validActions t.edgeVisits := by
    intro gold t ht
    obtain ⟨r, hr, rfl⟩ := List.mem_map.mp ht
    exact h r hr
  intro t ht
  unfold writeEpisode at ht
  dsimp only at ht
  rcases List.mem_append.mp ht with hout | hgold
  · split at hout
    · exact absurd hout List.not_mem_nil
    · exact hlines false t hout
  · split at hgold
    · exact hlines true t hgold
    · exact absurd hgold List.not_mem_nil

section Written

variable {R : Type} {g : Gatherer ℝ} {pl : Player G ℝ R} {r r' : R}
variable {good : EpisodeOutcome Layers ℝ → Prop}

omit [TilingRules G P] in
theorem gatherReverseCurriculum_written {game : G} {dFull : ℝ} {plan : List P}
    {lines : List (Written Layers ℝ)}
    (hgood : ∀ n < plan.length, ∀ override r o r',
      g.runEpisodeFrom pl (makeReverseStart game plan n) override r = some (o, r') → good o)
    (h : gatherReverseCurriculum g pl game dFull plan r = some (ret, lines, r')) :
    ∀ written ∈ lines, ∃ o r, good o ∧ written = (writeEpisode g pl.draw o true r).1 := by
  rw [gatherReverseCurriculum] at h
  by_cases hplan : plan.length = 0
  · simp [hplan] at h
  · rw [if_neg hplan] at h
    obtain ⟨⟨st, r₁⟩, hclimb, h⟩ := Option.bind_eq_some_iff.mp h
    obtain ⟨hbest, hfailed⟩ := climb_kept (p := good)
      (fun k r o r' hpos hle hprobe => hgood _ (by omega) _ _ _ _ hprobe)
      (start_inside (by omega) _) le_rfl (fun o ho => by simp [Climb.start] at ho)
      (fun o ho => by simp [Climb.start] at ho) hclimb
    obtain ⟨-, rfl, -⟩ : _ = ret ∧ _ = lines ∧ _ = r' := by
      simpa only [Prod.mk.injEq] using Option.some.inj h
    have hkept : ∀ kept : Option (EpisodeOutcome Layers ℝ), (∀ o, kept = some o → good o) →
        ∀ r, ∀ written ∈ (writeKept g pl.draw kept r).1,
          ∃ o r, good o ∧ written = (writeEpisode g pl.draw o true r).1 := by
      intro kept hkept r written hwritten
      cases kept with
      | none => exact absurd hwritten List.not_mem_nil
      | some o => exact ⟨o, r, hkept o rfl, List.mem_singleton.mp hwritten⟩
    intro written hwritten
    rcases List.mem_append.mp hwritten with hwritten | hwritten
    · exact hkept st.best hbest _ written hwritten
    · exact hkept st.failed hfailed _ written hwritten

omit [TilingRules G P] in
theorem gatherEpisode_written {game : G}
    (hgood : ∀ r o r', s.runEpisodeFrom pl game none r = some (o, r') → good o)
    (h : gatherEpisode s pl game r = some (ret, c, r')) :
    ∃ o r, good o ∧ c.written = [(writeEpisode s.toGatherer pl.draw o false r).1] := by
  unfold gatherEpisode at h
  obtain ⟨⟨o, r₁⟩, hplay, h⟩ := Option.bind_eq_some_iff.mp h
  refine ⟨o, r₁, hgood _ _ _ hplay, ?_⟩
  dsimp only at h
  split at h
  · split at h
    · obtain ⟨⟨demo, r₂⟩, -, h⟩ := Option.bind_eq_some_iff.mp h
      obtain ⟨-, rfl, -⟩ : _ = ret ∧ _ = c ∧ _ = r' := by
        simpa only [Prod.mk.injEq] using Option.some.inj h
      rfl
    · obtain ⟨-, rfl, -⟩ : _ = ret ∧ _ = c ∧ _ = r' := by
        simpa only [Prod.mk.injEq] using Option.some.inj h
      rfl
  · obtain ⟨-, rfl, -⟩ : _ = ret ∧ _ = c ∧ _ = r' := by
      simpa only [Prod.mk.injEq] using Option.some.inj h
    rfl

omit [TilingRules G P] in
/-- What holds of every episode that a call may play holds of those it writes. -/
theorem gather_written
    (hgood : ∀ start ∈ starts env, ∀ override r o r',
      s.runEpisodeFrom pl start override r = some (o, r') → good o)
    (h : gather s pl env r = some (ret, c, r')) :
    ∀ written ∈ c.written, ∃ o isReverse r,
      good o ∧ written = (writeEpisode s.toGatherer pl.draw o isReverse r).1 := by
  have hforward : ∀ r, gatherEpisode s pl (setCultivationTime env 10) r = some (ret, c, r') →
      ∀ written ∈ c.written, ∃ o isReverse r,
        good o ∧ written = (writeEpisode s.toGatherer pl.draw o isReverse r).1 := by
    intro r h written hwritten
    obtain ⟨o, r₁, ho, hone⟩ := gatherEpisode_written (hgood _ (Set.mem_insert _ _) none) h
    exact ⟨o, false, r₁, ho, List.mem_singleton.mp (hone ▸ hwritten)⟩
  unfold gather at h
  dsimp only at h
  split at h
  · split at h
    · obtain ⟨⟨ret', lines, r₁⟩, hclimb, h⟩ := Option.map_eq_some_iff.mp h
      obtain ⟨-, rfl, -⟩ : ret' = ret ∧ (⟨lines, []⟩ : Gathered Layers ℝ) = c ∧ r₁ = r' := by
        simpa only [Prod.mk.injEq] using h
      intro written hwritten
      obtain ⟨o, r₂, ho, heq⟩ := gatherReverseCurriculum_written
        (fun n hn => hgood _ (Set.mem_insert_of_mem _ ⟨n, hn, rfl⟩)) hclimb written hwritten
      exact ⟨o, true, r₂, ho, heq⟩
    · exact hforward _ h
  · exact hforward _ h

end Written

end Gather

section Strip

open SelfPlayRuns

/-- The one turn of an episode on the strip is a full search. It merges, which scores
above the depth of the heuristic on what was merged, or it wastes a layer. -/
theorem strip_turn {fuel : ℕ} {client : ℕ → ℕ → Client ℝ} {w w' : Worker Strip ℝ Unit}
    {o : EpisodeOutcome Layers ℝ}
    (h : showing.runEpisodeFrom (player showing.toGatherer { seat with fuel := fuel } client)
      (⟨2, 0⟩ : Strip) none w = some (o, w')) :
    o.tempData ≠ [] ∧ (o.rewardKind = .her → 0 < o.score) := by
  obtain ⟨reference, allowed, p, hplay, rfl⟩ := Gatherer.runEpisodeFrom_some h
  obtain ⟨w₀, hturns⟩ := playEpisode_turns hplay
  obtain ⟨⟨q, w₁, goOn⟩, hturn, hturns⟩ := Option.bind_eq_some_iff.mp hturns
  obtain rfl : q = p := by
    cases goOn <;> exact (Prod.mk.inj (Option.some.inj hturns)).1
  rw [turn_eq] at hturn
  obtain ⟨⟨root, w₂⟩, -, hturn⟩ := Option.bind_eq_some_iff.mp hturn
  dsimp only at hturn
  rw [if_neg (by simp [Gatherer.resignationEnabled, showing, generous])] at hturn
  have hfull : decide (((player showing.toGatherer { seat with fuel := fuel } client).draw w₀).1 <
      showing.pFullSearch) = true := by
    norm_num [seat, showing, generous]
  rw [hfull] at hturn
  refine ⟨playOn_full hturn, ?_⟩
  obtain ⟨⟨valid, action, a, hplayed, -⟩, -⟩ := playOn_some hturn
  have henv : q.env = if a = 0 then ⟨1, 1⟩ else ⟨2, 1⟩ := by
    rw [hplayed.env, searched_env]
    rfl
  show (showing.score _ _ _ _).2.1 = .her → 0 < (showing.score _ _ _ _).1
  by_cases ha : a = 0
  · rw [henv, if_pos ha]
    intro _
    rw [score_pos_iff _ _ _ _ _ (by norm_num [showing, generous])
      (fun e : Strip => Nat.cast_nonneg e.depth) rfl]
    refine ⟨rfl, by simp [showing, generous], ⟨1, 0⟩, [0], ⟨0, 1⟩, rfl, rfl, ?_⟩
    norm_num [showing, generous, depth, setCultivationTime]
  · rw [henv, if_neg ha]
    intro hkind
    simp [Gatherer.score, showing, generous, setCultivationTime, achievedGoalEnv, done] at hkind

end Strip

end Mcts.TrainingTargets
