import Mcts.Orchestrator

/-!
Promotions. The incumbent and the candidate are read off who was promoted when, a
registration promotes nobody, and a comparison decides from the solutions alone.
-/
namespace Mcts.Promotions

open Orchestrator

variable {T : Type} {agents other : List (Agent T)} {agentId candidateId : ℤ} {t : T}

def Promoted (agents : List (Agent T)) (agentId : ℤ) (t : T) : Prop :=
  ∃ row ∈ agents, row.agentId = agentId ∧ row.promotedAt = some t

theorem mem_promotedIds : agentId ∈ promotedIds agents ↔ ∃ t, Promoted agents agentId t := by
  simp only [promotedIds, List.mem_map, List.mem_filter, Option.isSome_iff_exists, Promoted]
  constructor
  · rintro ⟨row, ⟨hrow, t, ht⟩, hid⟩
    exact ⟨t, row, hrow, hid, ht⟩
  · rintro ⟨t, row, hrow, hid, ht⟩
    exact ⟨row, ⟨hrow, t, ht⟩, hid⟩

/-- Which agent is the incumbent depends on the promotions only. -/
theorem isIncumbent_transfer [LE T] {row : Agent T} (h : IsIncumbent agents row)
    (hsame : ∀ i t, Promoted agents i t ↔ Promoted other i t) :
    ∃ row', IsIncumbent other row' ∧ row'.agentId = row.agentId := by
  obtain ⟨hrow, t, ht, hlast⟩ := h
  obtain ⟨row', hrow', hid, ht'⟩ := (hsame row.agentId t).mp ⟨row, hrow, rfl, ht⟩
  refine ⟨row', ⟨hrow', t, ht', ?_⟩, hid⟩
  intro rival hrival t' htt
  obtain ⟨rival', hmem, -, hpromoted⟩ := (hsame rival.agentId t').mpr ⟨rival, hrival, rfl, htt⟩
  exact hlast rival' hmem t' hpromoted

theorem promoted_of_isIncumbent [LE T] {row : Agent T} (h : IsIncumbent agents row) :
    ∃ t, Promoted agents row.agentId t := by
  obtain ⟨hrow, t, ht, -⟩ := h
  exact ⟨t, row, hrow, rfl, ht⟩

/-- A fold that keeps its best or takes the element at hand ends with one of the two. -/
theorem mem_of_foldl_best {τ : Type} {f : Option τ → τ → Option τ}
    (hf : ∀ best x, f best x = best ∨ f best x = some x) (xs : List τ) (best : Option τ) (y : τ)
    (h : xs.foldl f best = some y) : y ∈ xs ∨ best = some y := by
  induction xs generalizing best with
  | nil => exact Or.inr h
  | cons x rest ih =>
    rcases ih (f best x) h with hrest | hbest
    · exact Or.inl (List.mem_cons_of_mem x hrest)
    · rcases hf best x with hkeep | htake
      · exact Or.inr (hkeep.symm.trans hbest)
      · obtain rfl := Option.some.inj (htake.symm.trans hbest)
        exact Or.inl List.mem_cons_self

theorem getCandidate_unpromoted {checkpoints : List (ℤ × String)} {path : String}
    (h : getCandidate agents checkpoints = some (candidateId, path)) :
    ∀ t, ¬Promoted agents candidateId t := by
  intro t ht
  unfold getCandidate at h
  refine (mem_of_foldl_best (fun best c => ?_) _ none _ h).elim (fun hc => ?_) fun hnone => ?_
  · rcases best with _ | b
    · exact Or.inr rfl
    · by_cases hle : b.1 ≤ c.1
      · exact Or.inr (if_pos hle)
      · exact Or.inl (if_neg hle)
  · have hnot := (List.mem_filter.mp hc).2
    simp only [decide_not, Bool.not_eq_eq_eq_not, Bool.not_true, decide_eq_false_iff_not] at hnot
    exact hnot (mem_promotedIds.mpr ⟨t, ht⟩)
  · exact absurd hnone (by simp)

theorem getCandidate_single {path : String} (h : ∀ t, ¬Promoted agents candidateId t) :
    getCandidate agents [(candidateId, path)] = some (candidateId, path) := by
  have hnot : candidateId ∉ promotedIds agents := by
    rw [mem_promotedIds]
    exact fun ⟨t, ht⟩ => h t ht
  simp [getCandidate, hnot]

/-- A new agent is registered unpromoted and an old one left alone. -/
theorem promoted_registerAgent (path : String) (db : Database T) (i : ℤ) (t : T) :
    Promoted (registerAgent candidateId path db).agents i t ↔ Promoted db.agents i t := by
  unfold registerAgent
  split
  · rfl
  · simp [Promoted, or_and_right, exists_or]

theorem mem_registerAgent (path : String) (db : Database T) :
    candidateId ∈ (registerAgent candidateId path db).agents.map (·.agentId) := by
  unfold registerAgent
  split
  · assumption
  · simp

theorem mem_registerAgent_of_mem (path : String) (db : Database T)
    (h : agentId ∈ db.agents.map (·.agentId)) :
    agentId ∈ (registerAgent candidateId path db).agents.map (·.agentId) := by
  unfold registerAgent
  split
  · exact h
  · simp only [List.map_append, List.mem_append]
    exact Or.inl h

theorem registerAgent_evaluations (path : String) (db : Database T) :
    (registerAgent candidateId path db).evaluations = db.evaluations := by
  unfold registerAgent
  split <;> rfl

@[simp] theorem promoteAgent_agentId (now : T) (row : Agent T) :
    (promoteAgent agentId now row).agentId = row.agentId := by
  unfold promoteAgent
  split <;> rfl

theorem promoteAgent_promotedAt (now : T) (row : Agent T) :
    (promoteAgent agentId now row).promotedAt =
      if row.agentId = agentId then some now else row.promotedAt := by
  unfold promoteAgent
  split <;> rfl

theorem promoted_map (now : T) (hlisted : candidateId ∈ agents.map (·.agentId)) (i : ℤ) (t : T) :
    Promoted (agents.map (promoteAgent candidateId now)) i t ↔
      if i = candidateId then t = now else Promoted agents i t := by
  obtain ⟨listed, hmem, hid⟩ := List.mem_map.mp hlisted
  simp only [Promoted, List.mem_map, exists_exists_and_eq_and, promoteAgent_agentId,
    promoteAgent_promotedAt]
  split
  next hi =>
    constructor
    · rintro ⟨row, -, hrow, ht⟩
      rw [if_pos (hrow.trans hi)] at ht
      exact (Option.some.inj ht).symm
    · rintro rfl
      exact ⟨listed, hmem, hid.trans hi.symm, by rw [if_pos hid]⟩
  next hi =>
    have hother : ∀ row : Agent T, row.agentId = i → row.agentId ≠ candidateId :=
      fun row hrow hcandidate => hi (hrow.symm.trans hcandidate)
    constructor
    · rintro ⟨row, hrow, hid, ht⟩
      rw [if_neg (hother row hid)] at ht
      exact ⟨row, hrow, hid, ht⟩
    · rintro ⟨row, hrow, hid, ht⟩
      exact ⟨row, hrow, hid, by rw [if_neg (hother row hid)]; exact ht⟩

theorem promoteCandidate_agentIds (incumbentId : ℤ) (threshold : ℚ) (now : T) (db : Database T) :
    (promoteCandidate candidateId incumbentId threshold now db).agents.map (·.agentId) =
      db.agents.map (·.agentId) := by
  unfold promoteCandidate
  dsimp only
  split
  · simp [List.map_map, Function.comp_def]
  · rfl

theorem promoteCandidate_evaluations {incumbentId : ℤ} {threshold : ℚ} {now : T}
    {db db' : Database T} (hsolutions : db.solutions = db'.solutions)
    (hevaluations : db.evaluations = db'.evaluations) :
    (promoteCandidate candidateId incumbentId threshold now db).evaluations =
      (promoteCandidate candidateId incumbentId threshold now db').evaluations := by
  unfold promoteCandidate
  dsimp only
  rw [hsolutions, hevaluations]

/-- The decision is made from the solutions, so with the same solutions and
promotions before it two databases have the same promotions after it. -/
theorem promoted_promoteCandidate {incumbentId : ℤ} {threshold : ℚ} {now : T}
    {db db' : Database T} (hsolutions : db.solutions = db'.solutions)
    (hlisted : candidateId ∈ db.agents.map (·.agentId))
    (hlisted' : candidateId ∈ db'.agents.map (·.agentId))
    (hsame : ∀ i t, Promoted db.agents i t ↔ Promoted db'.agents i t) (i : ℤ) (t : T) :
    Promoted (promoteCandidate candidateId incumbentId threshold now db).agents i t ↔
      Promoted (promoteCandidate candidateId incumbentId threshold now db').agents i t := by
  unfold promoteCandidate
  dsimp only
  rw [hsolutions]
  split
  · rw [promoted_map now hlisted, promoted_map now hlisted', hsame i t]
  · exact hsame i t

end Mcts.Promotions
