import Mcts.Unkilled
import Mathlib.Data.List.Forall2

/-!
Kills and restarts. A completed evaluate phase leaves exactly one row for the
recorded candidate against the latest promoted agent, as a run without kills would
leave it, as long as no kill comes between the commit of a comparison and the
saving of the state after it. Each such kill leaves one row too many.
-/
namespace Mcts.Restarts

open Orchestrator Promotions Rounds Unkilled

variable {T : Type} [LE T]

section Runs

variable {threshold : ℚ} {start w : World T} {lost : ℕ}

/-- The row of a round: the recorded candidate against another agent, the latest
promoted one before the comparison. -/
structure Faithful (row : Evaluation T) (round : Round T) : Prop where
  candidate : round.candidateId = some row.candidateAgentId
  incumbent : ∃ agent, IsIncumbent round.agents agent ∧ agent.agentId = row.incumbentAgentId
  distinct : row.incumbentAgentId ≠ row.candidateAgentId

/-- Since the start the table has gained one faithful row for each round, the rounds
are those of the iterations in order, and a run without kills leaves the same. -/
structure Exact (threshold : ℚ) (start w : World T) : Prop where
  rows : ∃ rows, w.db.evaluations = start.db.evaluations ++ rows ∧
    List.Forall₂ Faithful rows w.rounds
  iterations : w.rounds.map (·.iteration) = List.range w.rounds.length
  mirrored : ∃ v, Relation.ReflTransGen (Step threshold) start v ∧ Mirrors v w

theorem inStep_reached (hstart : Fresh start) (h : Reached threshold start lost w) :
    InStep w ∧ (loadState w.file).iteration = w.finished.length := by
  induction h with
  | start =>
    refine ⟨?_, by simp [hstart.file, hstart.finished, loadState]⟩
    simp [InStep, hstart.pc, hstart.file]
  | step _ hstep ih => exact ⟨inStep_step ih.1 hstep, iteration_step ih.1 ih.2 hstep⟩
  | kill _ ih => exact ⟨rfl, ih.2⟩

omit [LE T] in
theorem rounds_start (hstart : Fresh start) : start.rounds = [] := by
  simp [World.rounds, World.openRound, hstart.pc, hstart.finished]

omit [LE T] in
theorem rounds_restart (w : World T) : w.rounds = w.restart.rounds ++ w.openRound := by
  simp [World.rounds, World.openRound, World.restart]

/-- Every row belongs to a round or was committed just before a kill. -/
theorem rows_reached (hstart : Fresh start) (h : Reached threshold start lost w) :
    w.db.evaluations.length = start.db.evaluations.length + w.rounds.length + lost := by
  induction h with
  | start => simp [rounds_start hstart]
  | step hreached hstep ih =>
    rcases step_rounds (inStep_reached hstart hreached).1 hstep with
      ⟨hrows, hrounds⟩ | ⟨_, _, _, _, -, hrows, -, -, hrounds⟩
    · rw [hrows, hrounds, ih]
    · rw [hrows, hrounds, List.length_append, List.length_append, ih]
      simp only [List.length_singleton]
      omega
  | @kill lost w _ ih =>
    have hlength := congrArg List.length (rounds_restart w)
    rw [List.length_append] at hlength
    show w.db.evaluations.length = _
    omega

theorem iterations_reached (hstart : Fresh start) (h : Reached threshold start lost w) :
    w.rounds.map (·.iteration) = List.range w.rounds.length := by
  induction h with
  | start => simp [rounds_start hstart]
  | @step lost w w' hreached hstep ih =>
    obtain ⟨hin, hcount⟩ := inStep_reached hstart hreached
    rcases step_rounds hin hstep with
      ⟨-, hrounds⟩ | ⟨state, candidateId, incumbentId, row, hpc, -, -, -, hrounds⟩
    · rw [hrounds, ih]
    · have hstate : state.iteration = w.rounds.length := by
        simp only [InStep, hpc] at hin
        rw [← hin.1, hcount]
        simp [World.rounds, World.openRound, hpc]
      rw [hrounds, List.map_append, ih]
      simp [List.range_succ, hstate]
  | @kill lost w _ ih =>
    rw [rounds_restart w, List.map_append, List.length_append, List.range_add] at ih
    exact (List.append_inj ih (by simp)).1

/-- The iteration's candidate is compared before it is promoted. -/
theorem untried_reached (hstart : Fresh start) (h : Reached threshold start lost w) :
    lost = 0 → Untried w := by
  induction h with
  | start => simp [Untried, hstart.pc, hstart.file, loadState]
  | step _ hstep ih => exact fun hlost => untried_step (ih hlost) hstep
  | kill hreached ih =>
    intro hlost
    have hopen := List.length_eq_zero_iff.mp (Nat.eq_zero_of_add_eq_zero_left hlost)
    exact untried_restart (inStep_reached hstart hreached).1
      (ih (Nat.eq_zero_of_add_eq_zero_right hlost)) hopen

theorem mirrored_reached (hstart : Fresh start) (h : Reached threshold start lost w) :
    lost = 0 → ∃ v, Relation.ReflTransGen (Step threshold) start v ∧ Simulates v w := by
  induction h with
  | start =>
    intro _
    refine ⟨start, .refl, ⟨rfl, rfl, fun _ _ => Iff.rfl, rfl⟩, ?_, ?_⟩
    · intro c hc
      simp [hstart.file, loadState] at hc
    · simp [hstart.pc, hstart.file]
  | step hreached hstep ih =>
    intro hlost
    obtain ⟨v, hv, hs⟩ := ih hlost
    obtain ⟨v', hv', hs'⟩ := simulates_step hs (inStep_reached hstart hreached).1
      (untried_reached hstart hreached hlost) hstep
    exact ⟨v', hv.trans hv', hs'⟩
  | kill _ ih =>
    intro hlost
    have hopen := List.length_eq_zero_iff.mp (Nat.eq_zero_of_add_eq_zero_left hlost)
    obtain ⟨v, hv, hs⟩ := ih (Nat.eq_zero_of_add_eq_zero_right hlost)
    exact ⟨v, hv, simulates_restart hs hopen⟩

/-- The incumbent is promoted and the candidate is not, so they differ. -/
theorem faithful_reached (hstart : Fresh start) (h : Reached threshold start lost w) :
    lost = 0 → ∃ rows, w.db.evaluations = start.db.evaluations ++ rows ∧
      List.Forall₂ Faithful rows w.rounds := by
  induction h with
  | start => exact fun _ => ⟨[], by simp, by simp [rounds_start hstart]⟩
  | @step lost w w' hreached hstep ih =>
    intro hlost
    obtain ⟨rows, hrows, hfaithful⟩ := ih hlost
    have hin := (inStep_reached hstart hreached).1
    rcases step_rounds hin hstep with ⟨hsame, hrounds⟩ |
      ⟨state, candidateId, incumbentId, row, hpc, hadded, hcandidate, hincumbent, hrounds⟩
    · exact ⟨rows, hsame.trans hrows, hrounds ▸ hfaithful⟩
    · have huntried := untried_reached hstart hreached hlost
      simp only [InStep, Untried, hpc] at hin huntried
      obtain ⟨hfile, hphase, hrecorded, agent, hagent, hid⟩ := hin
      have hdistinct : row.incumbentAgentId ≠ row.candidateAgentId := by
        intro heq
        obtain ⟨t, ht⟩ := promoted_of_isIncumbent hagent
        have hself : agent.agentId = candidateId := by
          rw [hid, ← hincumbent, heq, hcandidate]
        rw [hself] at ht
        rw [hfile] at huntried
        exact huntried candidateId hphase hrecorded t ht
      refine ⟨rows ++ [row], by rw [hadded, hrows, List.append_assoc], ?_⟩
      rw [hrounds]
      refine List.rel_append hfaithful (.cons ⟨?_, ⟨agent, hagent, ?_⟩, hdistinct⟩ .nil)
      · rw [hcandidate]
      · rw [hid, hincumbent]
  | @kill lost w _ ih =>
    intro hlost
    have hopen := List.length_eq_zero_iff.mp (Nat.eq_zero_of_add_eq_zero_left hlost)
    obtain ⟨rows, hrows, hfaithful⟩ := ih (Nat.eq_zero_of_add_eq_zero_right hlost)
    refine ⟨rows, hrows, ?_⟩
    rw [rounds_restart w, hopen, List.append_nil] at hfaithful
    exact hfaithful

/-- Kills and restarts leave the evaluations exact if and only if none of the kills
comes between a comparison and the saving of the state after it. -/
theorem restarts_exact_iff (hstart : Fresh start) (h : Reached threshold start lost w) :
    Exact threshold start w ↔ lost = 0 := by
  constructor
  · rintro ⟨⟨rows, hrows, hfaithful⟩, -, -⟩
    have hlength := rows_reached hstart h
    rw [hrows, List.length_append, hfaithful.length_eq] at hlength
    omega
  · intro hlost
    obtain ⟨v, hv, hs⟩ := mirrored_reached hstart h hlost
    exact ⟨faithful_reached hstart h hlost, iterations_reached hstart h,
      ⟨v, hv, hs.toMirrors⟩⟩

end Runs

section KilledRuns

def seeded : World ℕ :=
  ⟨⟨[⟨0, "pretrained.ckpt", some 0⟩], [], []⟩, [], none, .loop (loadState none), []⟩

def registered : World ℕ := { seeded with
  db := registerAgent 1 "agent_1.ckpt" seeded.db
  checkpoints := [(1, "agent_1.ckpt")]
  file := some ⟨.training, 0, none, none⟩
  pc := .registered ⟨.training, 0, none, none⟩ 1 "agent_1.ckpt" }

def compared : World ℕ := { registered with
  db := promoteCandidate 1 0 (11 / 20) 100
    { registered.db with solutions := [⟨0, 1, some 9⟩, ⟨1, 1, some 5⟩] }
  file := some ⟨.evaluating, 0, some 1, some "agent_1.ckpt"⟩
  pc := .compared ⟨.evaluating, 0, some 1, some "agent_1.ckpt"⟩ registered.db.agents }

def comparedAgain : World ℕ := { compared with
  db := promoteCandidate 1 1 (11 / 20) 200 compared.db
  pc := .compared ⟨.evaluating, 0, some 1, some "agent_1.ckpt"⟩ compared.db.agents }

def completed (w : World ℕ) : World ℕ := { w.save ⟨.gathering, 1, none, none⟩ with
  finished := w.finished ++ w.openRound }

theorem seeded_fresh : Fresh seeded := ⟨rfl, rfl, rfl⟩

theorem registered_reached : Reached (11 / 20) seeded 0 registered := by
  have hstart : Reached (11 / 20) seeded 0 seeded := .start
  have hincumbent : IsIncumbent seeded.db.agents ⟨0, "pretrained.ckpt", some 0⟩ := by decide
  have hgathered := hstart.step (.gather rfl rfl hincumbent)
  have htrained := hgathered.step (.train [(1, "agent_1.ckpt")] rfl rfl)
  exact htrained.step (.register rfl rfl (by decide))

theorem compared_reached (h : Reached (11 / 20) seeded 0 registered) :
    Reached (11 / 20) seeded 0 compared := by
  have hincumbent : IsIncumbent registered.db.agents ⟨0, "pretrained.ckpt", some 0⟩ := by decide
  have hrecorded := h.step (.record rfl)
  have hbegun := hrecorded.step (.begin rfl rfl rfl hincumbent)
  have hevaluated := hbegun.step (.evaluate [⟨0, 1, some 9⟩, ⟨1, 1, some 5⟩] rfl)
  exact hevaluated.step (.compare 100 rfl)

theorem step_completed {w : World ℕ} {before : List (Agent ℕ)}
    (hpc : w.pc = .compared ⟨.evaluating, 0, some 1, some "agent_1.ckpt"⟩ before) :
    Step (11 / 20) w (completed w) :=
  .finish hpc

theorem compared_agents : compared.db.agents =
    [⟨0, "pretrained.ckpt", some 0⟩, ⟨1, "agent_1.ckpt", some 100⟩] := by
  decide +kernel

/-- Killed after the commit, agent 1 is compared again, now with itself. -/
theorem comparedAgain_reached : Reached (11 / 20) seeded 1 comparedAgain := by
  have hincumbent : IsIncumbent compared.db.agents ⟨1, "agent_1.ckpt", some 100⟩ := by
    rw [compared_agents]
    decide
  have hkilled := (compared_reached registered_reached).kill
  have hbegun := hkilled.step (.begin rfl rfl rfl hincumbent)
  exact hbegun.step (.compare 200 rfl)

/-- A kill before the state is saved only makes the training phase run again. -/
theorem restarts_exact_iff_retrained :
    Exact (11 / 20) seeded (completed compared) := by
  have hkilled : Reached (11 / 20) seeded 0 registered.restart := registered_reached.kill
  have hpicked : getCandidate registered.db.agents registered.checkpoints =
      some (1, "agent_1.ckpt") := by decide
  have hregister : Step (11 / 20) registered.restart registered :=
    .register (w := registered.restart) rfl rfl hpicked
  have hregistered := hkilled.step hregister
  have hcompleted := (compared_reached hregistered).step (step_completed rfl)
  exact (restarts_exact_iff seeded_fresh hcompleted).mpr rfl

/-- One evaluate phase has completed and left two rows, the second of an agent
against itself. -/
theorem evaluated_twice :
    Fresh seeded ∧ Reached (11 / 20) seeded 1 (completed comparedAgain) ∧
    (completed comparedAgain).finished.length = 1 ∧
    (completed comparedAgain).db.evaluations.map
      (fun row => (row.candidateAgentId, row.incumbentAgentId)) = [(1, 0), (1, 1)] ∧
    ¬Exact (11 / 20) seeded (completed comparedAgain) := by
  refine ⟨seeded_fresh, comparedAgain_reached.step (step_completed rfl), rfl, rfl, ?_⟩
  rintro ⟨⟨rows, hrows, hfaithful⟩, -, -⟩
  have hlength := congrArg List.length hrows
  rw [List.length_append, hfaithful.length_eq] at hlength
  exact absurd hlength (by decide)

end KilledRuns

end Mcts.Restarts
