import Mathlib.Data.Nat.Find
import Mathlib.Data.Nat.Notation
import Mathlib.Tactic.Basic

/-!
Infinite runs and what must happen in them. A run that stays at a rank until a
helpful step is due, where no other step raises the rank, comes to its goal.
-/
namespace Mcts.Schedules

variable {σ : Type} {run : ℕ → σ}

/-- What each step keeps holds for ever. -/
theorem persists {p : σ → Prop} {k : ℕ} (hstep : ∀ j, k ≤ j → p (run j) → p (run (j + 1)))
    (hk : p (run k)) {j : ℕ} (hj : k ≤ j) : p (run j) := by
  induction j, hj using Nat.le_induction with
  | base => exact hk
  | succ j hj ih => exact hstep j hj ih

/-- The rule of ranks. A step reaches the goal, lowers the rank, or keeps it and was
not one of those that help; a rank that is kept for ever is helped in the end. -/
theorem ranked (P : σ → ℕ → Prop) (Q : σ → Prop) (helps : ℕ → Prop) {k : ℕ}
    (hstep : ∀ j m, k ≤ j → P (run j) m →
      Q (run (j + 1)) ∨ (∃ m', m' < m ∧ P (run (j + 1)) m') ∨ (P (run (j + 1)) m ∧ ¬helps j))
    (hfair : ∀ j m, k ≤ j → (∀ i, j ≤ i → P (run i) m) → ∃ i, j ≤ i ∧ helps i)
    {m : ℕ} (hk : P (run k) m) : ∃ j, k ≤ j ∧ Q (run j) := by
  suffices h : ∀ m j, k ≤ j → P (run j) m → ∃ i, j ≤ i ∧ Q (run i) from h m k (Nat.le_refl k) hk
  intro m
  induction m using Nat.strong_induction_on with
  | _ m ih =>
    intro j hj hP
    by_contra hnever
    -- the rank is kept for ever, as a lower one would lead to the goal
    have hkept : ∀ i, j ≤ i → P (run i) m ∧ ¬helps i := by
      have hnext : ∀ i, j ≤ i → P (run i) m → P (run (i + 1)) m ∧ ¬helps i := by
        intro i hi hPi
        rcases hstep i m (Nat.le_trans hj hi) hPi with hQ | ⟨m', hm', hlower⟩ | hsame
        · exact absurd ⟨i + 1, by omega, hQ⟩ hnever
        · obtain ⟨i', hi', hQ⟩ := ih m' hm' (i + 1) (by omega) hlower
          exact absurd ⟨i', by omega, hQ⟩ hnever
        · exact hsame
      intro i hi
      have hall := persists (p := fun s => P s m) (fun i hi hPi => (hnext i hi hPi).1) hP hi
      exact ⟨hall, (hnext i hi hall).2⟩
    obtain ⟨i, hi, hhelps⟩ := hfair j m hj fun i hi => (hkept i hi).1
    exact (hkept i hi).2 hhelps

end Mcts.Schedules
