import Mathlib.Data.Int.CardIntervalMod
import Mathlib.Data.List.Perm.Basic
import Mathlib.Data.List.Nodup

/-!
Dealing a list out in turns. The hands together are the list, each hand keeps
its order, and of any contiguous block two hands differ by one element at most.
-/
namespace Mcts.RoundRobin

variable {α : Type*}

def hand (n i : ℕ) (cards : List α) : List α :=
  (cards.zipIdx.filter fun e => e.2 % n = i).map (·.1)

/-- A value below `n` is met once. -/
theorem flatMap_range_single {n k : ℕ} (hk : k < n) (x : α) :
    ((List.range n).flatMap fun i => if k = i then [x] else []) = [x] := by
  induction n with
  | zero => omega
  | succ n ih =>
    rw [List.range_succ, List.flatMap_append]
    rcases Nat.lt_or_eq_of_le (Nat.le_of_lt_succ hk) with hlt | rfl
    · rw [ih hlt]
      simp [hlt.ne]
    · have hnone : ((List.range k).flatMap fun i => if k = i then [x] else []) = [] := by
        rw [List.flatMap_eq_nil_iff]
        intro i hi
        rw [if_neg (List.mem_range.mp hi).ne']
      simp [hnone]

/-- Sorting a list by a value below `n` only rearranges it. -/
theorem flatMap_filter_perm (n : ℕ) (f : α → ℕ) (l : List α) (hf : ∀ x ∈ l, f x < n) :
    ((List.range n).flatMap fun i => l.filter fun x => f x = i).Perm l := by
  induction l with
  | nil => simp
  | cons x l ih =>
    have hone := flatMap_range_single (hf x List.mem_cons_self) x
    have hsplit : (fun i => (x :: l).filter fun y => f y = i) =
        fun i => (if f x = i then [x] else []) ++ l.filter fun y => f y = i := by
      funext i
      by_cases h : f x = i
      · simp [h]
      · simp [h]
    rw [hsplit]
    have hrest := ih fun y hy => hf y (List.mem_cons_of_mem x hy)
    have happend := (List.flatMap_append_perm (List.range n)
      (fun i => if f x = i then [x] else []) (fun i => l.filter fun y => f y = i)).symm
    rw [hone] at happend
    exact happend.trans (hrest.cons x)

/-- The hands together are the list. -/
theorem hands_perm {n : ℕ} (hn : 0 < n) (cards : List α) :
    ((List.range n).flatMap fun i => hand n i cards).Perm cards := by
  have h := (flatMap_filter_perm n (fun e : α × ℕ => e.2 % n) cards.zipIdx
    fun e _ => Nat.mod_lt _ hn).map (·.1)
  rw [List.map_flatMap, List.zipIdx_map_fst] at h
  exact h

theorem hands_disjoint {n : ℕ} (hn : 0 < n) {cards : List α} (hnodup : cards.Nodup) {i j : ℕ}
    (hi : i < n) (hj : j < n) (hne : i ≠ j) : (hand n i cards).Disjoint (hand n j cards) := by
  have h := (hands_perm hn cards).nodup_iff.mpr hnodup
  have hpair := (List.nodup_flatMap.mp h).2
  have hsymm : Std.Symm (Function.onFun List.Disjoint fun i => hand n i cards) :=
    ⟨fun _ _ hdisjoint => List.Disjoint.symm hdisjoint⟩
  exact hpair.forall (List.mem_range.mpr hi) (List.mem_range.mpr hj) hne

/-- How many positions of a list at an offset satisfy a test. -/
theorem countP_zipIdx (p : ℕ → Bool) (l : List α) (start : ℕ) :
    Nat.count (fun k => p k = true) start + (l.zipIdx start).countP (fun e => p e.2) =
      Nat.count (fun k => p k = true) (start + l.length) := by
  induction l generalizing start with
  | nil => simp
  | cons x l ih =>
    rw [List.zipIdx_cons, List.countP_cons, List.length_cons]
    have hrest := ih (start + 1)
    rw [Nat.count_succ] at hrest
    rw [show start + (l.length + 1) = start + 1 + l.length by omega, ← hrest]
    show _ + (_ + if p start = true then 1 else 0) = _
    omega

/-- A hand's share of a contiguous block, as a difference of two counts. -/
theorem hand_block (n i : ℕ) (q : α → Bool) (left block right : List α)
    (hleft : ∀ x ∈ left, q x = false) (hblock : ∀ x ∈ block, q x = true)
    (hright : ∀ x ∈ right, q x = false) :
    Nat.count (fun k => k % n = i) left.length + (hand n i (left ++ block ++ right)).countP q =
      Nat.count (fun k => k % n = i) (left.length + block.length) := by
  have houtside : ∀ (l : List α) (start : ℕ), (∀ x ∈ l, q x = false) →
      (l.zipIdx start).countP (fun e => q e.1 && decide (e.2 % n = i)) = 0 := by
    intro l start hl
    rw [List.countP_eq_zero]
    intro e he
    simp [hl e.1 (List.fst_mem_of_mem_zipIdx he)]
  have hinside : (block.zipIdx left.length).countP (fun e => q e.1 && decide (e.2 % n = i)) =
      (block.zipIdx left.length).countP (fun e => decide (e.2 % n = i)) := by
    apply List.countP_congr
    intro e he
    simp [hblock e.1 (List.fst_mem_of_mem_zipIdx he)]
  have hcount := countP_zipIdx (fun k => decide (k % n = i)) block left.length
  simp only [decide_eq_true_eq] at hcount
  have hhand : (hand n i (left ++ block ++ right)).countP q =
      (block.zipIdx left.length).countP (fun e => decide (e.2 % n = i)) := by
    unfold hand
    rw [List.countP_map, List.countP_filter, List.zipIdx_append, List.zipIdx_append,
      List.countP_append, List.countP_append, Nat.zero_add]
    show (left.zipIdx 0).countP (fun e => q e.1 && decide (e.2 % n = i)) +
      (block.zipIdx left.length).countP (fun e => q e.1 && decide (e.2 % n = i)) +
      (right.zipIdx _).countP (fun e => q e.1 && decide (e.2 % n = i)) = _
    rw [houtside left 0 hleft, houtside right _ hright, hinside, Nat.zero_add, Nat.add_zero]
  rw [hhand]
  exact hcount

/-- Of a contiguous block any two hands get the same up to one. -/
theorem hand_balanced {n i j : ℕ} (hi : i < n) (hj : j < n) (q : α → Bool)
    (left block right : List α) (hleft : ∀ x ∈ left, q x = false)
    (hblock : ∀ x ∈ block, q x = true) (hright : ∀ x ∈ right, q x = false) :
    (hand n i (left ++ block ++ right)).countP q ≤
      (hand n j (left ++ block ++ right)).countP q + 1 := by
  have hcount : ∀ k < n, ∀ b, Nat.count (fun m => m % n = k) b =
      b / n + if k < b % n then 1 else 0 := by
    intro k hk b
    have h := Nat.count_modEq_card b (r := n) (by omega) k
    simpa [Nat.ModEq, Nat.mod_eq_of_lt hk] using h
  have hfirst := hand_block n i q left block right hleft hblock hright
  have hsecond := hand_block n j q left block right hleft hblock hright
  rw [hcount i hi, hcount i hi] at hfirst
  rw [hcount j hj, hcount j hj] at hsecond
  split at hfirst <;> split at hfirst <;> split at hsecond <;> split at hsecond <;> omega

/-- A list that is sorted by a key falls into the part below a value, the block
at it and the part above. -/
theorem sorted_blocks {β : Type*} [LinearOrder β] (key : α → β) (b : β) (l : List α)
    (hsorted : l.Pairwise fun x y => key x ≤ key y) :
    ∃ left block right, l = left ++ block ++ right ∧ (∀ x ∈ left, key x < b) ∧
      (∀ x ∈ block, key x = b) ∧ ∀ x ∈ right, b < key x := by
  induction l with
  | nil => exact ⟨[], [], [], rfl, by simp, by simp, by simp⟩
  | cons x l ih =>
    obtain ⟨hhead, htail⟩ := List.pairwise_cons.mp hsorted
    obtain ⟨left, block, right, rfl, hleft, hblock, hright⟩ := ih htail
    rcases lt_trichotomy (key x) b with hlt | heq | hgt
    · refine ⟨x :: left, block, right, rfl, ?_, hblock, hright⟩
      intro y hy
      rcases List.mem_cons.mp hy with rfl | hy
      · exact hlt
      · exact hleft y hy
    · have hnone : left = [] := by
        apply List.eq_nil_iff_forall_not_mem.mpr
        intro y hy
        have := hhead y (by simp [hy])
        exact absurd (hleft y hy) (by simpa [heq] using this)
      subst hnone
      refine ⟨[], x :: block, right, rfl, by simp, ?_, hright⟩
      intro y hy
      rcases List.mem_cons.mp hy with rfl | hy
      · exact heq
      · exact hblock y hy
    · have hnone : left = [] ∧ block = [] := by
        constructor
        · apply List.eq_nil_iff_forall_not_mem.mpr
          intro y hy
          have := hhead y (by simp [hy])
          exact absurd (hgt.trans_le this) (hleft y hy).not_gt
        · apply List.eq_nil_iff_forall_not_mem.mpr
          intro y hy
          have := hhead y (by simp [hy])
          exact absurd (hgt.trans_le this) (hblock y hy).not_gt
      obtain ⟨rfl, rfl⟩ := hnone
      refine ⟨[], [], x :: right, rfl, by simp, by simp, ?_⟩
      intro y hy
      rcases List.mem_cons.mp hy with rfl | hy
      · exact hgt
      · exact hright y hy

end Mcts.RoundRobin
