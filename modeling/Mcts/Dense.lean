import Mathlib.Data.List.Basic
import Mathlib.Algebra.BigOperators.Group.List.Basic
import Mathlib.Algebra.GroupWithZero.Nat
import Mathlib.Data.List.Nodup

/-!
Dense vectors: lists read with a default and updated in place at one index.
An index past the end reads as the default and updates as a no-op.
-/
namespace Mcts.Dense

variable {α : Type}

theorem getD_modify (xs : List α) (i j : ℕ) (f : α → α) (d : α) :
    (xs.modify i f).getD j d =
      if i = j ∧ j < xs.length then f (xs.getD j d) else xs.getD j d := by
  simp only [List.getD_eq_getElem?_getD, List.getElem?_modify]
  by_cases hij : i = j
  · subst hij
    by_cases hlt : i < xs.length
    · simp [hlt]
    · simp [hlt]
  · simp [hij]

theorem getD_modify_ne (xs : List α) (i j : ℕ) (f : α → α) (d : α) (h : i ≠ j) :
    (xs.modify i f).getD j d = xs.getD j d := by
  rw [getD_modify, if_neg fun hj => h hj.1]

theorem getD_set (xs : List α) (i j : ℕ) (x d : α) :
    (xs.set i x).getD j d = if i = j ∧ j < xs.length then x else xs.getD j d := by
  simp only [List.getD_eq_getElem?_getD, List.getElem?_set]
  by_cases hij : i = j
  · subst hij
    by_cases hlt : i < xs.length
    · simp [hlt]
    · simp [hlt]
  · simp [hij]

theorem getD_replicate (n i : ℕ) (x : α) : (List.replicate n x).getD i x = x := by
  simp only [List.getD_eq_getElem?_getD, List.getElem?_replicate]
  split <;> rfl

section Folds

variable {β : Type} (idx : β → ℕ)

theorem length_foldl_modify (f : β → α → α) (keys : List β) (xs : List α) :
    (keys.foldl (fun xs b => xs.modify (idx b) (f b)) xs).length = xs.length := by
  induction keys generalizing xs with
  | nil => rfl
  | cons b rest ih => rw [List.foldl_cons, ih, List.length_modify]

/-- An index that no key names keeps its entry. -/
theorem getD_foldl_modify_other (f : β → α → α) (keys : List β) (xs : List α) (i : ℕ) (d : α)
    (h : ∀ b ∈ keys, idx b ≠ i) :
    (keys.foldl (fun xs b => xs.modify (idx b) (f b)) xs).getD i d = xs.getD i d := by
  induction keys generalizing xs with
  | nil => rfl
  | cons b rest ih =>
    rw [List.foldl_cons, ih _ fun c hc => h c (List.mem_cons_of_mem b hc)]
    exact getD_modify_ne _ _ _ _ _ (h b List.mem_cons_self)

/-- Updating at the index of one key after the other updates each entry once. -/
theorem getD_foldl_modify (f : β → α → α) (keys : List β) (xs : List α) (b : β) (d : α)
    (hnodup : (keys.map idx).Nodup) (hb : b ∈ keys) (hlt : idx b < xs.length) :
    (keys.foldl (fun xs b => xs.modify (idx b) (f b)) xs).getD (idx b) d =
      f b (xs.getD (idx b) d) := by
  induction keys generalizing xs with
  | nil => exact absurd hb List.not_mem_nil
  | cons c rest ih =>
    obtain ⟨hc, hrest⟩ := List.nodup_cons.mp hnodup
    have hother : ∀ e ∈ rest, idx e ≠ idx c := by
      intro e he heq
      exact hc (heq ▸ List.mem_map_of_mem he)
    rw [List.foldl_cons]
    rcases List.mem_cons.mp hb with rfl | hb
    · rw [getD_foldl_modify_other idx f rest _ _ d hother, getD_modify, if_pos ⟨rfl, hlt⟩]
    · rw [ih _ hrest hb (by simpa using hlt), getD_modify_ne _ _ _ _ _ (hother b hb).symm]

/-- Overwriting an entry is updating it to a constant. -/
theorem foldl_set (f : β → α) (keys : List β) (xs : List α) :
    keys.foldl (fun xs b => xs.set (idx b) (f b)) xs =
      keys.foldl (fun xs b => xs.modify (idx b) fun _ => f b) xs := by
  have hset : ∀ (xs : List α) (i : ℕ) (x : α), xs.set i x = xs.modify i fun _ => x := by
    intro xs i x
    have : Inhabited α := ⟨x⟩
    rw [List.modify_eq_set]
  simp only [hset]

end Folds

/-- Raising one in-range entry raises the total by as much. -/
theorem sum_modify_add (xs : List ℕ) (i k : ℕ) (h : i < xs.length) :
    (xs.modify i (· + k)).sum = xs.sum + k := by
  induction xs generalizing i with
  | nil => simp at h
  | cons x rest ih =>
    cases i with
    | zero => simp only [List.modify_zero_cons, List.sum_cons]; omega
    | succ i =>
      simp only [List.modify_succ_cons, List.sum_cons, ih i (by simpa using h)]
      omega

theorem sum_eq_zero_iff_getD (xs : List ℕ) : xs.sum = 0 ↔ ∀ i, xs.getD i 0 = 0 := by
  induction xs with
  | nil => simp
  | cons x rest ih =>
    simp only [List.sum_cons, Nat.add_eq_zero_iff, ih]
    constructor
    · rintro ⟨hx, hrest⟩ i
      cases i with
      | zero => simpa using hx
      | succ i => simpa using hrest i
    · intro h
      exact ⟨by simpa using h 0, fun i => by simpa using h (i + 1)⟩

theorem getD_le_sum (xs : List ℕ) (i : ℕ) : xs.getD i 0 ≤ xs.sum := by
  induction xs generalizing i with
  | nil => simp
  | cons x rest ih =>
    cases i with
    | zero => simp
    | succ i =>
      have hrest := ih i
      simp only [List.getD_cons_succ, List.sum_cons]
      omega

/-- A total over the whole vector is a total over any duplicate-free list of
indices outside which the vector is zero. -/
theorem sum_eq_sum_indices (xs : List ℕ) (indices : List ℕ) (hnodup : indices.Nodup)
    (hzero : ∀ i, i ∉ indices → xs.getD i 0 = 0) :
    xs.sum = (indices.map (fun i => xs.getD i 0)).sum := by
  induction indices generalizing xs with
  | nil =>
    have hall : xs.sum = 0 := (sum_eq_zero_iff_getD xs).mpr fun i => hzero i (by simp)
    simpa using hall
  | cons i rest ih =>
    obtain ⟨hi, hrest⟩ := List.nodup_cons.mp hnodup
    -- clear entry `i`, apply the induction hypothesis, and put it back
    have hcleared : ∀ j, (xs.set i 0).getD j 0 = if i = j then 0 else xs.getD j 0 := by
      intro j
      rw [getD_set]
      by_cases hij : i = j
      · subst hij
        by_cases hlt : i < xs.length
        · simp [hlt]
        · simp [hlt]
      · simp [hij]
    have hstep := ih (xs.set i 0) hrest (by
      intro j hj
      rw [hcleared]
      by_cases hij : i = j
      · simp [hij]
      · simp only [hij, if_false]
        exact hzero j (by simp [Ne.symm hij, hj]))
    have hsum : (xs.set i 0).sum + xs.getD i 0 = xs.sum := by
      clear hstep hcleared ih hzero hnodup hi hrest
      induction xs generalizing i with
      | nil => simp
      | cons x xs ih =>
        cases i with
        | zero => simp; omega
        | succ i =>
          have := ih i
          simp only [List.set_cons_succ, List.sum_cons, List.getD_cons_succ]
          omega
    have hcongr : rest.map (fun j => (xs.set i 0).getD j 0) = rest.map (fun j => xs.getD j 0) := by
      apply List.map_congr_left
      intro j hj
      have hij : i ≠ j := fun h => hi (h ▸ hj)
      rw [hcleared]
      simp [hij]
    rw [List.map_cons, List.sum_cons, ← hcongr, ← hstep]
    omega

end Mcts.Dense
