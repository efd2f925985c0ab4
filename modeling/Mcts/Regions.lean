import Mathlib.Data.Nat.Notation
import Mathlib.Order.Basic

/-!
Memory regions as functions from offsets. Slices are filled and copied into a
region; rows are copied one stride apart. Each operation is described by what
stands at an offset afterwards.
-/
namespace Mcts.Regions

variable {α : Type}

def fill (off len : ℕ) (x : α) (mem : ℕ → α) : ℕ → α :=
  fun j => if off ≤ j ∧ j < off + len then x else mem j

def copyFromSlice (off : ℕ) (xs : List α) (mem : ℕ → α) : ℕ → α :=
  fun j => if off ≤ j then (xs[j - off]?).getD (mem j) else mem j

def copyRows (off stride : ℕ) : ℕ → List (List α) → (ℕ → α) → ℕ → α
  | _, [], mem => mem
  | i, row :: rest, mem =>
    copyRows off stride (i + 1) rest (copyFromSlice (off + i * stride) row mem)

variable {off len stride i j k r : ℕ} {x : α} {xs : List α} {rows : List (List α)} {mem : ℕ → α}

theorem fill_in (hlo : off ≤ j) (hhi : j < off + len) : fill off len x mem j = x :=
  if_pos ⟨hlo, hhi⟩

theorem fill_out (h : j < off ∨ off + len ≤ j) : fill off len x mem j = mem j :=
  if_neg (by omega)

theorem copyFromSlice_at : copyFromSlice off xs mem (off + k) = (xs[k]?).getD (mem (off + k)) := by
  rw [copyFromSlice, if_pos (by omega), Nat.add_sub_cancel_left]

theorem copyFromSlice_out (h : j < off ∨ off + xs.length ≤ j) :
    copyFromSlice off xs mem j = mem j := by
  rw [copyFromSlice]
  split
  · rw [List.getElem?_eq_none (by omega), Option.getD_none]
  · rfl

/-- Rows do not reach below the first. -/
theorem copyRows_below (h : j < off + i * stride) : copyRows off stride i rows mem j = mem j := by
  induction rows generalizing i mem with
  | nil => rfl
  | cons row rest ih =>
    have hnext : (i + 1) * stride = i * stride + stride := Nat.succ_mul i stride
    rw [copyRows, ih (by omega), copyFromSlice_out (by omega)]

/-- Rows no longer than the stride do not reach past the last. -/
theorem copyRows_above (hlen : ∀ row ∈ rows, row.length ≤ stride)
    (h : off + (i + rows.length) * stride ≤ j) : copyRows off stride i rows mem j = mem j := by
  induction rows generalizing i mem with
  | nil => rfl
  | cons row rest ih =>
    have hrow : row.length ≤ stride := hlen row List.mem_cons_self
    have hlast : (i + (row :: rest).length) * stride = (i + 1 + rest.length) * stride := by
      rw [List.length_cons]
      congr 1
      omega
    have hend : (i + 1 + rest.length) * stride = i * stride + stride + rest.length * stride := by
      rw [Nat.add_mul, Nat.succ_mul]
    rw [copyRows, ih (fun row' hrow' => hlen row' (List.mem_cons_of_mem row hrow')) (by omega),
      copyFromSlice_out (by omega)]

/-- What stands in a row is what was copied there, as far as it reaches. -/
theorem copyRows_at (hlen : ∀ row ∈ rows, row.length ≤ stride) (hk : k < stride) :
    copyRows off stride i rows mem (off + (i + r) * stride + k) =
      ((rows[r]?).bind (·[k]?)).getD (mem (off + (i + r) * stride + k)) := by
  induction rows generalizing i r mem with
  | nil => rfl
  | cons row rest ih =>
    have hrow : row.length ≤ stride := hlen row List.mem_cons_self
    have hrest : ∀ row' ∈ rest, row'.length ≤ stride :=
      fun row' hrow' => hlen row' (List.mem_cons_of_mem row hrow')
    rw [copyRows]
    cases r with
    | zero =>
      have hnext : (i + 1) * stride = i * stride + stride := Nat.succ_mul i stride
      rw [Nat.add_zero i, copyRows_below (by omega), copyFromSlice_at]
      rfl
    | succ r =>
      have hshift : i + (r + 1) = i + 1 + r := by omega
      have hpast : i * stride + stride ≤ (i + 1 + r) * stride := by
        rw [← Nat.succ_mul]
        exact Nat.mul_le_mul_right stride (by omega)
      rw [hshift, ih hrest, copyFromSlice_out (by omega), List.getElem?_cons_succ]

/-- Rows copied from the first on. -/
theorem copyRows_zero_at (hlen : ∀ row ∈ rows, row.length ≤ stride) (hk : k < stride) :
    copyRows off stride 0 rows mem (off + r * stride + k) =
      ((rows[r]?).bind (·[k]?)).getD (mem (off + r * stride + k)) := by
  have hat : copyRows off stride 0 rows mem (off + (0 + r) * stride + k) = _ :=
    copyRows_at hlen hk
  rwa [Nat.zero_add] at hat

end Mcts.Regions
