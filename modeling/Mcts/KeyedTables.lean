import Mathlib.Data.List.Nodup
import Mathlib.Data.List.Infix

/-!
Tables with a primary key, as lists of rows. `INSERT OR IGNORE` adds a row unless
its key is taken, so it may be repeated; rows are never changed or removed.
-/
namespace Mcts.KeyedTables

variable {ρ κ : Type} [DecidableEq κ] (key : ρ → κ)

/-- `INSERT OR IGNORE`. -/
def insertOrIgnore (row : ρ) (table : List ρ) : List ρ :=
  if key row ∈ table.map key then table else table ++ [row]

variable {key} {row row' : ρ} {table : List ρ} {k : κ}

theorem insertOrIgnore_fresh (h : key row ∉ table.map key) :
    insertOrIgnore key row table = table ++ [row] := if_neg h

/-- The earlier rows stay, in their places. -/
theorem prefix_insertOrIgnore (row : ρ) (table : List ρ) :
    table <+: insertOrIgnore key row table := by
  unfold insertOrIgnore
  split
  · exact List.prefix_rfl
  · exact List.prefix_append table [row]

theorem mem_insertOrIgnore (h : row' ∈ insertOrIgnore key row table) :
    row' ∈ table ∨ row' = row := by
  unfold insertOrIgnore at h
  split at h
  · exact Or.inl h
  · simpa using h

/-- Afterwards the key is taken, by this row or by an earlier one. -/
theorem mem_keys_insertOrIgnore :
    k ∈ (insertOrIgnore key row table).map key ↔ k ∈ table.map key ∨ k = key row := by
  unfold insertOrIgnore
  split
  · next htaken =>
    constructor
    · exact Or.inl
    · rintro (hk | rfl)
      · exact hk
      · exact htaken
  · rw [List.map_append, List.mem_append, List.map_singleton, List.mem_singleton]

/-- The key stays a key. -/
theorem nodup_insertOrIgnore (h : (table.map key).Nodup) :
    ((insertOrIgnore key row table).map key).Nodup := by
  unfold insertOrIgnore
  split
  · exact h
  · next hfresh =>
    rw [List.map_append, List.map_singleton, List.nodup_append]
    refine ⟨h, List.nodup_singleton _, ?_⟩
    intro x hx y hy hxy
    rw [List.mem_singleton] at hy
    exact hfresh (hy ▸ hxy ▸ hx)

/-- One row answers to its key. -/
theorem filter_key (h : (table.map key).Nodup) (hrow : row ∈ table) :
    table.filter (fun other => key other = key row) = [row] := by
  induction table with
  | nil => simp at hrow
  | cons first rest ih =>
    obtain ⟨hfirst, hrest⟩ := List.nodup_cons.mp h
    rcases List.mem_cons.mp hrow with rfl | hlater
    · have hnone : rest.filter (fun other => key other = key row) = [] := by
        rw [List.filter_eq_nil_iff]
        intro other hother heq
        exact hfirst (of_decide_eq_true heq ▸ List.mem_map_of_mem hother)
      rw [List.filter_cons_of_pos (by simp), hnone]
    · have hne : key first ≠ key row := fun heq => hfirst (heq ▸ List.mem_map_of_mem hlater)
      rw [List.filter_cons_of_neg (by simpa using hne), ih hrest hlater]

end Mcts.KeyedTables
