import Mcts.RoundRobin
import Mathlib.Data.List.Sort
import Mathlib.Data.Prod.Lex

/-!
`load_holdout_environments`: the slice of the holdout table a node evaluates.
The query numbers the rows by bin and id and deals the numbers out in turns; the
order of rows of one bin in its result is left open, as SQL leaves it.
-/
namespace Mcts.Holdout

open RoundRobin

/-- A row of `environments`, and of the result. -/
structure HoldoutEnvironment where
  environmentId : ℤ
  json : String
  numObjectives : ℤ
  difficultyBin : ℤ
  actionCount : ℤ
deriving DecidableEq

/-- `ORDER BY difficulty_bin ASC, environment_id ASC`. -/
def Before (x y : HoldoutEnvironment) : Prop :=
  x.difficultyBin < y.difficultyBin ∨
    x.difficultyBin = y.difficultyBin ∧ x.environmentId ≤ y.environmentId

instance : DecidableRel Before := fun x y => by unfold Before; infer_instance

instance : Std.Total Before := ⟨fun x y => by unfold Before; omega⟩

instance : IsTrans HoldoutEnvironment Before := ⟨fun x y z hxy hyz => by unfold Before at *; omega⟩

/-- The common table expression: the rows with their numbers from 1. -/
def ordered (rows : List HoldoutEnvironment) : List (HoldoutEnvironment × ℤ) :=
  ((rows.insertionSort Before).zipIdx 1).map fun e => (e.1, (e.2 : ℤ))

/-- `WHERE (rn - 1) % ? = ?`; a remainder by zero is NULL. -/
def slice (numNodes nodeIdx : ℤ) (numbered : List (HoldoutEnvironment × ℤ)) :
    List HoldoutEnvironment :=
  (numbered.filter fun e => numNodes ≠ 0 ∧ (e.2 - 1).tmod numNodes = nodeIdx).map (·.1)

/-- The statement with its placeholders filled in order, before the outer ORDER BY. -/
def query (filtered : Bool) (bound : List ℤ) (table : List HoldoutEnvironment) :
    Option (List HoldoutEnvironment) :=
  match filtered, bound with
  | true, [maxBin, numNodes, nodeIdx] =>
    some (slice numNodes nodeIdx (ordered (table.filter fun e => e.difficultyBin ≤ maxBin)))
  | false, [numNodes, nodeIdx] => some (slice numNodes nodeIdx (ordered table))
  | _, _ => none

def boundParams (maxDifficultyBin : Option ℤ) (nodeIdx numNodes : ℤ) : List ℤ :=
  maxDifficultyBin.toList ++ [numNodes, nodeIdx]

/-- `ORDER BY difficulty_bin ASC`, which does not order rows of one bin. -/
def Ascending (rows : List HoldoutEnvironment) : Prop :=
  rows.Pairwise fun x y => x.difficultyBin ≤ y.difficultyBin

def Loads (table : List HoldoutEnvironment) (maxDifficultyBin : Option ℤ) (nodeIdx numNodes : ℤ)
    (rows : List HoldoutEnvironment) : Prop :=
  ∃ result, query maxDifficultyBin.isSome (boundParams maxDifficultyBin nodeIdx numNodes) table =
    some result ∧ rows.Perm result ∧ Ascending rows

def loadHoldoutEnvironments (table : List HoldoutEnvironment) (maxDifficultyBin : Option ℤ)
    (nodeIdx numNodes : ℤ) : Option (List HoldoutEnvironment) :=
  (query maxDifficultyBin.isSome (boundParams maxDifficultyBin nodeIdx numNodes) table).map
    (List.insertionSort Before)

def eligible (table : List HoldoutEnvironment) (maxDifficultyBin : Option ℤ) :
    List HoldoutEnvironment :=
  table.filter fun e => maxDifficultyBin.all fun maxBin => e.difficultyBin ≤ maxBin

theorem mem_eligible (table : List HoldoutEnvironment) (maxDifficultyBin : Option ℤ)
    (e : HoldoutEnvironment) : e ∈ eligible table maxDifficultyBin ↔
      e ∈ table ∧ ∀ maxBin, maxDifficultyBin = some maxBin → e.difficultyBin ≤ maxBin := by
  cases maxDifficultyBin with
  | none => simp [eligible]
  | some maxBin => simp [eligible]

theorem ascending_insertionSort (rows : List HoldoutEnvironment) :
    Ascending (rows.insertionSort Before) := by
  apply (List.pairwise_insertionSort Before rows).imp
  intro x y hxy
  unfold Before at hxy
  omega

/-- A node's slice is its hand of the sorted environments. -/
theorem slice_eq_hand (rows : List HoldoutEnvironment) {n i : ℕ} (hi : i < n) :
    slice n i (ordered rows) = hand n i (rows.insertionSort Before) := by
  have hn : (n : ℤ) ≠ 0 := by omega
  have htest : ∀ k : ℕ, (((k + 1 : ℕ) : ℤ) - 1).tmod n = i ↔ k % n = i := by
    intro k
    rw [Int.natCast_succ, Int.add_sub_cancel, ← Int.ofNat_tmod]
    exact Int.ofNat_inj
  have hshift : (rows.insertionSort Before).zipIdx 1 =
      (rows.insertionSort Before).zipIdx.map fun e => (e.1, e.2 + 1) := by
    rw [List.zipIdx_eq_map_add]
    simp [Nat.add_comm]
  unfold slice ordered hand
  rw [hshift, List.map_map, List.filter_map, List.map_map]
  congr 1
  apply List.filter_congr
  intro e _
  show decide ((n : ℤ) ≠ 0 ∧ (((e.2 + 1 : ℕ) : ℤ) - 1).tmod n = i) = decide (e.2 % n = i)
  rw [decide_eq_decide, and_iff_right hn]
  exact htest e.2

/-- The positional parameters meet their placeholders, with and without the filter. -/
theorem query_eq_hand (table : List HoldoutEnvironment) (maxDifficultyBin : Option ℤ) {n i : ℕ}
    (hi : i < n) :
    query maxDifficultyBin.isSome (boundParams maxDifficultyBin i n) table =
      some (hand n i ((eligible table maxDifficultyBin).insertionSort Before)) := by
  rw [← slice_eq_hand _ hi]
  cases maxDifficultyBin with
  | none => simp [query, boundParams, eligible]
  | some maxBin => simp [query, boundParams, eligible]

theorem loads_load (table : List HoldoutEnvironment) (maxDifficultyBin : Option ℤ) {n i : ℕ}
    (hi : i < n) :
    Loads table maxDifficultyBin i n
      ((loadHoldoutEnvironments table maxDifficultyBin i n).getD []) := by
  refine ⟨_, query_eq_hand table maxDifficultyBin hi, ?_⟩
  rw [loadHoldoutEnvironments, query_eq_hand table maxDifficultyBin hi]
  exact ⟨List.perm_insertionSort Before _, ascending_insertionSort _⟩

/-- The slices of the nodes partition the holdout, in order of difficulty and
evenly in every bin. -/
theorem slices_partition (table : List HoldoutEnvironment)
    (hids : (table.map (·.environmentId)).Nodup) (maxDifficultyBin : Option ℤ) (n : ℕ) (hn : 1 ≤ n)
    (slices : ℕ → List HoldoutEnvironment)
    (hload : ∀ i < n, Loads table maxDifficultyBin i n (slices i)) :
    (∀ i < n, ∀ j < n, i ≠ j → (slices i).Disjoint (slices j)) ∧
    (∀ e, (e ∈ table ∧ ∀ maxBin, maxDifficultyBin = some maxBin → e.difficultyBin ≤ maxBin) ↔
      ∃ i < n, e ∈ slices i) ∧
    ((List.range n).flatMap slices).Nodup ∧
    (∀ i < n, Ascending (slices i)) ∧
    ∀ bin, ∀ i < n, ∀ j < n, (slices i).countP (fun e => e.difficultyBin = bin) ≤
      (slices j).countP (fun e => e.difficultyBin = bin) + 1 := by
  have hperm : ∀ i < n, (slices i).Perm
      (hand n i ((eligible table maxDifficultyBin).insertionSort Before)) := by
    intro i hi
    obtain ⟨result, hquery, hresult, _⟩ := hload i hi
    rw [query_eq_hand table maxDifficultyBin hi] at hquery
    rwa [← Option.some.inj hquery] at hresult
  have hsorted := ascending_insertionSort (eligible table maxDifficultyBin)
  have hsort := List.perm_insertionSort Before (eligible table maxDifficultyBin)
  have hnodup : ((eligible table maxDifficultyBin).insertionSort Before).Nodup :=
    hsort.nodup_iff.mpr ((List.Nodup.of_map _ hids).filter _)
  have hall : ((List.range n).flatMap slices).Perm
      ((eligible table maxDifficultyBin).insertionSort Before) := by
    have hhands := List.Perm.flatMap_left (List.range n)
      fun i hi => hperm i (List.mem_range.mp hi)
    exact hhands.trans (hands_perm hn _)
  refine ⟨?_, ?_, hall.nodup_iff.mpr hnodup, ?_, ?_⟩
  · intro i hi j hj hne e he he'
    exact hands_disjoint hn hnodup hi hj hne ((hperm i hi).mem_iff.mp he)
      ((hperm j hj).mem_iff.mp he')
  · intro e
    rw [← mem_eligible, ← hsort.mem_iff, ← hall.mem_iff]
    simp
  · intro i hi
    obtain ⟨_, _, _, hasc⟩ := hload i hi
    exact hasc
  · intro bin i hi j hj
    rw [(hperm i hi).countP_eq, (hperm j hj).countP_eq]
    obtain ⟨left, block, right, heq, hleft, hblock, hright⟩ :=
      sorted_blocks (fun e : HoldoutEnvironment => e.difficultyBin) bin _ hsorted
    rw [heq]
    apply hand_balanced hi hj
    · intro e he
      simpa using (hleft e he).ne
    · intro e he
      simpa using hblock e he
    · intro e he
      simpa using (hright e he).ne'

def smallTable : List HoldoutEnvironment :=
  [⟨3, "", 1, 0, 4⟩, ⟨1, "", 5, 2, 40⟩, ⟨2, "", 1, 0, 3⟩]

example : loadHoldoutEnvironments smallTable none 0 2 =
    some [⟨2, "", 1, 0, 3⟩, ⟨1, "", 5, 2, 40⟩] := by decide

/-- That table over two nodes: nothing twice, and bin 2 evenly. -/
theorem slices_partition_small :
    ((List.range 2).flatMap fun i =>
      (loadHoldoutEnvironments smallTable none (i : ℕ) 2).getD []).Nodup ∧
    ((loadHoldoutEnvironments smallTable none (0 : ℕ) 2).getD []).countP
        (fun e => e.difficultyBin = 2) ≤
      ((loadHoldoutEnvironments smallTable none (1 : ℕ) 2).getD []).countP
        (fun e => e.difficultyBin = 2) + 1 := by
  have hsmall := slices_partition smallTable (by decide) none 2 (by decide)
    (fun i => (loadHoldoutEnvironments smallTable none (i : ℕ) 2).getD [])
    (fun _ hi => loads_load smallTable none hi)
  exact ⟨hsmall.2.2.1, hsmall.2.2.2.2 2 0 (by decide) 1 (by decide)⟩

end Mcts.Holdout
