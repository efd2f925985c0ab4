import Mathlib.Data.Finset.Card
import Mathlib.Logic.Relation
import Mathlib.Logic.Function.Iterate

/-!
Graph search with a work queue and a set of visited vertices. Successors are
read from a list; only finitely many vertices have any, which is what makes the
loop terminate on cyclic graphs. The set found is the set of reachable vertices.
-/
namespace Mcts.Worklist

variable {V : Type} [DecidableEq V]

/-- Pop a vertex; skip it if visited, else visit it and queue its unvisited successors. -/
def explore (succ : V → List V) (support : Finset V) (hsupport : ∀ v ∉ support, succ v = []) :
    List V → Finset V → Finset V
  | [], visited => visited
  | v :: rest, visited =>
    if v ∈ visited then explore succ support hsupport rest visited
    else
      explore succ support hsupport
        (rest ++ (succ v).filter fun w => w ∉ insert v visited) (insert v visited)
termination_by queue visited => ((support \ visited).card, queue.length)
decreasing_by
  · exact Prod.Lex.right _ (Nat.lt_succ_self _)
  · rename_i hv
    by_cases hs : v ∈ support
    · apply Prod.Lex.left
      apply Finset.card_lt_card
      refine Finset.ssubset_iff_subset_ne.mpr ⟨?_, fun heq => ?_⟩
      · exact Finset.sdiff_subset_sdiff (Finset.Subset.refl _) (Finset.subset_insert v visited)
      · have hmem : v ∈ support \ insert v visited := heq ▸ Finset.mem_sdiff.mpr ⟨hs, hv⟩
        exact (Finset.mem_sdiff.mp hmem).2 (Finset.mem_insert_self v visited)
    · -- no successors: the queue shrinks and the unvisited support stays
      have hcard : support \ insert v visited = support \ visited :=
        Finset.sdiff_insert_of_notMem hs visited
      rw [hcard, hsupport v hs]
      exact Prod.Lex.right _ (by simp)

variable (succ : V → List V) (support : Finset V) (hsupport : ∀ v ∉ support, succ v = [])

def Edge (v w : V) : Prop := w ∈ succ v

abbrev Reaches : V → V → Prop := Relation.ReflTransGen (Edge succ)

theorem subset_explore (queue : List V) (visited : Finset V) :
    visited ⊆ explore succ support hsupport queue visited := by
  induction queue, visited using explore.induct succ support hsupport with
  | case1 visited => rw [explore]
  | case2 v rest visited hv ih => rw [explore, if_pos hv]; exact ih
  | case3 v rest visited hv ih =>
    rw [explore, if_neg hv]
    exact (Finset.subset_insert v visited).trans ih

/-- Everything found was visited before or is reached from the queue. -/
theorem explore_sound (queue : List V) (visited : Finset V) (w : V)
    (hw : w ∈ explore succ support hsupport queue visited) :
    w ∈ visited ∨ ∃ v ∈ queue, Reaches succ v w := by
  induction queue, visited using explore.induct succ support hsupport with
  | case1 visited => rw [explore] at hw; exact Or.inl hw
  | case2 v rest visited hv ih =>
    rw [explore, if_pos hv] at hw
    rcases ih hw with h | ⟨u, hu, hreach⟩
    · exact Or.inl h
    · exact Or.inr ⟨u, List.mem_cons_of_mem v hu, hreach⟩
  | case3 v rest visited hv ih =>
    rw [explore, if_neg hv] at hw
    rcases ih hw with h | ⟨u, hu, hreach⟩
    · rcases Finset.mem_insert.mp h with rfl | h
      · exact Or.inr ⟨w, List.mem_cons_self, Relation.ReflTransGen.refl⟩
      · exact Or.inl h
    · rcases List.mem_append.mp hu with hu | hu
      · exact Or.inr ⟨u, List.mem_cons_of_mem v hu, hreach⟩
      · have hedge : Edge succ v u := (List.mem_filter.mp hu).1
        exact Or.inr ⟨v, List.mem_cons_self, hreach.head hedge⟩

theorem queue_subset_explore (queue : List V) (visited : Finset V) :
    ∀ v ∈ queue, v ∈ explore succ support hsupport queue visited := by
  induction queue, visited using explore.induct succ support hsupport with
  | case1 visited => simp
  | case2 v rest visited hv ih =>
    rw [explore, if_pos hv]
    intro u hu
    rcases List.mem_cons.mp hu with rfl | hu
    · exact subset_explore succ support hsupport rest visited hv
    · exact ih u hu
  | case3 v rest visited hv ih =>
    rw [explore, if_neg hv]
    intro u hu
    rcases List.mem_cons.mp hu with rfl | hu
    · exact subset_explore succ support hsupport _ _ (Finset.mem_insert_self u visited)
    · exact ih u (List.mem_append_left _ hu)

/-- If the successors of visited vertices are visited or queued, the set found is
closed under edges. -/
theorem explore_closed (queue : List V) (visited : Finset V)
    (h : ∀ v ∈ visited, ∀ w ∈ succ v, w ∈ visited ∨ w ∈ queue) :
    ∀ v ∈ explore succ support hsupport queue visited,
      ∀ w ∈ succ v, w ∈ explore succ support hsupport queue visited := by
  induction queue, visited using explore.induct succ support hsupport with
  | case1 visited =>
    rw [explore]
    intro v hv w hw
    exact (h v hv w hw).resolve_right (by simp)
  | case2 v rest visited hv ih =>
    rw [explore, if_pos hv]
    apply ih
    intro u hu w hw
    rcases h u hu w hw with hw | hw
    · exact Or.inl hw
    · rcases List.mem_cons.mp hw with rfl | hw
      · exact Or.inl hv
      · exact Or.inr hw
  | case3 v rest visited hv ih =>
    rw [explore, if_neg hv]
    apply ih
    intro u hu w hw
    by_cases hseen : w ∈ insert v visited
    · exact Or.inl hseen
    right
    rcases Finset.mem_insert.mp hu with rfl | hu
    · exact List.mem_append_right _ (List.mem_filter.mpr ⟨hw, by simpa using hseen⟩)
    · rcases h u hu w hw with hw | hw
      · exact absurd (Finset.mem_insert_of_mem hw) hseen
      · rcases List.mem_cons.mp hw with rfl | hw
        · exact absurd (Finset.mem_insert_self w visited) hseen
        · exact List.mem_append_left _ hw

def round : List V × Finset V → List V × Finset V
  | ([], visited) => ([], visited)
  | (v :: rest, visited) =>
    if v ∈ visited then (rest, visited)
    else (rest ++ (succ v).filter fun w => w ∉ insert v visited, insert v visited)

/-- Finitely many rounds empty the queue, with the set that `explore` returns. -/
theorem explore_rounds (queue : List V) (visited : Finset V) :
    ∃ k, (round succ)^[k] (queue, visited) = ([], explore succ support hsupport queue visited) := by
  induction queue, visited using explore.induct succ support hsupport with
  | case1 visited => exact ⟨0, by rw [explore]; rfl⟩
  | case2 v rest visited hv ih =>
    obtain ⟨k, hk⟩ := ih
    refine ⟨k + 1, ?_⟩
    rw [Function.iterate_succ_apply, explore, if_pos hv, ← hk]
    simp [round, hv]
  | case3 v rest visited hv ih =>
    obtain ⟨k, hk⟩ := ih
    refine ⟨k + 1, ?_⟩
    rw [Function.iterate_succ_apply, explore, if_neg hv, ← hk]
    simp [round, hv]

/-- From one start vertex the search finds exactly what is reachable. -/
theorem mem_explore_iff (root w : V) :
    w ∈ explore succ support hsupport [root] ∅ ↔ Reaches succ root w := by
  constructor
  · intro hw
    rcases explore_sound succ support hsupport [root] ∅ w hw with h | ⟨v, hv, hreach⟩
    · exact absurd h (Finset.notMem_empty w)
    · rcases List.mem_singleton.mp hv with rfl
      exact hreach
  · intro hreach
    induction hreach with
    | refl => exact queue_subset_explore succ support hsupport [root] ∅ root List.mem_cons_self
    | tail _ hedge ih =>
      exact explore_closed succ support hsupport [root] ∅ (by simp) _ ih _ hedge

end Mcts.Worklist
