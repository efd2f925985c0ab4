import Mcts.Rows

/-!
The packer and the batch reader agree on the layout. From slots into which
observations were packed, `build_board_batch` returns the observations row by
row, every cell at its place and zeros wherever there is no cell.
-/
namespace Mcts.BatchLayout

open Slots Handler Collecting Rows

section Layout

def entry (batch : Batch) (r l c k : ℕ) : Option ℤ :=
  (((batch.boards[r]?).bind (·[l]?)).bind (·[c]?)).bind (·[k]?)

/-- The layout in which the agent is given the observations: row by row in their
order, every cell at its place, and zeros wherever there is no cell. -/
structure Layout (lookahead axis : ℕ) (observations : List TilersObs) (batch : Batch) : Prop where
  heights : batch.heights = observations.map (·.height)
  widths : batch.widths = observations.map (·.width)
  numAncillas : batch.numAncillas = observations.map (·.numAncillas)
  actionMasks : batch.actionMasks = observations.map (·.actionMask)
  rows : batch.boards.length = observations.length
  shape : ∀ board ∈ batch.boards, board.length = lookahead + 1 ∧
    ∀ layer ∈ board, layer.length = axis ∧ ∀ cell ∈ layer, cell.length = CELL_FIELDS
  cells : ∀ r l c k obs layer cell, observations[r]? = some obs → l < lookahead + 1 →
    obs.board[l]? = some layer → layer[c]? = some cell → k < CELL_FIELDS →
      entry batch r l c k = (cellToArray cell)[k]?
  zeros : ∀ r l c k obs, observations[r]? = some obs → l < lookahead + 1 → c < axis →
    k < CELL_FIELDS → obs.board.length ≤ l ∨ obs.height * obs.width ≤ c →
      entry batch r l c k = some 0
  uncut : ∀ obs ∈ observations, obs.height * obs.width ≤ axis

variable {F : Type} {n axis r l c k : ℕ} {o : TilersObs} {observations : List TilersObs}

theorem obsRow_entry (ho : observations[r]? = some o) (hl : l < n) (hc : c < axis)
    (hk : k < CELL_FIELDS) :
    entry (ofRows (observations.map (obsRow n axis))) r l c k = some (channel o l c k) := by
  simp only [entry, ofRows, obsRow, List.getElem?_map, ho, Option.map_some, Option.bind_some,
    List.getElem?_range hl, List.getElem?_range hc, List.getElem?_range hk]

/-- The rows of observations in range have the layout if none is wider than the axis. -/
theorem ofRows_layout (lookahead : ℕ) (hin : ∀ o ∈ observations, InRange o)
    (haxis : ∀ o ∈ observations, o.height * o.width ≤ axis) :
    Layout lookahead axis observations
      (ofRows (observations.map (obsRow (lookahead + 1) axis))) where
  heights := List.map_map
  widths := List.map_map
  numAncillas := List.map_map
  actionMasks := List.map_map
  rows := by simp [ofRows]
  shape board hboard := by
    obtain ⟨row, hrow, rfl⟩ := List.mem_map.mp hboard
    obtain ⟨o, _, rfl⟩ := List.mem_map.mp hrow
    refine ⟨by simp [obsRow], fun layer hlayer => ?_⟩
    obtain ⟨l, _, rfl⟩ := List.mem_map.mp hlayer
    refine ⟨by simp, fun cell hcell => ?_⟩
    obtain ⟨c, _, rfl⟩ := List.mem_map.mp hcell
    simp
  cells r l c k o layer cell ho hl hlayer hcell hk := by
    have hmem : o ∈ observations := List.mem_of_getElem? ho
    have hlen : layer.length = o.height * o.width :=
      (hin o hmem).cells layer (List.mem_of_getElem? hlayer)
    have hc : c < layer.length := (List.getElem?_eq_some_iff.mp hcell).1
    have harea : o.height * o.width ≤ axis := haxis o hmem
    have hk' : k < (cellToArray cell).length := by rwa [cellToArray_length]
    rw [obsRow_entry ho hl (by omega) hk, channel, hlayer, Option.bind_some, hcell,
      Option.bind_some, List.getElem?_eq_getElem hk', Option.getD_some]
  zeros r l c k o ho hl hc hk hout := by
    rw [obsRow_entry ho hl hc hk, channel]
    rcases hout with hout | hout
    · rw [List.getElem?_eq_none hout]
      rfl
    · cases hlayer : o.board[l]? with
      | none => rfl
      | some layer =>
        have hlen : layer.length = o.height * o.width :=
          (hin o (List.mem_of_getElem? ho)).cells layer (List.mem_of_getElem? hlayer)
        rw [Option.bind_some, List.getElem?_eq_none (by omega)]
        rfl
  uncut := haxis

end Layout

section Build

variable {F : Type} {n lookahead : ℕ} {views : List ℕ} {obs : ℕ → List TilersObs} {w : World F}
variable {slots : ℕ → TilersSlot F} {observations : List TilersObs}

theorem cellAxis_obsRow (n m : ℕ) (observations : List TilersObs) :
    cellAxis (observations.map (obsRow n m)) =
      max 1 (maxArea (observations.map fun o => o.height * o.width)) := by
  rw [cellAxis, List.map_map]
  rfl

/-- The batch read from submitted slots is made of the rows of their observations. -/
theorem batched_submitted (hn : n ≤ LOOKAHEAD_MAX)
    (hsub : ∀ sv ∈ views, Submitted (obs sv) (slots sv)) :
    (extended ⟨[], [], [], [], [], [], []⟩ n slots views).batched.batch =
      ofRows ((views.flatMap obs).map (obsRow n
        (max 1 (maxArea ((views.flatMap obs).map fun o => o.height * o.width))))) := by
  have haxis : cellAxis ((views.flatMap obs).map (obsRow n GRID_MAX)) ≤ GRID_MAX := by
    refine cellAxis_le fun row hrow => ?_
    obtain ⟨o, ho, rfl⟩ := List.mem_map.mp hrow
    obtain ⟨sv, hsv, ho⟩ := List.mem_flatMap.mp ho
    exact ((hsub sv hsv).1 o ho).grid
  rw [batched_rows, viewRows_submitted hn hsub, List.map_map, ← cellAxis_obsRow n GRID_MAX]
  congr 1
  exact List.map_congr_left fun o _ => obsRow_trim haxis

/-- `build_board_batch` on submitted slots, when nothing raises. -/
theorem buildBoardBatch_submitted (hlook : lookahead + 1 ≤ LOOKAHEAD_MAX)
    (hsub : ∀ sv ∈ views, Submitted (obs sv) (w.slots sv)) :
    (buildBoardBatch (fun _ => none) views lookahead w).1 =
      if views = [] then .ok none
      else .ok (some
        (extended ⟨[], [], [], [], [], [], []⟩ (lookahead + 1) w.slots views).batched) := by
  have hvalid : validViews w.slots views = views := by
    refine List.filter_eq_self.mpr fun sv hsv => decide_eq_true ?_
    obtain ⟨hlen, hpos, _⟩ := (hsub sv hsv).spec
    omega
  obtain ⟨_, _, _, _, hbuild⟩ := buildBoardBatch_eq hlook (firstRead_none 0 views) w
  rw [hbuild, hvalid, collected, hvalid]
  split <;> rfl

/-- The agent is given the observations in their layout: the cells trimmed to the
largest grid, or to one cell. Without slots there is no batch. -/
theorem build_layout (lookahead : ℕ) (hlook : lookahead + 1 ≤ LOOKAHEAD_MAX) (views : List ℕ)
    (obs : ℕ → List TilersObs) (w : World F)
    (hsub : ∀ sv ∈ views, Submitted (obs sv) (w.slots sv)) :
    (views = [] → (buildBoardBatch (fun _ => none) views lookahead w).1 = .ok none) ∧
      (views ≠ [] → ∃ batched,
        (buildBoardBatch (fun _ => none) views lookahead w).1 = .ok (some batched) ∧
          Layout lookahead
            (max 1 (maxArea ((views.flatMap obs).map fun o => o.height * o.width)))
            (views.flatMap obs) batched.batch) := by
  rw [buildBoardBatch_submitted hlook hsub]
  refine ⟨fun hviews => if_pos hviews, fun hviews => ⟨_, if_neg hviews, ?_⟩⟩
  rw [batched_submitted hlook hsub]
  refine ofRows_layout lookahead (fun o ho => ?_) fun o ho => ?_
  · obtain ⟨sv, hsv, ho⟩ := List.mem_flatMap.mp ho
    exact (hsub sv hsv).1 o ho
  · rw [← cellAxis_obsRow 0 0]
    exact le_cellAxis (List.mem_map_of_mem (f := obsRow 0 0) ho)

end Build

section Runs

def stale : TilersSlot ℕ :=
  ⟨SlotProtocol.SLOT_READY, 5, 9, 9, fun _ => 9, fun _ => 9, fun _ => 9, fun _ => 3, fun _ _ => 9,
    fun _ => 1, fun _ => 9, fun _ => 9⟩

def actions : List Bool := true :: false :: true :: List.replicate 298 false

theorem actions_length : actions.length = NUM_ACTIONS := by
  rw [actions, List.length_cons, List.length_cons, List.length_cons, List.length_replicate]
  rfl

def mark : BoardCell := ⟨1, 2, 3, 4, 5, 6, 7, 8, 9, 10⟩

def wide : TilersObs := ⟨1, 2, 1, 2, [[mark, mark], [mark, mark]], actions⟩

def small : TilersObs := ⟨1, 1, 0, 1, [[mark]], actions⟩

def flat : TilersObs := ⟨0, 0, 0, 0, [], actions⟩

theorem wide_inRange : InRange wide := by
  refine ⟨by decide, by decide, by decide, by decide, by decide, ?_, actions_length⟩
  simp [wide]

theorem small_inRange : InRange small := by
  refine ⟨by decide, by decide, by decide, by decide, by decide, ?_, actions_length⟩
  simp [small]

theorem flat_inRange : InRange flat :=
  ⟨by decide, by decide, by decide, by decide, by decide, by simp [flat], actions_length⟩

def requests (sv : ℕ) : List TilersObs := if sv = 0 then [wide] else [small, flat]

def requestSlots (sv : ℕ) : TilersSlot ℕ :=
  packFrom 0 (requests sv) { stale with b := (requests sv).length }

theorem requests_submitted (sv : ℕ) : Submitted (requests sv) (requestSlots sv) := by
  refine submitted_packFrom (fun obs hobs => ?_) ?_ ?_ stale
  · rw [requests] at hobs
    split at hobs
    · rw [List.mem_singleton.mp hobs]
      exact wide_inRange
    · simp only [List.mem_cons, List.not_mem_nil, or_false] at hobs
      rcases hobs with rfl | rfl
      · exact small_inRange
      · exact flat_inRange
  · rw [requests]
    split <;> decide
  · rw [requests]
    split <;> decide

/-- Two slots with three observations of different sizes. -/
theorem build_layout_requests :
    ∃ batched, (buildBoardBatch (fun _ => none) [0, 1] 1 ⟨requestSlots, [], []⟩).1 =
      .ok (some batched) ∧ Layout 1 2 [wide, small, flat] batched.batch :=
  (build_layout 1 (by decide) [0, 1] requests ⟨requestSlots, [], []⟩
    fun sv _ => requests_submitted sv).2 (by decide)

def flatSlot : TilersSlot ℕ := packFrom 0 [flat] { stale with b := 1 }

theorem flat_submitted : Submitted [flat] flatSlot :=
  submitted_packFrom (fun _ hobs => List.mem_singleton.mp hobs ▸ flat_inRange) (by decide)
    (by decide) stale

/-- A grid without a cell is given one cell, more than the largest area; and no
slots give no arrays. -/
theorem flat_one_cell :
    InRange flat ∧ Submitted [flat] flatSlot ∧ maxArea [flat.height * flat.width] = 0 ∧
      (¬ ∃ batched, (buildBoardBatch (fun _ => none) [0] 1 ⟨fun _ => flatSlot, [], []⟩).1 =
        .ok (some batched) ∧ Layout 1 (maxArea [flat.height * flat.width]) [flat] batched.batch) ∧
      (buildBoardBatch (fun _ => none) [] 1 ⟨fun _ => flatSlot, [], []⟩).1 = .ok none := by
  have hsub : ∀ sv ∈ [0], Submitted [flat] ((fun _ => flatSlot) sv) := fun _ _ => flat_submitted
  refine ⟨flat_inRange, flat_submitted, rfl, ?_, rfl⟩
  rintro ⟨batched, hbuild, hlayout⟩
  rw [buildBoardBatch_submitted (w := ⟨fun _ => flatSlot, [], []⟩) (by decide) hsub] at hbuild
  have hbatched := Option.some.inj (Except.ok.inj hbuild)
  rw [← hbatched, batched_submitted (by decide) hsub] at hlayout
  have hcells := ((hlayout.shape _ List.mem_cons_self).2 _ List.mem_cons_self).1
  exact absurd hcells (by decide)

end Runs

end Mcts.BatchLayout
