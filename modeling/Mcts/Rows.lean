import Mcts.Collecting

/-!
A batch row by row. `build_board_batch` returns one row for each row of a slot,
in order, with all boards cut to the largest grid. Of a slot into which
observations were packed the rows are those of the observations, whatever it
held before.
-/
namespace Mcts.Rows

open Slots Handler Collecting
open SlotProtocol (MAX_BATCH)

section Rows

structure Row where
  board : Board
  height : ℕ
  width : ℕ
  numAncillas : ℕ
  actionMask : List Bool

def ofRows (rows : List Row) : Batch where
  boards := rows.map (·.board)
  heights := rows.map (·.height)
  widths := rows.map (·.width)
  numAncillas := rows.map (·.numAncillas)
  actionMasks := rows.map (·.actionMask)

def Row.area (row : Row) : ℕ := row.height * row.width

def Row.trim (cells : ℕ) (row : Row) : Row :=
  { row with board := row.board.map fun layer => layer.take cells }

def maxArea (areas : List ℕ) : ℕ := areas.foldl max 0

/-- The cells that are left of a layer: the largest area, or 1. -/
def cellAxis (rows : List Row) : ℕ := max 1 (maxArea (rows.map Row.area))

theorem maxArea_le {areas : List ℕ} {b m : ℕ} (hb : b ≤ m) (h : ∀ x ∈ areas, x ≤ m) :
    areas.foldl max b ≤ m := by
  induction areas generalizing b with
  | nil => exact hb
  | cons x rest ih =>
    exact ih (Nat.max_le.mpr ⟨hb, h x List.mem_cons_self⟩) fun y hy =>
      h y (List.mem_cons_of_mem x hy)

theorem le_maxArea {areas : List ℕ} {b x : ℕ} (hx : x ≤ b ∨ x ∈ areas) :
    x ≤ areas.foldl max b := by
  induction areas generalizing b with
  | nil => exact hx.resolve_right List.not_mem_nil
  | cons y rest ih =>
    apply ih
    rcases hx with hx | hx
    · exact Or.inl (Nat.le_trans hx (Nat.le_max_left b y))
    · rcases List.mem_cons.mp hx with rfl | hx
      · exact Or.inl (Nat.le_max_right b x)
      · exact Or.inr hx

theorem le_cellAxis {rows : List Row} {row : Row} (h : row ∈ rows) : row.area ≤ cellAxis rows :=
  Nat.le_trans (le_maxArea (Or.inr (List.mem_map_of_mem h))) (Nat.le_max_right 1 _)

theorem cellAxis_le {rows : List Row} (h : ∀ row ∈ rows, row.area ≤ GRID_MAX) :
    cellAxis rows ≤ GRID_MAX := by
  refine Nat.max_le.mpr ⟨by decide, maxArea_le (Nat.zero_le _) fun x hx => ?_⟩
  obtain ⟨row, hrow, rfl⟩ := List.mem_map.mp hx
  exact h row hrow

end Rows

variable {F : Type} {n cells r : ℕ} {s : TilersSlot F} {slots : ℕ → TilersSlot F} {views : List ℕ}

section Read

/-- A row of a slot, with all the cells that the slot has room for. -/
def slotRow (n : ℕ) (s : TilersSlot F) (r : ℕ) : Row where
  board := (reshape (s.board r)).take n
  height := s.h r
  width := s.w r
  numAncillas := s.numAncillas r
  actionMask := (maskRow s r).map (· ≠ 0)

def slotRows (n : ℕ) (s : TilersSlot F) : List Row := rowsOf s (slotRow n s)

def viewRows (n : ℕ) (slots : ℕ → TilersSlot F) (views : List ℕ) : List Row :=
  views.flatMap fun sv => slotRows n (slots sv)

theorem slotRows_length (n : ℕ) (s : TilersSlot F) : (slotRows n s).length = batchLen s := by
  rw [slotRows, rowsOf, List.length_map, List.length_range]

/-- A list of one entry a slot, strung together, has one entry a row. -/
theorem flatten_viewRows {α : Type} (n : ℕ) (slots : ℕ → TilersSlot F) (views : List ℕ)
    (g : Row → α) :
    (views.map fun sv => rowsOf (slots sv) fun r => g (slotRow n (slots sv) r)).flatten =
      (viewRows n slots views).map g := by
  rw [viewRows, List.map_flatMap, List.flatMap]
  simp only [slotRows, rowsOf, List.map_map, Function.comp_def]

/-- The batch is made of the rows of the slots, cut to the largest grid. -/
theorem batched_rows (n : ℕ) (slots : ℕ → TilersSlot F) (views : List ℕ) :
    (extended ⟨[], [], [], [], [], [], []⟩ n slots views).batched.batch =
      ofRows ((viewRows n slots views).map (Row.trim (cellAxis (viewRows n slots views)))) := by
  have hheights : (views.map fun sv => rowsOf (slots sv) (slots sv).h).flatten = _ :=
    flatten_viewRows n slots views (·.height)
  have hwidths : (views.map fun sv => rowsOf (slots sv) (slots sv).w).flatten = _ :=
    flatten_viewRows n slots views (·.width)
  have hancillas : (views.map fun sv => rowsOf (slots sv) (slots sv).numAncillas).flatten = _ :=
    flatten_viewRows n slots views (·.numAncillas)
  have haxis : maxHw ((viewRows n slots views).map (·.height))
      ((viewRows n slots views).map (·.width)) = cellAxis (viewRows n slots views) := by
    rw [maxHw, List.zipWith_map, List.zipWith_self]
    rfl
  have hboards := flatten_viewRows n slots views fun row =>
    row.board.map fun layer => layer.take (cellAxis (viewRows n slots views))
  have hmasks := flatten_viewRows n slots views (·.actionMask)
  simp only [Lists.batched, extended, List.nil_append, hheights, hwidths, hancillas, haxis,
    ofRows, List.map_map, Function.comp_def, Row.trim, Batch.mk.injEq, true_and]
  constructor
  · rw [← hboards]
    simp only [slotRow, rowsOf, List.map_map, Function.comp_def]
  · rw [← hmasks, List.map_flatten, List.map_map]
    simp only [slotRow, rowsOf, List.map_map, Function.comp_def]

end Read

section Observation

variable {o : TilersObs} {observations : List TilersObs} {obs : ℕ → List TilersObs}

/-- A channel of a cell of an observation, 0 where it has no such cell. -/
def channel (o : TilersObs) (l c k : ℕ) : ℤ :=
  (((o.board[l]?).bind (·[c]?)).bind fun cell => (cellToArray cell)[k]?).getD 0

def obsRow (n cells : ℕ) (o : TilersObs) : Row where
  board := (List.range n).map fun l => (List.range cells).map fun c =>
    (List.range CELL_FIELDS).map fun k => channel o l c k
  height := o.height
  width := o.width
  numAncillas := o.numAncillas
  actionMask := o.actionMask

theorem obsRow_trim {m : ℕ} (h : cells ≤ m) : (obsRow n m o).trim cells = obsRow n cells o := by
  simp only [Row.trim, obsRow, List.map_map, Function.comp_def, ← List.map_take, List.take_range,
    Nat.min_eq_left h]

/-- The row-major offset of a channel is the one it was packed at. -/
theorem offset_eq (l c k : ℕ) :
    (l * GRID_MAX + c) * CELL_FIELDS + k = l * BOARD_LAYER_MAX + c * CELL_FIELDS + k := by
  rw [GRID_MAX, CELL_FIELDS, BOARD_LAYER_MAX]
  omega

theorem reshape_holds (h : Holds o s r) (hn : n ≤ LOOKAHEAD_MAX) :
    (reshape (s.board r)).take n = (obsRow n GRID_MAX o).board := by
  rw [reshape, ← List.map_take, List.take_range, Nat.min_eq_left hn, obsRow]
  refine List.map_congr_left fun l hl => List.map_congr_left fun c hc =>
    List.map_congr_left fun k hk => ?_
  rw [List.mem_range] at hl hc hk
  rw [offset_eq]
  exact h.board l c k (by omega) hc hk

theorem maskRow_holds (h : Holds o s r) (ho : InRange o) :
    (maskRow s r).map (fun m => decide (m ≠ 0)) = o.actionMask := by
  apply List.ext_getElem
  · simp [maskRow, ho.mask]
  · intro a _ ha
    have hmask := h.actionMask a (ho.mask ▸ ha)
    rw [List.getElem?_eq_getElem ha] at hmask
    simp only [maskRow, List.map_map, List.getElem_map, List.getElem_range, Function.comp_apply,
      hmask, Option.some.injEq]
    cases o.actionMask[a] <;> rfl

/-- The handler reads the row of the observation that was packed. -/
theorem slotRow_holds (h : Holds o s r) (ho : InRange o) (hn : n ≤ LOOKAHEAD_MAX) :
    slotRow n s r = obsRow n GRID_MAX o := by
  have hheight : s.h r = o.height := by
    rw [h.h]
    exact Nat.mod_eq_of_lt (Nat.lt_succ_of_le ho.height)
  have hwidth : s.w r = o.width := by
    rw [h.w]
    exact Nat.mod_eq_of_lt (Nat.lt_succ_of_le ho.width)
  have hancillas : s.numAncillas r = o.numAncillas := by
    rw [h.numAncillas]
    exact Nat.mod_eq_of_lt (Nat.lt_succ_of_le ho.numAncillas)
  rw [slotRow, reshape_holds h hn, hheight, hwidth, hancillas, maskRow_holds h ho]
  rfl

/-- A slot as a client submits it: its observations packed over stale contents,
the state word and the outputs as others have left them. -/
def Submitted (observations : List TilersObs) (s : TilersSlot F) : Prop :=
  (∀ o ∈ observations, InRange o) ∧
    ∃ (stale packed : TilersSlot F) (state : ℕ) (priors values : ℕ → F),
      packObservations observations stale = .ok packed ∧
        s = { packed with state := state, priors := priors, values := values }

/-- A slot as packing leaves it is submitted. -/
theorem submitted_packFrom (hin : ∀ o ∈ observations, InRange o)
    (hpos : 0 < observations.length) (hmax : observations.length ≤ MAX_BATCH)
    (stale : TilersSlot F) :
    Submitted observations (packFrom 0 observations { stale with b := observations.length }) :=
  ⟨hin, stale, _, _, _, _, if_neg (by omega), rfl⟩

/-- What the handler finds in a submitted slot. -/
theorem Submitted.spec (h : Submitted observations s) : batchLen s = observations.length ∧
    0 < observations.length ∧ ∀ r o, observations[r]? = some o → Holds o s r := by
  obtain ⟨_, stale, packed, state, priors, values, hpack, rfl⟩ := h
  have hsize : 0 < observations.length ∧ observations.length ≤ MAX_BATCH := by
    by_contra hout
    rw [packObservations] at hpack
    split at hpack
    · cases hpack
    · omega
  obtain ⟨slot, hslot, hb, hholds⟩ := packObservations_spec hsize.1 hsize.2 stale
  cases hpack.symm.trans hslot
  refine ⟨?_, hsize.1, fun r o ho => ?_⟩
  · rw [batchLen, hb, Nat.min_eq_left hsize.2]
  · obtain ⟨hh, hw, hanc, hboard, hmask⟩ := hholds r o ho
    exact ⟨hh, hw, hanc, hboard, hmask⟩

/-- The rows of a submitted slot are those of its observations. -/
theorem slotRows_submitted (h : Submitted observations s) (hn : n ≤ LOOKAHEAD_MAX) :
    slotRows n s = observations.map (obsRow n GRID_MAX) := by
  obtain ⟨hlen, _, hholds⟩ := h.spec
  apply List.ext_getElem
  · rw [slotRows_length, hlen, List.length_map]
  · intro r _ hr
    rw [List.length_map] at hr
    simp only [slotRows, rowsOf, List.getElem_map, List.getElem_range]
    exact slotRow_holds (hholds r _ (List.getElem?_eq_getElem hr)) (h.1 _ (List.getElem_mem hr)) hn

theorem viewRows_submitted (hn : n ≤ LOOKAHEAD_MAX)
    (hsub : ∀ sv ∈ views, Submitted (obs sv) (slots sv)) :
    viewRows n slots views = (views.flatMap obs).map (obsRow n GRID_MAX) := by
  rw [viewRows, List.map_flatMap]
  exact List.flatMap_congr fun sv hsv => slotRows_submitted (hsub sv hsv) hn

end Observation

end Mcts.Rows
