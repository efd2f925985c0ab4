import Mcts.Regions
import Mcts.SlotProtocol

/-!
The slot of a request and how a client packs its observations into it. Boards
lie layer by layer and cell by cell, one array a row of the batch; the masks of
all rows share one array. Whatever a slot held before, packing overwrites it.
-/
namespace Mcts.Slots

open Regions
open SlotProtocol (MAX_BATCH)

def MAX_ANCILLAS : ℕ := 50

def NUM_ACTIONS : ℕ := 301

def GRID_MAX : ℕ := 400

def LOOKAHEAD_MAX : ℕ := 3

def CELL_FIELDS : ℕ := 10

def BOARD_LAYER_MAX : ℕ := 4000

def BOARD_MAX : ℕ := 12000

example : NUM_ACTIONS = 1 + 6 * MAX_ANCILLAS := rfl

example : BOARD_LAYER_MAX = GRID_MAX * CELL_FIELDS := rfl

example : BOARD_MAX = LOOKAHEAD_MAX * BOARD_LAYER_MAX := rfl

/-- The channels of a cell, i16 each. -/
structure BoardCell where
  qubitRole : ℤ
  factorKind : ℤ
  resourceKind : ℤ
  ppGroupRow : ℤ
  ppGroupCol : ℤ
  ancillaIdx : ℤ
  lastMoveDir : ℤ
  weightInPp : ℤ
  isHubForPp : ℤ
  isYReady : ℤ
deriving DecidableEq

def cellToArray (c : BoardCell) : List ℤ :=
  [c.qubitRole, c.factorKind, c.resourceKind, c.ppGroupRow, c.ppGroupCol, c.ancillaIdx,
    c.lastMoveDir, c.weightInPp, c.isHubForPp, c.isYReady]

structure TilersObs where
  height : ℕ
  width : ℕ
  numAncillas : ℕ
  numLayers : ℕ
  board : List (List BoardCell)
  actionMask : List Bool

/-- Arrays are regions; `F` stands for f32. Times are left out. -/
structure TilersSlot (F : Type) where
  state : ℕ
  b : ℕ
  ownerId : ℕ
  reqId : ℕ
  h : ℕ → ℕ
  w : ℕ → ℕ
  numAncillas : ℕ → ℕ
  numLayers : ℕ → ℕ
  board : ℕ → ℕ → ℤ
  actionMask : ℕ → ℕ
  priors : ℕ → F
  values : ℕ → F

/-- The layers of a board from the `l`th on; a layer's cells lie one after another. -/
def packLayers : ℕ → List (List BoardCell) → (ℕ → ℤ) → ℕ → ℤ
  | _, [], mem => mem
  | l, layer :: rest, mem => packLayers (l + 1) rest
      (copyRows (l * BOARD_LAYER_MAX) CELL_FIELDS 0 ((layer.take GRID_MAX).map cellToArray) mem)

/-- The actions of a mask from the `a`th on, in a slice that starts at `off`. -/
def packMask (off : ℕ) : ℕ → List Bool → (ℕ → ℕ) → ℕ → ℕ
  | _, [], mem => mem
  | a, m :: rest, mem => packMask off (a + 1) rest
      (if a < NUM_ACTIONS ∧ m = true then Function.update mem (off + a) 1 else mem)

variable {F : Type}

/-- The body of the loop over observations; sizes are cast to u8. -/
def packObservation (i : ℕ) (obs : TilersObs) (s : TilersSlot F) : TilersSlot F :=
  let nl := min obs.board.length LOOKAHEAD_MAX
  { s with
    h := Function.update s.h i (obs.height % 256)
    w := Function.update s.w i (obs.width % 256)
    numAncillas := Function.update s.numAncillas i (obs.numAncillas % 256)
    numLayers := Function.update s.numLayers i (nl % 256)
    board := Function.update s.board i
      (packLayers 0 (obs.board.take nl) (fill 0 BOARD_MAX 0 (s.board i)))
    actionMask := packMask (i * NUM_ACTIONS) 0 obs.actionMask
      (fill (i * NUM_ACTIONS) NUM_ACTIONS 0 s.actionMask) }

def packFrom : ℕ → List TilersObs → TilersSlot F → TilersSlot F
  | _, [], s => s
  | i, obs :: rest, s => packFrom (i + 1) rest (packObservation i obs s)

def packObservations (observations : List TilersObs) (s : TilersSlot F) :
    Except String (TilersSlot F) :=
  let b := observations.length
  if b = 0 ∨ MAX_BATCH < b then .error s!"batch size {b} out of range (1..={MAX_BATCH})"
  else .ok (packFrom 0 observations { s with b := b })

/-- An observation that fits its slot: sizes are bytes, the grid and the layers
are within their maximum, and each layer has a cell for each place of the grid. -/
structure InRange (obs : TilersObs) : Prop where
  height : obs.height ≤ 255
  width : obs.width ≤ 255
  numAncillas : obs.numAncillas ≤ 255
  grid : obs.height * obs.width ≤ GRID_MAX
  layers : obs.board.length ≤ LOOKAHEAD_MAX
  cells : ∀ layer ∈ obs.board, layer.length = obs.height * obs.width
  mask : obs.actionMask.length = NUM_ACTIONS

section Memory

variable {off l c k a i : ℕ} {mem : ℕ → ℤ} {layers : List (List BoardCell)}

theorem cellToArray_length (cell : BoardCell) : (cellToArray cell).length = CELL_FIELDS := rfl

theorem packLayers_below (h : off < l * BOARD_LAYER_MAX) :
    packLayers l layers mem off = mem off := by
  induction layers generalizing l mem with
  | nil => rfl
  | cons layer rest ih =>
    have hnext : (l + 1) * BOARD_LAYER_MAX = l * BOARD_LAYER_MAX + BOARD_LAYER_MAX :=
      Nat.succ_mul l BOARD_LAYER_MAX
    rw [packLayers, ih (by omega), copyRows_below (by omega)]

/-- A channel of a cell of a packed layer. -/
theorem packLayers_at (hc : c < GRID_MAX) (hk : k < CELL_FIELDS) :
    packLayers i layers mem ((i + l) * BOARD_LAYER_MAX + c * CELL_FIELDS + k) =
      (((layers[l]?).bind (·[c]?)).bind fun cell => (cellToArray cell)[k]?).getD
        (mem ((i + l) * BOARD_LAYER_MAX + c * CELL_FIELDS + k)) := by
  induction layers generalizing i l mem with
  | nil => rfl
  | cons layer rest ih =>
    have hlen : ∀ row ∈ (layer.take GRID_MAX).map cellToArray, row.length ≤ CELL_FIELDS := by
      intro row hrow
      obtain ⟨cell, _, rfl⟩ := List.mem_map.mp hrow
      exact Nat.le_of_eq (cellToArray_length cell)
    have hcell : c * CELL_FIELDS + k < BOARD_LAYER_MAX := by
      rw [GRID_MAX] at hc
      rw [CELL_FIELDS] at hk ⊢
      rw [BOARD_LAYER_MAX]
      omega
    rw [packLayers]
    cases l with
    | zero =>
      have hnext : (i + 1) * BOARD_LAYER_MAX = i * BOARD_LAYER_MAX + BOARD_LAYER_MAX :=
        Nat.succ_mul i BOARD_LAYER_MAX
      rw [Nat.add_zero i, packLayers_below (by omega), copyRows_zero_at hlen hk,
        List.getElem?_map, List.getElem?_take, if_pos hc, List.getElem?_cons_zero,
        Option.bind_some, Option.bind_map]
      rfl
    | succ l =>
      have hshift : i + (l + 1) = i + 1 + l := by omega
      have hpast : i * BOARD_LAYER_MAX + BOARD_LAYER_MAX ≤ (i + 1 + l) * BOARD_LAYER_MAX := by
        rw [← Nat.succ_mul]
        exact Nat.mul_le_mul_right _ (by omega)
      have hrows : (0 + ((layer.take GRID_MAX).map cellToArray).length) * CELL_FIELDS ≤
          BOARD_LAYER_MAX := by
        rw [Nat.zero_add, List.length_map, List.length_take]
        simp only [GRID_MAX, CELL_FIELDS, BOARD_LAYER_MAX]
        omega
      rw [hshift, ih, copyRows_above hlen (by omega), List.getElem?_cons_succ]

variable {mask : ℕ → ℕ} {ms : List Bool}

theorem packMask_out (h : off < i + a ∨ i + NUM_ACTIONS ≤ off) :
    packMask i a ms mask off = mask off := by
  induction ms generalizing a mask with
  | nil => rfl
  | cons m rest ih =>
    rw [packMask, ih (by omega)]
    split
    · rw [Function.update_of_ne (by omega)]
    · rfl

/-- A bit of a packed mask. -/
theorem packMask_at (ha : i + a < NUM_ACTIONS) :
    packMask off i ms mask (off + (i + a)) =
      if ms[a]? = some true then 1 else mask (off + (i + a)) := by
  induction ms generalizing i a mask with
  | nil => rfl
  | cons m rest ih =>
    rw [packMask]
    cases a with
    | zero =>
      rw [packMask_out (by omega), List.getElem?_cons_zero]
      cases m
      · simp
      · rw [if_pos ⟨by omega, rfl⟩, if_pos rfl, Nat.add_zero, Function.update_self]
    | succ a =>
      have hshift : i + (a + 1) = i + 1 + a := by omega
      rw [hshift, ih (by omega), List.getElem?_cons_succ]
      congr 1
      split
      · rw [Function.update_of_ne (by omega)]
      · rfl

end Memory

section Packed

/-- A row of the slot holds an observation, and nothing from before. -/
structure Holds (obs : TilersObs) (s : TilersSlot F) (r : ℕ) : Prop where
  h : s.h r = obs.height % 256
  w : s.w r = obs.width % 256
  numAncillas : s.numAncillas r = obs.numAncillas % 256
  board : ∀ l c k, l < LOOKAHEAD_MAX → c < GRID_MAX → k < CELL_FIELDS →
    s.board r (l * BOARD_LAYER_MAX + c * CELL_FIELDS + k) =
      (((obs.board[l]?).bind (·[c]?)).bind fun cell => (cellToArray cell)[k]?).getD 0
  actionMask : ∀ a, a < NUM_ACTIONS →
    s.actionMask (r * NUM_ACTIONS + a) = if obs.actionMask[a]? = some true then 1 else 0

variable {obs obs' : TilersObs} {s : TilersSlot F} {i r a : ℕ}

theorem packObservation_holds (i : ℕ) (obs : TilersObs) (s : TilersSlot F) :
    Holds obs (packObservation i obs s) i where
  h := Function.update_self i _ _
  w := Function.update_self i _ _
  numAncillas := Function.update_self i _ _
  board l c k hl hc hk := by
    have hlast : l * BOARD_LAYER_MAX + c * CELL_FIELDS + k < BOARD_MAX := by
      rw [LOOKAHEAD_MAX] at hl
      rw [GRID_MAX] at hc
      rw [CELL_FIELDS] at hk ⊢
      rw [BOARD_LAYER_MAX, BOARD_MAX]
      omega
    have htake : (obs.board.take (min obs.board.length LOOKAHEAD_MAX))[l]? = obs.board[l]? := by
      by_cases hshort : l < obs.board.length
      · rw [List.getElem?_take, if_pos (by omega)]
      · rw [List.getElem?_eq_none (Nat.le_trans (List.length_take_le' _ _) (by omega)),
          List.getElem?_eq_none (by omega)]
    have hat : packLayers 0 (obs.board.take (min obs.board.length LOOKAHEAD_MAX))
        (fill 0 BOARD_MAX 0 (s.board i)) ((0 + l) * BOARD_LAYER_MAX + c * CELL_FIELDS + k) = _ :=
      packLayers_at hc hk
    rw [Nat.zero_add, htake, fill_in (Nat.zero_le _) (by omega)] at hat
    simpa only [packObservation, Function.update_self] using hat
  actionMask a ha := by
    have hat : packMask (i * NUM_ACTIONS) 0 obs.actionMask
        (fill (i * NUM_ACTIONS) NUM_ACTIONS 0 s.actionMask) (i * NUM_ACTIONS + (0 + a)) = _ :=
      packMask_at (by omega)
    rw [Nat.zero_add, fill_in (by omega) (by omega)] at hat
    exact hat

/-- Packing one row leaves the others as they are. -/
theorem Holds.packObservation (h : Holds obs s r) (hne : r ≠ i) :
    Holds obs (packObservation i obs' s) r where
  h := (Function.update_of_ne hne _ _).trans h.h
  w := (Function.update_of_ne hne _ _).trans h.w
  numAncillas := (Function.update_of_ne hne _ _).trans h.numAncillas
  board l c k hl hc hk := by
    have hrow : (Slots.packObservation i obs' s).board r = s.board r :=
      Function.update_of_ne hne _ _
    rw [hrow]
    exact h.board l c k hl hc hk
  actionMask a ha := by
    have hapart : r * NUM_ACTIONS + a < i * NUM_ACTIONS ∨
        i * NUM_ACTIONS + NUM_ACTIONS ≤ r * NUM_ACTIONS + a := by
      rcases Nat.lt_or_gt_of_ne hne with hlt | hlt
      · have hnext := Nat.mul_le_mul_right NUM_ACTIONS hlt
        rw [Nat.succ_mul] at hnext
        omega
      · have hnext := Nat.mul_le_mul_right NUM_ACTIONS hlt
        rw [Nat.succ_mul] at hnext
        omega
    have hmask : (Slots.packObservation i obs' s).actionMask (r * NUM_ACTIONS + a) =
        s.actionMask (r * NUM_ACTIONS + a) := by
      simp only [Slots.packObservation]
      rw [packMask_out (by omega), fill_out hapart]
    rw [hmask]
    exact h.actionMask a ha

theorem Holds.packFrom {rest : List TilersObs} (h : Holds obs s r) (hlt : r < i) :
    Holds obs (packFrom i rest s) r := by
  induction rest generalizing i s with
  | nil => exact h
  | cons next rest ih => exact ih (h.packObservation (by omega)) (by omega)

theorem packFrom_holds {observations : List TilersObs} (hobs : observations[r]? = some obs) :
    Holds obs (packFrom i observations s) (i + r) := by
  induction observations generalizing i r s with
  | nil => exact absurd hobs (by simp)
  | cons first rest ih =>
    cases r with
    | zero =>
      cases hobs
      exact (packObservation_holds i obs s).packFrom (Nat.lt_succ_self i)
    | succ r =>
      have hshift : i + (r + 1) = i + 1 + r := by omega
      rw [hshift]
      exact ih hobs

theorem packFrom_b (i : ℕ) (observations : List TilersObs) (s : TilersSlot F) :
    (packFrom i observations s).b = s.b := by
  induction observations generalizing i s with
  | nil => rfl
  | cons first rest ih => exact ih (i + 1) (packObservation i first s)

/-- Packing a batch that is not too large succeeds, and each row holds its observation. -/
theorem packObservations_spec {observations : List TilersObs} (hpos : 0 < observations.length)
    (hmax : observations.length ≤ MAX_BATCH) (stale : TilersSlot F) :
    ∃ slot, packObservations observations stale = .ok slot ∧ slot.b = observations.length ∧
      ∀ r obs, observations[r]? = some obs → Holds obs slot r := by
  refine ⟨_, if_neg (by omega), packFrom_b _ _ _, fun r obs hobs => ?_⟩
  have hrow := packFrom_holds (i := 0) (s := { stale with b := observations.length }) hobs
  rwa [Nat.zero_add] at hrow

end Packed

end Mcts.Slots
