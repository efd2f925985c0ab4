import Mcts.Slots

/-!
Reading observations back out of a slot. Packing casts sizes to a byte and cuts
boards to the room there is, so a batch comes back as it was exactly when no
observation in it is too large; whatever the slot held before does not matter.
-/
namespace Mcts.Unpacking

open Regions Slots
open SlotProtocol (MAX_BATCH)

variable {F : Type}

def cellFromSlice (mem : ℕ → ℤ) (off : ℕ) : BoardCell where
  qubitRole := mem off
  factorKind := mem (off + 1)
  resourceKind := mem (off + 2)
  ppGroupRow := mem (off + 3)
  ppGroupCol := mem (off + 4)
  ancillaIdx := mem (off + 5)
  lastMoveDir := mem (off + 6)
  weightInPp := mem (off + 7)
  isHubForPp := mem (off + 8)
  isYReady := mem (off + 9)

def unpackBoard (nl hw : ℕ) (mem : ℕ → ℤ) : List (List BoardCell) :=
  (List.range nl).map fun l =>
    (List.range hw).map fun c => cellFromSlice mem (l * BOARD_LAYER_MAX + c * CELL_FIELDS)

def unpackMask (off : ℕ) (mem : ℕ → ℕ) : List Bool :=
  (List.range NUM_ACTIONS).map fun a => decide (mem (off + a) ≠ 0)

def unpackObservation (s : TilersSlot F) (i : ℕ) : TilersObs :=
  let height := s.h i
  let width := s.w i
  let nl := min (s.numLayers i) LOOKAHEAD_MAX
  let hw := min (height * width) GRID_MAX
  { height := height
    width := width
    numAncillas := s.numAncillas i
    numLayers := nl
    board := unpackBoard nl hw (s.board i)
    actionMask := unpackMask (i * NUM_ACTIONS) s.actionMask }

def unpackObservations (s : TilersSlot F) : List TilersObs :=
  (List.range s.b).map (unpackObservation s)

structure Shaped (obs : TilersObs) : Prop where
  layers : obs.numLayers = obs.board.length
  cells : ∀ layer ∈ obs.board, layer.length = obs.height * obs.width
  mask : obs.actionMask.length = NUM_ACTIONS

/-- Nothing of the observation is too large for a row of the slot. -/
structure Representable (obs : TilersObs) : Prop where
  height : obs.height ≤ 255
  width : obs.width ≤ 255
  numAncillas : obs.numAncillas ≤ 255
  layers : obs.board.length ≤ LOOKAHEAD_MAX
  grid : obs.board = [] ∨ obs.height * obs.width ≤ GRID_MAX

section Row

variable {obs : TilersObs} {s : TilersSlot F} {i r : ℕ} {observations : List TilersObs}

def storedLayers (obs : TilersObs) : ℕ := min obs.board.length LOOKAHEAD_MAX % 256

theorem packFrom_numLayers_before (i : ℕ) (observations : List TilersObs) (s : TilersSlot F)
    (hlt : r < i) : (packFrom i observations s).numLayers r = s.numLayers r := by
  induction observations generalizing i s with
  | nil => rfl
  | cons first rest ih =>
    rw [packFrom, ih (i + 1) _ (by omega)]
    exact Function.update_of_ne (by omega) _ _

theorem packFrom_numLayers (hobs : observations[r]? = some obs) :
    (packFrom i observations s).numLayers (i + r) = storedLayers obs := by
  induction observations generalizing i r s with
  | nil => exact absurd hobs (by simp)
  | cons first rest ih =>
    cases r with
    | zero =>
      cases hobs
      refine (packFrom_numLayers_before (i + 1) rest _ (Nat.lt_succ_self i)).trans ?_
      exact Function.update_self i _ _
    | succ r =>
      have hshift : i + (r + 1) = i + 1 + r := by omega
      rw [packFrom, hshift]
      exact ih hobs

theorem min_storedLayers (obs : TilersObs) :
    min (storedLayers obs) LOOKAHEAD_MAX = min obs.board.length LOOKAHEAD_MAX := by
  have hsmall : min obs.board.length LOOKAHEAD_MAX % 256 = min obs.board.length LOOKAHEAD_MAX :=
    Nat.mod_eq_of_lt (by simp only [LOOKAHEAD_MAX]; omega)
  rw [storedLayers, hsmall, Nat.min_assoc, Nat.min_self]

/-- A cell is its channels. -/
theorem cellFromSlice_eq {mem : ℕ → ℤ} {off : ℕ} {cell : BoardCell}
    (h : ∀ k, k < CELL_FIELDS → mem (off + k) = ((cellToArray cell)[k]?).getD 0) :
    cellFromSlice mem off = cell := by
  obtain ⟨c0, c1, c2, c3, c4, c5, c6, c7, c8, c9⟩ := cell
  simp only [cellFromSlice, BoardCell.mk.injEq]
  exact ⟨h 0 (by decide), h 1 (by decide), h 2 (by decide), h 3 (by decide), h 4 (by decide),
    h 5 (by decide), h 6 (by decide), h 7 (by decide), h 8 (by decide), h 9 (by decide)⟩

/-- The board of a row, with as many layers and cells as are asked for. -/
theorem unpackBoard_holds (h : Holds obs s r) (hlayers : obs.board.length ≤ LOOKAHEAD_MAX)
    {hw : ℕ} (hgrid : obs.board = [] ∨ hw ≤ GRID_MAX)
    (hcells : ∀ layer ∈ obs.board, layer.length = hw) :
    unpackBoard obs.board.length hw (s.board r) = obs.board := by
  apply List.ext_getElem
  · simp [unpackBoard]
  · intro l _ hl
    have hne : obs.board ≠ [] := fun hnil => by simp [hnil] at hl
    have hlength := hcells _ (List.getElem_mem hl)
    simp only [unpackBoard, List.getElem_map, List.getElem_range]
    apply List.ext_getElem
    · simp [hlength]
    · intro c _ hc
      simp only [List.getElem_map, List.getElem_range]
      apply cellFromSlice_eq
      intro k hk
      rw [h.board l c k (by omega) (by have := hgrid.resolve_left hne; omega) hk,
        List.getElem?_eq_getElem hl, Option.bind_some, List.getElem?_eq_getElem hc,
        Option.bind_some]

theorem unpackMask_holds (h : Holds obs s r) (hmask : obs.actionMask.length = NUM_ACTIONS) :
    unpackMask (r * NUM_ACTIONS) s.actionMask = obs.actionMask := by
  apply List.ext_getElem
  · simp [unpackMask, hmask]
  · intro a _ ha
    simp only [unpackMask, List.getElem_map, List.getElem_range]
    rw [h.actionMask a (hmask ▸ ha), List.getElem?_eq_getElem ha]
    cases obs.actionMask[a] <;> rfl

/-- What comes back from a row fits into it. -/
theorem representable_of_unpacked (hobs : Shaped obs) (h : Holds obs s r)
    (hlayers : s.numLayers r = storedLayers obs) (heq : unpackObservation s r = obs) :
    Representable obs := by
  have hheight : s.h r = obs.height := congrArg TilersObs.height heq
  have hwidth : s.w r = obs.width := congrArg TilersObs.width heq
  have hancillas : s.numAncillas r = obs.numAncillas := congrArg TilersObs.numAncillas heq
  have hnum : min (s.numLayers r) LOOKAHEAD_MAX = obs.numLayers := congrArg TilersObs.numLayers heq
  have hboard : unpackBoard (min (s.numLayers r) LOOKAHEAD_MAX) (min (s.h r * s.w r) GRID_MAX)
      (s.board r) = obs.board := congrArg TilersObs.board heq
  rw [hlayers, min_storedLayers, hobs.layers] at hnum
  have hbyte : ∀ {stored size : ℕ}, stored = size % 256 → stored = size → size ≤ 255 := by
    intro stored size hstored hsize
    omega
  refine ⟨hbyte h.h hheight, hbyte h.w hwidth, hbyte h.numAncillas hancillas, by omega, ?_⟩
  cases hlist : obs.board with
  | nil => exact Or.inl rfl
  | cons layer rest =>
    -- the first layer that is read has no more cells than there is room for
    right
    rw [hlist] at hboard
    have hlayer : layer ∈ unpackBoard (min (s.numLayers r) LOOKAHEAD_MAX)
        (min (s.h r * s.w r) GRID_MAX) (s.board r) := hboard ▸ List.mem_cons_self
    obtain ⟨l, _, hl⟩ := List.mem_map.mp hlayer
    have hroom : layer.length = min (s.h r * s.w r) GRID_MAX := by simp [← hl]
    have hcells := hobs.cells layer (hlist ▸ List.mem_cons_self)
    omega

/-- What fits into a row comes back from it. -/
theorem unpacked_of_representable (hobs : Shaped obs) (h : Holds obs s r)
    (hlayers : s.numLayers r = storedLayers obs) (hrep : Representable obs) :
    unpackObservation s r = obs := by
  have hbyte : ∀ {stored size : ℕ}, stored = size % 256 → size ≤ 255 → stored = size := by
    intro stored size hstored hsize
    omega
  have hheight : s.h r = obs.height := hbyte h.h hrep.height
  have hwidth : s.w r = obs.width := hbyte h.w hrep.width
  have hancillas : s.numAncillas r = obs.numAncillas := hbyte h.numAncillas hrep.numAncillas
  have hnum : min (s.numLayers r) LOOKAHEAD_MAX = obs.board.length := by
    rw [hlayers, min_storedLayers, Nat.min_eq_left hrep.layers]
  have hboard : unpackBoard obs.board.length (min (obs.height * obs.width) GRID_MAX)
      (s.board r) = obs.board := by
    refine unpackBoard_holds h hrep.layers (Or.inr (Nat.min_le_right _ _)) fun layer hlayer => ?_
    have hgrid := hrep.grid.resolve_left (List.ne_nil_of_mem hlayer)
    rw [hobs.cells layer hlayer, Nat.min_eq_left hgrid]
  unfold unpackObservation
  dsimp only
  rw [hheight, hwidth, hancillas, hnum, hboard, unpackMask_holds h hobs.mask, ← hobs.layers]

/-- A row gives its observation back exactly if the observation is representable. -/
theorem unpackObservation_eq_iff (hobs : Shaped obs) (h : Holds obs s r)
    (hlayers : s.numLayers r = storedLayers obs) :
    unpackObservation s r = obs ↔ Representable obs :=
  ⟨representable_of_unpacked hobs h hlayers, unpacked_of_representable hobs h hlayers⟩

end Row

section Batch

variable {observations : List TilersObs} {stale slot : TilersSlot F}

/-- A batch that is packed without an error comes back as it was exactly if each
of its observations is representable, whatever the slot held before. -/
theorem roundtrip_iff (hshape : ∀ obs ∈ observations, Shaped obs)
    (hpack : packObservations observations stale = .ok slot) :
    unpackObservations slot = observations ↔ ∀ obs ∈ observations, Representable obs := by
  have hslot : slot = packFrom 0 observations { stale with b := observations.length } := by
    rw [packObservations] at hpack
    split at hpack
    · cases hpack
    · cases hpack
      rfl
  have hb : slot.b = observations.length := by rw [hslot, packFrom_b]
  have hrow : ∀ r (hr : r < observations.length),
      unpackObservation slot r = observations[r] ↔ Representable observations[r] := by
    intro r hr
    have hobs := List.getElem?_eq_getElem hr
    have hholds := packFrom_holds (i := 0) (s := { stale with b := observations.length }) hobs
    have hlayers := packFrom_numLayers (i := 0) (s := { stale with b := observations.length }) hobs
    rw [Nat.zero_add, ← hslot] at hholds hlayers
    exact unpackObservation_eq_iff (hshape _ (List.getElem_mem hr)) hholds hlayers
  constructor
  · intro heq obs hobs
    obtain ⟨r, hr, rfl⟩ := List.mem_iff_getElem.mp hobs
    refine (hrow r hr).mp ?_
    have hat : (unpackObservations slot)[r]? = observations[r]? := by rw [heq]
    rw [unpackObservations, List.getElem?_map, List.getElem?_range (hb ▸ hr),
      List.getElem?_eq_getElem hr] at hat
    exact Option.some.inj hat
  · intro hall
    apply List.ext_getElem
    · simp [unpackObservations, hb]
    · intro r _ hr
      simp only [unpackObservations, List.getElem_map, List.getElem_range]
      exact (hrow r hr).mpr (hall _ (List.getElem_mem hr))

end Batch

section Samples

def usedSlot : TilersSlot ℕ where
  state := 2
  b := 8
  ownerId := 7
  reqId := 9
  h := fun _ => 5
  w := fun _ => 5
  numAncillas := fun _ => 5
  numLayers := fun _ => 5
  board := fun _ _ => 5
  actionMask := fun _ => 5
  priors := fun _ => 5
  values := fun _ => 5

def sampleCell : BoardCell := ⟨1, 2, 3, 4, 5, 6, 7, 8, 9, 10⟩

def sampleObs (layers : ℕ) : TilersObs where
  height := 1
  width := 1
  numAncillas := 1
  numLayers := layers
  board := List.replicate layers [sampleCell]
  actionMask := List.replicate NUM_ACTIONS true

theorem sampleObs_shaped (layers : ℕ) : Shaped (sampleObs layers) where
  layers := (List.length_replicate ..).symm
  cells layer hlayer := by
    rw [List.eq_of_mem_replicate hlayer]
    rfl
  mask := List.length_replicate ..

theorem roundtrip_iff_sampleObs : ∃ slot,
    packObservations [sampleObs 2, sampleObs 1] usedSlot = .ok slot ∧
      unpackObservations slot = [sampleObs 2, sampleObs 1] := by
  have hshape : ∀ obs ∈ [sampleObs 2, sampleObs 1], Shaped obs := by
    intro obs hobs
    rcases List.mem_pair.mp hobs with rfl | rfl
    · exact sampleObs_shaped 2
    · exact sampleObs_shaped 1
  refine ⟨_, rfl, (roundtrip_iff hshape rfl).mpr fun obs hobs => ?_⟩
  rcases List.mem_pair.mp hobs with rfl | rfl
  · exact ⟨by decide, by decide, by decide, by decide, Or.inr (by decide)⟩
  · exact ⟨by decide, by decide, by decide, by decide, Or.inr (by decide)⟩

/-- Of four layers, as a lookahead of three gives, one is lost without an error. -/
theorem four_layers_truncated : Shaped (sampleObs 4) ∧ ∃ slot,
    packObservations [sampleObs 4] usedSlot = .ok slot ∧
      (unpackObservations slot).map (·.board.length) = [3] ∧
      unpackObservations slot ≠ [sampleObs 4] := by
  refine ⟨sampleObs_shaped 4, _, rfl, rfl, fun heq => ?_⟩
  have hlayers : [3] = [4] := congrArg (List.map TilersObs.numLayers) heq
  exact absurd hlayers (by decide)

end Samples

end Mcts.Unpacking
