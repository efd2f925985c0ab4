import Mcts.Episodes
import Mcts.ServedSearch

/-!
`TilersEnv`: the tiling game as the search sees it. Planner actions cross the
boundary as the ids of `rl::encode`, boards with a mask that is padded to the flat
action space. The wrapper panics where an id is unknown or the crate refuses the
action; no search takes it there.
-/
namespace Mcts.Tiling

open Environments SearchRun Transposition
open Slots (TilersObs BoardCell NUM_ACTIONS)
open Episodes (Tilers)

/-- One layer for each objective layer, its cells row by row. -/
abbrev Layers := List (List BoardCell)

/-- What `TilersEnv` uses of the `tilers` crate and the gatherer does not. -/
class TilingRules (G : Type) (P : outParam Type) where
  numActions : G → ℕ
  hashState : G → NodeId
  actionMask : G → List Bool
  /-- Whether `step` returns `Ok`. -/
  accepts : G → P → Bool

structure TilersEnv (G : Type) where
  inner : G
  lookahead : ℕ

/-- The mask in the flat action space; ids past its end are dropped. -/
def padMask (mask : List Bool) : List Bool :=
  mask.zipIdx.foldl (fun padded e =>
    if e.1 = true ∧ e.2 < NUM_ACTIONS then padded.set e.2 true else padded)
    (List.replicate NUM_ACTIONS false)

theorem padMask_length (mask : List Bool) : (padMask mask).length = NUM_ACTIONS := by
  have hfold : ∀ (entries : List (Bool × ℕ)) (padded : List Bool),
      (entries.foldl (fun padded e =>
        if e.1 = true ∧ e.2 < NUM_ACTIONS then padded.set e.2 true else padded) padded).length =
        padded.length := by
    intro entries
    induction entries with
    | nil => exact fun _ => rfl
    | cons e rest ih =>
      intro padded
      rw [List.foldl_cons, ih]
      split
      · exact List.length_set
      · rfl
  rw [padMask, hfold, List.length_replicate]

variable {G P F : Type} [Tilers G P Layers F] [TilingRules G P]

namespace TilersEnv

def buildObs (e : TilersEnv G) : TilersObs :=
  let board := Tilers.buildObs e.inner e.lookahead
  { height := Tilers.height e.inner
    width := Tilers.width e.inner
    numAncillas := Tilers.numAncillas e.inner
    numLayers := board.length
    board := board
    actionMask := padMask (TilingRules.actionMask e.inner) }

/-- `none` is a panic: an unknown id, or an action that is refused. -/
def step (e : TilersEnv G) (action : ℕ) : Option (TilersEnv G) :=
  (Tilers.decode e.inner action).bind fun a =>
    if TilingRules.accepts e.inner a then
      some { e with inner := Tilers.finishCultivating (Tilers.step e.inner a) }
    else none

/-- `none` is a panic: a valid action without an id. -/
def validActions (e : TilersEnv G) : Option (List ℕ) :=
  (Tilers.validActions e.inner).mapM (Tilers.encode e.inner)

end TilersEnv

/-- Where a call of the wrapper panics the position stays. -/
instance : Environment (TilersEnv G) ℕ TilersObs where
  step e action := (e.step action).getD e
  done e := Tilers.done e.inner
  observation := TilersEnv.buildObs
  validActions e := e.validActions.getD []
  numActions e := TilingRules.numActions e.inner
  hash e := TilingRules.hashState e.inner

variable (G) in
/-- What the wrapper and the search rely on: each valid action has an id in the
action space of its position, which decodes to it, and it is accepted as long as the
tiling is unfinished. -/
structure Contract : Prop where
  encodes : ∀ e : G, ∀ a ∈ Tilers.validActions e,
    ∃ id, Tilers.encode e a = some id ∧ id < TilingRules.numActions e
  decodes : ∀ e : G, ∀ a ∈ Tilers.validActions e, ∀ id, Tilers.encode e a = some id →
    Tilers.decode e id = some a
  accepted : ∀ e : G, Tilers.done e = false → ∀ a ∈ Tilers.validActions e,
    TilingRules.accepts e a = true
  nodup : ∀ e : G, (Tilers.validActions e).Nodup

section Ids

variable (hG : Contract G)

/-- The ids of the valid actions, each of which decodes to the action it came from. -/
structure Ids (e : G) (ids : List ℕ) : Prop where
  encoded : (Tilers.validActions e).mapM (Tilers.encode e) = some ids
  decoded : ∀ id ∈ ids, ∃ a ∈ Tilers.validActions e, Tilers.encode e a = some id ∧
    Tilers.decode e id = some a
  nodup : ids.Nodup
  nil : ids = [] ↔ Tilers.validActions e = []

include hG

theorem Contract.ids (e : G) : ∃ ids, Ids e ids := by
  have hmap : ∀ actions : List P, (∀ a ∈ actions, a ∈ Tilers.validActions e) → actions.Nodup →
      ∃ ids, actions.mapM (Tilers.encode e) = some ids ∧
        (∀ id ∈ ids, ∃ a ∈ actions, Tilers.encode e a = some id ∧ Tilers.decode e id = some a) ∧
        ids.Nodup ∧ (ids = [] ↔ actions = []) := by
    intro actions hvalid hnodup
    induction actions with
    | nil => exact ⟨[], rfl, by simp, List.nodup_nil, by simp⟩
    | cons a rest ih =>
      obtain ⟨ids, hids, hdecoded, hdistinct, -⟩ :=
        ih (fun b hb => hvalid b (List.mem_cons_of_mem a hb)) hnodup.of_cons
      obtain ⟨id, hid, -⟩ := hG.encodes e a (hvalid a List.mem_cons_self)
      have ha := hG.decodes e a (hvalid a List.mem_cons_self) id hid
      refine ⟨id :: ids, by simp [hid, hids], ?_, ?_, by simp⟩
      · intro other hother
        rcases List.mem_cons.mp hother with rfl | hother
        · exact ⟨a, List.mem_cons_self, hid, ha⟩
        · obtain ⟨b, hb, hcoded⟩ := hdecoded other hother
          exact ⟨b, List.mem_cons_of_mem a hb, hcoded⟩
      · refine List.nodup_cons.mpr ⟨fun hmem => ?_, hdistinct⟩
        obtain ⟨b, hb, -, hcoded⟩ := hdecoded id hmem
        obtain rfl : a = b := Option.some.inj (ha.symm.trans hcoded)
        exact (List.nodup_cons.mp hnodup).1 hb
  obtain ⟨ids, hids, hdecoded, hdistinct, hnil⟩ := hmap _ (fun _ h => h) (hG.nodup e)
  exact ⟨ids, hids, hdecoded, hdistinct, hnil⟩

end Ids

omit [TilingRules G P] in
theorem Ids.unique {e : G} {ids other : List ℕ} (h : Ids e ids)
    (hother : (Tilers.validActions e).mapM (Tilers.encode e) = some other) : other = ids :=
  Option.some.inj (hother.symm.trans h.encoded)

theorem Ids.valid {e : TilersEnv G} {ids : List ℕ} (h : Ids e.inner ids) :
    validActions e = ids := by
  show (e.validActions).getD [] = ids
  rw [TilersEnv.validActions, h.encoded, Option.getD_some]

/-- A valid id is decoded and, while the tiling is unfinished, its action accepted. -/
theorem Contract.step_some (hG : Contract G) {e : TilersEnv G} (hrun : done e = false) {id : ℕ}
    (hid : id ∈ validActions e) : e.step id = some (Environments.step e id) := by
  obtain ⟨ids, hids⟩ := hG.ids e.inner
  obtain ⟨a, ha, -, hdecode⟩ := hids.decoded id (hids.valid ▸ hid)
  have hstep : e.step id =
      some { e with inner := Tilers.finishCultivating (Tilers.step e.inner a) } := by
    rw [TilersEnv.step, hdecode, Option.bind_some, if_pos (hG.accepted e.inner hrun a ha)]
  show e.step id = some ((e.step id).getD e)
  rw [hstep, Option.getD_some]

theorem Contract.lawful (hG : Contract G) : LawfulEnvironment (TilersEnv G) ℕ where
  index_lt e id hid := by
    obtain ⟨ids, hids⟩ := hG.ids e.inner
    obtain ⟨a, ha, hencode, -⟩ := hids.decoded id (hids.valid ▸ hid)
    obtain ⟨other, hother, hlt⟩ := hG.encodes e.inner a ha
    obtain rfl : other = id := Option.some.inj (hother.symm.trans hencode)
    exact hlt
  nodup e := by
    obtain ⟨ids, hids⟩ := hG.ids e.inner
    rw [hids.valid]
    exact hids.nodup
  index_injective _ _ h := h

def wrapped (S : Set G) (lookahead : ℕ) : Set (TilersEnv G) :=
  {e | e.inner ∈ S ∧ e.lookahead = lookahead}

/-- Positions in play: every valid action leads on to one, and the state hash tells
apart what behaves differently. -/
structure Grounds (S : Set G) (lookahead : ℕ) : Prop where
  closed : ∀ e ∈ S, ∀ a ∈ Tilers.validActions e,
    Tilers.finishCultivating (Tilers.step e a) ∈ S
  sound : SoundHash (wrapped S lookahead)

def panics : Event ℕ (TilersEnv G) F → Bool
  | .envStep game action => (game.step action).isNone
  | _ => false

section Panics

variable {S : Set G} {lookahead : ℕ} [Field F] [LinearOrder F] [Engine.Roots F]
variable {s : Search ℕ (TilersEnv G) F}

/-- No search in play makes the wrapper panic, finished or not. -/
theorem attained_quiet (hG : Contract G) (hS : Grounds S lookahead)
    (h : Attained (On (wrapped S lookahead)) s) : s.log.any panics = false := by
  have hsound := attained_sound hG.lawful hS.sound (fun _ hi => hi) h
  rw [List.any_eq_false]
  intro e he
  have hsafe := hsound e he
  cases e with
  | envStep game action =>
    obtain ⟨hrun, hvalid⟩ : done game = false ∧ action ∈ validActions game := hsafe
    simp [panics, hG.step_some hrun hvalid]
  | _ => simp [panics]

end Panics

section Strip

structure Strip where
  left : ℕ
  depth : ℕ

/-- Action 0 merges a factor and any other wastes a layer; the heuristic only merges. -/
noncomputable instance : Tilers Strip ℕ Layers ℝ where
  done e := e.left == 0
  depth e := e.depth
  numObjectives e := e.left
  numAncillas _ := 0
  height _ := 1
  width _ := 1
  factorProgress game final := (game.left - final.left, game.left)
  achievedGoalEnv game final :=
    if final.left < game.left then some ⟨game.left - final.left, 0⟩ else none
  validActions _ := [0, 1]
  encode _ a := some a
  decode _ id := some id
  step e a := if a = 0 then ⟨e.left - 1, e.depth + 1⟩ else ⟨e.left, e.depth + 1⟩
  finishCultivating e := e
  setCultivationTime e _ := e
  buildObs e lookahead := List.replicate (lookahead + 1) [⟨e.left, 0, 0, 0, 0, 0, 0, 0, 0, 0⟩]
  solve e _ := (some (List.replicate e.left 0), ⟨0, e.depth + e.left⟩)

instance : TilingRules Strip ℕ where
  numActions _ := 301
  hashState e := e.left
  actionMask _ := [true, true]
  accepts _ a := decide (a ≤ 1)

theorem strip_contract : Contract Strip where
  encodes _ a ha := by
    have hcases : a = 0 ∨ a = 1 := by simpa [Tilers.validActions] using ha
    refine ⟨a, rfl, ?_⟩
    show a < 301
    omega
  decodes _ a _ id hid := hid.symm
  accepted _ _ a ha := by
    have hcases : a = 0 ∨ a = 1 := by simpa [Tilers.validActions] using ha
    apply decide_eq_true
    omega
  nodup _ := by simp [Tilers.validActions]

theorem strip_valid (e : TilersEnv Strip) : validActions e = [0, 1] := rfl

theorem strip_step (e : TilersEnv Strip) {id : ℕ} (hid : id ∈ validActions e) :
    hash (step e id) = if id = 0 then hash e - 1 else hash e := by
  have hcases : id = 0 ∨ id = 1 := by simpa [strip_valid] using hid
  rcases hcases with rfl | rfl <;> rfl

/-- The wasted layers are no part of the state: the hash is what is left. -/
theorem strip_grounds (lookahead : ℕ) : Grounds (Set.univ : Set Strip) lookahead where
  closed _ _ _ _ := Set.mem_univ _
  sound := by
    have hleft : ∀ s t : TilersEnv Strip, hash s = hash t → s.inner.left = t.inner.left :=
      fun _ _ h => h
    constructor
    · intro s hs _ id hid
      have hcases : id = 0 ∨ id = 1 := by simpa [strip_valid] using hid
      rcases hcases with rfl | rfl <;> exact ⟨Set.mem_univ _, hs.2⟩
    · intro s _ t _ h
      show (s.inner.left == 0) = (t.inner.left == 0)
      rw [hleft s t h]
    · exact fun s _ t _ _ id => by rw [strip_valid, strip_valid]
    · exact fun _ _ _ _ _ => rfl
    · intro s _ t _ h _ id hid
      rw [strip_step s hid, strip_step t hid, h]

end Strip

end Mcts.Tiling
