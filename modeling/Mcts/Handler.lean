import Mcts.Slots

/-!
The inference handler. One iteration of its loop collects the popped slots into
one batch, asks the agent, writes the answers back slot by slot and marks the
slots done; after an exception it marks them all done. Calls of the agent and of
Python itself may raise where the parameters of an iteration say so.
-/
namespace Mcts.Handler

open Regions Slots
open SlotProtocol (MAX_BATCH SLOT_DONE)

/-- A two-dimensional array of numpy, in row-major order. -/
structure Array2 (α : Type) where
  rows : ℕ
  cols : ℕ
  data : List α
  size : data.length = rows * cols

/-- The rows from `i` up to `j`, as far as there are any. -/
def Array2.slice {α : Type} (a : Array2 α) (i j : ℕ) : Array2 α where
  rows := min (j - i) (a.rows - i)
  cols := a.cols
  data := (a.data.drop (i * a.cols)).take ((j - i) * a.cols)
  size := by
    rw [List.length_take, List.length_drop, a.size, ← Nat.sub_mul, Nat.mul_min_mul_right]

/-- The three kinds that the `except` clauses of `do_work` tell apart. The last is
caught by neither: `SystemExit`, `GeneratorExit`, the `PanicException` of a view. -/
inductive PyError
  | exception (message : String)
  | keyboardInterrupt
  | baseException (name : String)
  deriving DecidableEq

/-- A board as the agent reads it: layers of cells of channels. -/
abbrev Board := List (List (List ℤ))

/-- The arguments of the agent, one entry a row. -/
structure Batch where
  boards : List Board
  heights : List ℕ
  widths : List ℕ
  numAncillas : List ℕ
  actionMasks : List (List Bool)

structure Batched where
  batch : Batch
  slotBatchSizes : List ℕ
  validSlotViews : List ℕ

/-- What the shared memory and the metrics file hold, and all calls of `mark_done`. -/
structure World (F : Type) where
  slots : ℕ → TilersSlot F
  marks : List ℕ
  metrics : List (ℕ × ℕ)

/-- Where Python may raise besides the calls that are modelled. -/
inductive Point
  | read (k : ℕ)
  | concatenate
  | write (k : ℕ)
  | metrics

structure Iteration (F : Type) where
  lookahead : ℕ
  metrics : Bool
  agent : Batch → Except PyError (Array2 F × List F)
  faults : Point → Option PyError

variable {F : Type}

section Views

def batchLen (s : TilersSlot F) : ℕ := min s.b MAX_BATCH

def rowsOf {α : Type} (s : TilersSlot F) (f : ℕ → α) : List α := (List.range (batchLen s)).map f

def reshape (row : ℕ → ℤ) : Board :=
  (List.range LOOKAHEAD_MAX).map fun l => (List.range GRID_MAX).map fun c =>
    (List.range CELL_FIELDS).map fun k => row ((l * GRID_MAX + c) * CELL_FIELDS + k)

def maskRow (s : TilersSlot F) (r : ℕ) : List ℕ :=
  (List.range NUM_ACTIONS).map fun a => s.actionMask (r * NUM_ACTIONS + a)

def clearOutputs [Zero F] (s : TilersSlot F) : TilersSlot F :=
  { s with priors := fun _ => 0, values := fun _ => 0 }

def markDone (sv : ℕ) (w : World F) : World F :=
  { w with
    slots := Function.update w.slots sv { w.slots sv with state := SLOT_DONE }
    marks := w.marks ++ [sv] }

end Views

section Build

structure Lists where
  rawBoards : List (List Board)
  maskList : List (List (List ℕ))
  hList : List (List ℕ)
  wList : List (List ℕ)
  ancList : List (List ℕ)
  slotBatchSizes : List ℕ
  validSlotViews : List ℕ

def Lists.append (acc : Lists) (numLayers sv : ℕ) (s : TilersSlot F) : Lists where
  rawBoards := acc.rawBoards ++ [rowsOf s fun r => (reshape (s.board r)).take numLayers]
  maskList := acc.maskList ++ [rowsOf s (maskRow s)]
  hList := acc.hList ++ [rowsOf s s.h]
  wList := acc.wList ++ [rowsOf s s.w]
  ancList := acc.ancList ++ [rowsOf s s.numAncillas]
  slotBatchSizes := acc.slotBatchSizes ++ [batchLen s]
  validSlotViews := acc.validSlotViews ++ [sv]

def collect (faults : Point → Option PyError) (numLayers : ℕ) :
    ℕ → List ℕ → Lists → World F → Except PyError Lists × World F
  | _, [], acc, w => (.ok acc, w)
  | k, sv :: rest, acc, w =>
    match faults (.read k) with
    | some e => (.error e, w)
    | none =>
      if batchLen (w.slots sv) ≤ 0 then
        collect faults numLayers (k + 1) rest acc (markDone sv w)
      else
        collect faults numLayers (k + 1) rest (acc.append numLayers sv (w.slots sv)) w

def maxHw (heights widths : List ℕ) : ℕ := max 1 ((List.zipWith (· * ·) heights widths).foldl max 0)

def Lists.batched (acc : Lists) : Batched :=
  let heights := acc.hList.flatten
  let widths := acc.wList.flatten
  { batch :=
      { boards := (acc.rawBoards.map fun b =>
          b.map fun board => board.map fun layer => layer.take (maxHw heights widths)).flatten
        heights := heights
        widths := widths
        numAncillas := acc.ancList.flatten
        actionMasks := acc.maskList.flatten.map fun row => row.map (· ≠ 0) }
    slotBatchSizes := acc.slotBatchSizes
    validSlotViews := acc.validSlotViews }

def buildBoardBatch (faults : Point → Option PyError) (slotViews : List ℕ) (lookahead : ℕ)
    (w : World F) : Except PyError (Option Batched) × World F :=
  let numLayers := lookahead + 1
  if LOOKAHEAD_MAX < numLayers then
    (.error (.exception s!"lookahead+1={numLayers} exceeds LOOKAHEAD_MAX={LOOKAHEAD_MAX}"), w)
  else
    match collect faults numLayers 0 slotViews ⟨[], [], [], [], [], [], []⟩ w with
    | (.error e, w) => (.error e, w)
    | (.ok acc, w) =>
      if acc.validSlotViews = [] then (.ok none, w)
      else
        match faults .concatenate with
        | some e => (.error e, w)
        | none => (.ok (some acc.batched), w)

end Build

section Work

variable [Zero F]

def writePriorsValues (priors : Array2 F) (values : List F) (s : TilersSlot F) :
    Except PyError (TilersSlot F) :=
  let b := batchLen s
  let numActions := priors.cols
  if priors.rows ≠ b then
    .error (.exception s!"expected priors with {b} rows, got {priors.rows}")
  else if NUM_ACTIONS < numActions then
    .error (.exception s!"priors has {numActions} columns, max is NUM_ACTIONS={NUM_ACTIONS}")
  else if values.length ≠ b then
    .error (.exception s!"expected values of len {b}, got {values.length}")
  else .ok { s with
    priors := copyRows 0 NUM_ACTIONS 0
      ((List.range b).map fun i => (priors.data.drop (i * numActions)).take numActions)
      (fill 0 (b * NUM_ACTIONS) 0 s.priors)
    values := copyFromSlice 0 values s.values }

def writeBack (faults : Point → Option PyError) (priors : Array2 F) (values : List F) :
    ℕ → ℕ → List (ℕ × ℕ) → World F → Except PyError Unit × World F
  | _, _, [], w => (.ok (), w)
  | k, idx, (slotLen, sv) :: rest, w =>
    match faults (.write k) with
    | some e => (.error e, w)
    | none =>
      match writePriorsValues (priors.slice idx (idx + slotLen))
          ((values.drop idx).take slotLen) (w.slots sv) with
      | .error e => (.error e, w)
      | .ok slot => writeBack faults priors values (k + 1) (idx + slotLen) rest
          (markDone sv { w with slots := Function.update w.slots sv slot })

/-- The body of the `try` statement from the call of the agent on. -/
def answer (x : Iteration F) (batched : Batched) (w : World F) : Except PyError Unit × World F :=
  match x.agent batched.batch with
  | .error e => (.error e, w)
  | .ok (priors, values) =>
    match writeBack x.faults priors values 0 0
        (batched.slotBatchSizes.zip batched.validSlotViews) w with
    | (.error e, w) => (.error e, w)
    | (.ok (), w) =>
      if x.metrics then
        match x.faults .metrics with
        | some e => (.error e, w)
        | none => (.ok (), { w with
            metrics := w.metrics ++ [(batched.validSlotViews.length, batched.batch.boards.length)] })
      else (.ok (), w)

/-- The body of the `try` statement. -/
def attempt (x : Iteration F) (slotViews : List ℕ) (w : World F) : Except PyError Unit × World F :=
  match buildBoardBatch x.faults slotViews x.lookahead w with
  | (.error e, w) => (.error e, w)
  | (.ok none, w) => (.ok (), w)
  | (.ok (some batched), w) => answer x batched w

/-- How a round of the loop ends: the next follows, `do_work` returns, or it raises. -/
inductive Outcome
  | goesOn
  | stopped
  | raised (e : PyError)
  deriving DecidableEq

/-- One iteration of the loop in `do_work`, after the pops. -/
def doWork (x : Iteration F) (slotViews : List ℕ) (w : World F) : Outcome × World F :=
  match attempt x slotViews w with
  | (.ok (), w) => (.goesOn, w)
  | (.error .keyboardInterrupt, w) => (.stopped, slotViews.foldl (fun w sv => markDone sv w) w)
  | (.error (.exception _), w) => (.goesOn, slotViews.foldl (fun w sv => markDone sv w) w)
  -- Neither clause applies: no view is marked on the way out.
  | (.error (.baseException name), w) => (.raised (.baseException name), w)

end Work

section Runner

def BS_BUCKETS : List ℕ := [16, 32, 64, 128, 256, 512]

def bucketBs (n : ℕ) : ℕ := (BS_BUCKETS.find? fun b => n ≤ b).getD (BS_BUCKETS.getLastD 0)

def padToBs {α : Type} (t : List α) (bsPadded : ℕ) (pad : α) : List α :=
  if bsPadded ≤ t.length then t else t ++ List.replicate (bsPadded - t.length) pad

/-- The batch with rows of zeros, sizes 1 and empty masks up to the bucket. -/
def Batch.pad (x : Batch) (bsPadded : ℕ) : Batch where
  boards := padToBs x.boards bsPadded
    ((x.boards.headD []).map fun layer => layer.map fun cell => cell.map fun _ => 0)
  heights := padToBs x.heights bsPadded 1
  widths := padToBs x.widths bsPadded 1
  numAncillas := padToBs x.numAncillas bsPadded 1
  actionMasks := padToBs x.actionMasks bsPadded ((x.actionMasks.headD []).map fun _ => false)

/-- `TorchAgentRunner.infer` around a model; the model's value column is a list. -/
def torchInfer (model : Batch → Array2 F × List F) (x : Batch) : Array2 F × List F :=
  let realBs := x.boards.length
  let bsPadded := bucketBs realBs
  let out := model (if realBs < bsPadded then x.pad bsPadded else x)
  (out.1.slice 0 realBs, out.2.take realBs)

end Runner

end Mcts.Handler
