import Mcts.Program
import Mcts.Rerooting

/-!
The search proper: `select_leaf`, `expand`, `backpropagate` and `run`, as
programs over the engine and a log. Every change of the engine goes through
`mutate`, which logs the engine it leaves, so the log shows a run from the
inside; the loop heads, the environment steps and the warnings are logged too.
-/
namespace Mcts.SearchRun

open Program Prog Environments Nodes Engine

variable {E A O F : Type}

inductive Event (A E F : Type)
  | passed (m : MCTS A F)
  | loopHead (nodeId : NodeId) (game : E) (path : List (NodeId × A))
  | envStep (game : E) (action : A)
  | penalised (nodeId : NodeId) (action : A)
  | mismatchedIds (existing leaf : NodeId)
  | aliasDetected (slot index : ℕ)

structure Search (A E F : Type) where
  mcts : MCTS A F
  log : List (Event A E F)

/-- The arguments of one call of `run`. The replies of the client are an oracle
indexed by the number of the query, `none` being an error; `order` arranges the
prior maps of the nodes created. `fuel` bounds the rounds of one `select_leaf`
loop, which need not end when hashes collide. -/
structure RunInput (E A O F : Type) where
  env : E
  client : ℕ → List O → Option (List (HashMap A F) × List F)
  numSteps : ℕ
  cPuct : F
  terminalEvaluator : E → F
  forcedPlayouts : Bool
  order : IterationOrder (Σ _ : A, F)
  fuel : ℕ

structure Walk (A E : Type) where
  path : List (NodeId × A)
  nodeId : NodeId
  parent : Option NodeId
  action : Option A
  game : E
  repeatDetected : Bool

structure PendingInference (A E : Type) where
  path : List (NodeId × A)
  parentId : NodeId
  action : A
  env : E

def emit (e : Event A E F) : Prog (Search A E F) Unit :=
  modify fun s => { s with log := s.log ++ [e] }

def mutate (f : MCTS A F → MCTS A F) : Prog (Search A E F) Unit :=
  modify fun s => { mcts := f s.mcts, log := s.log ++ [.passed (f s.mcts)] }

variable [Environment E A O] [Act A] [DecidableEq A]
variable [Field F] [LinearOrder F] [Roots F]

/-- One round of the loop of `select_leaf`; `inr` leaves the loop. -/
def selectRound (rootId : NodeId) (cPuct : F) (forcedPlayouts : Bool) (w : Walk A E) :
    Prog (Search A E F) (Walk A E ⊕ Walk A E) := do
  if done w.game || w.repeatDetected then
    return .inr w
  emit (.loopHead w.nodeId w.game w.path)
  let s ← get
  if !s.mcts.nodeExists w.nodeId then
    return .inr w
  if MCTS.checkStateRepeat (hash w.game) w.path then
    return .inr { w with repeatDetected := true }
  let isRoot := w.nodeId == rootId
  match s.mcts.selectActionPuct w.nodeId cPuct isRoot forcedPlayouts with
  | none => return .inr w
  | some chosen =>
    mutate (·.updateNode w.nodeId (·.addVirtualLoss chosen))
    emit (.envStep w.game chosen)
    let stepped : Walk A E := { w with
      path := w.path ++ [(w.nodeId, chosen)]
      parent := some w.nodeId
      action := some chosen
      game := step w.game chosen }
    let s ← get
    match (s.mcts.getNode w.nodeId).bind (·.child chosen) with
    | some childId => return .inl { stepped with nodeId := childId }
    | none => return .inr stepped

def selectLeaf (i : RunInput E A O F) (rootId : NodeId) : Prog (Search A E F) (Walk A E) :=
  loop (selectRound rootId i.cPuct i.forcedPlayouts) i.fuel
    { path := [], nodeId := rootId, parent := none, action := none, game := i.env,
      repeatDetected := false }

def aliases (children : List (Option NodeId)) (index : ℕ) (leafId : NodeId) : List ℕ :=
  (List.range children.length).filter fun slot =>
    slot != index && children.getD slot none == some leafId

def linkChild (parentId : NodeId) (action : A) (leafId : NodeId) :
    Prog (Search A E F) Unit := do
  let s ← get
  match s.mcts.getNode parentId with
  | none => return ()
  | some parent =>
    if toActionIndex action < parent.children.length then
      match parent.child action with
      | some existingId =>
        if existingId ≠ leafId then
          emit (.mismatchedIds existingId leafId)
      | none =>
        mutate (·.updateNode parentId (·.setChild action leafId))
        forEach (aliases parent.children (toActionIndex action) leafId) fun slot =>
          emit (.aliasDetected slot (toActionIndex action))

def expand (order : IterationOrder (Σ _ : A, F)) (parentId : NodeId) (action : A) (env : E)
    (priors : HashMap A F) (value : F) : Prog (Search A E F) Unit := do
  let leafId := hash env
  let s ← get
  whenever (!s.mcts.nodeExists leafId) (mutate
    (MCTS.createNode order env (MCTS.normalizePrior priors (validActions env)) value))
  linkChild parentId action leafId

def backpropagate (path : List (NodeId × A)) (repeatDetected : Bool) :
    Prog (Search A E F) Unit := do
  forEach path.reverse fun e => mutate (·.updateNode e.1 (·.revertVirtualLoss e.2))
  whenever repeatDetected do
    match path.getLast? with
    | some e =>
      emit (.penalised e.1 e.2)
      mutate (·.updateNode e.1 (·.applyPenalty e.2))
    | none => return ()
  forEach path.reverse fun e => do
    mutate (·.updateNode e.1 (·.addVisit e.2))
    mutate (·.recomputeValue e.1)

/-- One selection of a batch: backed up at once, or left pending for the client. -/
def simulate (i : RunInput E A O F) (rootId : NodeId) :
    Prog (Search A E F) (Option (PendingInference A E)) := do
  let w ← selectLeaf i rootId
  match w.action, w.parent with
  | some action, some parentId =>
    if w.repeatDetected || done w.game then
      whenever (!w.repeatDetected)
        (expand i.order parentId action w.game ∅ (i.terminalEvaluator w.game))
      backpropagate w.path w.repeatDetected
      return none
    else
      return some { path := w.path, parentId := parentId, action := action, env := w.game }
  | _, _ => return none

def answer (i : RunInput E A O F) (p : PendingInference A E) (priors : HashMap A F) (value : F) :
    Prog (Search A E F) Unit := do
  expand i.order p.parentId p.action p.env priors value
  backpropagate p.path false

/-- One batch. The queries are numbered from 1; the root's is number 0. -/
def runBatch (i : RunInput E A O F) (rootId : NodeId) (batch : ℕ) : Prog (Search A E F) Unit := do
  let s ← get
  let pending ← collect (simulate i rootId) [] s.mcts.batchSize
  if pending.isEmpty then
    return ()
  match i.client (batch + 1) (pending.map fun p => observation p.env) with
  | none => stop
  | some (priorBatch, valueBatch) =>
    forEach (pending.zip (priorBatch.zip valueBatch)) fun r => answer i r.1 r.2.1 r.2.2

def ensureRoot (i : RunInput E A O F) (rootHash : NodeId) : Prog (Search A E F) Unit := do
  let s ← get
  if !s.mcts.nodeExists rootHash then
    if done i.env then
      mutate (MCTS.createNode i.order i.env ∅ (i.terminalEvaluator i.env))
    else
      match i.client 0 [observation i.env] with
      | some (p :: _, v :: _) =>
        mutate (MCTS.createNode i.order i.env (MCTS.normalizePrior p (validActions i.env)) v)
      | _ => stop

def rootNode (rootHash : NodeId) : Prog (Search A E F) (Node A F) := do
  let s ← get
  match s.mcts.getNode rootHash with
  | some node => return node
  | none => stop

def run (i : RunInput E A O F) : Prog (Search A E F) (Node A F) := do
  let rootHash := hash i.env
  mutate (·.setRoot (some rootHash))
  ensureRoot i rootHash
  if done i.env then
    rootNode rootHash
  else
    let s ← get
    let numBatches := (i.numSteps + s.mcts.batchSize - 1) / max s.mcts.batchSize 1
    forEach (List.range numBatches) (runBatch i rootHash)
    mutate (·.clearNoise)
    rootNode rootHash

/-- The searches reached by calls whose `run` arguments satisfy `C`. The log
goes on from call to call. `policy_target` only reads and is no step. -/
inductive Session (C : RunInput E A O F → Prop) : Search A E F → Prop
  | new (batchSize : ℕ) (hpos : 1 ≤ batchSize) : Session C ⟨MCTS.new batchSize, []⟩
  | run {s t : Search A E F} {i : RunInput E A O F} {node : Node A F} :
      Session C s → C i → run i s = (some node, t) → Session C t
  | advanceRoot {s : Search A E F} (action : A) :
      Session C s → Session C { s with mcts := Rerooting.advanceRoot action s.mcts }
  | perturbRootPrior {s : Search A E F} (noise : HashMap A F) (epsilon : F) :
      Session C s → Session C { s with mcts := s.mcts.perturbRootPrior noise epsilon }

/-- A search between two calls, or left by a run that returned, panicked or was
cut short: with the log it shows every point inside that run too. -/
inductive Attained (C : RunInput E A O F → Prop) : Search A E F → Prop
  | between {s : Search A E F} : Session C s → Attained C s
  | inside {s : Search A E F} (i : RunInput E A O F) :
      Session C s → C i → Attained C (run i s).2

def heapInput (numSteps : ℕ) : RunInput HeapGame Bool ℕ ℚ where
  env := ⟨0⟩
  client _ obs := some (obs.map fun _ => ∅, obs.map fun _ => 0)
  numSteps := numSteps
  cPuct := 1
  terminalEvaluator _ := 1
  forcedPlayouts := false
  order := ⟨fun _ xs => xs, fun _ xs => List.Perm.refl xs⟩
  fuel := 100

def heapSearch : Search Bool HeapGame ℚ := (run (heapInput 4) ⟨MCTS.new 2, []⟩).2

theorem heapSearch_session (C : RunInput HeapGame Bool ℕ ℚ → Prop) (h : C (heapInput 4)) :
    Session C heapSearch := by
  have hreturns : (run (heapInput 4) ⟨MCTS.new 2, []⟩).1.isSome = true := by decide +kernel
  obtain ⟨node, hnode⟩ := Option.isSome_iff_exists.mp hreturns
  exact .run (.new 2 (by decide)) h (Prod.ext hnode rfl)

end Mcts.SearchRun
