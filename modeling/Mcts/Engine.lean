import Mcts.Nodes
import Mathlib.Order.WithBot
import Mathlib.Algebra.Order.Field.Basic
import Mathlib.Algebra.Order.Ring.Rat
import Mathlib.Algebra.Field.Rat
import Mathlib.Data.Nat.Sqrt

/-!
The search structure: an arena of nodes behind a transposition table, and the
operations that read or update it in one go. Selection, expansion, backup and
the loop of `run`, which go through several states, are in SearchRun.
-/
namespace Mcts.Engine

open Environments Nodes

/-- The two f32 functions that are not field operations. -/
class Roots (F : Type) where
  sqrt : F → F
  powf : F → F → F

export Roots (sqrt powf)

/-- Roots of squares are exact; the exponent, always close to one, is dropped. -/
instance : Roots ℚ where
  sqrt x := (x.num.toNat.sqrt : ℚ) / (x.den.sqrt : ℚ)
  powf x _ := x

/-- A score vector also holds the two infinities. -/
abbrev Score (F : Type) := WithBot (WithTop F)

structure MCTS (A F : Type) where
  rootId : Option NodeId
  transpositionTable : HashMap NodeId ℕ
  nodes : List (Node A F)
  batchSize : ℕ
  cFpu : F
  rootSoftmaxTemp : F
  kForced : F
  rootNoise : Option (HashMap A F)
  rootNoiseEpsilon : F

variable {E A O F : Type} [Environment E A O] [Act A] [DecidableEq A]
variable [Field F] [LinearOrder F] [Roots F]

namespace MCTS

def new (batchSize : ℕ) : MCTS A F where
  rootId := none
  transpositionTable := ∅
  nodes := []
  batchSize := batchSize
  cFpu := 0.2
  rootSoftmaxTemp := 1.03
  kForced := 2
  rootNoise := none
  rootNoiseEpsilon := 0

def nodeExists (m : MCTS A F) (nodeId : NodeId) : Bool :=
  (m.transpositionTable.lookup nodeId).isSome

def getNode (m : MCTS A F) (nodeId : NodeId) : Option (Node A F) :=
  (m.transpositionTable.lookup nodeId).bind fun index => m.nodes[index]?

def updateNode (m : MCTS A F) (nodeId : NodeId) (f : Node A F → Node A F) : MCTS A F :=
  match m.transpositionTable.lookup nodeId with
  | some index => { m with nodes := m.nodes.modify index f }
  | none => m

def insertNode (m : MCTS A F) (nodeId : NodeId) (node : Node A F) : MCTS A F :=
  { m with
    nodes := m.nodes ++ [node]
    transpositionTable := m.transpositionTable.insert nodeId m.nodes.length }

def clampValue (value : F) : F := max (-1) (min value 1)

def createNode (order : IterationOrder (Σ _ : A, F)) (env : E) (priors : HashMap A F) (value : F)
    (m : MCTS A F) : MCTS A F :=
  let nodeId := hash env
  let node :=
    if done env then Node.newTerminal nodeId value
    else Node.new (numActions env) (order.arrange m.nodes.length priors.entries)
      (clampValue value) nodeId
  m.insertNode nodeId node

def normalizePrior (priors : HashMap A F) (actions : List A) : HashMap A F :=
  let total := actions.foldl (fun total a =>
    match priors.lookup a with
    | some p => total + p
    | none => total) 0
  if total = 0 then
    actions.foldl (fun normalized a => normalized.insert a (1 / (actions.length : F))) ∅
  else
    actions.foldl (fun normalized a =>
      match priors.lookup a with
      | some p => normalized.insert a (p / total)
      | none => normalized) ∅

def childData (parent : Node A F) : List (NodeId × ℕ × F) :=
  parent.validActions.filterMap fun a =>
    (parent.child a).map fun childId => (childId, parent.visits a, parent.penalty a)

def recomputeValue (nodeId : NodeId) (m : MCTS A F) : MCTS A F :=
  match m.getNode nodeId with
  | none => m
  | some parent =>
    let data := childData parent
    let totalEdgeVisits := (data.map (·.2.1)).sum + parent.totalLosses
    if totalEdgeVisits = 0 then
      m.updateNode nodeId (·.setValue 1 parent.valueEstimate)
    else
      let acc := data.foldl (fun acc d =>
        if d.2.1 = 0 then acc
        else match m.getNode d.1 with
          | some child => acc + (d.2.1 : F) * (child.value + d.2.2)
          | none => acc) 0
      let nodeVisits := 1 + totalEdgeVisits
      m.updateNode nodeId (·.setValue nodeVisits ((parent.valueEstimate + acc) / (nodeVisits : F)))

def bufferTotal (node : Node A F) (buf : List F) : F :=
  (node.validActions.map fun a => buf.getD (toActionIndex a) 0).sum

def renormalize (node : Node A F) (buf : List F) : List F :=
  let total := bufferTotal node buf
  if 0 < total then
    node.validActions.foldl (fun buf a => buf.modify (toActionIndex a) (· / total)) buf
  else buf

def blendNoise (node : Node A F) (noise : HashMap A F) (eps : F) (buf : List F) : List F :=
  renormalize node (node.validActions.foldl (fun buf a =>
    buf.set (toActionIndex a) ((1 - eps) * node.prior a + eps * (noise.lookup a).getD 0)) buf)

def softmaxTemperature (node : Node A F) (temp : F) (buf : List F) : List F :=
  renormalize node (node.validActions.foldl (fun buf a =>
    buf.modify (toActionIndex a) fun p => powf (max p 1e-30) (1 / temp)) buf)

/-- The buffer of transformed root priors; `none` where the stored priors are used as they are. -/
def effectiveBuf (m : MCTS A F) (node : Node A F) (isRoot : Bool) : Option (List F) :=
  let needsNoise := isRoot && m.rootNoise.isSome
  let needsSoftmax := isRoot && decide (1e-6 < |m.rootSoftmaxTemp - 1|)
  if needsNoise || needsSoftmax then
    let buf := node.priorProbs
    let buf := match m.rootNoise with
      | some noise => blendNoise node noise m.rootNoiseEpsilon buf
      | none => buf
    some (if needsSoftmax then softmaxTemperature node m.rootSoftmaxTemp buf else buf)
  else none

def effectivePrior (m : MCTS A F) (node : Node A F) (isRoot : Bool) (a : A) : F :=
  match m.effectiveBuf node isRoot with
  | some buf => buf.getD (toActionIndex a) 0
  | none => node.prior a

def fpuQ (m : MCTS A F) (node : Node A F) (isRoot : Bool) : F :=
  let cFpuEff := if isRoot then 0 else m.cFpu
  let pExplored := ((node.validActions.filter fun a => 0 < node.visits a).map node.prior).sum
  node.value - cFpuEff * sqrt pExplored

def qValue (m : MCTS A F) (node : Node A F) (fallback : F) (a : A) : F :=
  match (node.child a).bind m.getNode with
  | some c => c.value + node.penalty a
  | none => fallback + node.penalty a

def puctScore (m : MCTS A F) (node : Node A F) (cPuct : F) (isRoot applyForced : Bool)
    (a : A) : Score F :=
  let sqrtTotal := sqrt (node.totalVisits : F) + 1e-8
  let prior := m.effectivePrior node isRoot a
  if isRoot ∧ applyForced ∧ 0 < node.totalVisits ∧
      (node.visits a : F) < sqrt (m.kForced * prior * (node.totalVisits : F)) then
    ⊤
  else
    let uValue := cPuct * prior * (sqrtTotal / (1 + ((node.visits a + node.losses a : ℕ) : F)))
    ((m.qValue node (m.fpuQ node isRoot) a + uValue : F) : WithTop F)

def puctScores (m : MCTS A F) (nodeId : NodeId) (cPuct : F) (isRoot applyForced : Bool) :
    List (Score F) :=
  match m.getNode nodeId with
  | none => []
  | some node =>
    node.validActions.foldl (fun scores a =>
      scores.set (toActionIndex a) (m.puctScore node cPuct isRoot applyForced a))
      (List.replicate node.numActions ⊥)

/-- `Iterator::max_by`: the last of the greatest elements. -/
def maxBy (score : A → Score F) : List A → Option A
  | [] => none
  | a :: rest => some (rest.foldl (fun best b => if score b < score best then best else b) a)

def selectActionPuct (m : MCTS A F) (nodeId : NodeId) (cPuct : F) (isRoot applyForced : Bool) :
    Option A :=
  let scores := m.puctScores nodeId cPuct isRoot applyForced
  if scores.isEmpty then none
  else (m.getNode nodeId).bind fun node =>
    maxBy (fun a => scores.getD (toActionIndex a) ⊥) node.validActions

def setRoot (rootId : Option NodeId) (m : MCTS A F) : MCTS A F := { m with rootId := rootId }

def clearNoise (m : MCTS A F) : MCTS A F :=
  { m with rootNoise := none, rootNoiseEpsilon := 0 }

def perturbRootPrior (noise : HashMap A F) (epsilon : F) (m : MCTS A F) : MCTS A F :=
  { m with rootNoise := some noise, rootNoiseEpsilon := epsilon }

omit [Act A] [DecidableEq A] [Field F] [Roots F] in
theorem maxBy_mem (score : A → Score F) (actions : List A) (a : A)
    (h : maxBy score actions = some a) : a ∈ actions := by
  cases actions with
  | nil => exact absurd h (by simp [maxBy])
  | cons b rest =>
    have hfold : ∀ (rest : List A) (best : A),
        rest.foldl (fun best c => if score c < score best then best else c) best ∈ best :: rest := by
      intro rest
      induction rest with
      | nil => exact fun best => List.mem_cons_self
      | cons c rest ih =>
        intro best
        rcases List.mem_cons.mp (ih (if score c < score best then best else c)) with heq | hmem
        · rw [List.foldl_cons, heq]
          split
          · exact List.mem_cons_self
          · exact List.mem_cons_of_mem _ List.mem_cons_self
        · exact List.mem_cons_of_mem _ (List.mem_cons_of_mem _ hmem)
    exact Option.some.inj h ▸ hfold rest b

/-- Selection picks one of the node's own actions. -/
theorem selectActionPuct_mem (m : MCTS A F) (nodeId : NodeId) (cPuct : F)
    (isRoot applyForced : Bool) (a : A)
    (h : m.selectActionPuct nodeId cPuct isRoot applyForced = some a) :
    ∃ n, m.getNode nodeId = some n ∧ a ∈ n.validActions := by
  unfold selectActionPuct at h
  dsimp only at h
  split at h
  · exact absurd h (by simp)
  · rw [Option.bind_eq_some_iff] at h
    obtain ⟨n, hn, ha⟩ := h
    exact ⟨n, hn, maxBy_mem _ _ a ha⟩

theorem puctScores_length (m : MCTS A F) (nodeId : NodeId) (cPuct : F)
    (isRoot applyForced : Bool) (n : Node A F) (hn : m.getNode nodeId = some n) :
    (m.puctScores nodeId cPuct isRoot applyForced).length = n.numActions := by
  simp [puctScores, hn, Dense.foldl_set, Dense.length_foldl_modify]

/-- Selection gives up on a node only if it has nothing to play. -/
theorem selectActionPuct_none (m : MCTS A F) (nodeId : NodeId) (cPuct : F)
    (isRoot applyForced : Bool) (n : Node A F) (hn : m.getNode nodeId = some n)
    (hlt : ∀ a ∈ n.validActions, toActionIndex a < n.numActions)
    (h : m.selectActionPuct nodeId cPuct isRoot applyForced = none) : n.validActions = [] := by
  have hlength := m.puctScores_length nodeId cPuct isRoot applyForced n hn
  unfold selectActionPuct at h
  dsimp only at h
  split at h
  · rename_i hempty
    have hzero : n.numActions = 0 := by simpa [← hlength] using hempty
    rw [List.eq_nil_iff_forall_not_mem]
    intro a ha
    have hbound := hlt a ha
    omega
  · rw [hn, Option.bind_some] at h
    cases hvalid : n.validActions with
    | nil => rfl
    | cons a rest => simp [hvalid, maxBy] at h

def checkStateRepeat (stateHash : NodeId) (path : List (NodeId × A)) : Bool :=
  path.any fun e => e.1 == stateHash

end MCTS

end Mcts.Engine
