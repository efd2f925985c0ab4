import Mcts.Queues
import Mathlib.Logic.Function.Basic

/-!
The shared-memory protocol between clients and handlers, one atomic step at a
time: a queue operation, a load or a store of a state word, or an access to the
fields of a slot that no one else may touch. Any number of clients run `infer`,
any number of handlers pop slots, answer them and mark them done.
-/
namespace Mcts.SlotProtocol

open Queues RingQueue

def SLOT_FREE : ℕ := 0

def SLOT_READY : ℕ := 1

def SLOT_DONE : ℕ := 3

def MAX_BATCH : ℕ := 8

variable {C H O R : Type}

/-- One call of one client. Tickets are not in memory: they mark what is there
with the call it was written for. -/
structure Ticket (C : Type) where
  client : C
  call : ℕ

structure Slot (C O R : Type) where
  state : ℕ
  b : ℕ
  ownerId : ℕ
  reqId : ℕ
  inputs : Option (Ticket C × List O)
  outputs : Option (Ticket C × R)

/-- Where a client is in `infer`; `panicked` stands for a failed assertion. -/
inductive Pc
  | outside | acquireSlot | fetchReqId | writeHeader | packObservations | storeReady
  | submitToHandler | waitDone | compareIds | assertDone | readResponse | storeFree | pushFree
  | panicked
deriving DecidableEq

inductive Outcome (C R : Type)
  | batchOutOfRange
  | packingFailed
  | mismatchedResponse
  | served (outputs : Option (Ticket C × R))

structure Client (C O R : Type) where
  pc : Pc
  observations : List O
  slotIdx : ℕ
  reqId : ℕ
  result : Option (Outcome C R)
  nextReqId : ℕ
  calls : ℕ

/-- How far a handler is with a slot it popped; `failed` is a failed assertion. -/
inductive Stage
  | popped | checked | loaded | answered | failed
deriving DecidableEq

structure Job (C O : Type) where
  slotIdx : ℕ
  stage : Stage
  inputs : Option (Ticket C × List O)

structure State (C H O R : Type) where
  numSlots : ℕ
  freeQ : RingQueue
  readyQ : RingQueue
  slots : ℕ → Slot C O R
  clients : C → Client C O R
  handlers : H → List (Job C O)

namespace State

variable [DecidableEq C] [DecidableEq H] (s : State C H O R)

def setSlot (i : ℕ) (slot : Slot C O R) : State C H O R :=
  { s with slots := Function.update s.slots i slot }

def setClient (c : C) (client : Client C O R) : State C H O R :=
  { s with clients := Function.update s.clients c client }

def setHandler (h : H) (jobs : List (Job C O)) : State C H O R :=
  { s with handlers := Function.update s.handlers h jobs }

/-- The slot behind an index; `none` where `slot_ptr` fails its assertion. -/
def slotPtr (i : ℕ) : Option (Slot C O R) := if i < s.numSlots then some (s.slots i) else none

def free : List ℕ := contents QCAP s.freeQ

def ready : List ℕ := contents QCAP s.readyQ

end State

/-- The loop that frees all slots; `none` is a panic of `unwrap`. -/
def initSlots (s : State C H O R) : List ℕ → Option (State C H O R)
  | [] => some s
  | i :: rest =>
    match tryPush QCAP i s.freeQ with
    | none => none
    | some q => initSlots { s.setSlot i { s.slots i with state := SLOT_FREE } with freeQ := q } rest

/-- The body of `create_or_open` that initialises an arena. -/
def initialise (numSlots : ℕ) (s : State C H O R) : Option (State C H O R) :=
  initSlots { s with numSlots := numSlots, freeQ := s.freeQ.init, readyQ := s.readyQ.init }
    (List.range numSlots)

section Steps

variable [DecidableEq C] [DecidableEq H] (owner : C → ℕ)

/-- Begin a call of `infer`: the batch size is checked before anything is touched. -/
def beginCall (c : C) (observations : List O) (s : State C H O R) : State C H O R :=
  let client := { s.clients c with
    observations := observations, result := none, calls := (s.clients c).calls + 1 }
  if observations.length = 0 ∨ MAX_BATCH < observations.length then
    s.setClient c { client with result := some .batchOutOfRange }
  else s.setClient c { client with pc := .acquireSlot }

/-- The next step of a client inside `infer`. A full or an empty queue and a
slot that is not done are waited for. -/
def inferStep (c : C) (s : State C H O R) : State C H O R :=
  let client := s.clients c
  let i := client.slotIdx
  let slot := s.slots i
  match client.pc with
  | .outside | .panicked => s
  | .acquireSlot =>
    match tryPop QCAP s.freeQ with
    | none => s
    | some (i, q) =>
      { s with freeQ := q }.setClient c { client with pc := .fetchReqId, slotIdx := i }
  | .fetchReqId =>
    s.setClient c { client with
      pc := .writeHeader
      reqId := client.nextReqId
      nextReqId := (client.nextReqId + 1) % 2 ^ 64 }
  | .writeHeader =>
    match s.slotPtr i with
    | none => s.setClient c { client with pc := .panicked }
    | some slot =>
      (s.setSlot i { slot with
        b := client.observations.length, ownerId := owner c, reqId := client.reqId }).setClient c
          { client with pc := .packObservations }
  | .packObservations =>
    if client.observations.length = 0 ∨ MAX_BATCH < client.observations.length then
      -- the error return of `?`: the slot is not released
      s.setClient c { client with pc := .outside, result := some .packingFailed }
    else
      (s.setSlot i { slot with
        b := client.observations.length
        inputs := some (⟨c, client.calls⟩, client.observations) }).setClient c
          { client with pc := .storeReady }
  | .storeReady =>
    (s.setSlot i { slot with state := SLOT_READY }).setClient c
      { client with pc := .submitToHandler }
  | .submitToHandler =>
    match tryPush QCAP i s.readyQ with
    | none => s
    | some q => { s with readyQ := q }.setClient c { client with pc := .waitDone }
  | .waitDone =>
    match s.slotPtr i with
    | none => s.setClient c { client with pc := .panicked }
    | some slot =>
      if slot.state = SLOT_DONE then s.setClient c { client with pc := .compareIds } else s
  | .compareIds =>
    match s.slotPtr i with
    | none => s.setClient c { client with pc := .panicked }
    | some slot =>
      if slot.ownerId ≠ owner c ∨ slot.reqId ≠ client.reqId then
        s.setClient c { client with pc := .storeFree, result := some .mismatchedResponse }
      else s.setClient c { client with pc := .assertDone }
  | .assertDone =>
    s.setClient c { client with
      pc := if slot.state = SLOT_DONE then .readResponse else .panicked }
  | .readResponse =>
    s.setClient c { client with pc := .storeFree, result := some (.served slot.outputs) }
  | .storeFree =>
    match s.slotPtr i with
    | none => s.setClient c { client with pc := .panicked }
    | some slot =>
      (s.setSlot i { slot with state := SLOT_FREE }).setClient c { client with pc := .pushFree }
  | .pushFree =>
    match tryPush QCAP i s.freeQ with
    | none => s
    | some q => { s with freeQ := q }.setClient c { client with pc := .outside }

/-- `pop_ready` up to its assertion, or `try_pop_ready` on a queue with an entry. -/
def popReady (h : H) (s : State C H O R) : State C H O R :=
  match tryPop QCAP s.readyQ with
  | none => s
  | some (i, q) => { s with readyQ := q }.setHandler h (s.handlers h ++ [(⟨i, .popped, none⟩ : Job C O)])

inductive Work (R : Type)
  | check
  | clearOutputs
  | load
  | write (answer : R)
  | markDone

/-- The handler's next step on the job at a position of its list: assert the
state, clear the outputs, read the inputs, write an answer to them, mark done. -/
def workStep (h : H) (k : ℕ) (work : Work R) (s : State C H O R) : Option (State C H O R) := do
  let job ← (s.handlers h)[k]?
  let slot := s.slots job.slotIdx
  match work, job.stage with
  | .check, .popped =>
    let passed := job.slotIdx < s.numSlots ∧ slot.state = SLOT_READY
    some (s.setHandler h ((s.handlers h).set k
      { job with stage := if passed then .checked else .failed }))
  | .clearOutputs, .checked => some (s.setSlot job.slotIdx { slot with outputs := none })
  | .load, .checked =>
    some (s.setHandler h ((s.handlers h).set k { job with stage := .loaded, inputs := slot.inputs }))
  | .write answer, .loaded =>
    some ((s.setSlot job.slotIdx
      { slot with outputs := job.inputs.map fun request => (request.1, answer) }).setHandler h
        ((s.handlers h).set k { job with stage := .answered }))
  | .markDone, .answered =>
    some ((s.setSlot job.slotIdx { slot with state := SLOT_DONE }).setHandler h
      ((s.handlers h).eraseIdx k))
  | _, _ => none

inductive Action (C H O R : Type)
  | call (c : C) (observations : List O)
  | infer (c : C)
  | popReady (h : H)
  | work (h : H) (k : ℕ) (work : Work R)

/-- One atomic step of one party; `none` where the party cannot take it. -/
def act (s : State C H O R) : Action C H O R → Option (State C H O R)
  | .call c observations =>
    if (s.clients c).pc = .outside then some (beginCall c observations s) else none
  | .infer c => some (inferStep owner c s)
  | .popReady h => some (popReady h s)
  | .work h k work => workStep h k work s

omit [DecidableEq H] in
theorem inferStep_numSlots (c : C) (s : State C H O R) :
    (inferStep owner c s).numSlots = s.numSlots := by
  unfold inferStep
  cases (s.clients c).pc <;> dsimp only <;> repeat' split
  all_goals rfl

/-- The number of slots never changes. -/
theorem act_numSlots {s t : State C H O R} {a : Action C H O R} (hact : act owner s a = some t) :
    t.numSlots = s.numSlots := by
  cases a with
  | call c observations =>
    rw [act] at hact
    split at hact
    · cases hact
      unfold beginCall
      split <;> rfl
    · exact absurd hact (by simp)
  | infer c =>
    cases hact
    exact inferStep_numSlots owner c s
  | popReady h =>
    cases hact
    unfold popReady
    split <;> rfl
  | work h k work =>
    simp only [act, workStep, Option.bind_eq_bind, Option.bind_eq_some_iff] at hact
    obtain ⟨job, _, hact⟩ := hact
    split at hact <;> cases hact <;> rfl

structure Unused (s : State C H O R) : Prop where
  freeQ : s.freeQ.slots.length = QCAP
  readyQ : s.readyQ.slots.length = QCAP
  clients : ∀ c, (s.clients c).pc = .outside ∧ (s.clients c).result = none
  handlers : ∀ h, s.handlers h = []

inductive Reachable (numSlots : ℕ) : State C H O R → Prop
  | initialised {s₀ s : State C H O R} :
      Unused s₀ → initialise numSlots s₀ = some s → Reachable numSlots s
  | step {s t : State C H O R} (a : Action C H O R) :
      Reachable numSlots s → act owner s a = some t → Reachable numSlots t

end Steps

end Mcts.SlotProtocol
