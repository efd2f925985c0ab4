import Mcts.SlotProtocol

/-!
Opening a shared arena, one atomic step at a time. Any number of processes run
`create_or_open` with the same arguments on one file; those that are through use
the queues. The decision to initialise, the lock and the publication are steps of
their own, so an opener can act on what it read long before.
-/
namespace Mcts.Opening

open Queues RingQueue
open SlotProtocol (SLOT_FREE)

def MAX_HANDLERS : ℕ := 16

def ARENA_MAGIC : ℕ := 0x4D435453495043

def ARENA_VERSION : ℕ := 2

structure ArenaHeader where
  magic : ℕ
  version : ℕ
  numSlots : ℕ
  numHandlers : ℕ
  freeQ : RingQueue
  readyQ : RingQueue
  initLock : ℕ
  initDone : ℕ

inductive OpenError
  | numSlotsZero
  | numSlotsTooLarge (requested : ℕ)
  | numHandlersRange
  | magicMismatch
  | versionMismatch (found : ℕ)
  | numSlotsMismatch (found requested : ℕ)
  | numHandlersMismatch (found requested : ℕ)
deriving DecidableEq

def OpenError.message : OpenError → String
  | numSlotsZero => "num_slots must be > 0"
  | numSlotsTooLarge requested => s!"num_slots={requested} must be less than QCAP={QCAP}"
  | numHandlersRange => s!"num_handlers must be in [1, {MAX_HANDLERS}]"
  | magicMismatch => "arena magic mismatch"
  | versionMismatch found => s!"arena version mismatch: {found} != {ARENA_VERSION}"
  | numSlotsMismatch found requested =>
    s!"arena exists with num_slots={found}, requested {requested}"
  | numHandlersMismatch found requested =>
    s!"arena exists with num_handlers={found}, requested {requested}"

/-- Where a process is in `create_or_open`; `panicked` is a failed `unwrap`. -/
inductive Pc
  | validate
  | readInitDone | readMagic | readVersion | lockInit
  | writeMagic | writeVersion | writeNumSlots | writeNumHandlers | initFreeQ | initReadyQ
  | initSlot (i : ℕ) | pushSlot (i : ℕ) | publishDone
  | unlock
  | waitDone
  | checkMagic | checkVersion | checkNumSlots | checkNumHandlers
  | opened | failed (error : OpenError) | panicked
deriving DecidableEq

/-- Slots held are those a process has taken from a queue and not yet put into
one. `begun` and `finished` count initialisations; they are not in memory. -/
structure State (P : Type) where
  hdr : ArenaHeader
  slotStates : ℕ → ℕ
  pc : P → Pc
  held : P → List ℕ
  begun : ℕ
  finished : ℕ

variable {P : Type} [DecidableEq P]

def State.goto (s : State P) (p : P) (pc : Pc) : State P :=
  { s with pc := Function.update s.pc p pc }

def State.hold (s : State P) (p : P) (slots : List ℕ) : State P :=
  { s with held := Function.update s.held p slots }

def initFrom (numSlots i : ℕ) : Pc := if i < numSlots then .initSlot i else .publishDone

section Steps

variable (numSlots numHandlers : ℕ)

/-- The next step of `create_or_open`; `||` reads no more than it has to. -/
def openStep (p : P) (s : State P) : State P :=
  let hdr := s.hdr
  match s.pc p with
  | .validate => s.goto p <|
    if numSlots = 0 then .failed .numSlotsZero
    else if QCAP ≤ numSlots then .failed (.numSlotsTooLarge numSlots)
    else if numHandlers = 0 ∨ MAX_HANDLERS < numHandlers then .failed .numHandlersRange
    else .readInitDone
  | .readInitDone => s.goto p (if hdr.initDone = 0 then .lockInit else .readMagic)
  | .readMagic => s.goto p (if hdr.magic ≠ ARENA_MAGIC then .lockInit else .readVersion)
  | .readVersion => s.goto p (if hdr.version ≠ ARENA_VERSION then .lockInit else .checkMagic)
  | .lockInit =>
    if hdr.initLock = 0 then
      { s with hdr := { hdr with initLock := 1 }, begun := s.begun + 1 }.goto p .writeMagic
    else s.goto p .waitDone
  | .writeMagic => { s with hdr := { hdr with magic := ARENA_MAGIC } }.goto p .writeVersion
  | .writeVersion => { s with hdr := { hdr with version := ARENA_VERSION } }.goto p .writeNumSlots
  | .writeNumSlots => { s with hdr := { hdr with numSlots := numSlots } }.goto p .writeNumHandlers
  | .writeNumHandlers =>
    { s with hdr := { hdr with numHandlers := numHandlers } }.goto p .initFreeQ
  | .initFreeQ => { s with hdr := { hdr with freeQ := hdr.freeQ.init } }.goto p .initReadyQ
  | .initReadyQ =>
    { s with hdr := { hdr with readyQ := hdr.readyQ.init } }.goto p (initFrom numSlots 0)
  | .initSlot i =>
    { s with slotStates := Function.update s.slotStates i SLOT_FREE }.goto p (.pushSlot i)
  | .pushSlot i =>
    match tryPush QCAP i hdr.freeQ with
    | none => s.goto p .panicked
    | some q => { s with hdr := { hdr with freeQ := q } }.goto p (initFrom numSlots (i + 1))
  | .publishDone =>
    { s with hdr := { hdr with initDone := 1 }, finished := s.finished + 1 }.goto p .unlock
  | .unlock => { s with hdr := { hdr with initLock := 0 } }.goto p .checkMagic
  | .waitDone => if hdr.initDone = 0 then s else s.goto p .checkMagic
  | .checkMagic => s.goto p <|
    if hdr.magic ≠ ARENA_MAGIC then .failed .magicMismatch else .checkVersion
  | .checkVersion => s.goto p <|
    if hdr.version ≠ ARENA_VERSION then .failed (.versionMismatch hdr.version) else .checkNumSlots
  | .checkNumSlots => s.goto p <|
    if hdr.numSlots ≠ numSlots then .failed (.numSlotsMismatch hdr.numSlots numSlots)
    else .checkNumHandlers
  | .checkNumHandlers => s.goto p <|
    if hdr.numHandlers ≠ numHandlers then
      .failed (.numHandlersMismatch hdr.numHandlers numHandlers)
    else .opened
  | .opened | .failed _ | .panicked => s

inductive Action (P : Type)
  | createOrOpen (p : P)
  | acquireSlot (p : P)
  | storeState (p : P) (i state : ℕ)
  | submitToHandler (p : P) (i : ℕ)
  | popReady (p : P)
  | releaseSlot (p : P) (i : ℕ)

/-- One step of one process; `none` where it has to wait, or is not so far. -/
def act (s : State P) : Action P → Option (State P)
  | .createOrOpen p => some (openStep numSlots numHandlers p s)
  | .acquireSlot p => do
    guard (s.pc p = .opened)
    let (i, q) ← tryPop QCAP s.hdr.freeQ
    some ({ s with hdr := { s.hdr with freeQ := q } }.hold p (i :: s.held p))
  | .storeState p i state => do
    guard (i ∈ s.held p)
    some { s with slotStates := Function.update s.slotStates i state }
  | .submitToHandler p i => do
    guard (i ∈ s.held p)
    let q ← tryPush QCAP i s.hdr.readyQ
    some ({ s with hdr := { s.hdr with readyQ := q } }.hold p ((s.held p).erase i))
  | .popReady p => do
    guard (s.pc p = .opened)
    let (i, q) ← tryPop QCAP s.hdr.readyQ
    some ({ s with hdr := { s.hdr with readyQ := q } }.hold p (i :: s.held p))
  | .releaseSlot p i => do
    guard (i ∈ s.held p)
    let q ← tryPush QCAP i s.hdr.freeQ
    some ({ s with hdr := { s.hdr with freeQ := q } }.hold p ((s.held p).erase i))

end Steps

def zeroHeader : ArenaHeader :=
  ⟨0, 0, 0, 0, ⟨0, 0, List.replicate QCAP 0⟩, ⟨0, 0, List.replicate QCAP 0⟩, 0, 0⟩

/-- The test of `create_or_open`, on a header that no one is changing. -/
def NeedInit (hdr : ArenaHeader) : Prop :=
  hdr.initDone = 0 ∨ hdr.magic ≠ ARENA_MAGIC ∨ hdr.version ≠ ARENA_VERSION

structure Outdated (hdr : ArenaHeader) : Prop where
  initLock : hdr.initLock = 0
  initDone : hdr.initDone = 1
  stale : hdr.magic ≠ ARENA_MAGIC ∨ hdr.version ≠ ARENA_VERSION
  freeQ : hdr.freeQ.slots.length = QCAP
  readyQ : hdr.readyQ.slots.length = QCAP

structure Unopened (s : State P) : Prop where
  contents : s.hdr = zeroHeader ∨ Outdated s.hdr
  pc : ∀ p, s.pc p = .validate
  held : ∀ p, s.held p = []
  counts : s.begun = 0 ∧ s.finished = 0

inductive Reachable (condition : State P → Action P → Prop) (numSlots numHandlers : ℕ) :
    State P → Prop
  | unopened {s : State P} : Unopened s → Reachable condition numSlots numHandlers s
  | step {s t : State P} (a : Action P) :
      Reachable condition numSlots numHandlers s → condition s a →
        act numSlots numHandlers s a = some t → Reachable condition numSlots numHandlers t

def follow (condition : State P → Action P → Prop) [∀ s a, Decidable (condition s a)]
    (numSlots numHandlers : ℕ) (actions : List (Action P)) (s : State P) : Option (State P) :=
  actions.foldlM
    (fun s a => if condition s a then act numSlots numHandlers s a else none) s

theorem reachable_follow {condition : State P → Action P → Prop}
    [∀ s a, Decidable (condition s a)] {numSlots numHandlers : ℕ} {actions : List (Action P)}
    {s t : State P} (hr : Reachable condition numSlots numHandlers s)
    (hfollow : follow condition numSlots numHandlers actions s = some t) :
    Reachable condition numSlots numHandlers t := by
  induction actions generalizing s with
  | nil => exact Option.some.inj hfollow ▸ hr
  | cons a rest ih =>
    simp only [follow, List.foldlM_cons, Option.bind_eq_bind, Option.bind_eq_some_iff] at hfollow
    obtain ⟨u, hact, hrest⟩ := hfollow
    split at hact
    · exact ih (.step a hr (by assumption) hact) hrest
    · exact absurd hact (by simp)

def InBody : Pc → Prop
  | .writeMagic | .writeVersion | .writeNumSlots | .writeNumHandlers | .initFreeQ | .initReadyQ
  | .initSlot _ | .pushSlot _ | .publishDone => True
  | _ => False

instance : DecidablePred InBody := fun pc => by
  cases pc <;> first | exact isTrue trivial | exact isFalse id

/-- The arena is initialised once, and before anyone uses it. -/
structure Once (s : State P) : Prop where
  begun : s.begun ≤ 1
  finished : ∀ p, s.pc p = .opened → s.finished = 1
  ended : ∀ p q, s.pc p = .opened → ¬ InBody (s.pc q)
  held : ∀ p q i, i ∈ s.held p → s.pc q ≠ .pushSlot i

end Mcts.Opening
