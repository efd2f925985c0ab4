import Mcts.SlotProtocol

/-!
Every slot of the protocol is in one place. A place says which queue, client or
handler has the slot and which call it is there for; `At` says what then holds
of the slot, and `Owned` that it holds of every slot. A step moves one slot or
works on it where it is, and `Owned.move` lifts that to the whole arena.
-/
namespace Mcts.SlotOwnership

open Queues RingQueue SlotProtocol

variable {C H O R : Type}

/-- Where a slot is, and the client whose call it serves. -/
inductive Place (C H : Type)
  | free
  | client (c : C)
  | ready (c : C)
  | handler (h : H) (c : C)
  | done (c : C)

namespace Place

def client? : Place C H → Option C
  | free => none
  | client c | ready c | handler _ c | done c => some c

def handler? : Place C H → Option H
  | handler h _ => some h
  | _ => none

def IsFree : Place C H → Prop
  | free => True
  | _ => False

def IsReady : Place C H → Prop
  | ready _ => True
  | _ => False

variable {p : Place C H}

theorem isFree_iff : p.IsFree ↔ p = free := by cases p <;> simp [IsFree]

theorem isReady_iff : p.IsReady ↔ ∃ c, p = ready c := by cases p <;> simp [IsReady]

theorem handler?_iff {h : H} : p.handler? = some h ↔ ∃ c, p = handler h c := by
  cases p <;> simp [handler?]

end Place

def Inside : Pc → Prop
  | .outside | .acquireSlot | .panicked => False
  | _ => True

section Facts

variable (owner : C → ℕ)

def Labelled (c : C) (client : Client C O R) (slot : Slot C O R) : Prop :=
  slot.ownerId = owner c ∧ slot.reqId = client.reqId

def Requested (c : C) (client : Client C O R) (slot : Slot C O R) : Prop :=
  Labelled owner c client slot ∧
    slot.inputs = some (⟨c, client.calls⟩, client.observations)

def Answered (c : C) (client : Client C O R) (slot : Slot C O R) : Prop :=
  ∃ answer, slot.outputs = some (⟨c, client.calls⟩, answer)

def Progress (c : C) (client : Client C O R) (slot : Slot C O R) : Prop :=
  match client.pc with
  | .fetchReqId | .writeHeader | .storeFree | .pushFree => True
  | .packObservations => Labelled owner c client slot
  | .storeReady => Requested owner c client slot
  | .submitToHandler => Requested owner c client slot ∧ slot.state = SLOT_READY
  | .compareIds | .assertDone | .readResponse =>
    Labelled owner c client slot ∧ Answered c client slot ∧ slot.state = SLOT_DONE
  | _ => False

def Handled (c : C) (client : Client C O R) (slot : Slot C O R) (job : Job C O) : Prop :=
  match job.stage with
  | .popped | .checked => True
  | .loaded => job.inputs = some (⟨c, client.calls⟩, client.observations)
  | .answered => Answered c client slot
  | .failed => False

def Content (s : State C H O R) (i : ℕ) : Place C H → Prop
  | .free => True
  | .client c => Progress owner c (s.clients c) (s.slots i)
  | .ready c => (s.clients c).pc = .waitDone ∧ Requested owner c (s.clients c) (s.slots i) ∧
      (s.slots i).state = SLOT_READY
  | .handler h c => (s.clients c).pc = .waitDone ∧ Requested owner c (s.clients c) (s.slots i) ∧
      (s.slots i).state = SLOT_READY ∧
      ∀ job ∈ s.handlers h, job.slotIdx = i → Handled c (s.clients c) (s.slots i) job
  | .done c => (s.clients c).pc = .waitDone ∧ Labelled owner c (s.clients c) (s.slots i) ∧
      Answered c (s.clients c) (s.slots i) ∧ (s.slots i).state = SLOT_DONE

structure At (s : State C H O R) (i : ℕ) (p : Place C H) : Prop where
  free : i ∈ s.free ↔ p.IsFree
  ready : i ∈ s.ready ↔ p.IsReady
  job : ∀ h, (∃ job ∈ s.handlers h, job.slotIdx = i) ↔ p.handler? = some h
  client : ∀ c, (Inside (s.clients c).pc ∧ (s.clients c).slotIdx = i) ↔ p.client? = some c
  content : Content owner s i p

structure Tidy (s : State C H O R) : Prop where
  freeQ : Holds QCAP s.freeQ s.free
  readyQ : Holds QCAP s.readyQ s.ready
  free_nodup : s.free.Nodup
  ready_nodup : s.ready.Nodup
  jobs_nodup : ∀ h, ((s.handlers h).map (·.slotIdx)).Nodup

structure InRange (s : State C H O R) : Prop where
  free : ∀ i ∈ s.free, i < s.numSlots
  ready : ∀ i ∈ s.ready, i < s.numSlots
  job : ∀ h, ∀ job ∈ s.handlers h, job.slotIdx < s.numSlots
  client : ∀ c, Inside (s.clients c).pc → (s.clients c).slotIdx < s.numSlots

structure Proper (c : C) (client : Client C O R) : Prop where
  running : client.pc ≠ .panicked
  batch : client.pc ≠ .outside →
    0 < client.observations.length ∧ client.observations.length ≤ MAX_BATCH
  result : ∀ outcome, client.result = some outcome → outcome = .batchOutOfRange ∨
    ∃ answer, outcome = .served (some (⟨c, client.calls⟩, answer))

/-- Every slot is at its place, and every client is in order. -/
structure Owned (s : State C H O R) (place : ℕ → Place C H) : Prop where
  tidy : Tidy s
  range : InRange s
  slot : ∀ i, i < s.numSlots → At owner s i (place i)
  proper : ∀ c, Proper c (s.clients c)

end Facts

/-- Nothing changes but what concerns one slot and one client. -/
structure Frame (s t : State C H O R) (i : ℕ) (c : C) : Prop where
  numSlots : t.numSlots = s.numSlots
  slots : ∀ j, j ≠ i → t.slots j = s.slots j
  clients : ∀ d, d ≠ c → t.clients d = s.clients d
  jobs : ∀ h job, job.slotIdx ≠ i → (job ∈ t.handlers h ↔ job ∈ s.handlers h)
  free : ∀ j, j ≠ i → (j ∈ t.free ↔ j ∈ s.free)
  ready : ∀ j, j ≠ i → (j ∈ t.ready ↔ j ∈ s.ready)

variable {owner : C → ℕ} {s t : State C H O R} {place : ℕ → Place C H} {i : ℕ} {c : C}

/-- The frame of a slot: what is elsewhere stays there. -/
theorem At.frame (hf : Frame s t i c) (hbefore : Inside (s.clients c).pc → (s.clients c).slotIdx = i)
    (hafter : Inside (t.clients c).pc → (t.clients c).slotIdx = i) {j : ℕ} (hj : j ≠ i)
    {p : Place C H} (h : At owner s j p) : At owner t j p := by
  have hother : ∀ d, p.client? = some d → d ≠ c := by
    rintro d hd rfl
    obtain ⟨hin, hidx⟩ := (h.client d).mpr hd
    exact hj (hidx.symm.trans (hbefore hin))
  refine ⟨(hf.free j hj).trans h.free, (hf.ready j hj).trans h.ready, fun k => ?_, fun d => ?_, ?_⟩
  · rw [← h.job k]
    constructor
    · rintro ⟨job, hjob, hidx⟩
      exact ⟨job, (hf.jobs k job (by omega)).mp hjob, hidx⟩
    · rintro ⟨job, hjob, hidx⟩
      exact ⟨job, (hf.jobs k job (by omega)).mpr hjob, hidx⟩
  · by_cases hd : d = c
    · subst hd
      constructor
      · rintro ⟨hin, hidx⟩
        exact absurd (hidx.symm.trans (hafter hin)) hj
      · exact fun hp => absurd rfl (hother d hp)
    · rw [hf.clients d hd]
      exact h.client d
  · have hcontent := h.content
    cases p with
    | free => trivial
    | client d =>
      simpa only [Content, hf.slots j hj, hf.clients d (hother d rfl)] using hcontent
    | ready d =>
      simpa only [Content, hf.slots j hj, hf.clients d (hother d rfl)] using hcontent
    | handler k d =>
      simp only [Content, hf.slots j hj, hf.clients d (hother d rfl)] at hcontent ⊢
      obtain ⟨hpc, hrequest, hstate, hjobs⟩ := hcontent
      exact ⟨hpc, hrequest, hstate, fun job hjob hidx =>
        hjobs job ((hf.jobs k job (by omega)).mp hjob) hidx⟩
    | done d =>
      simpa only [Content, hf.slots j hj, hf.clients d (hother d rfl)] using hcontent

/-- A step that concerns one slot and one client moves that slot and no other. -/
theorem Owned.move (h : Owned owner s place) (hf : Frame s t i c) (htidy : Tidy t)
    (hi : i < s.numSlots) (hbefore : Inside (s.clients c).pc → (s.clients c).slotIdx = i)
    (hafter : Inside (t.clients c).pc → (t.clients c).slotIdx = i) {p : Place C H}
    (hp : At owner t i p) (hproper : Proper c (t.clients c)) :
    Owned owner t (Function.update place i p) where
  tidy := htidy
  range := by
    have hi' : i < t.numSlots := hf.numSlots.symm ▸ hi
    refine ⟨fun j hj => ?_, fun j hj => ?_, fun k job hjob => ?_, fun d hin => ?_⟩
    · by_cases hji : j = i
      · exact hji ▸ hi'
      · exact hf.numSlots.symm ▸ h.range.free j ((hf.free j hji).mp hj)
    · by_cases hji : j = i
      · exact hji ▸ hi'
      · exact hf.numSlots.symm ▸ h.range.ready j ((hf.ready j hji).mp hj)
    · by_cases hji : job.slotIdx = i
      · exact hji ▸ hi'
      · exact hf.numSlots.symm ▸ h.range.job k job ((hf.jobs k job hji).mp hjob)
    · by_cases hd : d = c
      · subst hd
        exact hafter hin ▸ hi'
      · rw [hf.clients d hd] at hin ⊢
        exact hf.numSlots.symm ▸ h.range.client d hin
  slot j hj := by
    rw [hf.numSlots] at hj
    by_cases hji : j = i
    · subst hji
      rwa [Function.update_self]
    · rw [Function.update_of_ne hji]
      exact (h.slot j hj).frame hf hbefore hafter hji
  proper d := by
    by_cases hd : d = c
    · exact hd ▸ hproper
    · rw [hf.clients d hd]
      exact h.proper d

end Mcts.SlotOwnership
