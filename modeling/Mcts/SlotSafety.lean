import Mcts.SlotWork

/-!
What the protocol promises in every reachable state: each slot is in exactly
one place, no assertion fails, no push finds a queue full, and a client reads
answers to its own request only.
-/
namespace Mcts.SlotSafety

open Queues RingQueue SlotProtocol SlotOwnership SlotSteps SlotWork

variable {C H O R : Type} {owner : C → ℕ} {s t : State C H O R} {place : ℕ → Place C H} {n : ℕ}

section Init

/-- The loop queues every slot, in order, and changes no one's progress. -/
theorem initSlots_holds (indices : List ℕ) {s : State C H O R} {done : List ℕ}
    (hq : Holds QCAP s.freeQ done) (hroom : done.length + indices.length < QCAP) :
    ∃ t, initSlots s indices = some t ∧ Holds QCAP t.freeQ (done ++ indices) ∧
      t.numSlots = s.numSlots ∧ t.readyQ = s.readyQ ∧ t.clients = s.clients ∧
      t.handlers = s.handlers := by
  induction indices generalizing s done with
  | nil => exact ⟨s, rfl, by simpa using hq, rfl, rfl, rfl, rfl⟩
  | cons i rest ih =>
    rw [List.length_cons] at hroom
    obtain ⟨q, hpush, hholds⟩ := hq.tryPush (x := i) (by omega)
    obtain ⟨t, ht, htail, hsame⟩ := ih
      (s := { s.setSlot i { s.slots i with state := SLOT_FREE } with freeQ := q }) hholds
      (by simp only [List.length_append, List.length_singleton]; omega)
    refine ⟨t, ?_, by simpa using htail, hsame⟩
    rw [initSlots, hpush]
    exact ht

/-- An arena comes out of its initialisation with all slots free. -/
theorem initialise_owned (owner : C → ℕ) (hn : n < QCAP) (hs : Unused s) :
    ∃ t, initialise n s = some t ∧ t.numSlots = n ∧ Owned owner t fun _ => .free := by
  have hinit := init_holds hs.freeQ (by decide)
  obtain ⟨t, ht, hq, hnum, hreadyQ, hclients, hhandlers⟩ := initSlots_holds
    (s := { s with numSlots := n, freeQ := s.freeQ.init, readyQ := s.readyQ.init })
    (List.range n) hinit (by simpa using hn)
  have hreadyHolds : Holds QCAP t.readyQ [] := hreadyQ ▸ init_holds hs.readyQ (by decide)
  have hnum : t.numSlots = n := hnum
  have hfree : t.free = List.range n := hq.contents_eq
  have hready : t.ready = [] := hreadyHolds.contents_eq
  have hjobs : ∀ h, t.handlers h = [] := fun h => by rw [hhandlers]; exact hs.handlers h
  have hout : ∀ c, (t.clients c).pc = .outside := fun c => by rw [hclients]; exact (hs.clients c).1
  have hresult : ∀ c, (t.clients c).result = none := fun c => by
    rw [hclients]
    exact (hs.clients c).2
  refine ⟨t, ht, hnum, ⟨hfree ▸ hq, hready ▸ hreadyHolds, ?_, ?_, fun h => ?_⟩, ⟨?_, ?_, ?_, ?_⟩,
    fun i hi => ⟨?_, ?_, fun h => ?_, fun c => ?_, trivial⟩, fun c => ⟨?_, ?_, ?_⟩⟩
  · exact hfree ▸ List.nodup_range
  · exact hready ▸ List.nodup_nil
  · simp [hjobs]
  · simp [hfree, hnum]
  · simp [hready]
  · simp [hjobs]
  · simp [hout, Inside]
  · have hi' : i < n := hnum ▸ hi
    simp [hfree, hi', Place.IsFree]
  · simp [hready, Place.IsReady]
  · simp [hjobs, Place.handler?]
  · simp [hout, Inside, Place.client?]
  · simp [hout]
  · simp [hout]
  · simp [hresult]

end Init

variable [DecidableEq C] [DecidableEq H]

/-- In every interleaving every slot is in place. -/
theorem reachable_owned (hn : n < QCAP) (hr : Reachable owner n s) :
    s.numSlots = n ∧ ∃ place, Owned owner s place := by
  induction hr with
  | initialised hs hinit =>
    obtain ⟨t, ht, hnum, ho⟩ := initialise_owned _ hn hs
    cases hinit.symm.trans ht
    exact ⟨hnum, _, ho⟩
  | step a _ hact ih =>
    obtain ⟨hnum, place, ho⟩ := ih
    exact ⟨(act_numSlots owner hact).trans hnum, act_owned (hnum.symm ▸ hn) ho hact⟩

inductive Station (C H : Type)
  | freeQueue
  | heldBy (c : C)
  | readyQueue
  | servedBy (h : H)
  | doneFor (c : C)

def Occupies (s : State C H O R) (i : ℕ) : Station C H → Prop
  | .freeQueue => i ∈ s.free
  | .heldBy c => (Inside (s.clients c).pc ∧ (s.clients c).pc ≠ .waitDone) ∧
      (s.clients c).slotIdx = i
  | .readyQueue => i ∈ s.ready
  | .servedBy h => ∃ job ∈ s.handlers h, job.slotIdx = i
  | .doneFor c => (s.clients c).pc = .waitDone ∧ (s.clients c).slotIdx = i ∧
      (s.slots i).state = SLOT_DONE

def station : Place C H → Station C H
  | .free => .freeQueue
  | .client c => .heldBy c
  | .ready _ => .readyQueue
  | .handler h _ => .servedBy h
  | .done c => .doneFor c

omit [DecidableEq C] [DecidableEq H] in
/-- A slot occupies the station of its place. -/
theorem occupies_station {i : ℕ} {p : Place C H} (hat : At owner s i p) :
    Occupies s i (station p) := by
  have hcontent := hat.content
  cases p with
  | free => exact hat.free.mpr trivial
  | client c =>
    obtain ⟨hin, hidx⟩ := (hat.client c).mpr rfl
    refine ⟨⟨hin, fun hwait => ?_⟩, hidx⟩
    rw [Content, Progress, hwait] at hcontent
    exact hcontent
  | ready c => exact hat.ready.mpr trivial
  | handler h c => exact (hat.job h).mpr rfl
  | done c => exact ⟨hcontent.1, ((hat.client c).mpr rfl).2, hcontent.2.2.2⟩

omit [DecidableEq C] [DecidableEq H] in
/-- It occupies no other. -/
theorem station_unique {i : ℕ} {p : Place C H} (hat : At owner s i p) {x : Station C H}
    (hx : Occupies s i x) : x = station p := by
  have hcontent := hat.content
  have hinside : ∀ c, (s.clients c).pc = .waitDone → (s.clients c).slotIdx = i →
      p.client? = some c := fun c hpc hidx => (hat.client c).mp ⟨by simp [hpc, Inside], hidx⟩
  cases x with
  | freeQueue => rw [Place.isFree_iff.mp (hat.free.mp hx)]; rfl
  | heldBy c =>
    obtain ⟨⟨hin, hwait⟩, hidx⟩ := hx
    have hclient := (hat.client c).mp ⟨hin, hidx⟩
    cases p with
    | free => exact absurd hclient (by simp [Place.client?])
    | client d => rw [Option.some.inj hclient]; rfl
    | ready d | handler h d | done d =>
      cases hclient
      exact absurd hcontent.1 hwait
  | readyQueue =>
    obtain ⟨c, rfl⟩ := Place.isReady_iff.mp (hat.ready.mp hx)
    rfl
  | servedBy h =>
    obtain ⟨c, rfl⟩ := Place.handler?_iff.mp ((hat.job h).mp hx)
    rfl
  | doneFor c =>
    obtain ⟨hpc, hidx, hstate⟩ := hx
    have hclient := hinside c hpc hidx
    cases p with
    | free => exact absurd hclient (by simp [Place.client?])
    | client d =>
      cases hclient
      rw [Content, Progress, hpc] at hcontent
      exact hcontent.elim
    | ready d => exact absurd (hstate.symm.trans hcontent.2.2) (by decide)
    | handler h d => exact absurd (hstate.symm.trans hcontent.2.2.1) (by decide)
    | done d => rw [Option.some.inj hclient]; rfl

/-- What holds at every moment of every run with `n` slots. -/
structure Safe (owner : C → ℕ) (n : ℕ) (s : State C H O R) : Prop where
  place : ∀ i, i < n → ∃! x, Occupies s i x
  once : s.free.Nodup ∧ s.ready.Nodup ∧ ∀ h, ((s.handlers h).map (·.slotIdx)).Nodup
  inRange : ∀ i x, Occupies s i x → i < n
  popped : ∀ h, ∀ job ∈ s.handlers h,
    job.stage ≠ .failed ∧ (s.slots job.slotIdx).state = SLOT_READY
  running : ∀ c, (s.clients c).pc ≠ .panicked
  pushReady : ∀ c, (s.clients c).pc = .submitToHandler →
    (tryPush QCAP (s.clients c).slotIdx s.readyQ).isSome
  pushFree : ∀ c, (s.clients c).pc = .pushFree →
    (tryPush QCAP (s.clients c).slotIdx s.freeQ).isSome
  response : ∀ c, (s.clients c).pc ∈ [Pc.compareIds, .assertDone, .readResponse] →
    let slot := s.slots (s.clients c).slotIdx
    slot.state = SLOT_DONE ∧ slot.ownerId = owner c ∧ slot.reqId = (s.clients c).reqId ∧
      ∃ answer, slot.outputs = some (⟨c, (s.clients c).calls⟩, answer)
  result : ∀ c outcome, (s.clients c).result = some outcome → outcome = .batchOutOfRange ∨
    ∃ answer, outcome = .served (some (⟨c, (s.clients c).calls⟩, answer))
  rest : (∀ c, (s.clients c).pc = .outside) → s.free.Perm (List.range n)

omit [DecidableEq C] [DecidableEq H] in
theorem owned_safe (hn : s.numSlots < QCAP) (ho : Owned owner s place) :
    Safe owner s.numSlots s where
  place i hi := ⟨station (place i), occupies_station (ho.slot i hi), fun _ hx =>
    station_unique (ho.slot i hi) hx⟩
  once := ⟨ho.tidy.free_nodup, ho.tidy.ready_nodup, ho.tidy.jobs_nodup⟩
  inRange i x hx := by
    cases x with
    | freeQueue => exact ho.range.free i hx
    | heldBy c => exact hx.2 ▸ ho.range.client c hx.1.1
    | readyQueue => exact ho.range.ready i hx
    | servedBy h =>
      obtain ⟨job, hjob, rfl⟩ := hx
      exact ho.range.job h job hjob
    | doneFor c => exact hx.2.1 ▸ ho.range.client c (by simp [hx.1, Inside])
  popped h job hjob := by
    obtain ⟨hi, c, hplace⟩ := job_place ho hjob
    have hcontent := (ho.slot _ hi).content
    rw [hplace] at hcontent
    have hhandled := hcontent.2.2.2 job hjob rfl
    refine ⟨fun hfailed => ?_, hcontent.2.2.1⟩
    rw [Handled, hfailed] at hhandled
    exact hhandled
  running c := (ho.proper c).running
  pushReady c hpc := by
    obtain ⟨hi, hplace⟩ := holds_slot ho (c := c) (by simp [hpc, Inside]) (by simp [hpc])
    obtain ⟨q, hpush, _⟩ := push_ready hn ho hi hplace
    simp [hpush]
  pushFree c hpc := by
    obtain ⟨hi, hplace⟩ := holds_slot ho (c := c) (by simp [hpc, Inside]) (by simp [hpc])
    obtain ⟨q, hpush, _⟩ := push_free hn ho hi hplace
    simp [hpush]
  response c hpc := by
    have hin : Inside (s.clients c).pc ∧ (s.clients c).pc ≠ .waitDone := by
      rcases List.mem_cons.mp hpc with h | h
      · simp [h, Inside]
      · rcases List.mem_pair.mp h with h | h <;> simp [h, Inside]
    obtain ⟨hi, hplace⟩ := holds_slot ho hin.1 hin.2
    have hcontent := (ho.slot _ hi).content
    rw [hplace, Content] at hcontent
    have hprogress : Labelled owner c (s.clients c) (s.slots (s.clients c).slotIdx) ∧
        Answered c (s.clients c) (s.slots (s.clients c).slotIdx) ∧
        (s.slots (s.clients c).slotIdx).state = SLOT_DONE := by
      rcases List.mem_cons.mp hpc with h | h
      · rwa [Progress, h] at hcontent
      · rcases List.mem_pair.mp h with h | h <;> rwa [Progress, h] at hcontent
    exact ⟨hprogress.2.2, hprogress.1.1, hprogress.1.2, hprogress.2.1⟩
  result c := (ho.proper c).result
  rest hout := by
    refine (List.perm_ext_iff_of_nodup ho.tidy.free_nodup List.nodup_range).mpr fun i => ?_
    rw [List.mem_range]
    refine ⟨ho.range.free i, fun hi => ?_⟩
    have hat := ho.slot i hi
    rw [hat.free]
    cases hp : place i with
    | free => trivial
    | client c | ready c | handler h c | done c =>
      have hclient := (hat.client c).mpr (by rw [hp]; rfl)
      exact absurd hclient.1 (by simp [hout, Inside])

/-- An arena of fewer slots than the queues have entries initialises, and is
safe in every state that clients and handlers can bring it to. -/
theorem protocol_safe (owner : C → ℕ) (hn : n < QCAP) :
    (∀ s₀ : State C H O R, Unused s₀ → (initialise n s₀).isSome) ∧
      ∀ s : State C H O R, Reachable owner n s → Safe owner n s := by
  refine ⟨fun s₀ hs => ?_, fun s hr => ?_⟩
  · obtain ⟨t, ht, _⟩ := initialise_owned owner hn hs
    simp [ht]
  · obtain ⟨hnum, place, ho⟩ := reachable_owned hn hr
    rw [← hnum]
    exact owned_safe (hnum.symm ▸ hn) ho

def acts (owner : C → ℕ) (actions : List (Action C H O R)) (s : State C H O R) :
    Option (State C H O R) :=
  actions.foldlM (act owner) s

theorem reachable_acts {actions : List (Action C H O R)} (hr : Reachable owner n s)
    (hacts : acts owner actions s = some t) : Reachable owner n t := by
  induction actions generalizing s with
  | nil => exact Option.some.inj hacts ▸ hr
  | cons a rest ih =>
    simp only [acts, List.foldlM_cons, Option.bind_eq_bind, Option.bind_eq_some_iff] at hacts
    obtain ⟨u, hact, hrest⟩ := hacts
    exact ih (.step a hr hact) hrest

def memory : State Unit Unit ℕ ℕ where
  numSlots := 5
  freeQ := ⟨7, 9, List.replicate QCAP 3⟩
  readyQ := ⟨2, 1, List.replicate QCAP 4⟩
  slots _ := ⟨SLOT_DONE, 6, 8, 2, none, none⟩
  clients _ := ⟨.outside, [], 0, 0, none, 0, 0⟩
  handlers _ := []

theorem memory_unused : Unused memory where
  freeQ := List.length_replicate
  readyQ := List.length_replicate
  clients _ := ⟨rfl, rfl⟩
  handlers _ := rfl

def served : List (Action Unit Unit ℕ ℕ) :=
  .call () [10, 20] :: List.replicate 6 (.infer ()) ++
    [.popReady (), .work () 0 .check, .work () 0 .clearOutputs, .work () 0 .load,
      .work () 0 (.write 30), .work () 0 .markDone] ++ List.replicate 6 (.infer ())

theorem protocol_safe_served : ∃ s : State Unit Unit ℕ ℕ,
    (s.clients ()).result = some (.served (some (⟨(), 1⟩, 30))) ∧ Safe (fun _ => 0) 1 s := by
  have hrun : ∃ s t, initialise 1 memory = some s ∧ acts (fun _ => 0) served s = some t ∧
      (t.clients ()).result = some (.served (some (⟨(), 1⟩, 30))) := ⟨_, _, rfl, rfl, rfl⟩
  obtain ⟨s, t, hinit, hacts, hresult⟩ := hrun
  exact ⟨t, hresult, (protocol_safe (fun _ => 0) (by decide)).2 t
    (reachable_acts (.initialised memory_unused hinit) hacts)⟩

end Mcts.SlotSafety
