import Mcts.Schedules
import Mcts.SlotSafety
import Mathlib.Algebra.BigOperators.Group.Finset.Basic
import Mathlib.Data.Fintype.Basic
import Mathlib.Tactic.IntervalCases

/-!
The protocol under a fair schedule. Each step either polls in vain or brings some
call closer to its end, so once no new calls are made every client comes out of
`infer` and every slot goes back to the free queue.
-/
namespace Mcts.SlotProgress

open Queues RingQueue SlotProtocol SlotOwnership SlotSteps SlotWork SlotSafety Schedules

variable {C H O R : Type}

/-- How many steps a client has left before it is outside, besides those of the
handler that serves it. -/
def rank : Pc → ℕ
  | .outside | .panicked => 0
  | .pushFree => 1
  | .storeFree => 2
  | .readResponse => 3
  | .assertDone => 4
  | .compareIds => 5
  | .waitDone => 6
  | .submitToHandler => 12
  | .storeReady => 13
  | .packObservations => 14
  | .writeHeader => 15
  | .fetchReqId => 16
  | .acquireSlot => 17

def stageRank : Stage → ℕ
  | .failed => 0
  | .answered => 1
  | .loaded => 2
  | .checked => 3
  | .popped => 4

def effort [Fintype C] [Fintype H] (s : State C H O R) : ℕ :=
  ∑ c, rank (s.clients c).pc + 5 * s.ready.length +
    ∑ h, ((s.handlers h).map fun job => stageRank job.stage).sum

/-- Nothing has moved: clients, queues, jobs and state words are as they were. -/
structure Same (s t : State C H O R) : Prop where
  clients : t.clients = s.clients
  freeQ : t.freeQ = s.freeQ
  readyQ : t.readyQ = s.readyQ
  handlers : t.handlers = s.handlers
  state : ∀ i, (t.slots i).state = (s.slots i).state

theorem Same.refl (s : State C H O R) : Same s s := ⟨rfl, rfl, rfl, rfl, fun _ => rfl⟩

theorem Same.trans {s t u : State C H O R} (h : Same s t) (h' : Same t u) : Same s u :=
  ⟨h'.clients.trans h.clients, h'.freeQ.trans h.freeQ, h'.readyQ.trans h.readyQ,
    h'.handlers.trans h.handlers, fun i => (h'.state i).trans (h.state i)⟩

section Sums

/-- A sum over all clients or handlers after a change of one. -/
theorem sum_update {ι α : Type} [Fintype ι] [DecidableEq ι] (f : ι → α) (i : ι) (a : α)
    (g : α → ℕ) : ∑ j, g (Function.update f i a j) + g (f i) = ∑ j, g (f j) + g a := by
  rw [← Finset.add_sum_erase Finset.univ _ (Finset.mem_univ i),
    ← Finset.add_sum_erase Finset.univ (fun j => g (f j)) (Finset.mem_univ i), Function.update_self]
  have hrest : ∑ j ∈ Finset.univ.erase i, g (Function.update f i a j) =
      ∑ j ∈ Finset.univ.erase i, g (f j) :=
    Finset.sum_congr rfl fun j hj => by rw [Function.update_of_ne (Finset.ne_of_mem_erase hj)]
  omega

/-- The ready queue grows at its end. -/
theorem ready_push {s : State C H O R} {i : ℕ} {q : RingQueue} (hq : Holds QCAP s.readyQ s.ready)
    (hpush : tryPush QCAP i s.readyQ = some q) : contents QCAP q = s.ready ++ [i] := by
  have hroom : s.ready.length < QCAP - 1 := by
    have hshort := hq.short
    have hfull := (hq.tryPush_none_iff (x := i)).not
    rw [hpush] at hfull
    have hne := hfull.mp (by simp)
    omega
  obtain ⟨q', hpush', hholds⟩ := hq.tryPush (x := i) hroom
  cases hpush.symm.trans hpush'
  exact hholds.contents_eq

variable [DecidableEq C] [DecidableEq H] [Fintype C] [Fintype H]

omit [DecidableEq H] in
theorem effort_setClient (s : State C H O R) (c : C) (client : Client C O R) :
    effort (s.setClient c client) + rank (s.clients c).pc = effort s + rank client.pc := by
  have hsum := sum_update s.clients c client fun client => rank client.pc
  simp only [effort, State.setClient, State.ready] at hsum ⊢
  omega

omit [DecidableEq C] in
theorem effort_setHandler (s : State C H O R) (h : H) (jobs : List (Job C O)) :
    effort (s.setHandler h jobs) + ((s.handlers h).map fun job => stageRank job.stage).sum =
      effort s + (jobs.map fun job => stageRank job.stage).sum := by
  have hsum := sum_update s.handlers h jobs fun jobs =>
    (jobs.map fun job => stageRank job.stage).sum
  simp only [effort, State.setHandler, State.ready] at hsum ⊢
  omega

omit [DecidableEq H] in
/-- A client gets on by more than it leaves to the handlers. -/
theorem effort_lt {s s' : State C H O R} {c : C} {client : Client C O R} (k : ℕ)
    (hs : effort s' = effort s + k) (hclient : s'.clients c = s.clients c)
    (hrank : rank client.pc + k < rank (s.clients c).pc) :
    effort (s'.setClient c client) < effort s := by
  have heffort := effort_setClient s' c client
  rw [hclient] at heffort
  omega

end Sums

section Steps

variable [DecidableEq C] [DecidableEq H] [Fintype C] [Fintype H]
variable {owner : C → ℕ} {s t : State C H O R}

omit [DecidableEq H] in
/-- A step of `infer` is a poll in vain, or the client gets on. -/
theorem inferStep_effort (htidy : Tidy s) (c : C) :
    inferStep owner c s = s ∨ effort (inferStep owner c s) < effort s := by
  cases hpc : (s.clients c).pc <;> simp only [inferStep, hpc]
  case outside | panicked => exact Or.inl trivial
  case acquireSlot =>
    split
    · exact Or.inl rfl
    · exact Or.inr (effort_lt 0 rfl rfl (by simp [hpc, rank]))
  case fetchReqId => exact Or.inr (effort_lt 0 rfl rfl (by simp [hpc, rank]))
  case writeHeader =>
    split
    · exact Or.inr (effort_lt 0 rfl rfl (by simp [hpc, rank]))
    · exact Or.inr (effort_lt 0 rfl rfl (by simp [hpc, rank]))
  case packObservations =>
    split
    · exact Or.inr (effort_lt 0 rfl rfl (by simp [hpc, rank]))
    · exact Or.inr (effort_lt 0 rfl rfl (by simp [hpc, rank]))
  case storeReady => exact Or.inr (effort_lt 0 rfl rfl (by simp [hpc, rank]))
  case submitToHandler =>
    split
    · exact Or.inl rfl
    · rename_i q hpush
      right
      refine effort_lt 5 ?_ rfl (by simp [hpc, rank])
      simp only [effort, State.ready, ready_push htidy.readyQ hpush, List.length_append,
        List.length_singleton]
      omega
  case waitDone =>
    split
    · exact Or.inr (effort_lt 0 rfl rfl (by simp [hpc, rank]))
    · split
      · exact Or.inr (effort_lt 0 rfl rfl (by simp [hpc, rank]))
      · exact Or.inl rfl
  case compareIds =>
    split
    · exact Or.inr (effort_lt 0 rfl rfl (by simp [hpc, rank]))
    · split
      · exact Or.inr (effort_lt 0 rfl rfl (by simp [hpc, rank]))
      · exact Or.inr (effort_lt 0 rfl rfl (by simp [hpc, rank]))
  case assertDone =>
    right
    refine effort_lt 0 rfl rfl ?_
    split <;> simp [hpc, rank]
  case readResponse => exact Or.inr (effort_lt 0 rfl rfl (by simp [hpc, rank]))
  case storeFree =>
    split
    · exact Or.inr (effort_lt 0 rfl rfl (by simp [hpc, rank]))
    · exact Or.inr (effort_lt 0 rfl rfl (by simp [hpc, rank]))
  case pushFree =>
    split
    · exact Or.inl rfl
    · exact Or.inr (effort_lt 0 rfl rfl (by simp [hpc, rank]))

omit [DecidableEq C] in
/-- A handler that has worked on a job has less to do. -/
theorem effort_job_lt {s s' : State C H O R} {h : H} {jobs : List (Job C O)}
    (hs : effort s' = effort s) (hhandlers : s'.handlers h = s.handlers h)
    (hrank : (jobs.map fun job => stageRank job.stage).sum <
      ((s.handlers h).map fun job => stageRank job.stage).sum) :
    effort (s'.setHandler h jobs) < effort s := by
  have heffort := effort_setHandler s' h jobs
  rw [hhandlers] at heffort
  omega

omit [DecidableEq C] in
/-- A handler that pops has taken a slot over, or the queue was empty. -/
theorem popReady_effort (htidy : Tidy s) (h : H) :
    popReady h s = s ∨ effort (popReady h s) < effort s := by
  have hq := htidy.readyQ
  cases hready : s.ready with
  | nil =>
    rw [hready] at hq
    rw [popReady, hq.tryPop_nil]
    exact Or.inl rfl
  | cons i rest =>
    rw [hready] at hq
    obtain ⟨q, hpop, hholds⟩ := hq.tryPop_cons
    have htaken : popReady h s = { s with readyQ := q }.setHandler h
        (s.handlers h ++ [(⟨i, .popped, none⟩ : Job C O)]) := by rw [popReady, hpop]
    right
    rw [htaken]
    have heffort := effort_setHandler { s with readyQ := q } h
      (s.handlers h ++ [(⟨i, .popped, none⟩ : Job C O)])
    have hrest : effort { s with readyQ := q } + 5 = effort s := by
      have hcontents : contents QCAP q = rest := hholds.contents_eq
      have hready' : contents QCAP s.readyQ = i :: rest := hready
      simp only [effort, State.ready, hcontents, hready', List.length_cons]
      omega
    have hpopped : stageRank .popped = 4 := rfl
    simp only [List.map_append, List.sum_append, List.map_singleton, List.sum_singleton,
      hpopped] at heffort
    omega

omit [DecidableEq C] in
/-- The step clears the outputs of a slot, or the handler gets on with a job. -/
theorem workStep_effort {h : H} {k : ℕ} {work : Work R} (hwork : workStep h k work s = some t) :
    (work = .clearOutputs ∧ Same s t ∧ effort t = effort s) ∨ effort t < effort s := by
  simp only [workStep, Option.bind_eq_bind, Option.bind_eq_some_iff] at hwork
  obtain ⟨job, hjob, hwork⟩ := hwork
  obtain ⟨front, rest, hjobs, hset, herase⟩ := split_jobs hjob
  have hsum : ∀ stage, stageRank stage < stageRank job.stage → ∀ job' : Job C O,
      job'.stage = stage → (((s.handlers h).set k job').map fun job => stageRank job.stage).sum <
        ((s.handlers h).map fun job => stageRank job.stage).sum := by
    intro stage hstage job' hjob'
    rw [hset, hjobs]
    simp only [List.map_append, List.map_cons, List.sum_append, List.sum_cons, hjob']
    omega
  split at hwork
  next hstage =>
    cases hwork
    right
    refine effort_job_lt rfl rfl (hsum _ ?_ _ rfl)
    split <;> simp [hstage, stageRank]
  next hstage =>
    cases hwork
    refine Or.inl ⟨rfl, ⟨rfl, rfl, rfl, rfl, fun i => ?_⟩, rfl⟩
    by_cases hi : i = job.slotIdx
    · subst hi
      simp [State.setSlot]
    · simp [State.setSlot, Function.update_of_ne hi]
  next hstage =>
    cases hwork
    exact Or.inr (effort_job_lt rfl rfl (hsum .loaded (by simp [hstage, stageRank]) _ rfl))
  next answer hstage =>
    cases hwork
    exact Or.inr (effort_job_lt rfl rfl (hsum .answered (by simp [hstage, stageRank]) _ rfl))
  next hstage =>
    cases hwork
    right
    refine effort_job_lt rfl rfl ?_
    rw [herase, hjobs]
    simp only [List.map_append, List.map_cons, List.sum_append, List.sum_cons, hstage, stageRank]
    omega
  next => exact absurd hwork (by simp)

def Action.continues : Action C H O R → Prop
  | .call _ _ => False
  | _ => True

/-- Without new calls each step lowers the effort or moves nothing. -/
theorem act_effort (htidy : Tidy s) {a : Action C H O R} (ha : Action.continues a)
    (hact : act owner s a = some t) : effort t < effort s ∨ (Same s t ∧ effort t = effort s) := by
  cases a with
  | call c observations => exact ha.elim
  | infer c =>
    cases hact
    rcases inferStep_effort htidy c with hsame | hless
    · rw [hsame]
      exact Or.inr ⟨Same.refl s, rfl⟩
    · exact Or.inl hless
  | popReady h =>
    cases hact
    rcases popReady_effort htidy h with hsame | hless
    · rw [hsame]
      exact Or.inr ⟨Same.refl s, rfl⟩
    · exact Or.inl hless
  | work h k work =>
    rcases workStep_effort hact with ⟨_, hsame⟩ | hless
    · exact Or.inr hsame
    · exact Or.inl hless

end Steps

section Waiting

variable [DecidableEq C] {owner : C → ℕ} {s : State C H O R} {n : ℕ} {c : C}

/-- A client that a step of its own leaves as it was is outside or waits. -/
theorem still_cases (hstill : (inferStep owner c s).clients c = s.clients c) :
    (s.clients c).pc = .outside ∨ (s.clients c).pc = .panicked ∨
      ((s.clients c).pc = .acquireSlot ∧ tryPop QCAP s.freeQ = none) ∨
      ((s.clients c).pc = .submitToHandler ∧ tryPush QCAP (s.clients c).slotIdx s.readyQ = none) ∨
      ((s.clients c).pc = .waitDone ∧ (s.slots (s.clients c).slotIdx).state ≠ SLOT_DONE) ∨
      ((s.clients c).pc = .pushFree ∧ tryPush QCAP (s.clients c).slotIdx s.freeQ = none) := by
  have hpc' := congrArg Client.pc hstill
  cases hpc : (s.clients c).pc <;> simp only [inferStep, hpc] at hpc'
  case outside => exact Or.inl rfl
  case panicked => exact Or.inr (Or.inl rfl)
  case acquireSlot =>
    split at hpc'
    · rename_i hpop
      simp [hpop]
    · simp [State.setClient] at hpc'
  case submitToHandler =>
    split at hpc'
    · rename_i hpush
      simp [hpush]
    · simp [State.setClient] at hpc'
  case waitDone =>
    split at hpc'
    · simp [State.setClient] at hpc'
    · rename_i slot hslot
      split at hpc'
      · simp [State.setClient] at hpc'
      · rename_i hstate
        rw [State.slotPtr] at hslot
        split at hslot <;> cases hslot
        simp [hstate]
  case pushFree =>
    split at hpc'
    · rename_i hpush
      simp [hpush]
    · simp [State.setClient] at hpc'
  case fetchReqId | storeReady | readResponse => simp [State.setClient] at hpc'
  case writeHeader | packObservations | storeFree => split at hpc' <;> simp [State.setClient] at hpc'
  case compareIds =>
    split at hpc'
    · simp [State.setClient] at hpc'
    · split at hpc' <;> simp [State.setClient] at hpc'
  case assertDone =>
    simp only [State.setClient, Function.update_self] at hpc'
    split at hpc' <;> simp at hpc'

/-- In a safe state it waits for a free slot or for its answer. -/
theorem still_waits (hsafe : Safe owner n s)
    (hstill : (inferStep owner c s).clients c = s.clients c) :
    (s.clients c).pc = .outside ∨
      ((s.clients c).pc = .acquireSlot ∧ tryPop QCAP s.freeQ = none) ∨
      ((s.clients c).pc = .waitDone ∧ (s.slots (s.clients c).slotIdx).state ≠ SLOT_DONE) := by
  rcases still_cases hstill with h | h | h | h | h | h
  · exact Or.inl h
  · exact absurd h (hsafe.running c)
  · exact Or.inr (Or.inl h)
  · have hroom := hsafe.pushReady c h.1
    simp [h.2] at hroom
  · exact Or.inr (Or.inr h)
  · have hroom := hsafe.pushFree c h.1
    simp [h.2] at hroom

end Waiting

section Fairness

variable [DecidableEq C] [DecidableEq H] {owner : C → ℕ} {n : ℕ}
variable {run : ℕ → State C H O R} {sched : ℕ → Action C H O R}

structure Execution (owner : C → ℕ) (n : ℕ) (run : ℕ → State C H O R)
    (sched : ℕ → Action C H O R) : Prop where
  start : Reachable owner n (run 0)
  step : ∀ k, act owner (run k) (sched k) = some (run (k + 1))

/-- Every client is scheduled again and again, some handler keeps popping, and a
handler that has popped a slot gets on with it in the end. -/
structure Fair (run : ℕ → State C H O R) (sched : ℕ → Action C H O R) : Prop where
  clients : ∀ c k, ∃ i, k ≤ i ∧ sched i = .infer c
  pops : ∃ h, ∀ k, ∃ i, k ≤ i ∧ sched i = .popReady h
  jobs : ∀ h k, ∀ job ∈ (run k).handlers h, ∃ i j work job', k ≤ i ∧ sched i = .work h j work ∧
    work ≠ .clearOutputs ∧ ((run i).handlers h)[j]? = some job' ∧ job'.slotIdx = job.slotIdx

theorem Execution.reachable (hexec : Execution owner n run sched) (k : ℕ) :
    Reachable owner n (run k) := by
  induction k with
  | zero => exact hexec.start
  | succ k ih => exact .step (sched k) ih (hexec.step k)

theorem Execution.safe (hexec : Execution owner n run sched) (hn : n < QCAP) (k : ℕ) :
    Safe owner n (run k) := (protocol_safe owner hn).2 _ (hexec.reachable k)

/-- Clients that are outside stay there until they call. -/
theorem act_outside {s t : State C H O R} (hout : ∀ c, (s.clients c).pc = .outside)
    {a : Action C H O R} (ha : Action.continues a) (hact : act owner s a = some t) :
    t.clients = s.clients := by
  cases a with
  | call c observations => exact ha.elim
  | infer c =>
    cases hact
    simp only [inferStep, hout c]
  | popReady h =>
    cases hact
    rw [popReady]
    split <;> rfl
  | work h k work =>
    simp only [act, workStep, Option.bind_eq_bind, Option.bind_eq_some_iff] at hact
    obtain ⟨job, _, hact⟩ := hact
    split at hact <;> cases hact <;> rfl

/-- Where nothing moves any more no call is open. -/
theorem Execution.stuck_outside (hexec : Execution owner n run sched) (hfair : Fair run sched)
    (hn : n < QCAP) (hpos : 0 < n) {k : ℕ} (hsame : ∀ i, k ≤ i → Same (run k) (run i))
    (hworks : ∀ i h j work, k ≤ i → sched i = .work h j work → work = .clearOutputs) (c : C) :
    ((run k).clients c).pc = .outside := by
  have hsafe := hexec.safe hn k
  obtain ⟨hnum, place, ho⟩ := reachable_owned hn (hexec.reachable k)
  have hstill : ∀ i, k ≤ i → Same (run i) (run (i + 1)) := fun i hi =>
    ⟨(hsame (i + 1) (by omega)).clients.trans (hsame i hi).clients.symm,
      (hsame (i + 1) (by omega)).freeQ.trans (hsame i hi).freeQ.symm,
      (hsame (i + 1) (by omega)).readyQ.trans (hsame i hi).readyQ.symm,
      (hsame (i + 1) (by omega)).handlers.trans (hsame i hi).handlers.symm,
      fun j => ((hsame (i + 1) (by omega)).state j).trans ((hsame i hi).state j).symm⟩
  have hwaits : ∀ d, ((run k).clients d).pc = .outside ∨
      (((run k).clients d).pc = .acquireSlot ∧ tryPop QCAP (run k).freeQ = none) ∨
      (((run k).clients d).pc = .waitDone ∧
        ((run k).slots ((run k).clients d).slotIdx).state ≠ SLOT_DONE) := by
    intro d
    obtain ⟨i, hi, hsched⟩ := hfair.clients d k
    have hstep := hexec.step i
    rw [hsched, act, Option.some.injEq] at hstep
    have hclients := congrFun (hstill i hi).clients d
    rw [← hstep] at hclients
    have hd := still_waits (hexec.safe hn i) hclients
    rwa [(hsame i hi).clients, (hsame i hi).freeQ, (hsame i hi).state] at hd
  have hjobs : ∀ h job, job ∉ (run k).handlers h := by
    intro h job hjob
    obtain ⟨i, j, work, _, hi, hsched, hclear, _⟩ := hfair.jobs h k job hjob
    exact hclear (hworks i h j work hi hsched)
  have hready : (run k).ready = [] := by
    obtain ⟨h, hpops⟩ := hfair.pops
    obtain ⟨i, hi, hsched⟩ := hpops k
    have hstep := hexec.step i
    rw [hsched, act, Option.some.injEq, popReady] at hstep
    have hq := ho.tidy.readyQ
    cases hready : (run k).ready with
    | nil => rfl
    | cons slot rest =>
      rw [hready] at hq
      obtain ⟨q, hpop, _⟩ := hq.tryPop_cons
      rw [(hsame i hi).readyQ, hpop] at hstep
      have hlength := congrArg List.length (congrFun (hstill i hi).handlers h)
      rw [← hstep] at hlength
      simp [State.setHandler] at hlength
  have hfree : ∀ j, j < n → place j = .free := by
    intro j hj
    have hat := ho.slot j (hnum.symm ▸ hj)
    have hcontent := hat.content
    cases hp : place j with
    | free => rfl
    | client d =>
      rw [hp] at hat hcontent
      obtain ⟨hin, _⟩ := (hat.client d).mpr rfl
      rcases hwaits d with hd | hd | hd
      · exact absurd hin (by simp [hd, Inside])
      · exact absurd hin (by simp [hd.1, Inside])
      · rw [Content, Progress, hd.1] at hcontent
        exact hcontent.elim
    | ready d =>
      rw [hp] at hat
      have hmem := hat.ready.mpr trivial
      simp [hready] at hmem
    | handler h d =>
      rw [hp] at hat
      obtain ⟨job, hjob, _⟩ := (hat.job h).mpr rfl
      exact absurd hjob (hjobs h job)
    | done d =>
      rw [hp] at hat hcontent
      obtain ⟨_, hidx⟩ := (hat.client d).mpr rfl
      rcases hwaits d with hd | hd | hd
      · exact absurd hcontent.1 (by simp [hd])
      · exact absurd hcontent.1 (by simp [hd.1])
      · exact absurd hcontent.2.2.2 (hidx ▸ hd.2)
  rcases hwaits c with hc | hc | hc
  · exact hc
  · have hmem : 0 ∈ (run k).free := by
      rw [(ho.slot 0 (hnum.symm ▸ hpos)).free, hfree 0 hpos]
      trivial
    have hq := ho.tidy.freeQ
    cases hlist : (run k).free with
    | nil => simp [hlist] at hmem
    | cons i rest =>
      rw [hlist] at hq
      obtain ⟨q, hpop, _⟩ := hq.tryPop_cons
      simp [hpop] at hc
  · have hin : Inside ((run k).clients c).pc := by simp [hc.1, Inside]
    have hi := ho.range.client c hin
    have hclient := ((ho.slot _ hi).client c).mp ⟨hin, rfl⟩
    rw [hfree _ (hnum ▸ hi)] at hclient
    exact absurd hclient (by simp [Place.client?])

/-- No call is lost: on a fair schedule without new calls every client comes out of
`infer`, and from then on every slot is in the free queue. -/
theorem fair_run_drains [Fintype C] [Fintype H] (hexec : Execution owner n run sched)
    (hfair : Fair run sched) (hn : n < QCAP) (hpos : 0 < n) {k : ℕ}
    (hquiet : ∀ j, k ≤ j → Action.continues (sched j)) :
    ∃ j, k ≤ j ∧ ∀ i, j ≤ i →
      (∀ c, ((run i).clients c).pc = .outside) ∧ (run i).free.Perm (List.range n) := by
  have hgoal : ∃ j, k ≤ j ∧ ∀ c, ((run j).clients c).pc = .outside := by
    by_cases hnow : ∀ c, ((run k).clients c).pc = .outside
    · exact ⟨k, le_rfl, hnow⟩
    have hlower : ∀ j, k ≤ j → effort (run (j + 1)) < effort (run j) ∨
        (Same (run j) (run (j + 1)) ∧ effort (run (j + 1)) = effort (run j)) := fun j hj => by
      obtain ⟨_, _, ho⟩ := reachable_owned hn (hexec.reachable j)
      exact act_effort ho.tidy (hquiet j hj) (hexec.step j)
    refine ranked (fun s m => effort s = m ∧ ¬∀ c, (s.clients c).pc = .outside)
      (fun s => ∀ c, (s.clients c).pc = .outside) (fun _ => False) ?_ ?_ ⟨rfl, hnow⟩
    · rintro j m hj ⟨rfl, hopen⟩
      by_cases hnext : ∀ c, ((run (j + 1)).clients c).pc = .outside
      · exact Or.inl hnext
      · rcases hlower j hj with hless | ⟨_, heffort⟩
        · exact Or.inr (Or.inl ⟨_, hless, rfl, hnext⟩)
        · exact Or.inr (Or.inr ⟨⟨heffort, hnext⟩, not_false⟩)
    · -- an effort that stays as it is means that nothing moves
      intro j m hj hkept
      have hsame : ∀ i, j ≤ i → Same (run j) (run i) := by
        intro i hi
        induction i, hi using Nat.le_induction with
        | base => exact Same.refl _
        | succ i hi ih =>
          rcases hlower i (by omega) with hless | ⟨hsame, _⟩
          · have hnow := (hkept i hi).1
            have hlater := (hkept (i + 1) (by omega)).1
            omega
          · exact ih.trans hsame
      refine absurd (hexec.stuck_outside hfair hn hpos hsame ?_) (hkept j le_rfl).2
      intro i h l work hi hsched
      have hstep := hexec.step i
      rw [hsched] at hstep
      rcases workStep_effort hstep with ⟨hclear, _⟩ | hless
      · exact hclear
      · have hnow := (hkept i hi).1
        have hlater := (hkept (i + 1) (by omega)).1
        omega
  obtain ⟨j, hj, hout⟩ := hgoal
  refine ⟨j, hj, fun i hi => ?_⟩
  have hlater : ∀ c, ((run i).clients c).pc = .outside := by
    induction i, hi using Nat.le_induction with
    | base => exact hout
    | succ i hi ih =>
      rw [act_outside ih (hquiet i (by omega)) (hexec.step i)]
      exact ih
  exact ⟨hlater, (hexec.safe hn i).rest hlater⟩

end Fairness

section Example

def requested : State Unit Unit ℕ ℕ :=
  ((initialise 1 memory).bind (acts (fun _ => 0) (served.take 7))).getD memory

/-- The one handler takes the request and answers it; then both take turns. -/
def schedule (k : ℕ) : Action Unit Unit ℕ ℕ :=
  ((served.drop 7).take 6)[k]?.getD (if k % 2 = 0 then .infer () else .popReady ())

def follow : ℕ → State Unit Unit ℕ ℕ
  | 0 => requested
  | k + 1 => (act (fun _ => 0) (follow k) (schedule k)).getD (follow k)

theorem schedule_later {k : ℕ} (hk : 6 ≤ k) :
    schedule k = if k % 2 = 0 then .infer () else .popReady () := by
  rw [schedule, List.getElem?_eq_none hk]
  rfl

theorem follow_execution : Execution (fun _ => 0) 1 follow schedule where
  start := by
    have hrun : ∃ s t, initialise 1 memory = some s ∧ acts (fun _ => 0) (served.take 7) s = some t ∧
        requested = t := ⟨_, _, rfl, rfl, rfl⟩
    obtain ⟨s, t, hinit, hacts, heq⟩ := hrun
    rw [follow, heq]
    exact reachable_acts (.initialised memory_unused hinit) hacts
  step k := by
    have hact : ∃ t, act (fun _ => 0) (follow k) (schedule k) = some t := by
      rcases Nat.lt_or_ge k 6 with hlt | hge
      · interval_cases k <;> exact ⟨_, rfl⟩
      · rw [schedule_later hge]
        split <;> exact ⟨_, rfl⟩
    obtain ⟨t, ht⟩ := hact
    rw [follow, ht, Option.getD_some]

structure Settled (s : State Unit Unit ℕ ℕ) : Prop where
  jobs : s.handlers () = []
  ready : tryPop QCAP s.readyQ = none
  rank : rank (s.clients ()).pc ≤ 6

theorem Settled.inferStep {s : State Unit Unit ℕ ℕ} (h : Settled s) :
    Settled (inferStep (fun _ => 0) () s) := by
  obtain ⟨hjobs, hready, hrank⟩ := h
  cases hpc : (s.clients ()).pc <;> rw [hpc] at hrank <;> simp only [SlotProgress.rank] at hrank
  case outside | panicked =>
    simp only [SlotProtocol.inferStep, hpc]
    exact ⟨hjobs, hready, by simp [hpc, SlotProgress.rank]⟩
  case waitDone | compareIds | assertDone | readResponse | storeFree | pushFree =>
    simp only [SlotProtocol.inferStep, hpc]
    repeat' split
    all_goals exact ⟨hjobs, hready, by simp [State.setClient, SlotProgress.rank, hpc]⟩
  all_goals omega

theorem follow_settled {k : ℕ} (hk : 6 ≤ k) : Settled (follow k) := by
  induction k, hk using Nat.le_induction with
  | base => exact ⟨rfl, rfl, by decide⟩
  | succ k hk ih =>
    rw [follow, schedule_later hk]
    split
    · exact ih.inferStep
    · rw [act, popReady, ih.ready]
      exact ih

/-- The job of the request is the only one, and marked done in the sixth step. -/
theorem follow_fair : Fair follow schedule where
  clients _ k := ⟨2 * k + 6, by omega, by rw [schedule_later (by omega), if_pos (by omega)]⟩
  pops := ⟨(), fun k => ⟨2 * k + 7, by omega, by rw [schedule_later (by omega), if_neg (by omega)]⟩⟩
  jobs _ k job hjob := by
    rcases Nat.lt_or_ge k 6 with hlt | hge
    · have hslots : ∀ i ∈ ((follow k).handlers ()).map Job.slotIdx, i = 0 := by
        intro i hi
        interval_cases k
        · exact absurd hi List.not_mem_nil
        all_goals exact List.mem_singleton.mp hi
      refine ⟨5, 0, .markDone, ⟨0, .answered, some (⟨(), 1⟩, [10, 20])⟩, by omega, rfl, by simp, rfl, ?_⟩
      exact (hslots _ (List.mem_map_of_mem hjob)).symm
    · simp [(follow_settled hge).jobs] at hjob

theorem fair_run_drains_served : requested.ready = [0] ∧ (requested.clients ()).pc = .waitDone ∧
    ∃ j, ∀ i, j ≤ i →
      (∀ c, ((follow i).clients c).pc = .outside) ∧ (follow i).free.Perm (List.range 1) := by
  have hquiet : ∀ i, 0 ≤ i → Action.continues (schedule i) := by
    intro i _
    rcases Nat.lt_or_ge i 6 with hlt | hge
    · interval_cases i <;> trivial
    · rw [schedule_later hge]
      split <;> trivial
  obtain ⟨j, _, hj⟩ := fair_run_drains follow_execution follow_fair (by decide) (by decide) hquiet
  exact ⟨rfl, rfl, j, hj⟩

end Example

end Mcts.SlotProgress
