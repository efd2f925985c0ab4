import Mcts.SlotProgress

/-!
Every call that has got a slot is served. The ready queue is first in first out,
so however many calls others make meanwhile a request comes to a handler, and on a
fair schedule its client returns with the answer to it.
-/
namespace Mcts.SlotService

open Queues RingQueue SlotProtocol SlotOwnership SlotSteps SlotWork SlotSafety Schedules SlotProgress

variable {C H O R : Type} [DecidableEq C] [DecidableEq H]
variable {owner : C → ℕ} {n : ℕ} {s t : State C H O R} {c : C} {call : ℕ}

section Frames

omit [DecidableEq H] in
/-- A client changes no other client, ... -/
theorem inferStep_other {d : C} (hd : d ≠ c) : (inferStep owner d s).clients c = s.clients c := by
  have hne : c ≠ d := Ne.symm hd
  cases hpc : (s.clients d).pc <;> simp only [inferStep, hpc] <;> repeat' split
  all_goals simp [State.setClient, State.setSlot, Function.update_of_ne hne]

omit [DecidableEq H] in
/-- ... no handler, ... -/
theorem inferStep_handlers (d : C) : (inferStep owner d s).handlers = s.handlers := by
  cases hpc : (s.clients d).pc <;> simp only [inferStep, hpc] <;> repeat' split
  all_goals rfl

omit [DecidableEq H] in
/-- ... no slot but the one it has got, ... -/
theorem inferStep_slots {d : C} {i : ℕ}
    (hi : Inside (s.clients d).pc → i ≠ (s.clients d).slotIdx) :
    (inferStep owner d s).slots i = s.slots i := by
  cases hpc : (s.clients d).pc <;> simp only [inferStep, hpc] <;> repeat' split
  all_goals try rfl
  all_goals
    have hne := hi (by simp [hpc, Inside])
    simp [State.setClient, State.setSlot, Function.update_of_ne hne]

omit [DecidableEq H] in
/-- ... and adds to the end of the ready queue at most. -/
theorem inferStep_ready (htidy : Tidy s) (d : C) :
    ∃ more, (inferStep owner d s).ready = s.ready ++ more := by
  cases hpc : (s.clients d).pc <;> simp only [inferStep, hpc] <;> repeat' split
  all_goals try exact ⟨[], (List.append_nil _).symm⟩
  rename_i q hpush
  exact ⟨[_], ready_push htidy.readyQ hpush⟩

/-- Only its own steps change a client in a call. -/
theorem act_client {a : Action C H O R} (hpc : (s.clients c).pc ≠ .outside) (ha : a ≠ .infer c)
    (hact : act owner s a = some t) : t.clients c = s.clients c := by
  cases a with
  | call d observations =>
    rw [act] at hact
    split at hact
    · rename_i hd
      have hne : c ≠ d := fun heq => hpc (heq ▸ hd)
      cases hact
      rw [beginCall]
      split <;> simp [State.setClient, Function.update_of_ne hne]
    · exact absurd hact (by simp)
  | infer d =>
    cases hact
    exact inferStep_other fun heq => ha (heq ▸ rfl)
  | popReady h =>
    cases hact
    rw [popReady]
    split <;> rfl
  | work h k work =>
    simp only [act, workStep, Option.bind_eq_bind, Option.bind_eq_some_iff] at hact
    obtain ⟨job, _, hact⟩ := hact
    split at hact <;> cases hact <;> rfl

end Frames

section Phases

def Writing (c : C) (call : ℕ) (s : State C H O R) (m : ℕ) : Prop :=
  (s.clients c).calls = call ∧ 12 ≤ m ∧ m ≤ 16 ∧ rank (s.clients c).pc = m

def Awaits (c : C) (call i : ℕ) (s : State C H O R) : Prop :=
  (s.clients c).calls = call ∧ (s.clients c).pc = .waitDone ∧ (s.clients c).slotIdx = i

def Queued (c : C) (call i : ℕ) (s : State C H O R) (m : ℕ) : Prop :=
  Awaits c call i s ∧ ∃ front rest, s.ready = front ++ i :: rest ∧ front.length = m

def Taken (c : C) (call i : ℕ) (s : State C H O R) (m : ℕ) : Prop :=
  Awaits c call i s ∧ ∃ h, ∃ job ∈ s.handlers h, job.slotIdx = i ∧ stageRank job.stage = m

def HasAnswer (c : C) (call : ℕ) (client : Client C O R) : Prop :=
  ∃ answer, client.result = some (.served (some (⟨c, call⟩, answer)))

def Reading (c : C) (call : ℕ) (s : State C H O R) (m : ℕ) : Prop :=
  (s.clients c).calls = call ∧ 1 ≤ m ∧ m ≤ 6 ∧ rank (s.clients c).pc = m ∧
    (m = 6 → (s.slots (s.clients c).slotIdx).state = SLOT_DONE) ∧
    (m ≤ 2 → HasAnswer c call (s.clients c))

def Returned (c : C) (call : ℕ) (s : State C H O R) : Prop :=
  (s.clients c).calls = call ∧ (s.clients c).pc = .outside ∧ HasAnswer c call (s.clients c)

end Phases

section Steps

variable {i : ℕ} {place : ℕ → Place C H} {a : Action C H O R} {m : ℕ}

omit [DecidableEq C] [DecidableEq H] in
/-- A client that waits has a slot, which is at one of three places. -/
theorem waiting_place (ho : Owned owner s place) (hpc : (s.clients c).pc = .waitDone) :
    (s.clients c).slotIdx < s.numSlots ∧ (place (s.clients c).slotIdx = .ready c ∨
      (∃ h, place (s.clients c).slotIdx = .handler h c) ∨
      place (s.clients c).slotIdx = .done c) := by
  have hin : Inside (s.clients c).pc := by simp [hpc, Inside]
  have hlt := ho.range.client c hin
  have hat := ho.slot _ hlt
  have hclient := (hat.client c).mp ⟨hin, rfl⟩
  have hcontent := hat.content
  refine ⟨hlt, ?_⟩
  cases hp : place (s.clients c).slotIdx with
  | free => simp [hp, Place.client?] at hclient
  | client d =>
    simp only [hp, Place.client?, Option.some.injEq] at hclient
    rw [hp, hclient, Content, Progress, hpc] at hcontent
    exact hcontent.elim
  | ready d | handler h d | done d =>
    simp only [hp, Place.client?, Option.some.injEq] at hclient
    simp [hclient]

/-- Other steps leave a client that writes its request where it is. -/
theorem writing_step (hn : s.numSlots < QCAP) (ho : Owned owner s place)
    (h : Writing c call s m) (hact : act owner s a = some t) :
    (∃ i k, Queued c call i t k) ∨ (∃ m', m' < m ∧ Writing c call t m') ∨
      (Writing c call t m ∧ a ≠ .infer c) := by
  obtain ⟨hcall, hlow, hhigh, hrank⟩ := h
  have hout : (s.clients c).pc ≠ .outside := fun heq => by
    rw [heq, rank] at hrank
    omega
  by_cases ha : a = .infer c
  · subst ha
    cases hact
    have hin : Inside (s.clients c).pc ∧ (s.clients c).pc ≠ .waitDone := by
      cases hpc : (s.clients c).pc <;> rw [hpc, rank] at hrank <;> first | omega | simp [Inside]
    obtain ⟨hi, hplace⟩ := holds_slot ho hin.1 hin.2
    have hptr : s.slotPtr (s.clients c).slotIdx = some (s.slots (s.clients c).slotIdx) := if_pos hi
    have hsafe := owned_safe hn ho
    cases hpc : (s.clients c).pc <;> rw [hpc, rank] at hrank
    case fetchReqId =>
      simp only [inferStep, hpc]
      exact Or.inr (Or.inl ⟨15, by omega, by simp [Writing, State.setClient, rank, hcall]⟩)
    case writeHeader =>
      simp only [inferStep, hpc, hptr]
      exact Or.inr (Or.inl ⟨14, by omega, by simp [Writing, State.setClient, rank, hcall]⟩)
    case packObservations =>
      have hbatch := (ho.proper c).batch hout
      simp only [inferStep, hpc]
      rw [if_neg (by omega)]
      exact Or.inr (Or.inl ⟨13, by omega, by simp [Writing, State.setClient, rank, hcall]⟩)
    case storeReady =>
      simp only [inferStep, hpc]
      exact Or.inr (Or.inl ⟨12, by omega, by simp [Writing, State.setClient, rank, hcall]⟩)
    case submitToHandler =>
      obtain ⟨q, hpush⟩ := Option.isSome_iff_exists.mp (hsafe.pushReady c hpc)
      simp only [inferStep, hpc, hpush]
      refine Or.inl ⟨(s.clients c).slotIdx, s.ready.length, by
        simp [Awaits, State.setClient, hcall], s.ready, [], ?_, rfl⟩
      simpa [State.setClient, State.ready] using ready_push ho.tidy.readyQ hpush
    all_goals omega
  · right
    right
    refine ⟨?_, ha⟩
    rw [Writing, act_client hout ha hact]
    exact ⟨hcall, hlow, hhigh, hrank⟩

omit [DecidableEq H] in
/-- A client in the ready queue or with a handler polls in vain. -/
theorem infer_waits (ho : Owned owner s place) (hpc : (s.clients c).pc = .waitDone)
    (hdone : place (s.clients c).slotIdx ≠ .done c) : inferStep owner c s = s := by
  obtain ⟨hi, hplace⟩ := waiting_place ho hpc
  have hptr : s.slotPtr (s.clients c).slotIdx = some (s.slots (s.clients c).slotIdx) := if_pos hi
  have hstate : (s.slots (s.clients c).slotIdx).state = SLOT_READY := by
    have hcontent := (ho.slot _ hi).content
    rcases hplace with hp | ⟨h, hp⟩ | hp
    · rw [hp] at hcontent
      exact hcontent.2.2
    · rw [hp] at hcontent
      exact hcontent.2.2.1
    · exact absurd hp hdone
  simp only [inferStep, hpc, hptr, hstate]
  exact if_neg (by decide)

/-- The queue moves up when a handler pops, and no step lets anyone in before others. -/
theorem queued_step (ho : Owned owner s place) (h : Queued c call i s m)
    (hact : act owner s a = some t) :
    (∃ k, Taken c call i t k) ∨ (∃ m', m' < m ∧ Queued c call i t m') ∨
      (Queued c call i t m ∧ ¬∃ h, a = .popReady h) := by
  obtain ⟨⟨hcall, hpc, rfl⟩, front, rest, hready, rfl⟩ := h
  have hmem : (s.clients c).slotIdx ∈ s.ready := by simp [hready]
  have hi := ho.range.ready _ hmem
  have hplace : place (s.clients c).slotIdx ≠ .done c := by
    obtain ⟨d, hd⟩ := Place.isReady_iff.mp ((ho.slot _ hi).ready.mp hmem)
    simp [hd]
  cases a with
  | call d observations =>
    have hclient := act_client (c := c) (by simp [hpc]) (by simp) hact
    rw [act] at hact
    split at hact
    · cases hact
      refine Or.inr (Or.inr ⟨?_, by simp⟩)
      rw [Queued, Awaits, hclient]
      refine ⟨⟨hcall, hpc, rfl⟩, front, rest, ?_, rfl⟩
      rw [← hready, beginCall]
      split <;> rfl
    · exact absurd hact (by simp)
  | infer d =>
    cases hact
    refine Or.inr (Or.inr ⟨?_, by simp⟩)
    by_cases hd : d = c
    · subst hd
      rw [infer_waits ho hpc hplace]
      exact ⟨⟨hcall, hpc, rfl⟩, front, rest, hready, rfl⟩
    · obtain ⟨more, hmore⟩ : ∃ more, (inferStep owner d s).ready = s.ready ++ more :=
        inferStep_ready ho.tidy d
      rw [Queued, Awaits, inferStep_other hd]
      exact ⟨⟨hcall, hpc, rfl⟩, front, rest ++ more, by simp [hmore, hready], rfl⟩
  | popReady k =>
    have hclient := act_client (c := c) (by simp [hpc]) (by simp) hact
    cases hact
    have hq := ho.tidy.readyQ
    cases front with
    | nil =>
      rw [hready, List.nil_append] at hq
      obtain ⟨q, hpop, hholds⟩ := hq.tryPop_cons
      refine Or.inl ⟨4, ?_⟩
      rw [Taken, Awaits, hclient]
      refine ⟨⟨hcall, hpc, rfl⟩, k, ⟨_, .popped, none⟩, ?_, rfl, rfl⟩
      rw [popReady, hpop]
      simp [State.setHandler]
    | cons first front =>
      rw [hready, List.cons_append] at hq
      obtain ⟨q, hpop, hholds⟩ := hq.tryPop_cons
      refine Or.inr (Or.inl ⟨front.length, by simp, ?_⟩)
      rw [Queued, Awaits, hclient]
      refine ⟨⟨hcall, hpc, rfl⟩, front, rest, ?_, rfl⟩
      rw [popReady, hpop]
      exact hholds.contents_eq
  | work k l work =>
    have hclient := act_client (c := c) (by simp [hpc]) (by simp) hact
    refine Or.inr (Or.inr ⟨?_, by simp⟩)
    rw [Queued, Awaits, hclient]
    refine ⟨⟨hcall, hpc, rfl⟩, front, rest, ?_, rfl⟩
    rw [← hready]
    simp only [act, workStep, Option.bind_eq_bind, Option.bind_eq_some_iff] at hact
    obtain ⟨job, _, hact⟩ := hact
    split at hact <;> cases hact <;> rfl

omit [DecidableEq C] in
/-- A handler clears the outputs of a slot, gets on with a job or hands it over. -/
theorem workStep_cases {h : H} {k : ℕ} {work : Work R} (hwork : workStep h k work s = some t) :
    ∃ job front rest, (s.handlers h)[k]? = some job ∧ s.handlers h = front ++ job :: rest ∧
      t.clients = s.clients ∧ (∀ h', h' ≠ h → t.handlers h' = s.handlers h') ∧
      (∀ i, i ≠ job.slotIdx → t.slots i = s.slots i) ∧
      ((work = .clearOutputs ∧ t.handlers h = s.handlers h) ∨
      (∃ job', job'.slotIdx = job.slotIdx ∧ stageRank job'.stage < stageRank job.stage ∧
        t.handlers h = front ++ job' :: rest) ∨
      (t.handlers h = front ++ rest ∧ (t.slots job.slotIdx).state = SLOT_DONE)) := by
  simp only [workStep, Option.bind_eq_bind, Option.bind_eq_some_iff] at hwork
  obtain ⟨job, hjob, hwork⟩ := hwork
  obtain ⟨front, rest, hjobs, hset, herase⟩ := split_jobs hjob
  refine ⟨job, front, rest, hjob, hjobs, ?_⟩
  have hother : ∀ (jobs : List (Job C O)) (h' : H), h' ≠ h →
      Function.update s.handlers h jobs h' = s.handlers h' := fun jobs h' hne =>
    Function.update_of_ne hne _ _
  have hslot : ∀ (slot : Slot C O R) (i : ℕ), i ≠ job.slotIdx →
      Function.update s.slots job.slotIdx slot i = s.slots i := fun slot i hne =>
    Function.update_of_ne hne _ _
  split at hwork
  next hstage =>
    cases hwork
    refine ⟨rfl, hother _, fun _ _ => rfl, Or.inr (Or.inl ⟨{ job with
      stage := if job.slotIdx < s.numSlots ∧ (s.slots job.slotIdx).state = SLOT_READY then .checked
        else .failed }, rfl, ?_, by simp [State.setHandler, hset]⟩)⟩
    dsimp only
    split <;> simp [hstage, stageRank]
  next hstage =>
    cases hwork
    exact ⟨rfl, fun _ _ => rfl, hslot _, Or.inl ⟨rfl, rfl⟩⟩
  next hstage =>
    cases hwork
    exact ⟨rfl, hother _, fun _ _ => rfl, Or.inr (Or.inl ⟨{ job with
      stage := .loaded, inputs := (s.slots job.slotIdx).inputs }, rfl, by simp [hstage, stageRank],
      by simp [State.setHandler, hset]⟩)⟩
  next answer hstage =>
    cases hwork
    exact ⟨rfl, hother _, hslot _, Or.inr (Or.inl ⟨{ job with stage := .answered }, rfl,
      by simp [hstage, stageRank], by simp [State.setHandler, hset]⟩)⟩
  next hstage =>
    cases hwork
    exact ⟨rfl, hother _, hslot _, Or.inr (Or.inr ⟨by simp [State.setHandler, herase],
      by simp [State.setHandler, State.setSlot]⟩)⟩
  next => exact absurd hwork (by simp)

def WorksOn (i : ℕ) (s : State C H O R) (a : Action C H O R) : Prop :=
  ∃ h k work job, a = .work h k work ∧ work ≠ .clearOutputs ∧
    (s.handlers h)[k]? = some job ∧ job.slotIdx = i

/-- The handler of a request keeps it until it has marked it done. -/
theorem taken_step (ho : Owned owner s place) (h : Taken c call i s m)
    (hact : act owner s a = some t) :
    Reading c call t 6 ∨ (∃ m', m' < m ∧ Taken c call i t m') ∨
      (Taken c call i t m ∧ ¬WorksOn i s a) := by
  obtain ⟨⟨hcall, hpc, rfl⟩, k, job, hjob, hidx, rfl⟩ := h
  have hi := ho.range.job k job hjob
  have hat := ho.slot _ hi
  have hhandler := (hat.job k).mp ⟨job, hjob, rfl⟩
  have hplace : place (s.clients c).slotIdx ≠ .done c := by
    rw [← hidx]
    intro hp
    simp [hp, Place.handler?] at hhandler
  cases a with
  | call d observations =>
    have hclient := act_client (c := c) (by simp [hpc]) (by simp) hact
    rw [act] at hact
    split at hact
    · cases hact
      refine Or.inr (Or.inr ⟨?_, by simp [WorksOn]⟩)
      rw [Taken, Awaits, hclient]
      refine ⟨⟨hcall, hpc, rfl⟩, k, job, ?_, hidx, rfl⟩
      rw [beginCall]
      split <;> exact hjob
    · exact absurd hact (by simp)
  | infer d =>
    cases hact
    refine Or.inr (Or.inr ⟨?_, by simp [WorksOn]⟩)
    by_cases hd : d = c
    · subst hd
      rw [infer_waits ho hpc hplace]
      exact ⟨⟨hcall, hpc, rfl⟩, k, job, hjob, hidx, rfl⟩
    · rw [Taken, Awaits, inferStep_other hd, inferStep_handlers]
      exact ⟨⟨hcall, hpc, rfl⟩, k, job, hjob, hidx, rfl⟩
  | popReady k' =>
    have hclient := act_client (c := c) (by simp [hpc]) (by simp) hact
    cases hact
    refine Or.inr (Or.inr ⟨?_, by simp [WorksOn]⟩)
    rw [Taken, Awaits, hclient]
    refine ⟨⟨hcall, hpc, rfl⟩, k, job, ?_, hidx, rfl⟩
    rw [popReady]
    split
    · exact hjob
    · by_cases hk : k = k'
      · subst hk
        simp [State.setHandler, hjob]
      · simpa [State.setHandler, Function.update_of_ne hk] using hjob
  | work k' l work =>
    obtain ⟨job', front, rest, hjob', hjobs, hclients, hothers, _, hcases⟩ := workStep_cases hact
    have hmem' : job' ∈ s.handlers k' := List.mem_of_getElem? hjob'
    by_cases heq : job'.slotIdx = job.slotIdx
    · -- the job is this one: a slot is with one handler, and there once
      have hk : k' = k := by
        have hhandler' := (hat.job k').mp ⟨job', hmem', heq⟩
        rw [hhandler] at hhandler'
        exact (Option.some.inj hhandler').symm
      subst hk
      have hnodup := ho.tidy.jobs_nodup k'
      rw [hjobs] at hnodup hjob
      have hsame : job = job' := by
        by_contra hne
        exact unique_job hnodup (by simpa [hne] using hjob) heq.symm
      subst hsame
      rcases hcases with ⟨rfl, hjobs'⟩ | ⟨next, hnext, hstage, hjobs'⟩ | ⟨_, hdone⟩
      · refine Or.inr (Or.inr ⟨?_, ?_⟩)
        · rw [Taken, Awaits, hclients]
          exact ⟨⟨hcall, hpc, rfl⟩, k', job, by rw [hjobs']; exact hmem', hidx, rfl⟩
        · rintro ⟨_, _, _, _, ha, hclear, _⟩
          cases ha
          exact hclear rfl
      · refine Or.inr (Or.inl ⟨_, hstage, ?_⟩)
        rw [Taken, Awaits, hclients]
        exact ⟨⟨hcall, hpc, rfl⟩, k', next, by simp [hjobs'], hnext.trans hidx, rfl⟩
      · refine Or.inl ?_
        rw [Reading, hclients]
        exact ⟨hcall, by omega, le_rfl, by rw [hpc]; rfl, fun _ => hidx ▸ hdone,
          fun h => absurd h (by omega)⟩
    · refine Or.inr (Or.inr ⟨?_, ?_⟩)
      · rw [Taken, Awaits, hclients]
        refine ⟨⟨hcall, hpc, rfl⟩, k, job, ?_, hidx, rfl⟩
        by_cases hk : k = k'
        · subst hk
          rcases hcases with ⟨_, hjobs'⟩ | ⟨next, hnext, _, hjobs'⟩ | ⟨hjobs', _⟩
          · exact hjobs' ▸ hjob
          · rw [hjobs', mem_replace hnext (fun h => heq h.symm), ← hjobs]
            exact hjob
          · rw [hjobs', mem_remove (fun h => heq h.symm), ← hjobs]
            exact hjob
        · rw [hothers k hk]
          exact hjob
      · rintro ⟨_, _, _, other, ha, _, hother, hidx'⟩
        cases ha
        cases hjob'.symm.trans hother
        exact heq (hidx'.trans hidx.symm)

/-- No one else touches the state of a slot whose answer is due to this client. -/
theorem act_done (ho : Owned owner s place) (hplace : place (s.clients c).slotIdx = .done c)
    (hi : (s.clients c).slotIdx < s.numSlots) (ha : a ≠ .infer c) (hact : act owner s a = some t) :
    t.slots (s.clients c).slotIdx = s.slots (s.clients c).slotIdx := by
  have hat := ho.slot _ hi
  rw [hplace] at hat
  cases a with
  | call d observations =>
    rw [act] at hact
    split at hact
    · cases hact
      rw [beginCall]
      split <;> rfl
    · exact absurd hact (by simp)
  | infer d =>
    cases hact
    refine inferStep_slots fun hin heq => ha ?_
    have hclient := (hat.client d).mp ⟨hin, heq.symm⟩
    rw [Place.client?, Option.some.injEq] at hclient
    rw [hclient]
  | popReady k =>
    cases hact
    rw [popReady]
    split <;> rfl
  | work k l work =>
    obtain ⟨job, _, _, hjob, _, _, _, hslots, _⟩ := workStep_cases hact
    refine hslots _ fun heq => ?_
    have hhandler := (hat.job k).mp ⟨job, List.mem_of_getElem? hjob, heq.symm⟩
    simp [Place.handler?] at hhandler

/-- A client reads the answer to its own request, and returns with it. -/
theorem reading_step (hn : s.numSlots < QCAP) (ho : Owned owner s place)
    (h : Reading c call s m) (hact : act owner s a = some t) :
    Returned c call t ∨ (∃ m', m' < m ∧ Reading c call t m') ∨
      (Reading c call t m ∧ a ≠ .infer c) := by
  obtain ⟨hcall, hlow, hhigh, hrank, hdone, hanswer⟩ := h
  have hout : (s.clients c).pc ≠ .outside := fun heq => by
    rw [heq, rank] at hrank
    omega
  have hin : Inside (s.clients c).pc := by
    cases hpc : (s.clients c).pc <;> rw [hpc, rank] at hrank <;> first | omega | trivial
  have hi := ho.range.client c hin
  by_cases ha : a = .infer c
  · subst ha
    cases hact
    have hptr : s.slotPtr (s.clients c).slotIdx = some (s.slots (s.clients c).slotIdx) := if_pos hi
    have hsafe := owned_safe hn ho
    have hresponse := hsafe.response c
    have hpush := hsafe.pushFree c
    cases hpc : (s.clients c).pc <;> rw [hpc, rank] at hrank <;> subst hrank
    case waitDone =>
      simp only [inferStep, hpc, hptr]
      rw [if_pos (hdone rfl)]
      exact Or.inr (Or.inl ⟨5, by omega, by simp [Reading, State.setClient, rank, hcall]⟩)
    case compareIds =>
      obtain ⟨_, howner, hreq, _⟩ := hresponse (by simp [hpc])
      simp only [inferStep, hpc, hptr]
      rw [if_neg (by simp [howner, hreq])]
      exact Or.inr (Or.inl ⟨4, by omega, by simp [Reading, State.setClient, rank, hcall]⟩)
    case assertDone =>
      obtain ⟨hstate, _⟩ := hresponse (by simp [hpc])
      simp only [inferStep, hpc]
      rw [if_pos hstate]
      exact Or.inr (Or.inl ⟨3, by omega, by simp [Reading, State.setClient, rank, hcall]⟩)
    case readResponse =>
      obtain ⟨_, _, _, answer, houtputs⟩ := hresponse (by simp [hpc])
      simp only [inferStep, hpc]
      refine Or.inr (Or.inl ⟨2, by omega, ?_⟩)
      simp [Reading, State.setClient, rank, hcall, HasAnswer, houtputs]
    case storeFree =>
      obtain ⟨answer, hresult⟩ := hanswer (by omega)
      simp only [inferStep, hpc, hptr]
      refine Or.inr (Or.inl ⟨1, by omega, ?_⟩)
      simp [Reading, State.setClient, rank, hcall, HasAnswer, hresult]
    case pushFree =>
      obtain ⟨answer, hresult⟩ := hanswer (by omega)
      obtain ⟨q, hq⟩ := Option.isSome_iff_exists.mp (hpush hpc)
      simp only [inferStep, hpc, hq]
      refine Or.inl ?_
      simp [Returned, State.setClient, hcall, HasAnswer, hresult]
    all_goals omega
  · refine Or.inr (Or.inr ⟨?_, ha⟩)
    rw [Reading, act_client hout ha hact]
    refine ⟨hcall, hlow, hhigh, hrank, fun hm => ?_, hanswer⟩
    have hpc : (s.clients c).pc = .waitDone := by
      cases hpc : (s.clients c).pc <;> rw [hpc, rank] at hrank <;> omega
    have hstate := hdone hm
    have hplace : place (s.clients c).slotIdx = .done c := by
      have hcontent := (ho.slot _ hi).content
      rcases (waiting_place ho hpc).2 with hp | ⟨h, hp⟩ | hp
      · rw [hp] at hcontent
        exact absurd (hstate.symm.trans hcontent.2.2) (by decide)
      · rw [hp] at hcontent
        exact absurd (hstate.symm.trans hcontent.2.2.1) (by decide)
      · exact hp
    rw [act_done ho hplace hi ha hact]
    exact hstate

end Steps

section Runs

variable {run : ℕ → State C H O R} {sched : ℕ → Action C H O R} {k m : ℕ}

theorem writing_queued (hexec : Execution owner n run sched) (hfair : Fair run sched) (hn : n < QCAP)
    (h : Writing c call (run k) m) : ∃ j, k ≤ j ∧ ∃ i l, Queued c call i (run j) l := by
  refine ranked (Writing c call) (fun s => ∃ i l, Queued c call i s l) (fun j => sched j = .infer c)
    (fun j m _ hj => ?_) (fun j _ _ _ => hfair.clients c j) h
  obtain ⟨hnum, place, ho⟩ := reachable_owned hn (hexec.reachable j)
  exact writing_step (hnum.symm ▸ hn) ho hj (hexec.step j)

theorem queued_taken (hexec : Execution owner n run sched) (hfair : Fair run sched) (hn : n < QCAP)
    {i : ℕ} (h : Queued c call i (run k) m) : ∃ j, k ≤ j ∧ ∃ l, Taken c call i (run j) l := by
  refine ranked (Queued c call i) (fun s => ∃ l, Taken c call i s l)
    (fun j => ∃ h, sched j = .popReady h) (fun j m _ hj => ?_) (fun j _ _ _ => ?_) h
  · obtain ⟨_, place, ho⟩ := reachable_owned hn (hexec.reachable j)
    exact queued_step ho hj (hexec.step j)
  · obtain ⟨h, hpops⟩ := hfair.pops
    obtain ⟨l, hl, hsched⟩ := hpops j
    exact ⟨l, hl, h, hsched⟩

theorem taken_reading (hexec : Execution owner n run sched) (hfair : Fair run sched) (hn : n < QCAP)
    {i : ℕ} (h : Taken c call i (run k) m) : ∃ j, k ≤ j ∧ Reading c call (run j) 6 := by
  refine ranked (Taken c call i) (fun s => Reading c call s 6)
    (fun j => WorksOn i (run j) (sched j)) (fun j m _ hj => ?_) (fun j m _ hkept => ?_) h
  · obtain ⟨_, place, ho⟩ := reachable_owned hn (hexec.reachable j)
    exact taken_step ho hj (hexec.step j)
  · obtain ⟨_, h, job, hjob, hidx, _⟩ := hkept j le_rfl
    obtain ⟨l, pos, work, job', hl, hsched, hclear, hjob', hidx'⟩ := hfair.jobs h j job hjob
    exact ⟨l, hl, h, pos, work, job', hsched, hclear, hjob', hidx'.trans hidx⟩

theorem reading_returned (hexec : Execution owner n run sched) (hfair : Fair run sched)
    (hn : n < QCAP) (h : Reading c call (run k) m) : ∃ j, k ≤ j ∧ Returned c call (run j) := by
  refine ranked (Reading c call) (Returned c call) (fun j => sched j = .infer c)
    (fun j m _ hj => ?_) (fun j _ _ _ => hfair.clients c j) h
  obtain ⟨hnum, place, ho⟩ := reachable_owned hn (hexec.reachable j)
  exact reading_step (hnum.symm ▸ hn) ho hj (hexec.step j)

/-- The client has got a slot and not yet its answer. -/
def Pending (pc : Pc) : Prop := Inside pc ∧ pc ≠ .storeFree ∧ pc ≠ .pushFree

/-- On a fair schedule every call that has got a slot returns with the answer to it,
whatever calls the other clients make. -/
theorem pending_call_returns (hexec : Execution owner n run sched) (hfair : Fair run sched)
    (hn : n < QCAP) {k : ℕ} {c : C} (hpending : Pending ((run k).clients c).pc) :
    ∃ j, k ≤ j ∧ Returned c ((run k).clients c).calls (run j) := by
  obtain ⟨hin, hfree, hpush⟩ := hpending
  obtain ⟨hnum, place, ho⟩ := reachable_owned hn (hexec.reachable k)
  have hreads : ∀ j i m, k ≤ j → Taken c ((run k).clients c).calls i (run j) m →
      ∃ j, k ≤ j ∧ Returned c ((run k).clients c).calls (run j) := by
    intro j i m hj htaken
    obtain ⟨j', hj', hreading⟩ := taken_reading hexec hfair hn htaken
    obtain ⟨j'', hj'', hreturned⟩ := reading_returned hexec hfair hn hreading
    exact ⟨j'', by omega, hreturned⟩
  have htakes : ∀ j i m, k ≤ j → Queued c ((run k).clients c).calls i (run j) m →
      ∃ j, k ≤ j ∧ Returned c ((run k).clients c).calls (run j) := by
    intro j i m hj hqueued
    obtain ⟨j', hj', l, htaken⟩ := queued_taken hexec hfair hn hqueued
    exact hreads j' i l (by omega) htaken
  have hwrites : 12 ≤ rank ((run k).clients c).pc → rank ((run k).clients c).pc ≤ 16 →
      ∃ j, k ≤ j ∧ Returned c ((run k).clients c).calls (run j) := by
    intro hlow hhigh
    obtain ⟨j, hj, i, l, hqueued⟩ := writing_queued hexec hfair hn ⟨rfl, hlow, hhigh, rfl⟩
    exact htakes j i l hj hqueued
  cases hpc : ((run k).clients c).pc
  case outside | acquireSlot | panicked => simp [hpc, Inside] at hin
  case storeFree => exact absurd hpc hfree
  case pushFree => exact absurd hpc hpush
  case fetchReqId | writeHeader | packObservations | storeReady | submitToHandler =>
    exact hwrites (by simp [hpc, rank]) (by simp [hpc, rank])
  case compareIds | assertDone | readResponse =>
    exact reading_returned hexec hfair hn (m := rank ((run k).clients c).pc)
      ⟨rfl, by simp [hpc, rank], by simp [hpc, rank], rfl, by simp [hpc, rank], by simp [hpc, rank]⟩
  case waitDone =>
    obtain ⟨hi, hplace⟩ := waiting_place ho hpc
    have hat := ho.slot _ hi
    have hawaits : Awaits c ((run k).clients c).calls ((run k).clients c).slotIdx (run k) :=
      ⟨rfl, hpc, rfl⟩
    rcases hplace with hp | ⟨h, hp⟩ | hp <;> rw [hp] at hat
    · obtain ⟨front, rest, hready⟩ := List.append_of_mem (hat.ready.mpr trivial)
      exact htakes k _ _ le_rfl ⟨hawaits, front, rest, hready, rfl⟩
    · obtain ⟨job, hjob, hidx⟩ := (hat.job h).mpr rfl
      exact hreads k _ _ le_rfl ⟨hawaits, h, job, hjob, hidx, rfl⟩
    · exact reading_returned hexec hfair hn (m := 6)
        ⟨rfl, by omega, le_rfl, by simp [hpc, rank], fun _ => hat.content.2.2.2, by simp⟩

/-- A request in the queue is answered, and its client returns. -/
theorem pending_call_returns_served : requested.ready = [0] ∧
    (requested.clients ()).pc = .waitDone ∧ ∃ j, Returned () 1 (follow j) := by
  have hpending : Pending ((follow 0).clients ()).pc := ⟨trivial, by decide, by decide⟩
  obtain ⟨j, _, hj⟩ := pending_call_returns follow_execution follow_fair (by decide) hpending
  exact ⟨rfl, rfl, j, hj⟩

end Runs

end Mcts.SlotService
