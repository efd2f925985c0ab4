import Mcts.SlotSteps

/-!
The handlers keep every slot at a place as well: they take slots over from the
ready queue, work on them and mark them done. With the clients' steps this
carries `Owned` through every reachable state.
-/
namespace Mcts.SlotWork

open Queues RingQueue SlotProtocol SlotOwnership SlotSteps

variable {C H O R : Type} [DecidableEq H]
variable {owner : C → ℕ} {s t : State C H O R} {place : ℕ → Place C H} {i : ℕ} {c : C} {h : H}

section Jobs

variable {job job' : Job C O} {jobs front rest : List (Job C O)}

omit [DecidableEq H] in
theorem mem_replace (hsame : job'.slotIdx = job.slotIdx) {other : Job C O}
    (hother : other.slotIdx ≠ job.slotIdx) :
    other ∈ front ++ job' :: rest ↔ other ∈ front ++ job :: rest := by
  have hne : other ≠ job := fun heq => hother (heq ▸ rfl)
  have hne' : other ≠ job' := fun heq => hother (heq ▸ hsame)
  simp [hne, hne']

omit [DecidableEq H] in
theorem mem_remove {other : Job C O} (hother : other.slotIdx ≠ job.slotIdx) :
    other ∈ front ++ rest ↔ other ∈ front ++ job :: rest := by
  have hne : other ≠ job := fun heq => hother (heq ▸ rfl)
  simp [hne]

omit [DecidableEq H] in
/-- A slot that is in a list of jobs once is in it nowhere else. -/
theorem unique_job (hnodup : ((front ++ job :: rest).map (·.slotIdx)).Nodup) {other : Job C O}
    (hmem : other ∈ front ++ rest) : other.slotIdx ≠ job.slotIdx := by
  simp only [List.map_append, List.map_cons] at hnodup
  have hperm := (List.perm_middle.nodup_iff.mp hnodup)
  have hout := (List.nodup_cons.mp hperm).1
  rw [← List.map_append] at hout
  exact fun heq => hout (heq ▸ List.mem_map_of_mem hmem)

omit [DecidableEq H] in
/-- A position of a list of jobs cuts it in two. -/
theorem split_jobs {k : ℕ} (hjob : jobs[k]? = some job) :
    ∃ front rest, jobs = front ++ job :: rest ∧
      (∀ job', jobs.set k job' = front ++ job' :: rest) ∧ jobs.eraseIdx k = front ++ rest := by
  obtain ⟨hk, rfl⟩ := List.getElem?_eq_some_iff.mp hjob
  refine ⟨jobs.take k, jobs.drop (k + 1), ?_, fun job' => ?_, List.eraseIdx_eq_take_drop_succ jobs k⟩
  · rw [List.getElem_cons_drop, List.take_append_drop]
  · exact List.set_eq_take_append_cons_drop.trans (if_pos hk)

end Jobs

omit [DecidableEq H] in
/-- A slot among a handler's jobs is with that handler. -/
theorem job_place (ho : Owned owner s place) {job : Job C O} (hjob : job ∈ s.handlers h) :
    job.slotIdx < s.numSlots ∧ ∃ c, place job.slotIdx = .handler h c := by
  have hlt := ho.range.job h job hjob
  exact ⟨hlt, Place.handler?_iff.mp (((ho.slot _ hlt).job h).mp ⟨job, hjob, rfl⟩)⟩

/-- A handler takes the first slot of the ready queue. -/
theorem take_ready (ho : Owned owner s place) {rest : List ℕ} {q : RingQueue}
    (hready : s.ready = i :: rest) (hq : Holds QCAP q rest) (job : Job C O)
    (hidx : job.slotIdx = i) (hstage : job.stage = .popped) :
    ∃ c, Owned owner ({ s with readyQ := q }.setHandler h (s.handlers h ++ [job]))
      (Function.update place i (.handler h c)) := by
  have hrest : ({ s with readyQ := q }.setHandler h (s.handlers h ++ [job])).ready = rest :=
    hq.contents_eq
  have hself : ({ s with readyQ := q }.setHandler h (s.handlers h ++ [job])).handlers h =
      s.handlers h ++ [job] := Function.update_self _ _ _
  have hother : ∀ k, k ≠ h →
      ({ s with readyQ := q }.setHandler h (s.handlers h ++ [job])).handlers k = s.handlers k :=
    fun k hk => Function.update_of_ne hk _ _
  have hnodup := ho.tidy.ready_nodup
  rw [hready, List.nodup_cons] at hnodup
  have hmem : i ∈ s.ready := hready ▸ List.mem_cons_self
  have hi := ho.range.ready i hmem
  have hat := ho.slot i hi
  obtain ⟨c, hplace⟩ := Place.isReady_iff.mp (hat.ready.mp hmem)
  rw [hplace] at hat
  have hnojob : ∀ k, ∀ old ∈ s.handlers k, old.slotIdx ≠ i := fun k old hold heq => by
    have hhandler := (hat.job k).mp ⟨old, hold, heq⟩
    exact absurd hhandler (by simp [Place.handler?])
  have hslot : Inside (s.clients c).pc → (s.clients c).slotIdx = i := fun _ =>
    ((hat.client c).mpr rfl).2
  refine ⟨c, ho.move (p := .handler h c) (c := c)
    (t := { s with readyQ := q }.setHandler h (s.handlers h ++ [job])) ?_ ?_ hi hslot hslot
    ⟨hat.free, ?_, fun k => ?_, hat.client, ?_⟩ (ho.proper c)⟩
  · refine ⟨rfl, fun _ _ => rfl, fun _ _ => rfl, fun k old hold => ?_, fun _ _ => Iff.rfl,
      fun j hj => by simp [hrest, hready, hj]⟩
    by_cases hk : k = h
    · have hne : old ≠ job := fun heq => hold (heq ▸ hidx)
      subst hk
      simp [hself, hne]
    · rw [hother k hk]
  · refine ⟨ho.tidy.freeQ, hrest.symm ▸ hq, ho.tidy.free_nodup, hrest.symm ▸ hnodup.2, fun k => ?_⟩
    by_cases hk : k = h
    · subst hk
      rw [hself, List.map_append, List.map_singleton]
      refine nodup_concat (ho.tidy.jobs_nodup k) fun hold => ?_
      obtain ⟨old, hold, heq⟩ := List.mem_map.mp hold
      exact hnojob k old hold (heq.trans hidx)
    · rw [hother k hk]
      exact ho.tidy.jobs_nodup k
  · simp [hrest, hnodup.1, Place.IsReady]
  · by_cases hk : k = h
    · subst hk
      rw [hself]
      exact ⟨fun _ => rfl, fun _ => ⟨job, by simp, hidx⟩⟩
    · rw [hother k hk, hat.job k]
      simp [Place.handler?, Ne.symm hk]
  · obtain ⟨hpc, hrequest, hstate⟩ := hat.content
    refine ⟨hpc, hrequest, hstate, fun old hold heq => ?_⟩
    rw [hself] at hold
    rcases List.mem_append.mp hold with hold | hold
    · exact absurd heq (hnojob h old hold)
    · rw [List.mem_singleton.mp hold, Handled, hstage]
      trivial

/-- A handler works on one of its jobs, and perhaps on the slot it is about. -/
theorem rework (ho : Owned owner s place) {job : Job C O} {front rest : List (Job C O)}
    (hjobs : s.handlers h = front ++ job :: rest) (hplace : place job.slotIdx = .handler h c)
    (job' : Job C O) (hsame : job'.slotIdx = job.slotIdx) (slot : Slot C O R)
    (hrequest : Requested owner c (s.clients c) slot) (hstate : slot.state = SLOT_READY)
    (hhandled : Handled c (s.clients c) slot job') :
    Owned owner ((s.setSlot job.slotIdx slot).setHandler h (front ++ job' :: rest)) place := by
  have hself : ((s.setSlot job.slotIdx slot).setHandler h (front ++ job' :: rest)).handlers h =
      front ++ job' :: rest := Function.update_self _ _ _
  have hother : ∀ k, k ≠ h →
      ((s.setSlot job.slotIdx slot).setHandler h (front ++ job' :: rest)).handlers k =
        s.handlers k := fun k hk => Function.update_of_ne hk _ _
  have hi := ho.range.job h job (by simp [hjobs])
  have hat := ho.slot _ hi
  have hnodup := ho.tidy.jobs_nodup h
  rw [hplace] at hat
  rw [hjobs] at hnodup
  have hslot : Inside (s.clients c).pc → (s.clients c).slotIdx = job.slotIdx := fun _ =>
    ((hat.client c).mpr rfl).2
  have hmove := ho.move (p := .handler h c)
    (t := (s.setSlot job.slotIdx slot).setHandler h (front ++ job' :: rest)) (c := c)
    ⟨rfl, fun _ hj => Function.update_of_ne hj _ _, fun _ _ => rfl, fun k old hold => ?_,
      fun _ _ => Iff.rfl, fun _ _ => Iff.rfl⟩
    ⟨ho.tidy.freeQ, ho.tidy.readyQ, ho.tidy.free_nodup, ho.tidy.ready_nodup, fun k => ?_⟩ hi hslot
    hslot ⟨hat.free, hat.ready, fun k => ?_, hat.client, ?_⟩ (ho.proper c)
  · rwa [← hplace, Function.update_eq_self] at hmove
  · by_cases hk : k = h
    · subst hk
      rw [hself, hjobs]
      exact mem_replace hsame hold
    · rw [hother k hk]
  · by_cases hk : k = h
    · subst hk
      rw [hself]
      simpa [hsame] using hnodup
    · rw [hother k hk]
      exact ho.tidy.jobs_nodup k
  · by_cases hk : k = h
    · subst hk
      rw [hself]
      exact ⟨fun _ => rfl, fun _ => ⟨job', by simp, hsame⟩⟩
    · rw [hother k hk]
      exact hat.job k
  · have hcontent : (s.clients c).pc = .waitDone := hat.content.1
    have hset : ((s.setSlot job.slotIdx slot).setHandler h (front ++ job' :: rest)).slots
        job.slotIdx = slot := Function.update_self _ _ _
    refine ⟨hcontent, by rw [hset]; exact hrequest, by rw [hset]; exact hstate,
      fun old hold heq => ?_⟩
    rw [hself] at hold
    rw [hset]
    have hold' : old = job' := by
      by_contra hne
      exact unique_job hnodup (by simpa [hne] using hold) heq
    rw [hold']
    exact hhandled

/-- A handler hands a slot it has answered to the client. -/
theorem mark_done (ho : Owned owner s place) {job : Job C O} {front rest : List (Job C O)}
    (hjobs : s.handlers h = front ++ job :: rest) (hplace : place job.slotIdx = .handler h c)
    (hstage : job.stage = .answered) {slot : Slot C O R}
    (hslot : slot = { s.slots job.slotIdx with state := SLOT_DONE }) :
    Owned owner ((s.setSlot job.slotIdx slot).setHandler h (front ++ rest))
      (Function.update place job.slotIdx (.done c)) := by
  have hself : ((s.setSlot job.slotIdx slot).setHandler h (front ++ rest)).handlers h =
      front ++ rest := Function.update_self _ _ _
  have hother : ∀ k, k ≠ h →
      ((s.setSlot job.slotIdx slot).setHandler h (front ++ rest)).handlers k =
        s.handlers k := fun k hk => Function.update_of_ne hk _ _
  have hi := ho.range.job h job (by simp [hjobs])
  have hat := ho.slot _ hi
  have hnodup := ho.tidy.jobs_nodup h
  rw [hplace] at hat
  rw [hjobs] at hnodup
  have hclient : Inside (s.clients c).pc → (s.clients c).slotIdx = job.slotIdx := fun _ =>
    ((hat.client c).mpr rfl).2
  refine ho.move (t := (s.setSlot job.slotIdx slot).setHandler h (front ++ rest)) (c := c)
    ⟨rfl, fun _ hj => Function.update_of_ne hj _ _, fun _ _ => rfl, fun k old hold => ?_,
      fun _ _ => Iff.rfl, fun _ _ => Iff.rfl⟩
    ⟨ho.tidy.freeQ, ho.tidy.readyQ, ho.tidy.free_nodup, ho.tidy.ready_nodup, fun k => ?_⟩ hi hclient
    hclient ⟨hat.free, hat.ready, fun k => ?_, hat.client, ?_⟩ (ho.proper c)
  · by_cases hk : k = h
    · subst hk
      rw [hself, hjobs]
      exact mem_remove hold
    · rw [hother k hk]
  · by_cases hk : k = h
    · subst hk
      rw [hself]
      simp only [List.map_append, List.map_cons] at hnodup ⊢
      exact (List.nodup_cons.mp (List.perm_middle.nodup_iff.mp hnodup)).2
    · rw [hother k hk]
      exact ho.tidy.jobs_nodup k
  · by_cases hk : k = h
    · subst hk
      rw [hself]
      exact ⟨fun ⟨old, hold, heq⟩ => absurd heq (unique_job hnodup hold),
        fun hnone => absurd hnone (by simp [Place.handler?])⟩
    · rw [hother k hk, hat.job k]
      simp [Place.handler?, Ne.symm hk]
  · have hset : ((s.setSlot job.slotIdx slot).setHandler h (front ++ rest)).slots
        job.slotIdx = slot := Function.update_self _ _ _
    obtain ⟨hpc, hrequest, _, hhandled⟩ := hat.content
    have hanswer := hhandled job (by simp [hjobs]) rfl
    rw [Handled, hstage] at hanswer
    rw [Content, hset, hslot]
    exact ⟨hpc, hrequest.1, hanswer, rfl⟩

/-- Popping from the ready queue keeps the slots in place. -/
theorem popReady_owned (ho : Owned owner s place) (h : H) :
    ∃ place', Owned owner (popReady h s) place' := by
  have hq := ho.tidy.readyQ
  cases hready : s.ready with
  | nil =>
    rw [hready] at hq
    rw [popReady, hq.tryPop_nil]
    exact ⟨place, ho⟩
  | cons i rest =>
    rw [hready] at hq
    obtain ⟨q, hpop, hholds⟩ := hq.tryPop_cons
    rw [popReady, hpop]
    obtain ⟨c, hmoved⟩ := take_ready (h := h) ho hready hholds ⟨i, .popped, none⟩ rfl rfl
    exact ⟨_, hmoved⟩

/-- A handler's step on any of its jobs keeps the slots in place. -/
theorem workStep_owned (ho : Owned owner s place) {h : H} {k : ℕ} {work : Work R}
    (hwork : workStep h k work s = some t) : ∃ place', Owned owner t place' := by
  simp only [workStep, Option.bind_eq_bind, Option.bind_eq_some_iff] at hwork
  obtain ⟨job, hjob, hwork⟩ := hwork
  obtain ⟨front, rest, hjobs, hset, herase⟩ := split_jobs hjob
  obtain ⟨hi, c, hplace⟩ := job_place ho (List.mem_of_getElem? hjob)
  have hcontent := (ho.slot _ hi).content
  rw [hplace] at hcontent
  obtain ⟨_, hrequest, hstate, hhandled⟩ := hcontent
  have hself := hhandled job (List.mem_of_getElem? hjob) rfl
  split at hwork
  next hstage =>
    cases hwork
    rw [if_pos ⟨hi, hstate⟩, hset]
    have hmoved := rework ho hjobs hplace { job with stage := .checked } rfl _ hrequest hstate trivial
    rw [setSlot_self] at hmoved
    exact ⟨_, hmoved⟩
  next hstage =>
    cases hwork
    have hmoved := rework ho hjobs hplace job rfl { s.slots job.slotIdx with outputs := none }
      hrequest hstate (by rw [Handled, hstage]; trivial)
    rw [← hjobs] at hmoved
    simp only [State.setHandler, State.setSlot, Function.update_eq_self] at hmoved
    exact ⟨_, hmoved⟩
  next hstage =>
    cases hwork
    rw [hset]
    have hmoved := rework ho hjobs hplace
      { job with stage := .loaded, inputs := (s.slots job.slotIdx).inputs } rfl _ hrequest hstate
      hrequest.2
    rw [setSlot_self] at hmoved
    exact ⟨_, hmoved⟩
  next answer hstage =>
    cases hwork
    rw [hset]
    rw [Handled, hstage] at hself
    have hanswer : Answered c (s.clients c) { s.slots job.slotIdx with
        outputs := job.inputs.map fun request => (request.1, answer) } :=
      ⟨answer, by rw [hself]; rfl⟩
    exact ⟨_, rework ho hjobs hplace { job with stage := .answered } rfl _ hrequest hstate hanswer⟩
  next hstage =>
    cases hwork
    rw [herase]
    exact ⟨_, mark_done ho hjobs hplace hstage rfl⟩
  next => exact absurd hwork (by simp)

section Runs

variable [DecidableEq C]

omit [DecidableEq H] in
/-- A call of `infer` begins without a slot. -/
theorem beginCall_owned (ho : Owned owner s place) (hout : (s.clients c).pc = .outside)
    (observations : List O) : Owned owner (beginCall c observations s) place := by
  have hbefore : ¬ Inside (s.clients c).pc := by simp [hout, Inside]
  unfold beginCall
  split
  · refine aside ho hbefore hbefore ⟨by simp [hout], by simp [hout], fun outcome houtcome => ?_⟩
    exact Or.inl (Option.some.inj houtcome).symm
  · refine aside ho hbefore (by simp [Inside]) ⟨by simp, fun _ => ?_, by simp⟩
    constructor <;> simp <;> omega

/-- Every step of every party keeps every slot in place. -/
theorem act_owned (hn : s.numSlots < QCAP) (ho : Owned owner s place) {a : Action C H O R}
    (hact : act owner s a = some t) : ∃ place', Owned owner t place' := by
  cases a with
  | call c observations =>
    rw [act] at hact
    split at hact
    · cases hact
      exact ⟨place, beginCall_owned ho (by assumption) observations⟩
    · exact absurd hact (by simp)
  | infer c =>
    cases hact
    exact inferStep_owned hn ho c
  | popReady h =>
    cases hact
    exact popReady_owned ho h
  | work h k work => exact workStep_owned ho hact

end Runs

end Mcts.SlotWork
