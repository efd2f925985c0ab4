import Mcts.SlotOwnership
import Mathlib.Data.List.Perm.Subperm

/-!
Each step of the protocol keeps every slot at a place. Most steps of `infer`
work on a slot the client holds; the others take a slot over from a queue, a
handler or the client and hand it on.
-/
namespace Mcts.SlotSteps

open Queues RingQueue SlotProtocol SlotOwnership

variable {C H O R : Type} [DecidableEq C]
variable {owner : C → ℕ} {s t : State C H O R} {place : ℕ → Place C H} {i : ℕ} {c : C} {h : H}

theorem frame_local (s : State C H O R) (i : ℕ) (slot : Slot C O R) (c : C) (client : Client C O R) :
    Frame s ((s.setSlot i slot).setClient c client) i c where
  numSlots := rfl
  slots _ hj := Function.update_of_ne hj _ _
  clients _ hd := Function.update_of_ne hd _ _
  jobs _ _ _ := Iff.rfl
  free _ _ := Iff.rfl
  ready _ _ := Iff.rfl

omit [DecidableEq C] in
theorem setSlot_self (s : State C H O R) (i : ℕ) : s.setSlot i (s.slots i) = s := by
  simp [State.setSlot]

omit [DecidableEq C] in
/-- A client with a slot that does not wait holds its slot. -/
theorem holds_slot (ho : Owned owner s place) (hin : Inside (s.clients c).pc)
    (hwait : (s.clients c).pc ≠ .waitDone) :
    (s.clients c).slotIdx < s.numSlots ∧ place (s.clients c).slotIdx = .client c := by
  have hlt := ho.range.client c hin
  have hat := ho.slot _ hlt
  refine ⟨hlt, ?_⟩
  have hclient := (hat.client c).mp ⟨hin, rfl⟩
  have hcontent := hat.content
  cases hp : place (s.clients c).slotIdx with
  | free => simp [hp, Place.client?] at hclient
  | client d =>
    rw [hp, Place.client?, Option.some.injEq] at hclient
    rw [hclient]
  | ready d =>
    rw [hp, Place.client?, Option.some.injEq] at hclient
    rw [hp, hclient] at hcontent
    exact absurd hcontent.1 hwait
  | handler k d =>
    rw [hp, Place.client?, Option.some.injEq] at hclient
    rw [hp, hclient] at hcontent
    exact absurd hcontent.1 hwait
  | done d =>
    rw [hp, Place.client?, Option.some.injEq] at hclient
    rw [hp, hclient] at hcontent
    exact absurd hcontent.1 hwait

omit [DecidableEq C] in
/-- A slot that a client holds is as far as the client has got. -/
theorem progress_held (ho : Owned owner s place) (hi : i < s.numSlots)
    (hplace : place i = .client c) : Progress owner c (s.clients c) (s.slots i) := by
  have hcontent := (ho.slot i hi).content
  rwa [hplace] at hcontent

/-- A client works on the slot it holds. -/
theorem stay (ho : Owned owner s place) (hi : i < s.numSlots) (hplace : place i = .client c)
    {client : Client C O R} {slot : Slot C O R} (hin : Inside client.pc)
    (hidx : client.slotIdx = i) (hprogress : Progress owner c client slot)
    (hproper : Proper c client) :
    Owned owner ((s.setSlot i slot).setClient c client) place := by
  have hat := ho.slot i hi
  rw [hplace] at hat
  have hold := (hat.client c).mpr rfl
  have hmove := ho.move (p := .client c) (frame_local s i slot c client)
    ⟨ho.tidy.freeQ, ho.tidy.readyQ, ho.tidy.free_nodup, ho.tidy.ready_nodup, ho.tidy.jobs_nodup⟩ hi
    (fun _ => hold.2) (fun _ => by simpa [State.setClient] using hidx)
    ⟨hat.free, hat.ready, hat.job, fun d => ?_, ?_⟩ (by simpa [State.setClient] using hproper)
  · rwa [← hplace, Function.update_eq_self] at hmove
  · by_cases hd : d = c
    · subst hd
      simp [State.setClient, hin, hidx, Place.client?]
    · simpa [State.setClient, State.setSlot, Function.update_of_ne hd] using hat.client d
  · simpa [Content, State.setClient, State.setSlot] using hprogress

/-- The case where the slot is not written. -/
theorem stay_read (ho : Owned owner s place) (hi : i < s.numSlots) (hplace : place i = .client c)
    {client : Client C O R} (hin : Inside client.pc) (hidx : client.slotIdx = i)
    (hprogress : Progress owner c client (s.slots i)) (hproper : Proper c client) :
    Owned owner (s.setClient c client) place := by
  have hstay := stay ho hi hplace hin hidx hprogress hproper
  rwa [setSlot_self] at hstay

/-- A client without a slot changes nothing but itself. -/
theorem aside (ho : Owned owner s place) {client : Client C O R}
    (hbefore : ¬ Inside (s.clients c).pc) (hafter : ¬ Inside client.pc) (hproper : Proper c client) :
    Owned owner (s.setClient c client) place := by
  have hself : (s.setClient c client).clients c = client := Function.update_self _ _ _
  refine ⟨⟨ho.tidy.freeQ, ho.tidy.readyQ, ho.tidy.free_nodup, ho.tidy.ready_nodup,
    ho.tidy.jobs_nodup⟩, ⟨ho.range.free, ho.range.ready, ho.range.job, fun d hin => ?_⟩,
    fun j hj => ?_, fun d => ?_⟩
  · by_cases hd : d = c
    · rw [hd, hself] at hin
      exact absurd hin hafter
    · have hd' : (s.setClient c client).clients d = s.clients d := Function.update_of_ne hd _ _
      rw [hd'] at hin ⊢
      exact ho.range.client d hin
  · have hframe := frame_local s (j + 1) (s.slots (j + 1)) c client
    rw [setSlot_self] at hframe
    exact (ho.slot j hj).frame hframe (fun hin => absurd hin hbefore)
      (fun hin => absurd (hself ▸ hin) hafter) (by omega)
  · by_cases hd : d = c
    · subst hd
      rwa [hself]
    · have hd' : (s.setClient c client).clients d = s.clients d := Function.update_of_ne hd _ _
      rw [hd']
      exact ho.proper d

section Clients

omit [DecidableEq C] in
/-- A queue has room for a slot that is not in it. -/
theorem room {xs : List ℕ} {n : ℕ} (hn : n < QCAP) (hnodup : xs.Nodup) (hlt : ∀ j ∈ xs, j < n)
    (hi : i < n) (hout : i ∉ xs) : xs.length < QCAP - 1 := by
  have hsub : i :: xs ⊆ List.range n := by
    intro j hj
    rcases List.mem_cons.mp hj with rfl | hj
    · exact List.mem_range.mpr hi
    · exact List.mem_range.mpr (hlt j hj)
  have hlength := (List.subperm_of_subset (List.nodup_cons.mpr ⟨hout, hnodup⟩) hsub).length_le
  rw [List.length_cons, List.length_range] at hlength
  omega

omit [DecidableEq C] in
theorem nodup_concat {xs : List ℕ} (hnodup : xs.Nodup) (hout : i ∉ xs) : (xs ++ [i]).Nodup := by
  rw [← List.concat_eq_append]
  exact hnodup.concat hout

omit [DecidableEq C] in
/-- The ready queue has room for a slot that a client holds. -/
theorem push_ready (hn : s.numSlots < QCAP) (ho : Owned owner s place) (hi : i < s.numSlots)
    (hplace : place i = .client c) :
    ∃ q, tryPush QCAP i s.readyQ = some q ∧ Holds QCAP q (s.ready ++ [i]) := by
  have hout : i ∉ s.ready := fun hmem => by
    have hready := (ho.slot i hi).ready.mp hmem
    rw [hplace] at hready
    exact hready
  exact ho.tidy.readyQ.tryPush (room hn ho.tidy.ready_nodup ho.range.ready hi hout)

omit [DecidableEq C] in
/-- So has the free queue. -/
theorem push_free (hn : s.numSlots < QCAP) (ho : Owned owner s place) (hi : i < s.numSlots)
    (hplace : place i = .client c) :
    ∃ q, tryPush QCAP i s.freeQ = some q ∧ Holds QCAP q (s.free ++ [i]) := by
  have hout : i ∉ s.free := fun hmem => by
    have hfree := (ho.slot i hi).free.mp hmem
    rw [hplace] at hfree
    exact hfree
  exact ho.tidy.freeQ.tryPush (room hn ho.tidy.free_nodup ho.range.free hi hout)

/-- A client takes the first slot of the free queue. -/
theorem take_free (ho : Owned owner s place) {rest : List ℕ} {q : RingQueue}
    (hfree : s.free = i :: rest) (hq : Holds QCAP q rest) {client : Client C O R}
    (hout : ¬ Inside (s.clients c).pc) (hpc : client.pc = .fetchReqId) (hidx : client.slotIdx = i)
    (hproper : Proper c client) :
    Owned owner ({ s with freeQ := q }.setClient c client)
      (Function.update place i (.client c)) := by
  have hrest : ({ s with freeQ := q }.setClient c client).free = rest := hq.contents_eq
  have hself : ({ s with freeQ := q }.setClient c client).clients c = client :=
    Function.update_self _ _ _
  have hnodup := ho.tidy.free_nodup
  rw [hfree, List.nodup_cons] at hnodup
  have hmem : i ∈ s.free := hfree ▸ List.mem_cons_self
  have hat := ho.slot i (ho.range.free i hmem)
  rw [Place.isFree_iff.mp (hat.free.mp hmem)] at hat
  refine ho.move (c := c) ?_ ?_ (ho.range.free i hmem) (fun hin => absurd hin hout) (fun _ => ?_)
    ⟨?_, hat.ready, hat.job, fun d => ?_, ?_⟩ (by rwa [hself])
  · exact ⟨rfl, fun _ _ => rfl, fun d hd => Function.update_of_ne hd _ _, fun _ _ _ => Iff.rfl,
      fun j hj => by simp [hrest, hfree, hj], fun _ _ => Iff.rfl⟩
  · exact ⟨hrest.symm ▸ hq, ho.tidy.readyQ, hrest.symm ▸ hnodup.2, ho.tidy.ready_nodup,
      ho.tidy.jobs_nodup⟩
  · rw [hself, hidx]
  · simp [hrest, hnodup.1, Place.IsFree]
  · by_cases hd : d = c
    · subst hd
      simp [hself, hpc, hidx, Inside, Place.client?]
    · have hold := hat.client d
      simpa [State.setClient, Function.update_of_ne hd, Place.client?, Ne.symm hd] using hold
  · simp [Content, hself, Progress, hpc]

/-- A client that holds a slot puts it into the ready queue. -/
theorem put_ready (ho : Owned owner s place) (hi : i < s.numSlots) (hplace : place i = .client c)
    (hpc : (s.clients c).pc = .submitToHandler) {q : RingQueue}
    (hq : Holds QCAP q (s.ready ++ [i])) {client : Client C O R}
    (hclient : client = { s.clients c with pc := .waitDone }) :
    Owned owner ({ s with readyQ := q }.setClient c client) (Function.update place i (.ready c)) := by
  have hready : ({ s with readyQ := q }.setClient c client).ready = s.ready ++ [i] := hq.contents_eq
  have hself : ({ s with readyQ := q }.setClient c client).clients c = client :=
    Function.update_self _ _ _
  have hat := ho.slot i hi
  rw [hplace] at hat
  obtain ⟨hin, hidx⟩ := (hat.client c).mpr rfl
  have hidx' : client.slotIdx = i := by rw [hclient]; exact hidx
  have hout : i ∉ s.ready := hat.ready.mp
  have hcontent := hat.content
  simp only [Content, Progress, hpc] at hcontent
  refine ho.move (c := c) ?_ ?_ hi (fun _ => hidx) (fun _ => by rw [hself, hidx'])
    ⟨hat.free, ?_, hat.job, fun d => ?_, ?_⟩ ?_
  · exact ⟨rfl, fun _ _ => rfl, fun d hd => Function.update_of_ne hd _ _, fun _ _ _ => Iff.rfl,
      fun _ _ => Iff.rfl, fun j hj => by simp [hready, hj]⟩
  · refine ⟨ho.tidy.freeQ, hready.symm ▸ hq, ho.tidy.free_nodup, ?_, ho.tidy.jobs_nodup⟩
    rw [hready]
    exact nodup_concat ho.tidy.ready_nodup hout
  · simp [hready, Place.IsReady]
  · by_cases hd : d = c
    · subst hd
      rw [hself]
      exact ⟨fun _ => rfl, fun _ => ⟨by simp [hclient, Inside], hidx'⟩⟩
    · have hd' : ({ s with readyQ := q }.setClient c client).clients d = s.clients d :=
        Function.update_of_ne hd _ _
      rw [hd']
      exact hat.client d
  · rw [Content, hself, hclient]
    exact ⟨rfl, hcontent⟩
  · rw [hself, hclient]
    have hproper := ho.proper c
    exact ⟨by simp, by simpa [hpc] using hproper.batch, hproper.result⟩

omit [DecidableEq C] in
/-- A slot seen done by the client that waits for it was marked done for it. -/
theorem done_place (ho : Owned owner s place) (hpc : (s.clients c).pc = .waitDone)
    (hstate : (s.slots (s.clients c).slotIdx).state = SLOT_DONE) :
    (s.clients c).slotIdx < s.numSlots ∧ place (s.clients c).slotIdx = .done c := by
  have hin : Inside (s.clients c).pc := by simp [hpc, Inside]
  have hlt := ho.range.client c hin
  have hat := ho.slot _ hlt
  have hclient := (hat.client c).mp ⟨hin, rfl⟩
  have hcontent := hat.content
  refine ⟨hlt, ?_⟩
  cases hp : place (s.clients c).slotIdx with
  | free => simp [hp, Place.client?] at hclient
  | client d =>
    rw [hp, Place.client?, Option.some.injEq] at hclient
    rw [hp, hclient] at hcontent
    simp [Content, Progress, hpc] at hcontent
  | ready d =>
    rw [hp] at hcontent
    exact absurd (hstate.symm.trans hcontent.2.2) (by decide)
  | handler k d =>
    rw [hp] at hcontent
    exact absurd (hstate.symm.trans hcontent.2.2.1) (by decide)
  | done d =>
    rw [hp, Place.client?, Option.some.injEq] at hclient
    rw [hclient]

/-- The client takes a slot back that was marked done for it. -/
theorem take_done (ho : Owned owner s place) (hi : i < s.numSlots) (hplace : place i = .done c)
    {client : Client C O R} (hclient : client = { s.clients c with pc := .compareIds }) :
    Owned owner (s.setClient c client) (Function.update place i (.client c)) := by
  have hself : (s.setClient c client).clients c = client := Function.update_self _ _ _
  have hat := ho.slot i hi
  rw [hplace] at hat
  obtain ⟨hin, hidx⟩ := (hat.client c).mpr rfl
  have hidx' : client.slotIdx = i := by rw [hclient]; exact hidx
  have hcontent := hat.content
  simp only [Content] at hcontent
  have hframe := frame_local s i (s.slots i) c client
  rw [setSlot_self] at hframe
  refine ho.move hframe ⟨ho.tidy.freeQ, ho.tidy.readyQ, ho.tidy.free_nodup, ho.tidy.ready_nodup,
    ho.tidy.jobs_nodup⟩ hi (fun _ => hidx) (fun _ => by rw [hself, hidx'])
    ⟨hat.free, hat.ready, hat.job, fun d => ?_, ?_⟩ ?_
  · by_cases hd : d = c
    · subst hd
      rw [hself]
      exact ⟨fun _ => rfl, fun _ => ⟨by simp [hclient, Inside], hidx'⟩⟩
    · rw [hframe.clients d hd]
      exact hat.client d
  · rw [Content, hself, hclient]
    exact hcontent.2
  · rw [hself, hclient]
    have hproper := ho.proper c
    exact ⟨by simp, by simpa [hcontent.1] using hproper.batch, hproper.result⟩

/-- A client that holds a slot puts it back into the free queue. -/
theorem put_free (ho : Owned owner s place) (hi : i < s.numSlots) (hplace : place i = .client c)
    {q : RingQueue} (hq : Holds QCAP q (s.free ++ [i])) {client : Client C O R}
    (hclient : client = { s.clients c with pc := .outside }) :
    Owned owner ({ s with freeQ := q }.setClient c client) (Function.update place i .free) := by
  have hfree : ({ s with freeQ := q }.setClient c client).free = s.free ++ [i] := hq.contents_eq
  have hself : ({ s with freeQ := q }.setClient c client).clients c = client :=
    Function.update_self _ _ _
  have hat := ho.slot i hi
  rw [hplace] at hat
  obtain ⟨_, hidx⟩ := (hat.client c).mpr rfl
  have hout : i ∉ s.free := hat.free.mp
  have houtside : ¬ Inside client.pc := by simp [hclient, Inside]
  refine ho.move (c := c) ?_ ?_ hi (fun _ => hidx) (fun hin => absurd (hself ▸ hin) houtside)
    ⟨?_, hat.ready, hat.job, fun d => ?_, trivial⟩ ?_
  · exact ⟨rfl, fun _ _ => rfl, fun d hd => Function.update_of_ne hd _ _, fun _ _ _ => Iff.rfl,
      fun j hj => by simp [hfree, hj], fun _ _ => Iff.rfl⟩
  · refine ⟨hfree.symm ▸ hq, ho.tidy.readyQ, ?_, ho.tidy.ready_nodup, ho.tidy.jobs_nodup⟩
    rw [hfree]
    exact nodup_concat ho.tidy.free_nodup hout
  · simp [hfree, Place.IsFree]
  · by_cases hd : d = c
    · subst hd
      rw [hself]
      simp [houtside, Place.client?]
    · have hd' : ({ s with freeQ := q }.setClient c client).clients d = s.clients d :=
        Function.update_of_ne hd _ _
      rw [hd']
      simpa [Place.client?, Ne.symm hd] using hat.client d
  · rw [hself, hclient]
    exact ⟨by simp, by simp, (ho.proper c).result⟩

/-- Every step of `infer` keeps the slots in place. -/
theorem inferStep_owned (hn : s.numSlots < QCAP) (ho : Owned owner s place) (c : C) :
    ∃ place', Owned owner (inferStep owner c s) place' := by
  have hproper := ho.proper c
  have hslot : Inside (s.clients c).pc → s.slotPtr (s.clients c).slotIdx =
      some (s.slots (s.clients c).slotIdx) := fun hin => if_pos (ho.range.client c hin)
  cases hpc : (s.clients c).pc with
  | outside => exact ⟨place, by simpa only [inferStep, hpc] using ho⟩
  | panicked => exact absurd hpc hproper.running
  | acquireSlot =>
    simp only [inferStep, hpc]
    have hq := ho.tidy.freeQ
    cases hfree : s.free with
    | nil =>
      rw [hfree] at hq
      rw [hq.tryPop_nil]
      exact ⟨place, ho⟩
    | cons i rest =>
      rw [hfree] at hq
      obtain ⟨q, hpop, hholds⟩ := hq.tryPop_cons
      rw [hpop]
      exact ⟨_, take_free ho hfree hholds (by simp [hpc, Inside]) rfl rfl
        ⟨by simp, by simpa [hpc] using hproper.batch, hproper.result⟩⟩
  | waitDone =>
    simp only [inferStep, hpc]
    rw [hslot (by simp [hpc, Inside])]
    dsimp only
    split
    · rename_i hstate
      obtain ⟨hi, hplace⟩ := done_place ho hpc hstate
      exact ⟨_, take_done ho hi hplace rfl⟩
    · exact ⟨place, ho⟩
  | fetchReqId =>
    obtain ⟨hi, hplace⟩ := holds_slot ho (c := c) (by simp [hpc, Inside]) (by simp [hpc])
    simp only [inferStep, hpc]
    exact ⟨place, stay_read ho hi hplace (by simp [Inside]) rfl trivial
      ⟨by simp, by simpa [hpc] using hproper.batch, hproper.result⟩⟩
  | writeHeader =>
    obtain ⟨hi, hplace⟩ := holds_slot ho (c := c) (by simp [hpc, Inside]) (by simp [hpc])
    simp only [inferStep, hpc]
    rw [hslot (by simp [hpc, Inside])]
    exact ⟨place, stay ho hi hplace (by simp [Inside]) rfl ⟨rfl, rfl⟩
      ⟨by simp, by simpa [hpc] using hproper.batch, hproper.result⟩⟩
  | packObservations =>
    obtain ⟨hi, hplace⟩ := holds_slot ho (c := c) (by simp [hpc, Inside]) (by simp [hpc])
    obtain ⟨hpos, hmax⟩ := hproper.batch (by simp [hpc])
    have hprogress := progress_held ho hi hplace
    rw [Progress, hpc] at hprogress
    simp only [inferStep, hpc]
    rw [if_neg (by omega)]
    exact ⟨place, stay ho hi hplace (by simp [Inside]) rfl ⟨hprogress, rfl⟩
      ⟨by simp, by simpa [hpc] using hproper.batch, hproper.result⟩⟩
  | storeReady =>
    obtain ⟨hi, hplace⟩ := holds_slot ho (c := c) (by simp [hpc, Inside]) (by simp [hpc])
    have hprogress := progress_held ho hi hplace
    rw [Progress, hpc] at hprogress
    simp only [inferStep, hpc]
    exact ⟨place, stay ho hi hplace (by simp [Inside]) rfl ⟨hprogress, rfl⟩
      ⟨by simp, by simpa [hpc] using hproper.batch, hproper.result⟩⟩
  | submitToHandler =>
    obtain ⟨hi, hplace⟩ := holds_slot ho (c := c) (by simp [hpc, Inside]) (by simp [hpc])
    obtain ⟨q, hpush, hholds⟩ := push_ready hn ho hi hplace
    simp only [inferStep, hpc, hpush]
    exact ⟨_, put_ready ho hi hplace hpc hholds rfl⟩
  | compareIds =>
    obtain ⟨hi, hplace⟩ := holds_slot ho (c := c) (by simp [hpc, Inside]) (by simp [hpc])
    have hprogress := progress_held ho hi hplace
    rw [Progress, hpc] at hprogress
    obtain ⟨hlabel, hanswer, hstate⟩ := hprogress
    simp only [inferStep, hpc]
    rw [hslot (by simp [hpc, Inside])]
    dsimp only
    rw [if_neg (by simp [hlabel.1, hlabel.2])]
    exact ⟨place, stay_read ho hi hplace (by simp [Inside]) rfl ⟨hlabel, hanswer, hstate⟩
      ⟨by simp, by simpa [hpc] using hproper.batch, hproper.result⟩⟩
  | assertDone =>
    obtain ⟨hi, hplace⟩ := holds_slot ho (c := c) (by simp [hpc, Inside]) (by simp [hpc])
    have hprogress := progress_held ho hi hplace
    rw [Progress, hpc] at hprogress
    simp only [inferStep, hpc]
    rw [if_pos hprogress.2.2]
    exact ⟨place, stay_read ho hi hplace (by simp [Inside]) rfl hprogress
      ⟨by simp, by simpa [hpc] using hproper.batch, hproper.result⟩⟩
  | readResponse =>
    obtain ⟨hi, hplace⟩ := holds_slot ho (c := c) (by simp [hpc, Inside]) (by simp [hpc])
    have hprogress := progress_held ho hi hplace
    rw [Progress, hpc] at hprogress
    obtain ⟨answer, hanswer⟩ := hprogress.2.1
    simp only [inferStep, hpc]
    refine ⟨place, stay_read ho hi hplace (by simp [Inside]) rfl trivial
      ⟨by simp, by simpa [hpc] using hproper.batch, fun outcome houtcome => Or.inr ⟨answer, ?_⟩⟩⟩
    rw [← Option.some.inj houtcome, hanswer]
  | storeFree =>
    obtain ⟨hi, hplace⟩ := holds_slot ho (c := c) (by simp [hpc, Inside]) (by simp [hpc])
    simp only [inferStep, hpc]
    rw [hslot (by simp [hpc, Inside])]
    exact ⟨place, stay ho hi hplace (by simp [Inside]) rfl trivial
      ⟨by simp, by simpa [hpc] using hproper.batch, hproper.result⟩⟩
  | pushFree =>
    obtain ⟨hi, hplace⟩ := holds_slot ho (c := c) (by simp [hpc, Inside]) (by simp [hpc])
    obtain ⟨q, hpush, hholds⟩ := push_free hn ho hi hplace
    simp only [inferStep, hpc, hpush]
    exact ⟨_, put_free ho hi hplace hholds rfl⟩

end Clients

end Mcts.SlotSteps
