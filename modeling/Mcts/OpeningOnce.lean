import Mcts.Opening
import Mathlib.Data.Fintype.Basic
import Mathlib.Data.Option.Basic

/-!
When the arena is initialised once, and when it is not. An opener whose decision
is stale starts over, and an `init_done` left by an older arena lets others pass;
in runs without such steps every opener finds a complete arena.
-/
namespace Mcts.OpeningOnce

open Queues RingQueue Opening

section Condition

variable {P : Type}

def Settled (s : State P) : Prop := ∀ p, ¬ InBody (s.pc p)

/-- The lock is taken only while the arena still needs it, and a read that lets
an opener go on is not made during an initialisation. -/
def Fresh (s : State P) : Action P → Prop
  | .createOrOpen p =>
    match s.pc p with
    | .lockInit => s.hdr.initLock = 0 → NeedInit s.hdr
    | .readVersion => s.hdr.version = ARENA_VERSION → Settled s
    | .waitDone => s.hdr.initDone ≠ 0 → Settled s
    | _ => True
  | _ => True

instance [Fintype P] (s : State P) : Decidable (Settled s) :=
  inferInstanceAs (Decidable (∀ p, ¬ InBody (s.pc p)))

instance (hdr : ArenaHeader) : Decidable (NeedInit hdr) :=
  inferInstanceAs (Decidable (hdr.initDone = 0 ∨ hdr.magic ≠ ARENA_MAGIC ∨
    hdr.version ≠ ARENA_VERSION))

instance [Fintype P] (s : State P) (a : Action P) : Decidable (Fresh s a) := by
  unfold Fresh
  split
  · split <;> infer_instance
  · infer_instance

end Condition

section Invariant

variable {P : Type} (numSlots numHandlers : ℕ)

structure Valid : Prop where
  slots : 0 < numSlots ∧ numSlots < QCAP
  handlers : 0 < numHandlers ∧ numHandlers ≤ MAX_HANDLERS

structure Headed (hdr : ArenaHeader) : Prop where
  magic : hdr.magic = ARENA_MAGIC
  version : hdr.version = ARENA_VERSION
  numSlots : hdr.numSlots = numSlots
  numHandlers : hdr.numHandlers = numHandlers

def Built (hdr : ArenaHeader) : Pc → Prop
  | .writeMagic => True
  | .writeVersion => hdr.magic = ARENA_MAGIC
  | .writeNumSlots => hdr.magic = ARENA_MAGIC ∧ hdr.version = ARENA_VERSION
  | .writeNumHandlers =>
    hdr.magic = ARENA_MAGIC ∧ hdr.version = ARENA_VERSION ∧ hdr.numSlots = numSlots
  | .initFreeQ => Headed numSlots numHandlers hdr
  | .initReadyQ => Headed numSlots numHandlers hdr ∧ Holds QCAP hdr.freeQ []
  | .initSlot i | .pushSlot i => i < numSlots ∧ Headed numSlots numHandlers hdr ∧
      Holds QCAP hdr.freeQ (List.range i) ∧ Holds QCAP hdr.readyQ []
  | .publishDone => Headed numSlots numHandlers hdr ∧
      Holds QCAP hdr.freeQ (List.range numSlots) ∧ Holds QCAP hdr.readyQ []
  | _ => False

def Fits (s : State P) : Pc → Prop
  | .validate | .readInitDone | .lockInit => True
  | .readMagic => s.begun = 0 → s.hdr.initDone ≠ 0
  | .readVersion => s.begun = 0 → s.hdr.initDone ≠ 0 ∧ s.hdr.magic = ARENA_MAGIC
  | .waitDone => s.begun = 1
  | .unlock | .checkMagic | .checkVersion | .checkNumSlots | .checkNumHandlers | .opened =>
    s.finished = 1
  | .failed _ | .panicked => False
  | pc => s.begun = 1 ∧ s.finished = 0 ∧ Built numSlots numHandlers s.hdr pc

inductive Phase (s : State P) : Prop
  | untouched : s.begun = 0 → s.finished = 0 → s.hdr.initLock = 0 → NeedInit s.hdr → Phase s
  | building (p : P) : s.begun = 1 → s.finished = 0 → s.hdr.initLock = 1 → InBody (s.pc p) →
      Phase s
  | published : s.begun = 1 → s.finished = 1 → s.hdr.initDone ≠ 0 →
      Headed numSlots numHandlers s.hdr → Phase s

structure Invariant (s : State P) : Prop where
  phase : Phase numSlots numHandlers s
  fits : ∀ p, Fits numSlots numHandlers s (s.pc p)
  alone : ∀ p q, InBody (s.pc p) → InBody (s.pc q) → p = q
  room : s.hdr.freeQ.slots.length = QCAP ∧ s.hdr.readyQ.slots.length = QCAP
  held : ∀ p, s.held p ≠ [] → s.pc p = .opened

end Invariant

variable {P : Type} {numSlots numHandlers : ℕ} {s t : State P} {p : P} {pc : Pc}

theorem fits_body (h : InBody pc) : Fits numSlots numHandlers s pc ↔
    s.begun = 1 ∧ s.finished = 0 ∧ Built numSlots numHandlers s.hdr pc := by
  cases pc <;> first | exact Iff.rfl | exact h.elim

/-- Outside the body a process relies only on how far the initialisation is. -/
theorem Fits.carry (h : Fits numSlots numHandlers s pc) (hout : ¬ InBody pc) (hbegun : t.begun = 1)
    (hfinished : s.finished = 1 → t.finished = 1) : Fits numSlots numHandlers t pc := by
  cases pc
  case readMagic => exact fun h0 => absurd (h0.symm.trans hbegun) (by decide)
  case readVersion => exact fun h0 => absurd (h0.symm.trans hbegun) (by decide)
  case waitDone => exact hbegun
  case validate | readInitDone | lockInit => trivial
  case failed | panicked => exact h.elim
  case unlock | checkMagic | checkVersion | checkNumSlots | checkNumHandlers | opened =>
    exact hfinished h
  all_goals exact absurd trivial hout

namespace Invariant

theorem finished_le (h : Invariant numSlots numHandlers s) : s.begun ≤ 1 := by
  rcases h.phase with ⟨h0, _⟩ | ⟨_, h1, _⟩ | ⟨h1, _⟩ <;> omega

/-- Once published, no one is in the body. -/
theorem settled (h : Invariant numSlots numHandlers s) (hfinished : s.finished = 1) :
    Settled s := by
  intro p hp
  have hfits := (fits_body hp).mp (h.fits p)
  omega

/-- When the initialisation has begun and no one is in the body, it is published. -/
theorem finished_of_settled (h : Invariant numSlots numHandlers s) (hsettled : Settled s)
    (hbegun : s.begun ≠ 0) : s.finished = 1 := by
  rcases h.phase with ⟨h0, _⟩ | ⟨q, _, _, _, hq⟩ | ⟨_, hfinished, _⟩
  · exact absurd h0 hbegun
  · exact absurd hq (hsettled q)
  · exact hfinished

theorem published (h : Invariant numSlots numHandlers s) (hfinished : s.finished = 1) :
    s.begun = 1 ∧ s.hdr.initDone ≠ 0 ∧ Headed numSlots numHandlers s.hdr := by
  rcases h.phase with ⟨_, h0, _⟩ | ⟨_, _, h0, _⟩ | ⟨hbegun, _, hdone, hheaded⟩
  · omega
  · omega
  · exact ⟨hbegun, hdone, hheaded⟩

theorem once (h : Invariant numSlots numHandlers s) : Once s where
  begun := h.finished_le
  finished p hp := by
    have hfits := h.fits p
    rwa [hp] at hfits
  ended p q hp := by
    have hfits := h.fits p
    rw [hp] at hfits
    exact h.settled hfits q
  held p q i hi hq := by
    have hopened := h.fits p
    rw [h.held p (List.ne_nil_of_mem hi)] at hopened
    exact h.settled hopened q (by rw [hq]; trivial)

variable [DecidableEq P]

/-- A step outside the body that only moves its process. -/
theorem move (h : Invariant numSlots numHandlers s) (hout : ¬ InBody (s.pc p))
    (hopened : s.pc p ≠ .opened) (hpc : ¬ InBody pc) (hfits : Fits numSlots numHandlers s pc) :
    Invariant numSlots numHandlers (s.goto p pc) := by
  have hself : (s.goto p pc).pc p = pc := Function.update_self _ _ _
  have hother : ∀ q, q ≠ p → (s.goto p pc).pc q = s.pc q := fun q hq => Function.update_of_ne hq _ _
  have hne : ∀ q, InBody ((s.goto p pc).pc q) → q ≠ p := by
    rintro q hq rfl
    exact hpc (hself ▸ hq)
  refine ⟨?_, fun q => ?_, fun q r hq hr => ?_, h.room, fun q hq => ?_⟩
  · rcases h.phase with ⟨hb, hf, hl, hn⟩ | ⟨q, hb, hf, hl, hq⟩ | ⟨hb, hf, hd, hh⟩
    · exact .untouched hb hf hl hn
    · refine .building q hb hf hl ?_
      rwa [hother q]
      rintro rfl
      exact hout hq
    · exact .published hb hf hd hh
  · by_cases hqp : q = p
    · rw [hqp, hself]
      exact hfits
    · rw [hother q hqp]
      exact h.fits q
  · have hq' := hother q (hne q hq) ▸ hq
    have hr' := hother r (hne r hr) ▸ hr
    exact h.alone q r hq' hr'
  · by_cases hqp : q = p
    · subst hqp
      exact absurd (h.held q hq) hopened
    · rw [hother q hqp]
      exact h.held q hq

/-- A step from one place of the body to the next. -/
theorem build (h : Invariant numSlots numHandlers s) (hin : InBody (s.pc p)) (pc : Pc)
    (hpc : InBody pc) (hdr : ArenaHeader) (states : ℕ → ℕ)
    (hlock : hdr.initLock = s.hdr.initLock)
    (hroom : hdr.freeQ.slots.length = QCAP ∧ hdr.readyQ.slots.length = QCAP)
    (hbuilt : Built numSlots numHandlers hdr pc) :
    Invariant numSlots numHandlers ({ s with hdr := hdr, slotStates := states }.goto p pc) := by
  obtain ⟨hbegun, hfinished, -⟩ := (fits_body hin).mp (h.fits p)
  have hself : ({ s with hdr := hdr, slotStates := states }.goto p pc).pc p = pc :=
    Function.update_self _ _ _
  have hother : ∀ q, q ≠ p →
      ({ s with hdr := hdr, slotStates := states }.goto p pc).pc q = s.pc q := fun q hq =>
    Function.update_of_ne hq _ _
  have houtside : ∀ q, q ≠ p → ¬ InBody (s.pc q) := fun q hqp hq => hqp (h.alone q p hq hin)
  have hlocked : s.hdr.initLock = 1 := by
    rcases h.phase with ⟨h0, _⟩ | ⟨_, _, _, hl, _⟩ | ⟨_, h1, _⟩
    · omega
    · exact hl
    · omega
  refine ⟨.building p hbegun hfinished (hlock.trans hlocked) (by rwa [hself]),
    fun q => ?_, fun q r hq hr => ?_, hroom, fun q hq => ?_⟩
  · by_cases hqp : q = p
    · rw [hqp, hself]
      exact (fits_body hpc).mpr ⟨hbegun, hfinished, hbuilt⟩
    · rw [hother q hqp]
      exact (h.fits q).carry (houtside q hqp) hbegun id
  · have hto : ∀ x, InBody (({ s with hdr := hdr, slotStates := states }.goto p pc).pc x) →
        x = p := fun x hx => by
      by_contra hxp
      exact houtside x hxp (hother x hxp ▸ hx)
    rw [hto q hq, hto r hr]
  · by_cases hqp : q = p
    · subst hqp
      rw [h.held q hq] at hin
      exact hin.elim
    · rw [hother q hqp]
      exact h.held q hq

omit [DecidableEq P] in
/-- After the publication no one is in the body. -/
theorem of_published (hbegun : t.begun = 1) (hfinished : t.finished = 1)
    (hdone : t.hdr.initDone ≠ 0) (hheaded : Headed numSlots numHandlers t.hdr)
    (hroom : t.hdr.freeQ.slots.length = QCAP ∧ t.hdr.readyQ.slots.length = QCAP)
    (hfits : ∀ q, Fits numSlots numHandlers t (t.pc q))
    (hheld : ∀ q, t.held q ≠ [] → t.pc q = .opened) : Invariant numSlots numHandlers t := by
  refine ⟨.published hbegun hfinished hdone hheaded, hfits, fun q _ hq => ?_, hroom, hheld⟩
  have hbody := (fits_body hq).mp (hfits q)
  omega

/-- A process that is through changes queues, state words and what it holds. -/
theorem use (h : Invariant numSlots numHandlers s) (hopened : s.pc p = .opened)
    (freeQ readyQ : RingQueue) (hfree : freeQ.slots.length = QCAP)
    (hready : readyQ.slots.length = QCAP) (states : ℕ → ℕ) (slots : List ℕ) :
    Invariant numSlots numHandlers ({ s with
      hdr := { s.hdr with freeQ := freeQ, readyQ := readyQ }
      slotStates := states }.hold p slots) := by
  have hfinished : s.finished = 1 := by
    have hfits := h.fits p
    rwa [hopened] at hfits
  obtain ⟨hbegun, hdone, hheaded⟩ := h.published hfinished
  refine of_published hbegun hfinished hdone
    ⟨hheaded.magic, hheaded.version, hheaded.numSlots, hheaded.numHandlers⟩ ⟨hfree, hready⟩
    (fun q => (h.fits q).carry (h.settled hfinished q) hbegun fun _ => hfinished) fun q hq => ?_
  by_cases hqp : q = p
  · rw [hqp]
    exact hopened
  · have hq' : Function.update s.held p slots q ≠ [] := hq
    rw [Function.update_of_ne hqp] at hq'
    exact h.held q hq'

end Invariant

section Init

theorem unopened_invariant (h : Unopened s) : Invariant numSlots numHandlers s := by
  have hdecided : ∀ q, s.pc q = .validate := h.pc
  refine ⟨?_, fun q => by rw [h.pc q]; trivial, fun q r hq => ?_, ?_, fun q hq => ?_⟩
  · obtain ⟨hbegun, hfinished⟩ := h.counts
    rcases h.contents with hzero | hold
    · exact .untouched hbegun hfinished (by rw [hzero]; rfl) (Or.inl (by rw [hzero]; rfl))
    · exact .untouched hbegun hfinished hold.initLock (Or.inr hold.stale)
  · rw [h.pc q] at hq
    exact hq.elim
  · rcases h.contents with hzero | hold
    · rw [hzero]
      exact ⟨List.length_replicate, List.length_replicate⟩
    · exact ⟨hold.freeQ, hold.readyQ⟩
  · exact absurd (h.held q) hq

end Init

section Steps

variable [DecidableEq P]

theorem initFrom_inBody (i : ℕ) : InBody (initFrom numSlots i) := by
  unfold initFrom
  split <;> trivial

/-- The loop goes on with the slots before `i` queued. -/
theorem initFrom_built {hdr : ArenaHeader} {i : ℕ} (hi : i ≤ numSlots)
    (hheaded : Headed numSlots numHandlers hdr) (hfree : Holds QCAP hdr.freeQ (List.range i))
    (hready : Holds QCAP hdr.readyQ []) : Built numSlots numHandlers hdr (initFrom numSlots i) := by
  unfold initFrom
  split
  · exact ⟨by assumption, hheaded, hfree, hready⟩
  · have heq : i = numSlots := by omega
    exact ⟨hheaded, heq ▸ hfree, hready⟩

/-- Only an opener that finds the arena in need of it takes the lock. -/
theorem lock_invariant (h : Invariant numSlots numHandlers s) (hlock : s.hdr.initLock = 0)
    (hneed : NeedInit s.hdr) (hdr : ArenaHeader) (hlocked : hdr.initLock = 1)
    (hroom : hdr.freeQ.slots.length = QCAP ∧ hdr.readyQ.slots.length = QCAP) :
    Invariant numSlots numHandlers
      ({ s with hdr := hdr, begun := s.begun + 1 }.goto p .writeMagic) := by
  have huntouched : s.begun = 0 ∧ s.finished = 0 := by
    rcases h.phase with ⟨hbegun, hfinished, _⟩ | ⟨_, _, _, hheld, _⟩ | ⟨_, _, hdone, hheaded⟩
    · exact ⟨hbegun, hfinished⟩
    · omega
    · rcases hneed with h0 | hmagic | hversion
      · exact absurd h0 hdone
      · exact absurd hheaded.magic hmagic
      · exact absurd hheaded.version hversion
  have hbegun : s.begun + 1 = 1 := by omega
  have houtside : Settled s := fun q hq => by
    have hbody := (fits_body hq).mp (h.fits q)
    omega
  have hself : ({ s with hdr := hdr, begun := s.begun + 1 }.goto p .writeMagic).pc p =
      .writeMagic := Function.update_self _ _ _
  have hother : ∀ q, q ≠ p →
      ({ s with hdr := hdr, begun := s.begun + 1 }.goto p .writeMagic).pc q = s.pc q :=
    fun q hq => Function.update_of_ne hq _ _
  refine ⟨.building p hbegun huntouched.2 hlocked (by rw [hself]; trivial), fun q => ?_,
    fun q r hq hr => ?_, hroom, fun q hq => ?_⟩
  · by_cases hqp : q = p
    · rw [hqp, hself]
      exact ⟨hbegun, huntouched.2, trivial⟩
    · rw [hother q hqp]
      exact (h.fits q).carry (houtside q) hbegun id
  · have hto : ∀ x, InBody (({ s with hdr := hdr, begun := s.begun + 1 }.goto p
        .writeMagic).pc x) → x = p := fun x hx => by
      by_contra hxp
      exact houtside x (hother x hxp ▸ hx)
    rw [hto q hq, hto r hr]
  · have hopened := h.held q hq
    have hfits := h.fits q
    rw [hopened] at hfits
    exact absurd (hfits.symm.trans huntouched.2) (by decide)

/-- The step that publishes, or one by which its process lets the lock go. -/
theorem leave_invariant (h : Invariant numSlots numHandlers s) (hpc : s.pc p ≠ .opened)
    (hdr : ArenaHeader) (pc : Pc) (finished : ℕ) (hbegun : s.begun = 1) (hfinished : finished = 1)
    (hdone : hdr.initDone ≠ 0) (hheaded : Headed numSlots numHandlers hdr)
    (hroom : hdr.freeQ.slots.length = QCAP ∧ hdr.readyQ.slots.length = QCAP)
    (halone : ∀ q, q ≠ p → ¬ InBody (s.pc q)) (hlast : pc = .unlock ∨ pc = .checkMagic) :
    Invariant numSlots numHandlers ({ s with hdr := hdr, finished := finished }.goto p pc) := by
  have hself : ({ s with hdr := hdr, finished := finished }.goto p pc).pc p = pc :=
    Function.update_self _ _ _
  have hother : ∀ q, q ≠ p →
      ({ s with hdr := hdr, finished := finished }.goto p pc).pc q = s.pc q := fun q hq =>
    Function.update_of_ne hq _ _
  refine .of_published hbegun hfinished hdone hheaded hroom (fun q => ?_) fun q hq => ?_
  · by_cases hqp : q = p
    · rw [hqp, hself]
      rcases hlast with rfl | rfl <;> exact hfinished
    · rw [hother q hqp]
      exact (h.fits q).carry (halone q hqp) hbegun fun _ => hfinished
  · by_cases hqp : q = p
    · exact absurd (h.held p (hqp ▸ hq)) hpc
    · rw [hother q hqp]
      exact h.held q hq

omit [DecidableEq P] in
/-- A header that needs no initialisation is never seen before it has begun. -/
theorem begun_of_current (h : Invariant numSlots numHandlers s)
    (hdecided : s.begun = 0 → s.hdr.initDone ≠ 0 ∧ s.hdr.magic = ARENA_MAGIC)
    (hversion : s.hdr.version = ARENA_VERSION) : s.begun ≠ 0 := by
  intro h0
  obtain ⟨hdone, hmagic⟩ := hdecided h0
  rcases h.phase with ⟨_, _, _, hneed⟩ | ⟨_, h1, _⟩ | ⟨h1, _⟩
  · rcases hneed with hzero | hother | hother
    · exact hdone hzero
    · exact hother hmagic
    · exact hother hversion
  · omega
  · omega

/-- The decision, up to the lock. -/
theorem decision_invariant (hv : Valid numSlots numHandlers)
    (h : Invariant numSlots numHandlers s) (hfresh : Fresh s (.createOrOpen p))
    (hpc : s.pc p = pc) (hdeciding : pc = .validate ∨ pc = .readInitDone ∨ pc = .readMagic ∨
      pc = .readVersion ∨ pc = .lockInit) :
    Invariant numSlots numHandlers (openStep numSlots numHandlers p s) := by
  have hfits := h.fits p
  rw [hpc] at hfits
  rcases hdeciding with rfl | rfl | rfl | rfl | rfl
  · obtain ⟨⟨hpos, hcap⟩, hhandlers, hmax⟩ := hv
    simp only [openStep, hpc]
    rw [if_neg (by omega), if_neg (by omega), if_neg (by omega)]
    exact h.move (by simp [hpc, InBody]) (by simp [hpc]) id trivial
  · simp only [openStep, hpc]
    split
    · exact h.move (by simp [hpc, InBody]) (by simp [hpc]) id trivial
    · rename_i hdone
      exact h.move (by simp [hpc, InBody]) (by simp [hpc]) id fun _ => hdone
  · simp only [openStep, hpc]
    split
    · exact h.move (by simp [hpc, InBody]) (by simp [hpc]) id trivial
    · rename_i hmagic
      exact h.move (by simp [hpc, InBody]) (by simp [hpc]) id fun h0 =>
        ⟨hfits h0, not_not.mp hmagic⟩
  · simp only [Fresh, hpc] at hfresh
    simp only [openStep, hpc]
    split
    · exact h.move (by simp [hpc, InBody]) (by simp [hpc]) id trivial
    · rename_i hversion
      have hversion := not_not.mp hversion
      exact h.move (by simp [hpc, InBody]) (by simp [hpc]) id
        (h.finished_of_settled (hfresh hversion) (begun_of_current h hfits hversion))
  · simp only [Fresh, hpc] at hfresh
    simp only [openStep, hpc]
    split
    · rename_i hlock
      exact lock_invariant h hlock (hfresh hlock) _ rfl h.room
    · rename_i hlock
      refine h.move (by simp [hpc, InBody]) (by simp [hpc]) id ?_
      rcases h.phase with ⟨_, _, hzero, _⟩ | ⟨_, hbegun, _⟩ | ⟨hbegun, _⟩
      · exact absurd hzero hlock
      · exact hbegun
      · exact hbegun

/-- The body, from the first write to the publication. -/
theorem body_invariant (hv : Valid numSlots numHandlers) (h : Invariant numSlots numHandlers s)
    (hin : InBody (s.pc p)) :
    Invariant numSlots numHandlers (openStep numSlots numHandlers p s) := by
  have hfits := h.fits p
  cases hpc : s.pc p with
  | writeMagic =>
    simp only [openStep, hpc]
    exact h.build hin .writeVersion trivial _ _ rfl h.room rfl
  | writeVersion =>
    rw [hpc] at hfits
    simp only [openStep, hpc]
    exact h.build hin .writeNumSlots trivial _ _ rfl h.room ⟨hfits.2.2, rfl⟩
  | writeNumSlots =>
    rw [hpc] at hfits
    obtain ⟨hmagic, hversion⟩ := hfits.2.2
    simp only [openStep, hpc]
    exact h.build hin .writeNumHandlers trivial _ _ rfl h.room
      ⟨hmagic, hversion, rfl⟩
  | writeNumHandlers =>
    rw [hpc] at hfits
    obtain ⟨hmagic, hversion, hslots⟩ := hfits.2.2
    simp only [openStep, hpc]
    exact h.build hin .initFreeQ trivial _ _ rfl h.room
      ⟨hmagic, hversion, hslots, rfl⟩
  | initFreeQ =>
    rw [hpc] at hfits
    obtain ⟨hmagic, hversion, hslots, hhandlers⟩ := hfits.2.2
    simp only [openStep, hpc]
    exact h.build hin .initReadyQ trivial _ _ rfl h.room
      ⟨⟨hmagic, hversion, hslots, hhandlers⟩, init_holds h.room.1 (by decide)⟩
  | initReadyQ =>
    rw [hpc] at hfits
    obtain ⟨⟨hmagic, hversion, hslots, hhandlers⟩, hfree⟩ := hfits.2.2
    simp only [openStep, hpc]
    exact h.build hin _ (initFrom_inBody 0) _ _ rfl h.room
      (initFrom_built (Nat.zero_le _) ⟨hmagic, hversion, hslots, hhandlers⟩ hfree
        (init_holds h.room.2 (by decide)))
  | initSlot i =>
    rw [hpc] at hfits
    simp only [openStep, hpc]
    exact h.build hin (.pushSlot i) trivial s.hdr _ rfl h.room hfits.2.2
  | pushSlot i =>
    rw [hpc] at hfits
    obtain ⟨hi, ⟨hmagic, hversion, hslots, hhandlers⟩, hfree, hready⟩ := hfits.2.2
    have hcap := hv.slots.2
    obtain ⟨q, hpush, hholds⟩ := hfree.tryPush (x := i) (by rw [List.length_range]; omega)
    rw [← List.range_succ] at hholds
    simp only [openStep, hpc, hpush]
    exact h.build hin _ (initFrom_inBody _) _ _ rfl ⟨hholds.room, h.room.2⟩
      (initFrom_built hi ⟨hmagic, hversion, hslots, hhandlers⟩ hholds hready)
  | publishDone =>
    rw [hpc] at hfits
    obtain ⟨hbegun, hfinished, ⟨hmagic, hversion, hslots, hhandlers⟩, _⟩ := hfits
    simp only [openStep, hpc]
    exact leave_invariant h (by simp [hpc]) _ _ _ hbegun (by omega) (by simp)
      ⟨hmagic, hversion, hslots, hhandlers⟩ h.room
      (fun q hqp hq => hqp (h.alone q p hq hin)) (Or.inl rfl)
  | _ =>
    rw [hpc] at hin
    exact hin.elim

/-- After the publication every check finds the header it asks for. -/
theorem checks_invariant (h : Invariant numSlots numHandlers s) (hfinished : s.finished = 1)
    (hpc : s.pc p = pc) (hchecking : pc = .checkMagic ∨ pc = .checkVersion ∨
      pc = .checkNumSlots ∨ pc = .checkNumHandlers) :
    Invariant numSlots numHandlers (openStep numSlots numHandlers p s) := by
  have hheaded := (h.published hfinished).2.2
  rcases hchecking with rfl | rfl | rfl | rfl
  · simp only [openStep, hpc]
    rw [if_neg (not_not.mpr hheaded.magic)]
    exact h.move (by simp [hpc, InBody]) (by simp [hpc]) id hfinished
  · simp only [openStep, hpc]
    rw [if_neg (not_not.mpr hheaded.version)]
    exact h.move (by simp [hpc, InBody]) (by simp [hpc]) id hfinished
  · simp only [openStep, hpc]
    rw [if_neg (not_not.mpr hheaded.numSlots)]
    exact h.move (by simp [hpc, InBody]) (by simp [hpc]) id hfinished
  · simp only [openStep, hpc]
    rw [if_neg (not_not.mpr hheaded.numHandlers)]
    exact h.move (by simp [hpc, InBody]) (by simp [hpc]) id hfinished

/-- Each step of an opener that meets the condition keeps the invariant. -/
theorem openStep_invariant (hv : Valid numSlots numHandlers)
    (h : Invariant numSlots numHandlers s) (hfresh : Fresh s (.createOrOpen p)) :
    Invariant numSlots numHandlers (openStep numSlots numHandlers p s) := by
  have hfits := h.fits p
  cases hpc : s.pc p with
  | validate | readInitDone | readMagic | readVersion | lockInit =>
    exact decision_invariant hv h hfresh hpc (by simp)
  | writeMagic | writeVersion | writeNumSlots | writeNumHandlers | initFreeQ | initReadyQ
  | initSlot | pushSlot | publishDone => exact body_invariant hv h (by rw [hpc]; trivial)
  | unlock =>
    rw [hpc] at hfits
    obtain ⟨hbegun, hdone, hmagic, hversion, hslots, hhandlers⟩ := h.published hfits
    simp only [openStep, hpc]
    exact leave_invariant h (by simp [hpc]) _ _ _ hbegun hfits hdone
      ⟨hmagic, hversion, hslots, hhandlers⟩ h.room (fun q _ => h.settled hfits q) (Or.inr rfl)
  | waitDone =>
    rw [hpc] at hfits
    simp only [Fresh, hpc] at hfresh
    simp only [openStep, hpc]
    split
    · exact h
    · rename_i hdone
      have hbegun : s.begun ≠ 0 := fun h0 => absurd (h0.symm.trans hfits) (by decide)
      exact h.move (by simp [hpc, InBody]) (by simp [hpc]) id
        (h.finished_of_settled (hfresh hdone) hbegun)
  | checkMagic | checkVersion | checkNumSlots | checkNumHandlers =>
    rw [hpc] at hfits
    exact checks_invariant h hfits hpc (by simp)
  | opened =>
    simp only [openStep, hpc]
    exact h
  | failed | panicked =>
    rw [hpc] at hfits
    exact hfits.elim

omit [DecidableEq P] in
theorem Invariant.opened_of_held (h : Invariant numSlots numHandlers s) {i : ℕ}
    (hi : i ∈ s.held p) : s.pc p = .opened :=
  h.held p (List.ne_nil_of_mem hi)

/-- Each step that meets the condition keeps the invariant. -/
theorem act_invariant (hv : Valid numSlots numHandlers) (h : Invariant numSlots numHandlers s)
    {a : Action P} (hfresh : Fresh s a) (hact : act numSlots numHandlers s a = some t) :
    Invariant numSlots numHandlers t := by
  obtain ⟨hfree, hready⟩ := h.room
  cases a with
  | createOrOpen p =>
    cases hact
    exact openStep_invariant hv h hfresh
  | acquireSlot p =>
    simp only [act, Option.bind_eq_bind, Option.bind_eq_some_iff, Option.guard_eq_some'] at hact
    obtain ⟨_, hopened, ⟨i, q⟩, hpop, hact⟩ := hact
    cases hact
    exact h.use hopened q _ ((congrArg List.length (tryPop_room hpop)).trans hfree) hready _ _
  | storeState p i state =>
    simp only [act, Option.bind_eq_bind, Option.bind_eq_some_iff, Option.guard_eq_some'] at hact
    obtain ⟨_, hi, hact⟩ := hact
    cases hact
    have hused := h.use (h.opened_of_held hi) _ _ hfree hready
      (Function.update s.slotStates i state) (s.held p)
    rwa [State.hold, Function.update_eq_self] at hused
  | submitToHandler p i =>
    simp only [act, Option.bind_eq_bind, Option.bind_eq_some_iff, Option.guard_eq_some'] at hact
    obtain ⟨_, hi, q, hpush, hact⟩ := hact
    cases hact
    exact h.use (h.opened_of_held hi) _ q hfree ((tryPush_room hpush).trans hready) _ _
  | popReady p =>
    simp only [act, Option.bind_eq_bind, Option.bind_eq_some_iff, Option.guard_eq_some'] at hact
    obtain ⟨_, hopened, ⟨i, q⟩, hpop, hact⟩ := hact
    cases hact
    exact h.use hopened _ q hfree ((congrArg List.length (tryPop_room hpop)).trans hready) _ _
  | releaseSlot p i =>
    simp only [act, Option.bind_eq_bind, Option.bind_eq_some_iff, Option.guard_eq_some'] at hact
    obtain ⟨_, hi, q, hpush, hact⟩ := hact
    cases hact
    exact h.use (h.opened_of_held hi) q _ ((tryPush_room hpush).trans hfree) hready _ _

/-- In a run whose steps meet the condition the arena is initialised once, and
before anyone uses it. -/
theorem fresh_once (hv : Valid numSlots numHandlers)
    (hr : Reachable Fresh numSlots numHandlers s) : Once s := by
  suffices hinv : Invariant numSlots numHandlers s from hinv.once
  induction hr with
  | unopened hs => exact unopened_invariant hs
  | step a _ hfresh hact ih => exact act_invariant hv ih hfresh hact

end Steps

section Runs

def before (hdr : ArenaHeader) : State Bool := ⟨hdr, fun _ => 0, fun _ => .validate, fun _ => [], 0, 0⟩

def oldHeader : ArenaHeader := { zeroHeader with
  magic := ARENA_MAGIC, version := 1, numSlots := 1, numHandlers := 1, initDone := 1 }

def steps (p : Bool) (count : ℕ) : List (Action Bool) := List.replicate count (.createOrOpen p)

theorem before_zero : Unopened (before zeroHeader) :=
  ⟨Or.inl rfl, fun _ => rfl, fun _ => rfl, rfl, rfl⟩

theorem before_old : Unopened (before oldHeader) :=
  ⟨Or.inr ⟨rfl, rfl, Or.inr (by decide), List.length_replicate, List.length_replicate⟩,
    fun _ => rfl, fun _ => rfl, rfl, rfl⟩

/-- Two openers both find a new file. One initialises, opens and takes the slot;
the other starts over and frees the slot a second time. In an old arena an opener
even comes through while another is still writing the header. -/
theorem late_initialiser :
    (∃ s : State Bool, Reachable (fun _ _ => True) 1 1 s ∧ s.pc true = .opened ∧
      s.held true = [0] ∧ s.pc false = .pushSlot 0) ∧
    (∃ s : State Bool, Reachable (fun _ _ => True) 1 1 s ∧ s.pc true = .opened ∧
      s.finished = 0) ∧
    ¬ ∀ s : State Bool, Reachable (fun _ _ => True) 1 1 s → Once s := by
  have hlate : ∃ s : State Bool, follow (fun _ _ => True) 1 1 (steps false 2 ++ steps true 17 ++
      [.acquireSlot true] ++ steps false 8) (before zeroHeader) = some s ∧ s.pc true = .opened ∧
      s.held true = [0] ∧ s.pc false = .pushSlot 0 := ⟨_, rfl, rfl, rfl, rfl⟩
  have hearly : ∃ s : State Bool, follow (fun _ _ => True) 1 1 (steps false 7 ++ steps true 8)
      (before oldHeader) = some s ∧ s.pc true = .opened ∧ s.finished = 0 := ⟨_, rfl, rfl, rfl⟩
  obtain ⟨s, hs, hopened, hheld, hpush⟩ := hlate
  obtain ⟨t, ht, hopened', hfinished⟩ := hearly
  have hrs : Reachable (fun _ _ => True) 1 1 s := reachable_follow (.unopened before_zero) hs
  have hrt : Reachable (fun _ _ => True) 1 1 t := reachable_follow (.unopened before_old) ht
  refine ⟨⟨s, hrs, hopened, hheld, hpush⟩, ⟨t, hrt, hopened', hfinished⟩, fun honce => ?_⟩
  exact (honce s hrs).held true false 0 (by simp [hheld]) hpush

/-- One process brings an old arena up to date and takes the slot, then the other opens it. -/
theorem fresh_once_old : ∃ s : State Bool, s.pc true = .opened ∧ s.held true = [0] ∧
    s.pc false = .opened ∧ Once s := by
  have hrun : ∃ s : State Bool, follow Fresh 1 1 (steps true 19 ++ [.acquireSlot true] ++
      steps false 8) (before oldHeader) = some s ∧ s.pc true = .opened ∧ s.held true = [0] ∧
      s.pc false = .opened := ⟨_, rfl, rfl, rfl, rfl⟩
  obtain ⟨s, hs, hopened, hheld, hother⟩ := hrun
  exact ⟨s, hopened, hheld, hother, fresh_once ⟨by decide, by decide⟩
    (reachable_follow (.unopened before_old) hs)⟩

end Runs

end Mcts.OpeningOnce
