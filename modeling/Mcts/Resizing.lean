import Mcts.OpeningOnce

/-!
`create_or_open` on the file itself. The file gets the requested length before
anything in it is looked at, so a call that is refused for its number of slots
has already cut or stretched an arena that others may be using.
-/
namespace Mcts.Resizing

open Queues RingQueue Opening OpeningOnce

/-- The mapped file: header and the bytes of the slots. A file too short for a
header reads as zeros there. -/
structure ArenaFile where
  hdr : ArenaHeader
  body : List UInt8

/-- `set_len`: what is beyond the length is lost, and what is new is zero. -/
def setLen (length : ℕ) (body : List UInt8) : List UInt8 :=
  body.take length ++ List.replicate (length - body.length) 0

theorem setLen_length (length : ℕ) (body : List UInt8) : (setLen length body).length = length := by
  unfold setLen
  rw [List.length_append, List.length_take, List.length_replicate]
  omega

theorem setLen_self (body : List UInt8) : setLen body.length body = body := by
  simp [setLen]

variable (initFree : List UInt8 → List UInt8) (slotSize numSlots numHandlers : ℕ)

def initSlot (i : ℕ) (body : List UInt8) : List UInt8 :=
  body.take (i * slotSize) ++ initFree ((body.drop (i * slotSize)).take slotSize) ++
    body.drop (i * slotSize + slotSize)

/-- One turn of the loop over the slots; a full queue is a failed `unwrap`. -/
def initOne (file : ArenaFile) (i : ℕ) : Option ArenaFile :=
  (tryPush QCAP i file.hdr.freeQ).map fun q =>
    { hdr := { file.hdr with freeQ := q }, body := initSlot initFree slotSize i file.body }

/-- The header as the initialiser sets it, with the lock taken. -/
def setHeader (hdr : ArenaHeader) : ArenaHeader :=
  { hdr with
    magic := ARENA_MAGIC
    version := ARENA_VERSION
    numSlots := numSlots
    numHandlers := numHandlers
    freeQ := hdr.freeQ.init
    readyQ := hdr.readyQ.init
    initLock := 1 }

def initArena (file : ArenaFile) : Option ArenaFile := do
  let file ← (List.range numSlots).foldlM (initOne initFree slotSize)
    { file with hdr := setHeader numSlots numHandlers file.hdr }
  return { file with hdr := { file.hdr with initDone := 1, initLock := 0 } }

def check (hdr : ArenaHeader) : Except OpenError Unit :=
  if hdr.magic ≠ ARENA_MAGIC then .error .magicMismatch
  else if hdr.version ≠ ARENA_VERSION then .error (.versionMismatch hdr.version)
  else if hdr.numSlots ≠ numSlots then .error (.numSlotsMismatch hdr.numSlots numSlots)
  else if hdr.numHandlers ≠ numHandlers then
    .error (.numHandlersMismatch hdr.numHandlers numHandlers)
  else .ok ()

/-- A call with the file to itself: its verdict and the file it leaves. It does not
return where the lock is held and nothing was published, or where it panics. -/
def createOrOpen (file : ArenaFile) : Option (Except OpenError Unit × ArenaFile) :=
  if numSlots = 0 then some (.error .numSlotsZero, file)
  else if QCAP ≤ numSlots then some (.error (.numSlotsTooLarge numSlots), file)
  else if numHandlers = 0 ∨ MAX_HANDLERS < numHandlers then some (.error .numHandlersRange, file)
  else
    let file := { file with body := setLen (numSlots * slotSize) file.body }
    let ready :=
      if NeedInit file.hdr then
        if file.hdr.initLock = 0 then initArena initFree slotSize numSlots numHandlers file
        else if file.hdr.initDone = 0 then none
        else some file
      else some file
    ready.map fun file => (check numSlots numHandlers file.hdr, file)

structure Initialised (file : ArenaFile) : Prop where
  initDone : file.hdr.initDone = 1
  headed : Headed numSlots numHandlers file.hdr
  length : file.body.length = numSlots * slotSize

section Initialising

variable {initFree slotSize numSlots numHandlers}

theorem initSlot_length (hinit : ∀ slot : List UInt8, (initFree slot).length = slot.length) {i : ℕ}
    {body : List UInt8} (hfit : i * slotSize + slotSize ≤ body.length) :
    (initSlot initFree slotSize i body).length = body.length := by
  unfold initSlot
  rw [List.length_append, List.length_append, hinit, List.length_take, List.length_take,
    List.length_drop, List.length_drop]
  omega

/-- The slots are set free and queued one by one, and the queue has room for all. -/
theorem initOne_range (hinit : ∀ slot : List UInt8, (initFree slot).length = slot.length)
    (hslots : numSlots < QCAP) (file : ArenaFile) (hlength : file.body.length = numSlots * slotSize)
    (hqueue : Holds QCAP file.hdr.freeQ []) (k : ℕ) (hk : k ≤ numSlots) :
    ∃ file', (List.range k).foldlM (initOne initFree slotSize) file = some file' ∧
      file'.hdr = { file.hdr with freeQ := file'.hdr.freeQ } ∧
      Holds QCAP file'.hdr.freeQ (List.range k) ∧ file'.body.length = numSlots * slotSize := by
  induction k with
  | zero => exact ⟨file, rfl, rfl, hqueue, hlength⟩
  | succ k ih =>
    obtain ⟨file', hfold, hhdr, hholds, hlength'⟩ := ih (by omega)
    obtain ⟨q, hpush, hholds'⟩ := hholds.tryPush (x := k) (by rw [List.length_range]; omega)
    have hfit : k * slotSize + slotSize ≤ file'.body.length := by
      rw [hlength', ← Nat.succ_mul]
      exact Nat.mul_le_mul_right slotSize hk
    refine ⟨⟨{ file'.hdr with freeQ := q }, initSlot initFree slotSize k file'.body⟩, ?_, ?_, ?_, ?_⟩
    · rw [List.range_succ, List.foldlM_append, hfold]
      simp [initOne, hpush]
    · rw [hhdr]
    · rw [List.range_succ]
      exact hholds'
    · rw [initSlot_length hinit hfit]
      exact hlength'

/-- A first call on a new file leaves an initialised arena. -/
theorem createOrOpen_new (hinit : ∀ slot : List UInt8, (initFree slot).length = slot.length)
    (hvalid : Valid numSlots numHandlers) :
    ∃ file, createOrOpen initFree slotSize numSlots numHandlers ⟨zeroHeader, []⟩ =
        some (.ok (), file) ∧ Initialised slotSize numSlots numHandlers file := by
  obtain ⟨⟨hpos, hslots⟩, hhandlers, hmax⟩ := hvalid
  have hneed : NeedInit zeroHeader := Or.inl rfl
  have hlock : zeroHeader.initLock = 0 := rfl
  have hqueue : Holds QCAP zeroHeader.freeQ.init [] :=
    init_holds List.length_replicate (by decide)
  obtain ⟨file, hfold, hhdr, _, hlength⟩ := initOne_range hinit hslots
    ⟨setHeader numSlots numHandlers zeroHeader, setLen (numSlots * slotSize) []⟩
    (setLen_length _ _) hqueue numSlots le_rfl
  have hheaded : Headed numSlots numHandlers file.hdr := by
    rw [hhdr]
    exact ⟨rfl, rfl, rfl, rfl⟩
  have hcheck : check numSlots numHandlers file.hdr = .ok () := by
    simp [check, hheaded.magic, hheaded.version, hheaded.numSlots, hheaded.numHandlers]
  refine ⟨{ file with hdr := { file.hdr with initDone := 1, initLock := 0 } }, ?_, rfl, ?_, hlength⟩
  · unfold createOrOpen
    rw [if_neg (by omega), if_neg (by omega), if_neg (by omega)]
    dsimp only
    rw [if_pos hneed, if_pos hlock]
    unfold initArena
    rw [hfold]
    exact congrArg (fun verdict => some (verdict, _)) hcheck
  · exact ⟨hheaded.magic, hheaded.version, hheaded.numSlots, hheaded.numHandlers⟩

end Initialising

section Refused

variable {initFree : List UInt8 → List UInt8} {slotSize n m numSlots numHandlers : ℕ}
variable {file : ArenaFile}

/-- On an initialised arena a call with valid arguments sets the length and checks. -/
theorem createOrOpen_initialised (hfile : Initialised slotSize n m file)
    (hvalid : Valid numSlots numHandlers) :
    createOrOpen initFree slotSize numSlots numHandlers file =
      some (check numSlots numHandlers file.hdr,
        { file with body := setLen (numSlots * slotSize) file.body }) := by
  obtain ⟨⟨hpos, hslots⟩, hhandlers, hmax⟩ := hvalid
  have hready : ¬ NeedInit file.hdr := by
    rintro (hzero | hmagic | hversion)
    · rw [hfile.initDone] at hzero
      cases hzero
    · exact hmagic hfile.headed.magic
    · exact hversion hfile.headed.version
  unfold createOrOpen
  rw [if_neg (by omega), if_neg (by omega), if_neg (by omega)]
  dsimp only
  rw [if_neg hready]
  rfl

/-- Other arguments than the arena's are refused. -/
theorem check_initialised (hfile : Initialised slotSize n m file)
    (hother : (numSlots, numHandlers) ≠ (n, m)) :
    ∃ error, check numSlots numHandlers file.hdr = .error error := by
  unfold check
  rw [if_neg (not_not.mpr hfile.headed.magic), if_neg (not_not.mpr hfile.headed.version),
    hfile.headed.numSlots, hfile.headed.numHandlers]
  by_cases hslots : n = numSlots
  · have hhandlers : m ≠ numHandlers := by
      rintro rfl
      exact hother (by rw [hslots])
    exact ⟨_, by rw [if_neg (not_not.mpr hslots), if_pos hhandlers]⟩
  · exact ⟨_, if_pos hslots⟩

/-- A refused call leaves the file as it was exactly when it asked for as many
slots as there are, or slots take no room. Header and queues stay in any case. -/
theorem refused_open_iff (initFree : List UInt8 → List UInt8) (slotSize n m : ℕ)
    (file : ArenaFile) (hfile : Initialised slotSize n m file) (hvalid : Valid numSlots numHandlers)
    (hother : (numSlots, numHandlers) ≠ (n, m)) :
    ∃ error after, createOrOpen initFree slotSize numSlots numHandlers file =
        some (.error error, after) ∧
      after.hdr = file.hdr ∧ (after = file ↔ numSlots = n ∨ slotSize = 0) := by
  obtain ⟨error, hcheck⟩ := check_initialised hfile hother
  refine ⟨error, { file with body := setLen (numSlots * slotSize) file.body }, ?_, rfl, ?_⟩
  · rw [createOrOpen_initialised hfile hvalid, hcheck]
  · constructor
    · intro hsame
      have hlength := congrArg (fun f => f.body.length) hsame
      dsimp only at hlength
      rw [setLen_length, hfile.length] at hlength
      rcases Nat.eq_zero_or_pos slotSize with hzero | hpos
      · exact Or.inr hzero
      · exact Or.inl (Nat.eq_of_mul_eq_mul_right hpos hlength)
    · intro hcond
      have hlength : numSlots * slotSize = file.body.length := by
        rw [hfile.length]
        rcases hcond with rfl | rfl
        · rfl
        · rw [Nat.mul_zero, Nat.mul_zero]
      rw [hlength, setLen_self]

/-- The verdict is the one a lone process comes to step by step. -/
theorem openStep_check {P : Type} [DecidableEq P] (p : P) (s : State P)
    (hready : ¬ NeedInit s.hdr) (hvalid : Valid numSlots numHandlers) (hpc : s.pc p = .validate) :
    ∃ k, ((openStep numSlots numHandlers p)^[k] s).hdr = s.hdr ∧
      ((openStep numSlots numHandlers p)^[k] s).pc p =
        match check numSlots numHandlers s.hdr with
        | .ok () => .opened
        | .error error => .failed error := by
  obtain ⟨⟨hpos, hslots⟩, hhandlers, hmax⟩ := hvalid
  have hdone : s.hdr.initDone ≠ 0 := fun h => hready (Or.inl h)
  have hmagic : s.hdr.magic = ARENA_MAGIC := by
    by_contra h
    exact hready (Or.inr (Or.inl h))
  have hversion : s.hdr.version = ARENA_VERSION := by
    by_contra h
    exact hready (Or.inr (Or.inr h))
  refine ⟨8, ?_⟩
  by_cases hsame : s.hdr.numSlots = numSlots
  · by_cases hsame' : s.hdr.numHandlers = numHandlers
    · simp [openStep, State.goto, check, hpc, hdone, hmagic, hversion, hsame, hsame',
        hpos.ne', hslots.not_ge, hhandlers.ne', hmax.not_gt]
    · simp [openStep, State.goto, check, hpc, hdone, hmagic, hversion, hsame, hsame',
        hpos.ne', hslots.not_ge, hhandlers.ne', hmax.not_gt]
  · simp [openStep, State.goto, check, hpc, hdone, hmagic, hversion, hsame,
      hpos.ne', hslots.not_ge, hhandlers.ne', hmax.not_gt]

def inUse : ArenaFile where
  hdr := { zeroHeader with
    magic := ARENA_MAGIC
    version := ARENA_VERSION
    numSlots := 2
    numHandlers := 1
    initDone := 1 }
  body := [7, 9]

theorem inUse_initialised : Initialised 1 2 1 inUse := ⟨rfl, ⟨rfl, rfl, rfl, rfl⟩, rfl⟩

/-- Asking for one slot is refused, and the second slot is gone. -/
theorem refused_open_shrinks :
    Initialised 1 2 1 inUse ∧ createOrOpen id 1 1 1 inUse =
      some (.error (.numSlotsMismatch 2 1), { inUse with body := [7] }) := by
  refine ⟨inUse_initialised, ?_⟩
  rw [createOrOpen_initialised inUse_initialised ⟨by decide, by decide⟩]
  rfl

/-- The rule for that call. -/
theorem refused_open_iff_inUse :
    ∃ error after, createOrOpen id 1 1 1 inUse = some (.error error, after) ∧
      after.hdr = inUse.hdr ∧ (after = inUse ↔ 1 = 2 ∨ 1 = 0) := by
  apply refused_open_iff id 1 2 1 inUse inUse_initialised
  · exact ⟨by decide, by decide⟩
  · decide

end Refused

end Mcts.Resizing
