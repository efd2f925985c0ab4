import Mcts.Dense
import Mathlib.Data.List.GetD

/-!
The ring queue of slot indices in shared memory. Head and tail chase each other
around an array of `cap` entries, one of which stays unused. `Holds` ties the
ring to the list queued in it; each operation, atomic under the queue's lock,
is described by what it does to that list.
-/
namespace Mcts.Queues

def QCAP : ℕ := 4096

/-- Head and tail are u32 indices into the array; the lock is not modelled. -/
structure RingQueue where
  head : ℕ
  tail : ℕ
  slots : List ℕ
deriving DecidableEq

namespace RingQueue

def init (q : RingQueue) : RingQueue := { q with head := 0, tail := 0 }

/-- `none` is `Err(())`: the queue is full and left as it is. -/
def tryPush (cap x : ℕ) (q : RingQueue) : Option RingQueue :=
  let next := (q.tail + 1) % cap
  if next = q.head then none
  else some { q with slots := q.slots.set q.tail x, tail := next }

def tryPop (cap : ℕ) (q : RingQueue) : Option (ℕ × RingQueue) :=
  if q.head = q.tail then none
  else some (q.slots.getD q.head 0, { q with head := (q.head + 1) % cap })

def contents (cap : ℕ) (q : RingQueue) : List ℕ :=
  (List.range ((q.tail + cap - q.head) % cap)).map fun k => q.slots.getD ((q.head + k) % cap) 0

structure Holds (cap : ℕ) (q : RingQueue) (xs : List ℕ) : Prop where
  room : q.slots.length = cap
  short : xs.length < cap
  head_lt : q.head < cap
  tail_eq : q.tail = (q.head + xs.length) % cap
  entry : ∀ k, k < xs.length → q.slots.getD ((q.head + k) % cap) 0 = xs.getD k 0

/-- An index that has gone round at most once. -/
theorem wrap {i cap : ℕ} (h : i < 2 * cap) : i % cap = if i < cap then i else i - cap := by
  split
  · exact Nat.mod_eq_of_lt (by assumption)
  · rw [Nat.mod_eq_sub_mod (by omega), Nat.mod_eq_of_lt (by omega)]

variable {cap x : ℕ} {q : RingQueue} {xs rest : List ℕ}

theorem tryPush_room {q' : RingQueue} (h : tryPush cap x q = some q') :
    q'.slots.length = q.slots.length := by
  simp only [tryPush] at h
  split at h <;> cases h
  exact List.length_set

theorem tryPop_room {q' : RingQueue} (h : tryPop cap q = some (x, q')) : q'.slots = q.slots := by
  rw [tryPop] at h
  split at h <;> cases h
  rfl

theorem init_holds (hroom : q.slots.length = cap) (hpos : 0 < cap) : Holds cap q.init [] where
  room := hroom
  short := hpos
  head_lt := hpos
  tail_eq := (Nat.zero_mod cap).symm
  entry k hk := absurd hk (Nat.not_lt_zero k)

/-- Two places of the ring are one only if they are the same number of steps from the head. -/
theorem Holds.place_ne (h : Holds cap q xs) {j k : ℕ} (hj : j < cap) (hk : k < cap) (hjk : j ≠ k) :
    (q.head + j) % cap ≠ (q.head + k) % cap := by
  have hhead := h.head_lt
  rw [wrap (by omega), wrap (by omega)]
  split <;> split <;> omega

theorem Holds.next_eq (h : Holds cap q xs) : (q.tail + 1) % cap = (q.head + (xs.length + 1)) % cap := by
  rw [h.tail_eq, Nat.mod_add_mod, Nat.add_assoc]

/-- The ring is full at one entry less than its array has. -/
theorem Holds.next_head_iff (h : Holds cap q xs) :
    (q.tail + 1) % cap = q.head ↔ xs.length = cap - 1 := by
  have hhead := h.head_lt
  have hshort := h.short
  rw [h.next_eq, wrap (by omega)]
  split <;> omega

theorem Holds.tryPush_none_iff (h : Holds cap q xs) :
    tryPush cap x q = none ↔ xs.length = cap - 1 := by
  rw [← h.next_head_iff]
  simp [tryPush]

theorem Holds.tryPush (h : Holds cap q xs) (hroom : xs.length < cap - 1) :
    ∃ q', tryPush cap x q = some q' ∧ Holds cap q' (xs ++ [x]) := by
  have hnext : (q.tail + 1) % cap ≠ q.head := fun heq => by
    have hfull := h.next_head_iff.mp heq
    omega
  refine ⟨_, if_neg hnext, ?_, ?_, h.head_lt, ?_, fun k hk => ?_⟩
  · simpa using h.room
  · simp only [List.length_append, List.length_singleton]
    omega
  · simpa using h.next_eq
  · simp only [List.length_append, List.length_singleton] at hk
    rw [Dense.getD_set]
    by_cases hlast : k = xs.length
    · have hlt : (q.head + k) % cap < q.slots.length := by
        rw [h.room]
        exact Nat.mod_lt _ (by omega)
      rw [if_pos ⟨by rw [hlast, h.tail_eq], hlt⟩, hlast]
      simp
    · have hplace := h.place_ne (j := xs.length) (k := k) h.short (by omega) (Ne.symm hlast)
      rw [if_neg fun hboth => hplace (h.tail_eq ▸ hboth.1), h.entry k (by omega)]
      simp only [List.getD_eq_getElem?_getD]
      rw [List.getElem?_append_left (by omega)]

theorem Holds.tryPop_nil (h : Holds cap q []) : tryPop cap q = none := by
  have htail : q.tail = q.head := by
    rw [h.tail_eq]
    exact Nat.mod_eq_of_lt h.head_lt
  simp [tryPop, htail]

theorem Holds.tryPop_cons (h : Holds cap q (x :: rest)) :
    ∃ q', tryPop cap q = some (x, q') ∧ Holds cap q' rest := by
  have hhead := h.head_lt
  have hshort := h.short
  rw [List.length_cons] at hshort
  have htail : q.head ≠ q.tail := by
    rw [h.tail_eq, List.length_cons, wrap (by omega)]
    split <;> omega
  have hfirst : q.slots.getD q.head 0 = x := by
    have hentry := h.entry 0 (by simp)
    rwa [Nat.add_zero, Nat.mod_eq_of_lt h.head_lt, List.getD_cons_zero] at hentry
  refine ⟨{ q with head := (q.head + 1) % cap }, ?_, h.room, by omega, Nat.mod_lt _ (by omega), ?_,
    fun k hk => ?_⟩
  · rw [RingQueue.tryPop, if_neg htail, hfirst]
  · simp only [h.tail_eq, List.length_cons, Nat.mod_add_mod]
    rw [Nat.add_assoc, Nat.add_comm 1]
  · have hentry := h.entry (k + 1) (by simpa using hk)
    rw [List.getD_cons_succ] at hentry
    simp only [Nat.mod_add_mod]
    rwa [Nat.add_assoc, Nat.add_comm 1]

/-- The list held is what stands between head and tail. -/
theorem Holds.contents_eq (h : Holds cap q xs) : contents cap q = xs := by
  have hhead := h.head_lt
  have hshort := h.short
  have hsize : (q.tail + cap - q.head) % cap = xs.length := by
    have htail := h.tail_eq
    rw [wrap (by omega)] at htail
    split at htail
    · rw [wrap (by omega)]
      split <;> omega
    · rw [wrap (by omega)]
      split <;> omega
  rw [contents, hsize]
  apply List.ext_getElem
  · simp
  · intro k _ hk
    have hentry := h.entry k hk
    rw [List.getD_eq_getElem _ _ hk] at hentry
    simpa using hentry

end RingQueue

end Mcts.Queues
