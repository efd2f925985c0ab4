import Mcts.Queues

/-!
Runs of queue operations. The abstract queue is a list with a bound on its
length; the ring answers every sequence of operations as that list does, however
often its indices have gone round the array. Runs and their simulation are
stated for any state and element type.
-/
namespace Mcts.QueueRuns

open Queues RingQueue

/-- One operation of a producer or a consumer, atomic under the lock. -/
inductive Op (α : Type)
  | push (x : α)
  | pop

inductive Reply (α : Type)
  | pushed (ok : Bool)
  | popped (x : Option α)
deriving DecidableEq

variable {α σ τ : Type}

def runOps (step : Op α → σ → Reply α × σ) : List (Op α) → σ → List (Reply α) × σ
  | [], s => ([], s)
  | op :: rest, s =>
    let next := step op s
    let later := runOps step rest next.2
    (next.1 :: later.1, later.2)

/-- A first-in first-out list that holds at most `bound` elements. -/
def fifoStep (bound : ℕ) : Op α → List α → Reply α × List α
  | .push x, xs => if xs.length = bound then (.pushed false, xs) else (.pushed true, xs ++ [x])
  | .pop, [] => (.popped none, [])
  | .pop, x :: rest => (.popped (some x), rest)

/-- States related step by step answer every run alike. -/
theorem runOps_simulates {step : Op α → σ → Reply α × σ} {step' : Op α → τ → Reply α × τ}
    {R : σ → τ → Prop} (hstep : ∀ op s t, R s t →
      (step op s).1 = (step' op t).1 ∧ R (step op s).2 (step' op t).2)
    (ops : List (Op α)) (s : σ) (t : τ) (h : R s t) :
    (runOps step ops s).1 = (runOps step' ops t).1 ∧
      R (runOps step ops s).2 (runOps step' ops t).2 := by
  induction ops generalizing s t with
  | nil => exact ⟨rfl, h⟩
  | cons op rest ih =>
    obtain ⟨hreply, hnext⟩ := hstep op s t h
    obtain ⟨hreplies, hlast⟩ := ih _ _ hnext
    refine ⟨?_, hlast⟩
    show _ :: _ = _ :: _
    rw [hreply, hreplies]

def ringStep (cap : ℕ) : Op ℕ → RingQueue → Reply ℕ × RingQueue
  | .push x, q =>
    match tryPush cap x q with
    | some q' => (.pushed true, q')
    | none => (.pushed false, q)
  | .pop, q =>
    match tryPop cap q with
    | some (x, q') => (.popped (some x), q')
    | none => (.popped none, q)

variable {cap : ℕ} {q : RingQueue} {xs : List ℕ}

/-- Each operation does to the ring what it does to the list held in it. -/
theorem ringStep_holds (op : Op ℕ) (q : RingQueue) (xs : List ℕ) (h : Holds cap q xs) :
    (ringStep cap op q).1 = (fifoStep (cap - 1) op xs).1 ∧
      Holds cap (ringStep cap op q).2 (fifoStep (cap - 1) op xs).2 := by
  cases op with
  | push x =>
    by_cases hfull : xs.length = cap - 1
    · have hrefused : tryPush cap x q = none := h.tryPush_none_iff.mpr hfull
      simp only [ringStep, hrefused, fifoStep, if_pos hfull]
      exact ⟨trivial, h⟩
    · have hshort := h.short
      obtain ⟨q', hpush, hq'⟩ := h.tryPush (x := x) (by omega)
      simp only [ringStep, hpush, fifoStep, if_neg hfull]
      exact ⟨trivial, hq'⟩
  | pop =>
    cases xs with
    | nil =>
      simp only [ringStep, h.tryPop_nil, fifoStep]
      exact ⟨trivial, h⟩
    | cons x rest =>
      obtain ⟨q', hpop, hq'⟩ := h.tryPop_cons
      simp only [ringStep, hpop, fifoStep]
      exact ⟨trivial, hq'⟩

theorem holds_tail_lt (h : Holds cap q xs) : q.tail < cap := by
  have hshort := h.short
  rw [h.tail_eq]
  exact Nat.mod_lt _ (by omega)

/-- From an initialised queue on, any interleaving of operations is answered as
by a list of at most `cap - 1` elements, which the ring holds at every moment;
both indices stay below the capacity, so a u32 that fits it never overflows. -/
theorem ringQueue_refines (hcap : 2 ≤ cap) (hroom : q.slots.length = cap) :
    contents cap q.init = [] ∧ ∀ ops : List (Op ℕ),
      (runOps (ringStep cap) ops q.init).1 = (runOps (fifoStep (cap - 1)) ops []).1 ∧
      contents cap (runOps (ringStep cap) ops q.init).2 =
        (runOps (fifoStep (cap - 1)) ops []).2 ∧
      (runOps (ringStep cap) ops q.init).2.head < cap ∧
      (runOps (ringStep cap) ops q.init).2.tail < cap ∧
      (cap < 2 ^ 32 → (runOps (ringStep cap) ops q.init).2.head + 1 < 2 ^ 32 ∧
        (runOps (ringStep cap) ops q.init).2.tail + 1 < 2 ^ 32) := by
  have hinit : Holds cap q.init [] := init_holds hroom (by omega)
  refine ⟨hinit.contents_eq, fun ops => ?_⟩
  obtain ⟨hreplies, hheld⟩ := runOps_simulates ringStep_holds ops q.init [] hinit
  have hhead := hheld.head_lt
  have htail := holds_tail_lt hheld
  exact ⟨hreplies, hheld.contents_eq, hhead, htail, fun hfits => ⟨by omega, by omega⟩⟩

theorem ringQueue_refines_wrapped :
    (runOps (ringStep 3)
      [.push 5, .push 6, .push 7, .pop, .push 8, .pop, .push 9, .pop, .pop, .pop]
      (RingQueue.init ⟨7, 9, [1, 2, 3]⟩)).1 =
      [.pushed true, .pushed true, .pushed false, .popped (some 5), .pushed true,
        .popped (some 6), .pushed true, .popped (some 8), .popped (some 9), .popped none] := by
  have hroom : (RingQueue.mk 7 9 [1, 2, 3]).slots.length = 3 := rfl
  rw [((ringQueue_refines (by omega) hroom).2 _).1]
  decide

end Mcts.QueueRuns
