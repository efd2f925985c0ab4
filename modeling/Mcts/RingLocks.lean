import Mcts.LockedObjects
import Mcts.QueueRuns

/-!
The ring queue under its spin lock. `try_push` and `try_pop` are taken apart into
the loads and stores they make while they hold the lock; with any number of
processes, in any interleaving, the queue is the bounded first-in first-out list,
and one process that stops with the lock in its hands stops them all.
-/
namespace Mcts.RingLocks

open Queues RingQueue QueueRuns LockedObjects

inductive Regs
  | pushTail (x : ℕ)
  | pushHead (x tail : ℕ)
  | pushSlot (x tail next : ℕ)
  | pushStore (next : ℕ)
  | popHead
  | popTail (head : ℕ)
  | popSlot (head : ℕ)
  | popStore (x next : ℕ)

def access (cap : ℕ) : Regs → RingQueue → (Regs ⊕ Reply ℕ) × RingQueue
  | .pushTail x, q => (.inl (.pushHead x q.tail), q)
  | .pushHead x tail, q =>
    let next := (tail + 1) % cap
    if next = q.head then (.inr (.pushed false), q) else (.inl (.pushSlot x tail next), q)
  | .pushSlot x tail next, q => (.inl (.pushStore next), { q with slots := q.slots.set tail x })
  | .pushStore next, q => (.inr (.pushed true), { q with tail := next })
  | .popHead, q => (.inl (.popTail q.head), q)
  | .popTail head, q =>
    if head = q.tail then (.inr (.popped none), q) else (.inl (.popSlot head), q)
  | .popSlot head, q => (.inl (.popStore (q.slots.getD head 0) ((head + 1) % cap)), q)
  | .popStore x next, q => (.inr (.popped (some x)), { q with head := next })

def criticalSection (cap : ℕ) : Code (Op ℕ) Regs RingQueue (Reply ℕ) where
  start
    | .push x => .pushTail x
    | .pop => .popHead
  access := access cap

abbrev Shared (P : Type) := LockedObjects.State P (Op ℕ) Regs RingQueue (Reply ℕ)

variable {cap : ℕ}

/-- A section left alone is one operation of the ring. -/
theorem runs_ringStep (cap : ℕ) (op : Op ℕ) (q : RingQueue) : ∃ n, n ≤ 4 ∧
    Runs (criticalSection cap) ((criticalSection cap).start op) q n
      (ringStep cap op q).1 (ringStep cap op q).2 := by
  cases op with
  | push x =>
    by_cases hfull : (q.tail + 1) % cap = q.head
    · have hpush : tryPush cap x q = none := if_pos hfull
      simp only [ringStep, hpush]
      refine ⟨2, by omega, .more rfl (.last ?_)⟩
      exact if_pos hfull
    · have hpush : tryPush cap x q =
          some { q with slots := q.slots.set q.tail x, tail := (q.tail + 1) % cap } := if_neg hfull
      simp only [ringStep, hpush]
      exact ⟨4, by omega, .more rfl (.more (if_neg hfull) (.more rfl (.last rfl)))⟩
  | pop =>
    by_cases hempty : q.head = q.tail
    · have hpop : tryPop cap q = none := if_pos hempty
      simp only [ringStep, hpop]
      refine ⟨2, by omega, .more rfl (.last ?_)⟩
      exact if_pos hempty
    · have hpop : tryPop cap q =
          some (q.slots.getD q.head 0, { q with head := (q.head + 1) % cap }) := if_neg hempty
      simp only [ringStep, hpop]
      exact ⟨4, by omega, .more rfl (.more (if_neg hempty) (.more rfl (.last rfl)))⟩

/-- Under the lock the ring implements the bounded list. -/
theorem implements_fifo :
    Implements (criticalSection cap) (fifoStep (cap - 1)) (fun q xs => Holds cap q xs) 4 := by
  intro op q xs hq
  obtain ⟨n, hn, hruns⟩ := runs_ringStep cap op q
  obtain ⟨hreply, hholds⟩ := ringStep_holds op q xs hq
  exact ⟨n, _, hn, hreply ▸ hruns, hholds⟩

section Logs

variable {P α τ : Type} {step : Op α → τ → Reply α × τ}

theorem runOps_concat (ops : List (Op α)) (op : Op α) (t : τ) :
    runOps step (ops ++ [op]) t = ((runOps step ops t).1 ++ [(step op (runOps step ops t).2).1],
      (step op (runOps step ops t).2).2) := by
  induction ops generalizing t with
  | nil => rfl
  | cons first rest ih => simp only [List.cons_append, runOps, ih]

/-- A log that the list explains is a run of the list. -/
theorem explains_runOps {t₀ t : τ} {log : List (P × Op α × Reply α)}
    (h : Explains step t₀ log t) :
    runOps step (log.map (·.2.1)) t₀ = (log.map (·.2.2), t) := by
  induction h with
  | nil => rfl
  | snoc p op h ih =>
    rw [List.map_append, List.map_append, List.map_singleton, List.map_singleton, runOps_concat, ih]

end Logs

section Runs

variable {P : Type} [DecidableEq P] {q : RingQueue}

def fresh (q : RingQueue) : Shared P where
  flag := 0
  object := q.init
  pc _ := .outside
  log := []

omit [DecidableEq P] in
theorem fresh_linear (hcap : 0 < cap) (hroom : q.slots.length = cap) :
    Linear (criticalSection cap) (fifoStep (cap - 1)) (fun q xs => Holds cap q xs) [] 4
      (fresh q : Shared P) [] :=
  Linear.of_idle (init_holds hroom hcap) rfl rfl fun _ => rfl

/-- Any number of processes, in any interleaving of their loads, stores and swaps:
at most one is between `lock` and `unlock`; the calls that have returned were
answered by the bounded list, one after another in the order of their unlocks; and
whenever no process holds the lock the ring holds that list. -/
theorem ringQueue_linearizable (hcap : 0 < cap) (hroom : q.slots.length = cap)
    (as : List (Action P (Op ℕ))) {s : Shared P} (hrun : acts (criticalSection cap) as (fresh q) = some s) :
    (∀ p p', (s.pc p).InSection → (s.pc p').InSection → p = p') ∧
    (s.flag = 1 ↔ ∃ p, (s.pc p).InSection) ∧
    (runOps (fifoStep (cap - 1)) (s.log.map (·.2.1)) []).1 = s.log.map (·.2.2) ∧
    (s.flag = 0 → contents cap s.object =
      (runOps (fifoStep (cap - 1)) (s.log.map (·.2.1)) []).2) := by
  obtain ⟨xs, h⟩ := (fresh_linear hcap hroom).acts implements_fifo as hrun
  have hlog := explains_runOps h.explains
  refine ⟨fun p p' hp hp' => ?_, ⟨fun hset => ?_, fun ⟨p, hp⟩ => (h.holder hp).1⟩, by rw [hlog],
    fun hclear => ?_⟩
  · obtain ⟨_, honly, _⟩ := h.holder hp
    exact ((honly p').mp hp').symm
  · obtain ⟨p, honly, _⟩ := h.held hset
    exact ⟨p, (honly p).mpr rfl⟩
  · rw [hlog]
    exact (h.free hclear).1.contents_eq

def contended : List (Action Bool (Op ℕ)) :=
  [.call true (.push 5), .step true, .call false .pop, .step false] ++
    List.replicate 4 (.step true) ++ [.step false, .step true] ++ List.replicate 6 (.step false)

theorem ringQueue_linearizable_contended : ∃ s : Shared Bool,
    acts (criticalSection 3) contended (fresh ⟨7, 9, [1, 2, 3]⟩) = some s ∧
      s.log.map (·.2.2) = [.pushed true, .popped (some 5)] ∧ contents 3 s.object = [] := by
  have hrun : ∃ s, acts (criticalSection 3) contended (fresh ⟨7, 9, [1, 2, 3]⟩) = some s ∧
      s.flag = 0 ∧ s.log.map (·.2.1) = [.push 5, .pop] := ⟨_, rfl, rfl, rfl⟩
  obtain ⟨s, hacts, hflag, hops⟩ := hrun
  have hroom : (RingQueue.mk 7 9 [1, 2, 3]).slots.length = 3 := rfl
  obtain ⟨_, _, hreplies, hcontents⟩ := ringQueue_linearizable (by omega) hroom contended hacts
  rw [hops] at hreplies hcontents
  exact ⟨s, hacts, hreplies.symm, hcontents hflag⟩

/-- A process that stops between `lock` and `unlock` stops the queue: no call of
another process returns and no entry moves. One that goes on has returned after five
steps of its own, whatever the others do meanwhile. -/
theorem holder_decides (hcap : 0 < cap) (hroom : q.slots.length = cap)
    (as : List (Action P (Op ℕ))) {s : Shared P} (hrun : acts (criticalSection cap) as (fresh q) = some s)
    {p : P} (hp : (s.pc p).InSection) (bs : List (Action P (Op ℕ))) {s' : Shared P}
    (hmore : acts (criticalSection cap) bs s = some s') :
    (bs.countP (Action.advances p) = 0 → s'.object = s.object ∧ s'.log = s.log ∧ s'.flag = 1 ∧
      ∀ p', (s'.pc p').InSection → p' = p) ∧
    (5 ≤ bs.countP (Action.advances p) → ∃ op res, s.log ++ [(p, op, res)] <+: s'.log) := by
  obtain ⟨xs, h⟩ := (fresh_linear hcap hroom).acts implements_fifo as hrun
  obtain ⟨hset, honly, hcompletes⟩ := h.holder hp
  have hheld : HeldBy p s := ⟨hset, honly⟩
  refine ⟨fun hstill => ?_, fun hsteps => ?_⟩
  · obtain ⟨hheld', hobject, hlog⟩ := hheld.acts_other bs hstill hmore
    exact ⟨hobject, hlog, hheld'.1, fun p' hp' => (hheld'.2 p').mp hp'⟩
  · obtain ⟨op, hreturned⟩ := hheld.returns bs hcompletes hsteps hmore
    exact ⟨op, _, hreturned⟩

def goesOn : List (Action Bool (Op ℕ)) :=
  .call false .pop :: List.replicate 3 (.step true) ++ [.call true .pop, .step true, .step true]

/-- A push in the middle: killed there, or left to go on against a pop that spins. -/
theorem holder_decides_killed : ∃ s s' s'' : Shared Bool,
    acts (criticalSection 3) [.call true (.push 5), .step true, .step true, .step true]
      (fresh ⟨7, 9, [1, 2, 3]⟩) = some s ∧
    acts (criticalSection 3) (.call false .pop :: List.replicate 3 (.step false)) s = some s' ∧
    acts (criticalSection 3) goesOn s = some s'' ∧
    s'.log = s.log ∧ ∃ op res, s.log ++ [(true, op, res)] <+: s''.log := by
  have hrun : ∃ s s' s'' : Shared Bool,
      acts (criticalSection 3) [.call true (.push 5), .step true, .step true, .step true]
        (fresh ⟨7, 9, [1, 2, 3]⟩) = some s ∧ s.pc true = .inside (.push 5) (.pushSlot 5 0 1) ∧
      acts (criticalSection 3) (.call false .pop :: List.replicate 3 (.step false)) s = some s' ∧
      acts (criticalSection 3) goesOn s = some s'' :=
    ⟨_, _, _, rfl, rfl, rfl, rfl⟩
  obtain ⟨s, s', s'', hacts, hpc, hkilled, halive⟩ := hrun
  have hroom : (RingQueue.mk 7 9 [1, 2, 3]).slots.length = 3 := rfl
  have hin : (s.pc true).InSection := by
    rw [hpc]
    trivial
  obtain ⟨hstill, _⟩ := holder_decides (by omega) hroom _ hacts hin _ hkilled
  obtain ⟨_, hreturned⟩ := holder_decides (by omega) hroom _ hacts hin _ halive
  exact ⟨s, s', s'', hacts, hkilled, halive, (hstill (by decide)).2.1, hreturned (by decide)⟩

end Runs

end Mcts.RingLocks
