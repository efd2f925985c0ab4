import Mcts.Trajectories
import Mathlib.Data.Nat.Log
import Mathlib.Order.Bounds.Basic

/-!
`gather_reverse_curriculum`: the search for the longest tail of the heuristic's
plan that the agent still finishes. Doubling and bisection share one bracket;
`Bracketed` ties it to the probes made so far, whatever they came to.
-/
namespace Mcts.Curriculum

open Episodes Trajectories

variable {G P B F R : Type}

/-- The next tail to probe, or none when the edge is pinned. -/
def nextProbeK (k lo hi len : ℕ) : Option ℕ :=
  let next :=
    if len < hi then some (min (k * 2) len)
    else if 1 < hi - lo then some (lo + (hi - lo) / 2)
    else none
  next.bind fun next => if next = lo then none else some next

structure Climb (B F : Type) where
  lo : ℕ
  hi : ℕ
  k : ℕ
  best : Option (EpisodeOutcome B F)
  failed : Option (EpisodeOutcome B F)
  ret : F × F × Bool

abbrev Probed (B F : Type) := Climb B F × EpisodeOutcome B F

namespace Climb

def start [Zero F] (len kStart : ℕ) : Climb B F where
  lo := 0
  hi := len + 1
  k := min (max kStart 1) len
  best := none
  failed := none
  ret := (0, 0, false)

def record (s : Climb B F) (o : EpisodeOutcome B F) : Climb B F :=
  let s := { s with ret := (o.solutionDepth, o.referenceDepth, o.done) }
  if o.done then { s with lo := s.k, best := some o } else { s with hi := s.k, failed := some o }

/-- Where the loop goes after a recorded probe; a solved whole problem ends it. -/
def next (len : ℕ) (s : Climb B F) (o : EpisodeOutcome B F) : Option ℕ :=
  if o.done && decide (len ≤ s.k) then none else nextProbeK s.k s.lo s.hi len

end Climb

variable (len : ℕ) (probe : ℕ → R → Option (EpisodeOutcome B F × R))

def climb : ℕ → Climb B F → R → Option (Climb B F × R)
  | 0, s, r => some (s, r)
  | left + 1, s, r => do
    let (o, r) ← probe s.k r
    let s := s.record o
    match s.next len o with
    | some k => climb left { s with k := k } r
    | none => return (s, r)

def probes : ℕ → Climb B F → R → List (Probed B F)
  | 0, _, _ => []
  | left + 1, s, r =>
    match probe s.k r with
    | none => []
    | some (o, r) =>
      (s, o) :: match (s.record o).next len o with
        | some k => probes left { s.record o with k := k } r
        | none => []

section Gather

variable [Field F] [LinearOrder F] [FloorSemiring F] [Saturation F] [Tilers G P B F]

/-- The state the heuristic reaches with the first actions of its plan. -/
def makeReverseStart (game : G) (plan : List P) (prefixLen : ℕ) : G :=
  (plan.take prefixLen).foldl (fun sk a => finishCultivating (Tilers.step sk a))
    (setCultivationTime game 10)

def probeTail (g : Gatherer F) (pl : Player G F R) (game : G) (dFull : F) (plan : List P) (k : ℕ)
    (r : R) : Option (EpisodeOutcome B F × R) :=
  g.runEpisodeFrom pl (makeReverseStart game plan (plan.length - k)) (some (dFull, k)) r

def writeKept (g : Gatherer F) (draw : R → F × R) (kept : Option (EpisodeOutcome B F)) (r : R) :
    List (Written B F) × R :=
  match kept with
  | none => ([], r)
  | some o =>
    let (written, _, r) := writeEpisode g draw o true r
    ([written], r)

/-- `clamp` panics on an empty plan. -/
def gatherReverseCurriculum (g : Gatherer F) (pl : Player G F R) (game : G) (dFull : F)
    (plan : List P) (r : R) : Option ((F × F × Bool) × List (Written B F) × R) := do
  if plan.length = 0 then none
  else
    let (s, r) ← climb plan.length (probeTail g pl game dFull plan) g.reverseCurriculumMaxProbes
      (Climb.start plan.length g.reverseCurriculumKStartActions) r
    let (best, r) := writeKept g pl.draw s.best r
    let (failed, r) := writeKept g pl.draw s.failed r
    return (s.ret, best ++ failed, r)

end Gather

def solvedTails (log : List (Probed B F)) : Set ℕ := {k | ∃ e ∈ log, e.1.k = k ∧ e.2.done = true}

def failedTails (log : List (Probed B F)) : Set ℕ := {k | ∃ e ∈ log, e.1.k = k ∧ e.2.done = false}

structure Bracketed (log : List (Probed B F)) (s : Climb B F) : Prop where
  hi_le : s.hi ≤ len + 1
  shrinks : ∀ e ∈ log, s.hi - s.lo < e.1.hi - e.1.lo
  largest_solved : IsGreatest (insert 0 (solvedTails log)) s.lo
  smallest_failed : IsLeast (insert (len + 1) (failedTails log)) s.hi
  best_iff : ∀ o, s.best = some o ↔ ∃ e ∈ log, e.1.k = s.lo ∧ e.2 = o
  failed_iff : ∀ o, s.failed = some o ↔ ∃ e ∈ log, e.1.k = s.hi ∧ e.2 = o

def Inside (s : Climb B F) : Prop := s.lo < s.k ∧ s.k < s.hi

/-- Every probe of the list was made inside the bracket of those before it. -/
def Chained (log : List (Probed B F)) : Prop :=
  ∀ before e after, log = before ++ e :: after → Bracketed len before e.1 ∧ Inside e.1

section Steps

variable {len : ℕ} {log : List (Probed B F)} {s : Climb B F} {o : EpisodeOutcome B F}

theorem record_solved (hdone : o.done = true) :
    (s.record o).lo = s.k ∧ (s.record o).hi = s.hi ∧ (s.record o).k = s.k ∧
      (s.record o).best = some o ∧ (s.record o).failed = s.failed := by
  simp [Climb.record, hdone]

theorem record_failed (hdone : o.done = false) :
    (s.record o).lo = s.lo ∧ (s.record o).hi = s.k ∧ (s.record o).k = s.k ∧
      (s.record o).best = s.best ∧ (s.record o).failed = some o := by
  simp [Climb.record, hdone]

/-- Tails already probed are outside the bracket. -/
theorem Bracketed.outside (h : Bracketed len log s) {e : Probed B F} (he : e ∈ log) :
    e.1.k ≤ s.lo ∨ s.hi ≤ e.1.k := by
  cases hdone : e.2.done with
  | true =>
    left
    exact h.largest_solved.2 (Set.mem_insert_of_mem _ ⟨e, he, rfl, hdone⟩)
  | false =>
    right
    exact h.smallest_failed.2 (Set.mem_insert_of_mem _ ⟨e, he, rfl, hdone⟩)

theorem Bracketed.fresh (h : Bracketed len log s) (hin : Inside s) {e : Probed B F}
    (he : e ∈ log) : e.1.k ≠ s.k := by
  have hout := h.outside he
  unfold Inside at hin
  omega

theorem solvedTails_solved (hdone : o.done = true) :
    solvedTails (log ++ [(s, o)]) = insert s.k (solvedTails log) := by
  ext k
  simp [solvedTails, hdone, or_and_right, exists_or, or_comm, @eq_comm _ k s.k]

theorem solvedTails_failed (hdone : o.done = false) :
    solvedTails (log ++ [(s, o)]) = solvedTails log := by
  ext k
  simp [solvedTails, hdone, or_and_right, exists_or]

theorem failedTails_solved (hdone : o.done = true) :
    failedTails (log ++ [(s, o)]) = failedTails log := by
  ext k
  simp [failedTails, hdone, or_and_right, exists_or]

theorem failedTails_failed (hdone : o.done = false) :
    failedTails (log ++ [(s, o)]) = insert s.k (failedTails log) := by
  ext k
  simp [failedTails, hdone, or_and_right, exists_or, or_comm, @eq_comm _ k s.k]

/-- A fresh tail has the outcome just probed. -/
theorem Bracketed.outcome_new (h : Bracketed len log s) (hin : Inside s)
    (o' : EpisodeOutcome B F) :
    (∃ e ∈ log ++ [(s, o)], e.1.k = s.k ∧ e.2 = o') ↔ o = o' := by
  constructor
  · intro ⟨e, he, hk, heq⟩
    rcases List.mem_append.mp he with hold | hnew
    · exact absurd hk (h.fresh hin hold)
    · obtain rfl := List.mem_singleton.mp hnew
      exact heq
  · intro heq
    exact ⟨(s, o), by simp, rfl, heq⟩

/-- The other tails keep their outcomes. -/
theorem outcome_other {tail : ℕ} (hne : s.k ≠ tail) (o' : EpisodeOutcome B F) :
    (∃ e ∈ log ++ [(s, o)], e.1.k = tail ∧ e.2 = o') ↔
      ∃ e ∈ log, e.1.k = tail ∧ e.2 = o' := by
  constructor
  · intro ⟨e, he, hk, heq⟩
    rcases List.mem_append.mp he with hold | hnew
    · exact ⟨e, hold, hk, heq⟩
    · obtain rfl := List.mem_singleton.mp hnew
      exact absurd hk hne
  · intro ⟨e, he, hk⟩
    exact ⟨e, List.mem_append_left _ he, hk⟩

/-- A bracket smaller than the last is smaller than all before. -/
theorem Bracketed.shrinks_concat (h : Bracketed len log s) {gap : ℕ} (hgap : gap < s.hi - s.lo) :
    ∀ e ∈ log ++ [(s, o)], gap < e.1.hi - e.1.lo := by
  intro e he
  rcases List.mem_append.mp he with hold | hnew
  · exact hgap.trans (h.shrinks e hold)
  · obtain rfl := List.mem_singleton.mp hnew
    exact hgap

/-- Recording a solved probe moves the lower end to it. -/
theorem Bracketed.record_solved (h : Bracketed len log s) (hin : Inside s)
    (hdone : o.done = true) : Bracketed len (log ++ [(s, o)]) (s.record o) := by
  obtain ⟨hlo, hhi, _, hbest, hfailed⟩ := Curriculum.record_solved (s := s) hdone
  refine ⟨?_, ?_, ?_, ?_, ?_, ?_⟩
  · rw [hhi]
    exact h.hi_le
  · rw [hlo, hhi]
    apply h.shrinks_concat
    unfold Inside at hin
    omega
  · have hgreatest := h.largest_solved.insert s.k
    rw [max_eq_left hin.1.le] at hgreatest
    rwa [hlo, solvedTails_solved hdone, Set.insert_comm]
  · rw [hhi, failedTails_solved hdone]
    exact h.smallest_failed
  · intro o'
    rw [hbest, hlo, h.outcome_new hin, Option.some_inj]
  · intro o'
    rw [hfailed, hhi, h.failed_iff, outcome_other hin.2.ne]

/-- Recording a failed probe moves the upper end to it. -/
theorem Bracketed.record_failed (h : Bracketed len log s) (hin : Inside s)
    (hdone : o.done = false) : Bracketed len (log ++ [(s, o)]) (s.record o) := by
  obtain ⟨hlo, hhi, _, hbest, hfailed⟩ := Curriculum.record_failed (s := s) hdone
  refine ⟨?_, ?_, ?_, ?_, ?_, ?_⟩
  · rw [hhi]
    exact hin.2.le.trans h.hi_le
  · rw [hlo, hhi]
    apply h.shrinks_concat
    unfold Inside at hin
    omega
  · rw [hlo, solvedTails_failed hdone]
    exact h.largest_solved
  · have hleast := h.smallest_failed.insert s.k
    rw [min_eq_left hin.2.le] at hleast
    rwa [hhi, failedTails_failed hdone, Set.insert_comm]
  · intro o'
    rw [hbest, hlo, h.best_iff, outcome_other hin.1.ne']
  · intro o'
    rw [hfailed, hhi, h.outcome_new hin, Option.some_inj]

theorem Bracketed.record (h : Bracketed len log s) (hin : Inside s) :
    Bracketed len (log ++ [(s, o)]) (s.record o) := by
  cases hdone : o.done with
  | true => exact h.record_solved hin hdone
  | false => exact h.record_failed hin hdone

/-- The bracket does not speak of the tail to probe next. -/
theorem Bracketed.move (h : Bracketed len log s) (k : ℕ) :
    Bracketed len log { s with k := k } :=
  ⟨h.hi_le, h.shrinks, h.largest_solved, h.smallest_failed, h.best_iff, h.failed_iff⟩

/-- The next tail is again strictly inside: doubled while nothing failed, else
the middle. -/
theorem next_inside (hin : Inside s) (hhi : s.hi ≤ len + 1) {k : ℕ}
    (hnext : (s.record o).next len o = some k) : Inside { s.record o with k := k } := by
  unfold Inside at hin ⊢
  unfold Climb.next nextProbeK at hnext
  cases hdone : o.done with
  | true =>
    obtain ⟨hlo, hhi', hk, _⟩ := Curriculum.record_solved (s := s) hdone
    rw [hlo, hhi', hk, hdone] at hnext
    show (s.record o).lo < k ∧ k < (s.record o).hi
    rw [hlo, hhi']
    grind
  | false =>
    obtain ⟨hlo, hhi', hk, _⟩ := Curriculum.record_failed (s := s) hdone
    rw [hlo, hhi', hk, hdone] at hnext
    show (s.record o).lo < k ∧ k < (s.record o).hi
    rw [hlo, hhi']
    grind

theorem record_hi (hin : Inside s) (hhi : s.hi ≤ len + 1) (o : EpisodeOutcome B F) :
    (s.record o).hi ≤ len + 1 := by
  cases hdone : o.done with
  | true =>
    rw [(Curriculum.record_solved (s := s) hdone).2.1]
    exact hhi
  | false =>
    rw [(Curriculum.record_failed (s := s) hdone).2.1]
    exact hin.2.le.trans hhi

/-- Once something failed, the loop goes on in the middle or has pinned the edge. -/
theorem next_bisects (hlt : s.lo < s.hi) (hhi : s.hi ≤ len)
    (hopen : (o.done && decide (len ≤ s.k)) = false) :
    (s.next len o = none → s.hi = s.lo + 1) ∧
      ∀ k, s.next len o = some k → k = s.lo + (s.hi - s.lo) / 2 := by
  unfold Climb.next nextProbeK
  rw [hopen]
  constructor
  · grind
  · grind

/-- While nothing failed, the loop goes on with twice the tail. -/
theorem next_doubles (hpos : 0 < s.k) (hlo : s.lo = s.k) (hhi : s.hi = len + 1) (hlt : s.k < len) :
    s.next len o = some (min (s.k * 2) len) := by
  have hmove : min (s.k * 2) len ≠ s.k := by omega
  have hopen : ¬ len ≤ s.k := Nat.not_le.mpr hlt
  simp [Climb.next, nextProbeK, hlo, hhi, hmove, hopen]

theorem double_reaches {k doublings : ℕ} (h : len ≤ k * 2 ^ (doublings + 1)) :
    len ≤ min (k * 2) len * 2 ^ doublings := by
  rcases Nat.le_total (k * 2) len with hle | hle
  · rw [Nat.min_eq_left hle, mul_assoc, ← pow_succ']
    exact h
  · rw [Nat.min_eq_right hle]
    exact Nat.le_mul_of_pos_right len (Nat.two_pow_pos doublings)

theorem Chained.concat (h : Chained len log) (hs : Bracketed len log s) (hin : Inside s)
    (o : EpisodeOutcome B F) : Chained len (log ++ [(s, o)]) := by
  intro before e after heq
  rcases List.eq_nil_or_concat after with rfl | ⟨after', last, rfl⟩
  · obtain ⟨rfl, hlast⟩ := List.append_inj' heq rfl
    obtain rfl : (s, o) = e := by simpa using hlast
    exact ⟨hs, hin⟩
  · have hsplit : log ++ [(s, o)] = (before ++ e :: after') ++ [last] := by simpa using heq
    obtain ⟨hlog, _⟩ := List.append_inj' hsplit rfl
    exact h before e after' hlog

end Steps

section Runs

variable {len : ℕ} {probe : ℕ → R → Option (EpisodeOutcome B F × R)}

theorem climb_on {left k : ℕ} {s : Climb B F} {o : EpisodeOutcome B F} {r r₁ : R}
    (hprobe : probe s.k r = some (o, r₁)) (hnext : (s.record o).next len o = some k) :
    climb len probe (left + 1) s r = climb len probe left { s.record o with k := k } r₁ := by
  simp only [climb, bind, hprobe, Option.bind_some, hnext]

theorem climb_stop {left : ℕ} {s : Climb B F} {o : EpisodeOutcome B F} {r r₁ : R}
    (hprobe : probe s.k r = some (o, r₁)) (hnext : (s.record o).next len o = none) :
    climb len probe (left + 1) s r = some (s.record o, r₁) := by
  simp only [climb, bind, hprobe, Option.bind_some, hnext, pure]

/-- A loop that returns made its first probe, and went on from it or ended. -/
theorem climb_succ {left : ℕ} {s s' : Climb B F} {r r' : R}
    (h : climb len probe (left + 1) s r = some (s', r')) :
    ∃ o r₁, probe s.k r = some (o, r₁) ∧
      (((s.record o).next len o = none ∧ s' = s.record o ∧
          probes len probe (left + 1) s r = [(s, o)]) ∨
        ∃ k, (s.record o).next len o = some k ∧
          climb len probe left { s.record o with k := k } r₁ = some (s', r') ∧
          probes len probe (left + 1) s r =
            (s, o) :: probes len probe left { s.record o with k := k } r₁) := by
  unfold climb at h
  obtain ⟨⟨o, r₁⟩, hprobe, hrest⟩ := Option.bind_eq_some_iff.mp h
  refine ⟨o, r₁, hprobe, ?_⟩
  dsimp only at hrest
  cases hnext : (s.record o).next len o with
  | none =>
    rw [hnext] at hrest
    obtain ⟨rfl, _⟩ := Prod.mk.inj (Option.some.inj hrest)
    exact Or.inl ⟨rfl, rfl, by simp [probes, hprobe, hnext]⟩
  | some k =>
    rw [hnext] at hrest
    exact Or.inr ⟨k, rfl, hrest, by simp [probes, hprobe, hnext]⟩

/-- The loop probes tails that are not empty, and no longer than the plan. -/
theorem climb_congr {probe' : ℕ → R → Option (EpisodeOutcome B F × R)}
    (hsame : ∀ k r, 1 ≤ k → k ≤ len → probe k r = probe' k r) (left : ℕ) :
    ∀ (s : Climb B F) (r : R), Inside s → s.hi ≤ len + 1 →
      climb len probe left s r = climb len probe' left s r := by
  induction left with
  | zero => exact fun _ _ _ _ => rfl
  | succ left ih =>
    intro s r hin hhi
    have hk : 1 ≤ s.k ∧ s.k ≤ len := ⟨hin.1.bot_lt, Nat.le_of_lt_succ (hin.2.trans_le hhi)⟩
    unfold climb
    rw [hsame s.k r hk.1 hk.2]
    refine Option.bind_congr fun x _ => ?_
    obtain ⟨o, r₁⟩ := x
    cases hnext : (s.record o).next len o with
    | none => simp only [hnext]
    | some k =>
      simp only [hnext]
      exact ih _ r₁ (next_inside hin hhi hnext) (record_hi hin hhi o)

/-- Where the loop panics, one of its probes does. -/
theorem climb_none (left : ℕ) : ∀ (s : Climb B F) (r : R), Inside s → s.hi ≤ len + 1 →
    climb len probe left s r = none → ∃ k r, (1 ≤ k ∧ k ≤ len) ∧ probe k r = none := by
  induction left with
  | zero =>
    intro s r _ _ h
    simp [climb] at h
  | succ left ih =>
    intro s r hin hhi h
    have hk : 1 ≤ s.k ∧ s.k ≤ len := ⟨hin.1.bot_lt, Nat.le_of_lt_succ (hin.2.trans_le hhi)⟩
    unfold climb at h
    rcases hprobe : probe s.k r with _ | ⟨o, r₁⟩
    · exact ⟨s.k, r, hk, hprobe⟩
    · rw [hprobe, Option.bind_eq_bind, Option.bind_some] at h
      cases hnext : (s.record o).next len o with
      | none => simp [hnext] at h
      | some k =>
        simp only [hnext] at h
        exact ih _ r₁ (next_inside hin hhi hnext) (record_hi hin hhi o) h

/-- The bracket holds before every probe of a run and at its end. -/
theorem climb_bracketed (left : ℕ) : ∀ (log : List (Probed B F)) (s s' : Climb B F) (r r' : R),
    Chained len log → Bracketed len log s → Inside s →
    climb len probe left s r = some (s', r') →
    Chained len (log ++ probes len probe left s r) ∧
      Bracketed len (log ++ probes len probe left s r) s' := by
  induction left with
  | zero =>
    intro log s s' r r' hchain hbracket _ hrun
    obtain ⟨rfl, _⟩ := Prod.mk.inj (Option.some.inj hrun)
    simpa [probes] using ⟨hchain, hbracket⟩
  | succ left ih =>
    intro log s s' r r' hchain hbracket hin hrun
    obtain ⟨o, r₁, _, ⟨_, rfl, hlog⟩ | ⟨k, hnext, hrest, hlog⟩⟩ := climb_succ hrun
    · rw [hlog]
      exact ⟨hchain.concat hbracket hin o, hbracket.record hin⟩
    · have hgo := ih (log ++ [(s, o)]) { s.record o with k := k } s' r₁ r'
        (hchain.concat hbracket hin o) ((hbracket.record hin).move k)
        (next_inside hin hbracket.hi_le hnext) hrest
      rw [hlog]
      simpa using hgo

theorem probes_length_le (left : ℕ) : ∀ (s : Climb B F) (r : R),
    (probes len probe left s r).length ≤ left := by
  induction left with
  | zero =>
    intro s r
    exact le_rfl
  | succ left ih =>
    intro s r
    unfold probes
    split
    · exact Nat.zero_le _
    · rw [List.length_cons]
      split
      · exact Nat.succ_le_succ (ih _ _)
      · simp

/-- Every half of a gap fits into one bisection less. -/
theorem clog_half {gap left : ℕ} (htwo : 2 ≤ gap) (h : Nat.clog 2 gap ≤ left + 1) :
    Nat.clog 2 ((gap + 1) / 2) ≤ left := by
  rw [Nat.clog_of_two_le (by omega) htwo] at h
  exact Nat.le_of_succ_le_succ h

/-- Once something failed, bisection pins the edge within the logarithm of the gap. -/
theorem climb_bisects (left : ℕ) : ∀ (s s' : Climb B F) (r r' : R), Inside s → s.hi ≤ len →
    s.k = s.lo + (s.hi - s.lo) / 2 → Nat.clog 2 (s.hi - s.lo) ≤ left →
    climb len probe left s r = some (s', r') → s'.hi = s'.lo + 1 := by
  induction left with
  | zero =>
    intro s s' r r' hin _ _ hbudget _
    have hgap : 2 ≤ s.hi - s.lo := by
      unfold Inside at hin
      omega
    have := Nat.clog_pos (b := 2) (by omega) hgap
    omega
  | succ left ih =>
    intro s s' r r' hin hhi hk hbudget hrun
    have hgap : 2 ≤ s.hi - s.lo := by
      unfold Inside at hin
      omega
    have hhalf := clog_half hgap hbudget
    obtain ⟨o, r₁, _, hcase⟩ := climb_succ hrun
    have hrecord : (s.record o).hi ≤ len ∧ (s.record o).lo < (s.record o).hi ∧
        (s.record o).hi - (s.record o).lo ≤ (s.hi - s.lo + 1) / 2 ∧ (s.record o).k < len := by
      unfold Inside at hin
      cases hdone : o.done with
      | true =>
        obtain ⟨hlo', hhi', hk', _⟩ := Curriculum.record_solved (s := s) hdone
        rw [hlo', hhi', hk']
        omega
      | false =>
        obtain ⟨hlo', hhi', hk', _⟩ := Curriculum.record_failed (s := s) hdone
        rw [hlo', hhi', hk']
        omega
    obtain ⟨hhi', hlt', hgap', hk'⟩ := hrecord
    obtain ⟨hpinned, hmiddle⟩ := next_bisects (o := o) hlt' hhi' (by simp [hk'])
    rcases hcase with ⟨hnext, rfl, _⟩ | ⟨k, hnext, hrest, _⟩
    · exact hpinned hnext
    · refine ih { s.record o with k := k } s' r₁ r' ?_ hhi' (hmiddle k hnext) ?_ hrest
      · exact next_inside hin (by omega) hnext
      · exact (Nat.clog_mono_right 2 hgap').trans hhalf

/-- Before anything failed, doubling reaches the whole plan or a first failure. -/
theorem climb_doubles (left : ℕ) : ∀ (doublings : ℕ) (s s' : Climb B F) (r r' : R), Inside s →
    s.hi = len + 1 → len ≤ s.k * 2 ^ doublings → doublings + 1 + Nat.clog 2 len ≤ left →
    climb len probe left s r = some (s', r') → s'.hi = s'.lo + 1 := by
  induction left with
  | zero =>
    intro doublings s s' r r' _ _ _ hbudget _
    omega
  | succ left ih =>
    intro doublings s s' r r' hin hhi hreach hbudget hrun
    obtain ⟨o, r₁, _, hcase⟩ := climb_succ hrun
    have hlt : s.k < len + 1 := hhi ▸ hin.2
    cases hdone : o.done with
    | true =>
      obtain ⟨hlo', hhi', hk', _⟩ := Curriculum.record_solved (s := s) hdone
      by_cases hall : len ≤ s.k
      · have hend : (s.record o).next len o = none := by simp [Climb.next, hdone, hk', hall]
        rcases hcase with ⟨_, rfl, _⟩ | ⟨k, hnext, _⟩
        · rw [hlo', hhi', hhi]
          omega
        · rw [hend] at hnext
          cases hnext
      · have hdouble : (s.record o).next len o = some (min (s.k * 2) len) := by
          rw [← hk']
          have hpos : 0 < s.k := Nat.zero_lt_of_lt hin.1
          exact next_doubles (hk'.symm ▸ hpos) (hlo'.trans hk'.symm) (hhi'.trans hhi) (by omega)
        rcases hcase with ⟨hnext, _⟩ | ⟨k, hnext, hrest, _⟩
        · rw [hdouble] at hnext
          cases hnext
        · obtain rfl : min (s.k * 2) len = k := Option.some.inj (hdouble.symm.trans hnext)
          cases doublings with
          | zero =>
            rw [pow_zero, mul_one] at hreach
            exact absurd hreach hall
          | succ doublings =>
            refine ih doublings { s.record o with k := min (s.k * 2) len } s' r₁ r' ?_ ?_
              (double_reaches hreach) ?_ hrest
            · exact next_inside hin hhi.le hnext
            · exact hhi'.trans hhi
            · omega
    | false =>
      obtain ⟨hlo', hhi', hk', _⟩ := Curriculum.record_failed (s := s) hdone
      have hlt' : (s.record o).lo < (s.record o).hi := by
        rw [hlo', hhi']
        exact hin.1
      have hle' : (s.record o).hi ≤ len := by omega
      obtain ⟨hpinned, hmiddle⟩ := next_bisects (o := o) hlt' hle' (by simp [hdone])
      rcases hcase with ⟨hnext, rfl, _⟩ | ⟨k, hnext, hrest, _⟩
      · exact hpinned hnext
      · have hgap : Nat.clog 2 ((s.record o).hi - (s.record o).lo) ≤ Nat.clog 2 len :=
          Nat.clog_mono_right 2 (by omega)
        refine climb_bisects left { s.record o with k := k } s' r₁ r' ?_ hle' (hmiddle k hnext)
          (hgap.trans (by omega)) hrest
        exact next_inside hin hhi.le hnext

/-- For an agent with a frontier the bracket never leaves it. -/
theorem Bracketed.around {log : List (Probed B F)} {s : Climb B F} {frontier : ℕ}
    (h : Bracketed len log s)
    (hsolves : ∀ e ∈ log, (e.2.done = true ↔ e.1.k ≤ frontier)) :
    s.lo ≤ frontier ∧ (frontier ≤ len → frontier < s.hi) ∧ (len < frontier → s.hi = len + 1) := by
  refine ⟨?_, ?_, ?_⟩
  · rcases h.largest_solved.1 with hzero | ⟨e, he, hk, hdone⟩
    · rw [hzero]
      exact Nat.zero_le _
    · rw [← hk]
      exact (hsolves e he).mp hdone
  · intro hle
    rcases h.smallest_failed.1 with hnone | ⟨e, he, hk, hdone⟩
    · rw [hnone]
      exact Nat.lt_succ_of_le hle
    · have := hsolves e he
      rw [hdone] at this
      grind
  · intro hlt
    rcases h.smallest_failed.1 with hnone | ⟨e, he, hk, hdone⟩
    · exact hnone
    · have := hsolves e he
      have hle := h.hi_le
      rw [hdone] at this
      grind

end Runs

theorem start_bracketed [Zero F] (len kStart : ℕ) :
    Bracketed len ([] : List (Probed B F)) (Climb.start len kStart) := by
  refine ⟨le_rfl, ?_, ?_, ?_, ?_, ?_⟩
  · intro e he
    cases he
  · simp [solvedTails, Climb.start]
  · simp [failedTails, Climb.start]
  · simp [Climb.start]
  · simp [Climb.start]

theorem start_inside [Zero F] {len : ℕ} (hlen : 1 ≤ len) (kStart : ℕ) :
    Inside (Climb.start len kStart : Climb B F) := by
  show 0 < min (max kStart 1) len ∧ min (max kStart 1) len < len + 1
  omega

theorem Chained.nodup {len : ℕ} {log : List (Probed B F)} (h : Chained len log) :
    (log.map fun e => e.1.k).Nodup := by
  induction log using List.reverseRecOn with
  | nil => exact List.nodup_nil
  | append_singleton log last ih =>
    have hlog : Chained len log := by
      intro before e after heq
      exact h before e (after ++ [last]) (by simp [heq])
    obtain ⟨hbracket, hin⟩ := h log last [] (by simp)
    rw [List.map_append, List.nodup_append]
    refine ⟨ih hlog, List.nodup_singleton _, ?_⟩
    intro k hk k' hk'
    obtain ⟨e, he, rfl⟩ := List.mem_map.mp hk
    obtain rfl : k' = last.1.k := by simpa using hk'
    exact hbracket.fresh hin he

section Kept

variable {len : ℕ} {log : List (Probed B F)} {s : Climb B F}

theorem Chained.inside (h : Chained len log) {e : Probed B F} (he : e ∈ log) : Inside e.1 := by
  obtain ⟨before, after, heq⟩ := List.append_of_mem he
  exact (h before e after heq).2

/-- The episode kept as best is that of the largest solved tail, if one was solved. -/
theorem Bracketed.best_probe (h : Bracketed len log s) (hchain : Chained len log) :
    s.lo = 0 ∧ s.best = none ∨
      ∃ e ∈ log, e.1.k = s.lo ∧ e.2.done = true ∧ s.best = some e.2 := by
  rcases h.largest_solved.1 with hzero | ⟨e, he, hk, hdone⟩
  · refine .inl ⟨hzero, Option.eq_none_iff_forall_ne_some.mpr fun o hbest => ?_⟩
    obtain ⟨e, he, hk, -⟩ := (h.best_iff o).mp hbest
    have hin := (hchain.inside he).1
    omega
  · exact .inr ⟨e, he, hk, hdone, (h.best_iff e.2).mpr ⟨e, he, hk, rfl⟩⟩

/-- The episode kept as failed is that of the smallest failed tail, if one failed. -/
theorem Bracketed.failed_probe (h : Bracketed len log s) (hchain : Chained len log) :
    s.hi = len + 1 ∧ s.failed = none ∨
      ∃ e ∈ log, e.1.k = s.hi ∧ e.2.done = false ∧ s.failed = some e.2 := by
  rcases h.smallest_failed.1 with hnone | ⟨e, he, hk, hdone⟩
  · refine .inl ⟨hnone, Option.eq_none_iff_forall_ne_some.mpr fun o hfailed => ?_⟩
    obtain ⟨e, he, hk, -⟩ := (h.failed_iff o).mp hfailed
    obtain ⟨before, after, heq⟩ := List.append_of_mem he
    obtain ⟨hbefore, hin⟩ := hchain before e after heq
    have hlt := hin.2
    have hle := hbefore.hi_le
    omega
  · exact .inr ⟨e, he, hk, hdone, (h.failed_iff e.2).mpr ⟨e, he, hk, rfl⟩⟩

variable [Field F] [LinearOrder F]

/-- These episodes and no others are written, one after another, as reverse-curriculum ones. -/
inductive WrittenAs (g : Gatherer F) (draw : R → F × R) :
    List (EpisodeOutcome B F) → R → List (Written B F) → R → Prop
  | nil (r : R) : WrittenAs g draw [] r [] r
  | cons {o : EpisodeOutcome B F} {rest : List (EpisodeOutcome B F)} {r r' : R}
      {written : List (Written B F)}
      (h : WrittenAs g draw rest (writeEpisode g draw o true r).2.2 written r') :
      WrittenAs g draw (o :: rest) r ((writeEpisode g draw o true r).1 :: written) r'

theorem WrittenAs.kept {g : Gatherer F} {draw : R → F × R} {rest : List (EpisodeOutcome B F)}
    {r r' : R} {written : List (Written B F)} (kept : Option (EpisodeOutcome B F))
    (h : WrittenAs g draw rest (writeKept g draw kept r).2 written r') :
    WrittenAs g draw (kept.toList ++ rest) r ((writeKept g draw kept r).1 ++ written) r' := by
  cases kept with
  | none => exact h
  | some o => exact .cons h

end Kept

section Main

variable [Field F] [LinearOrder F] [FloorSemiring F] [Saturation F] [Tilers G P B F]

/-- The climb brackets the frontier of any agent, writes the episodes at its two ends, as
far as there are any, and no others, and pins the frontier of an agent that has one. -/
theorem reverse_curriculum_pins (g : Gatherer F) (pl : Player G F R) (game : G) (dFull : F)
    (plan : List P) (r r' : R) (ret : F × F × Bool) (written : List (Written B F))
    (hrun : gatherReverseCurriculum g pl game dFull plan r = some (ret, written, r')) :
    ∃ s r₁,
      let len := plan.length
      let budget := g.reverseCurriculumMaxProbes
      let first : Climb B F := Climb.start len g.reverseCurriculumKStartActions
      let log := probes len (probeTail g pl game dFull plan) budget first r
      climb len (probeTail g pl game dFull plan) budget first r = some (s, r₁) ∧
      log.length ≤ budget ∧ (log.map fun e => e.1.k).Nodup ∧
      Chained len log ∧ Bracketed len log s ∧
      (∃ best failed : List (EpisodeOutcome B F),
        (s.lo = 0 ∧ best = [] ∨
          ∃ e ∈ log, e.1.k = s.lo ∧ e.2.done = true ∧ best = [e.2]) ∧
        (s.hi = len + 1 ∧ failed = [] ∨
          ∃ e ∈ log, e.1.k = s.hi ∧ e.2.done = false ∧ failed = [e.2]) ∧
        WrittenAs g pl.draw (best ++ failed) r₁ written r') ∧
      ∀ frontier, (∀ e ∈ log, (e.2.done = true ↔ e.1.k ≤ frontier)) →
        (∀ e ∈ log, e.1.lo ≤ frontier ∧ (frontier ≤ len → frontier < e.1.hi)) ∧
        s.lo ≤ frontier ∧ (frontier ≤ len → frontier < s.hi) ∧
        (2 * Nat.clog 2 len + 1 ≤ budget →
          s.lo = min frontier len ∧ (frontier < len → s.hi = frontier + 1)) := by
  unfold gatherReverseCurriculum at hrun
  by_cases hempty : plan.length = 0
  · rw [if_pos hempty] at hrun
    cases hrun
  rw [if_neg hempty] at hrun
  obtain ⟨⟨s, r₁⟩, hclimb, hrest⟩ := Option.bind_eq_some_iff.mp hrun
  have hlen : 1 ≤ plan.length := Nat.one_le_iff_ne_zero.mpr hempty
  have hin := start_inside (B := B) (F := F) hlen g.reverseCurriculumKStartActions
  obtain ⟨hchain, hbracket⟩ := climb_bracketed g.reverseCurriculumMaxProbes [] _ s r r₁
    (fun before e after heq => by simp at heq) (start_bracketed _ _) hin hclimb
  rw [List.nil_append] at hchain hbracket
  obtain ⟨-, rfl, rfl⟩ : _ ∧ _ ∧ _ := by simpa using hrest
  refine ⟨s, r₁, hclimb, probes_length_le _ _ _, hchain.nodup, hchain, hbracket,
    ⟨s.best.toList, s.failed.toList, ?_, ?_, ?_⟩, ?_⟩
  · apply (hbracket.best_probe hchain).imp
    · exact fun ⟨hlo, hbest⟩ => ⟨hlo, by rw [hbest, Option.toList_none]⟩
    · exact fun ⟨e, he, hk, hdone, hbest⟩ => ⟨e, he, hk, hdone, by rw [hbest, Option.toList_some]⟩
  · apply (hbracket.failed_probe hchain).imp
    · exact fun ⟨hhi, hfailed⟩ => ⟨hhi, by rw [hfailed, Option.toList_none]⟩
    · exact fun ⟨e, he, hk, hdone, hfailed⟩ =>
        ⟨e, he, hk, hdone, by rw [hfailed, Option.toList_some]⟩
  · have hnone : WrittenAs g pl.draw [] (writeKept g pl.draw s.failed
        (writeKept g pl.draw s.best r₁).2).2 ([] : List (Written B F)) _ := .nil _
    have hfailed := hnone.kept s.failed
    rw [List.append_nil, List.append_nil] at hfailed
    exact hfailed.kept s.best
  intro frontier hsolves
  obtain ⟨hlo, hhi, hnone⟩ := hbracket.around hsolves
  refine ⟨?_, hlo, hhi, ?_⟩
  · intro e he
    obtain ⟨before, after, heq⟩ := List.append_of_mem he
    have hbefore := (hchain before e after heq).1
    have hprior : ∀ e' ∈ before, (e'.2.done = true ↔ e'.1.k ≤ frontier) := by
      intro e' he'
      exact hsolves e' (heq ▸ List.mem_append_left _ he')
    exact ⟨(hbefore.around hprior).1, (hbefore.around hprior).2.1⟩
  · intro hbudget
    have hreach : plan.length ≤
        (Climb.start plan.length g.reverseCurriculumKStartActions : Climb B F).k *
          2 ^ Nat.clog 2 plan.length := by
      have hpow := Nat.le_pow_clog (b := 2) (by omega) plan.length
      have hpos := Nat.zero_lt_of_lt hin.1
      exact hpow.trans (Nat.le_mul_of_pos_left _ hpos)
    have hpinned := climb_doubles _ (Nat.clog 2 plan.length) _ s r r₁ hin rfl hreach
      (by omega) hclimb
    have hle := hbracket.hi_le
    omega

end Main

/-- An episode of three turns at most, played on a tail of the plan. -/
theorem patient_probe (game : Job) (plan : List ℕ) (k : ℕ) {start : Job} {d : ℝ} {r r' : List ℕ}
    {p : Play Job Unit ℝ} (hstart : makeReverseStart game plan (plan.length - k) = start)
    (hturns : patient.turns scripted d false 3 0 ⟨start, [], [], 0, [], [], false⟩ r =
      some (p, r')) :
    ∃ o : EpisodeOutcome Unit ℝ, probeTail patient scripted game d plan k r = some (o, r') ∧
      o.done = done p.env := by
  have hplay : patient.playEpisode scripted start (some (d, k)) r =
      some ((d, k), false, p, r') := by
    simp only [Gatherer.playEpisode, Gatherer.reference]
    rw [show patient.resignationEnabled = false from rfl]
    exact congrArg (Option.bind · _) hturns
  refine ⟨patient.outcome start true (d, k) false p, ?_, rfl⟩
  rw [probeTail, hstart]
  exact congrArg (Option.bind · _) hplay

/-- On the whole job the script wastes three layers. -/
theorem patient_fails : ∃ o : EpisodeOutcome Unit ℝ,
    probeTail patient scripted (⟨2, 0⟩ : Job) 2 [0, 0] 2 [1, 1, 1, 0] = some (o, [0]) ∧
      o.done = false := by
  obtain ⟨p₁, hfirst, henv₁, -⟩ := patient_goesOn 2 2 0
    ⟨⟨2, 0⟩, [], [], 0, [], [], false⟩ 1 [1, 1, 0] rfl
  obtain ⟨p₂, hsecond, henv₂, -⟩ := patient_goesOn 2 1 1 p₁ 1 [1, 0] (by rw [henv₁]; rfl)
  obtain ⟨p₃, hthird, henv₃, -⟩ := patient_goesOn 2 0 2 p₂ 1 [0]
    (by rw [henv₂, henv₁]; rfl)
  obtain ⟨o, hprobe, hdone⟩ := patient_probe ⟨2, 0⟩ [0, 0] 2 rfl
    ((hfirst.trans hsecond).trans hthird)
  refine ⟨o, hprobe, ?_⟩
  rw [hdone, henv₃, henv₂, henv₁]
  rfl

/-- The last action alone it finishes. -/
theorem patient_solves : ∃ o : EpisodeOutcome Unit ℝ,
    probeTail patient scripted (⟨2, 0⟩ : Job) 2 [0, 0] 1 [0] = some (o, [0]) ∧
      o.done = true := by
  obtain ⟨p, hlast, henv, -⟩ := patient_ends 2 2 0
    ⟨⟨1, 1⟩, [], [], 0, [], [], false⟩ 0 [] rfl
  obtain ⟨o, hprobe, hdone⟩ := patient_probe ⟨2, 0⟩ [0, 0] 1 rfl hlast
  refine ⟨o, hprobe, ?_⟩
  rw [hdone, henv]
  rfl

/-- The climb of a plan of two actions: the first probe fails, the second pins the edge, and
both episodes are written. -/
theorem reverse_curriculum_pins_job : ∃ (solved unsolved : EpisodeOutcome Unit ℝ)
    (ret : ℝ × ℝ × Bool) (written : List (Written Unit ℝ)) (r' : List ℕ),
    probeTail patient scripted (⟨2, 0⟩ : Job) 2 [0, 0] 2 [1, 1, 1, 0] = some (unsolved, [0]) ∧
    probeTail patient scripted (⟨2, 0⟩ : Job) 2 [0, 0] 1 [0] = some (solved, [0]) ∧
    gatherReverseCurriculum patient scripted (⟨2, 0⟩ : Job) 2 [0, 0] [1, 1, 1, 0] =
      some (ret, written, r') ∧
    WrittenAs patient scripted.draw [solved, unsolved] [0] written r' := by
  obtain ⟨unsolved, hfails, hunsolved⟩ := patient_fails
  obtain ⟨solved, hsolves, hsolved⟩ := patient_solves
  have hlog : probes 2 (probeTail patient scripted (⟨2, 0⟩ : Job) 2 [0, 0]) 5 (Climb.start 2 16)
      [1, 1, 1, 0] = [(Climb.start 2 16, unsolved),
        ({ (Climb.start 2 16 : Climb Unit ℝ).record unsolved with k := 1 }, solved)] := by
    simp [probes, Climb.start, hfails, hsolves, Climb.record, hunsolved, hsolved, Climb.next,
      nextProbeK]
  have hclimb : ∃ s, climb 2 (probeTail patient scripted (⟨2, 0⟩ : Job) 2 [0, 0]) 5
      (Climb.start 2 16) [1, 1, 1, 0] = some (s, [0]) ∧ s.lo = 1 ∧ s.hi = 2 := by
    have hgoes : ((Climb.start 2 16 : Climb Unit ℝ).record unsolved).next 2 unsolved = some 1 := by
      simp [Climb.start, Climb.record, hunsolved, Climb.next, nextProbeK]
    have hstops : (({ (Climb.start 2 16 : Climb Unit ℝ).record unsolved with k := 1 } :
        Climb Unit ℝ).record solved).next 2 solved = none := by
      simp [Climb.start, Climb.record, hunsolved, hsolved, Climb.next, nextProbeK]
    refine ⟨_, (climb_on (s := Climb.start 2 16) hfails hgoes).trans (climb_stop hsolves hstops),
      ?_, ?_⟩
    · simp [Climb.record, hsolved]
    · simp [Climb.start, Climb.record, hunsolved, hsolved]
  obtain ⟨last, hclimb, hlo, hhi⟩ := hclimb
  have hrun : ∃ ret written r', gatherReverseCurriculum patient scripted (⟨2, 0⟩ : Job) 2 [0, 0]
      [1, 1, 1, 0] = some (ret, written, r') :=
    ⟨_, _, _, congrArg (Option.bind · _) hclimb⟩
  obtain ⟨ret, written, r', hrun⟩ := hrun
  refine ⟨solved, unsolved, ret, written, r', hfails, hsolves, hrun, ?_⟩
  obtain ⟨s, r₁, hends, -, -, -, -, ⟨best, failed, hbest, hfailed, hwritten⟩, -⟩ :=
    reverse_curriculum_pins patient scripted (⟨2, 0⟩ : Job) 2 [0, 0] [1, 1, 1, 0] r' ret written hrun
  obtain ⟨rfl, rfl⟩ := Prod.mk.inj (Option.some.inj (hclimb.symm.trans hends))
  have hprobes : ∀ e ∈ probes 2 (probeTail patient scripted (⟨2, 0⟩ : Job) 2 [0, 0]) 5
      (Climb.start 2 16) [1, 1, 1, 0], e.1.k = 1 ∧ e.2 = solved ∨ e.1.k = 2 ∧ e.2 = unsolved := by
    rw [hlog]
    simp [Climb.start]
  rcases hbest with ⟨hzero, -⟩ | ⟨e, he, hk, -, rfl⟩
  · omega
  rcases hfailed with ⟨hnone, -⟩ | ⟨e', he', hk', -, rfl⟩
  · have hthree : last.hi = 3 := hnone
    omega
  obtain ⟨-, rfl⟩ := (hprobes e he).resolve_right fun h => by omega
  obtain ⟨-, rfl⟩ := (hprobes e' he').resolve_left fun h => by omega
  exact hwritten

end Mcts.Curriculum
