import Mcts.KeyedTables
import Mcts.Sentinels

/-!
Any number of evaluators on one database, each with its slice of the holdout. A
process may be killed at any moment and started again; it then loads its slice
anew and passes over what has a row. The rows are all that a kill leaves behind,
so what has to be shown is that they are enough to go on from: nothing is
entered twice, nothing left out, and no finished work is done again.
-/
namespace Mcts.EvaluatorRuns

open Episodes EvalReward Holdout Sentinels KeyedTables

structure Call (F : Type) where
  evaluator : Evaluator F
  agentId : ℤ
  maxDifficultyBin : Option ℤ
  nodeIdx : ℤ
  numNodes : ℤ

inductive Pc (G : Type)
  | outside
  | loop (left : List HoldoutEnvironment)
  | attempting (holdout : HoldoutEnvironment) (env : G) (left : List HoldoutEnvironment)
  | inserting (holdout : HoldoutEnvironment) (row : SolutionRow) (left : List HoldoutEnvironment)

/-- The primary key of `solutions`. -/
def solutionKey (row : SolutionRow) : ℤ × ℤ := (row.agentId, row.environmentId)

def keys (solutions : List SolutionRow) : List (ℤ × ℤ) := solutions.map solutionKey

/-- The processes and the table. The last three fields are a record that no step
reads: the calls that have returned, the environments played, and those whose
play was lost to a kill. -/
structure World (P G : Type) where
  pc : P → Pc G
  solutions : List SolutionRow
  returned : List P
  played : List (ℤ × ℤ)
  lost : List (ℤ × ℤ)

variable {P G Q B F R : Type} [DecidableEq P] [Field F] [LinearOrder F] [FloorSemiring F]
variable [Saturation F] [Tilers G Q B F]

def World.move (w : World P G) (p : P) (pc : Pc G) : World P G :=
  { w with pc := Function.update w.pc p pc }

/-- The environment a process has begun to play and not entered yet. -/
def Pc.open (agentId : ℤ) : Pc G → Option (ℤ × ℤ)
  | .attempting holdout _ _ => some (agentId, holdout.environmentId)
  | .inserting holdout _ _ => some (agentId, holdout.environmentId)
  | _ => none

structure Setting (P G F R : Type) where
  environments : List HoldoutEnvironment
  calls : P → Call F
  player : Player G F R
  fromJson : String → Option G
  store : F → ℚ
  toJson : List ℕ → String

namespace Setting

variable (S : Setting P G F R)

def key (p : P) (holdout : HoldoutEnvironment) : ℤ × ℤ :=
  ((S.calls p).agentId, holdout.environmentId)

def Loaded (p : P) (rows : List HoldoutEnvironment) : Prop :=
  Loads S.environments (S.calls p).maxDifficultyBin (S.calls p).nodeIdx (S.calls p).numNodes rows

def Attempted (p : P) (holdout : HoldoutEnvironment) (row : SolutionRow) : Prop :=
  ∃ env r r' a attemptedAt, S.fromJson holdout.json = some env ∧
    (S.calls p).evaluator.evaluateSingle S.player env r = some (a, r') ∧
    row = solutionRow S.store S.toJson (S.calls p).agentId holdout.environmentId attemptedAt a

/-- The steps of the processes. The query whether an environment has been attempted
may fail where `countFails` says so, and then counts as 0. A panic is a kill. -/
inductive Step (countFails : Prop) (w : World P G) : World P G → Prop
  | load {p : P} {rows : List HoldoutEnvironment} :
      w.pc p = .outside → S.Loaded p rows → Step countFails w (w.move p (.loop rows))
  | skip {p : P} {holdout : HoldoutEnvironment} {left : List HoldoutEnvironment} :
      w.pc p = .loop (holdout :: left) → S.key p holdout ∈ keys w.solutions →
      Step countFails w (w.move p (.loop left))
  | unreadable {p : P} {holdout : HoldoutEnvironment} {left : List HoldoutEnvironment} :
      w.pc p = .loop (holdout :: left) → countFails ∨ S.key p holdout ∉ keys w.solutions →
      S.fromJson holdout.json = none → Step countFails w (w.move p (.loop left))
  | attempt {p : P} {holdout : HoldoutEnvironment} {env : G} {left : List HoldoutEnvironment} :
      w.pc p = .loop (holdout :: left) → countFails ∨ S.key p holdout ∉ keys w.solutions →
      S.fromJson holdout.json = some env →
      Step countFails w { w.move p (.attempting holdout env left) with
        played := w.played ++ [S.key p holdout] }
  | finish {p : P} {holdout : HoldoutEnvironment} {env : G} {left : List HoldoutEnvironment}
      {r r' : R} {a : Attempt F} (attemptedAt : String) :
      w.pc p = .attempting holdout env left →
      (S.calls p).evaluator.evaluateSingle S.player env r = some (a, r') →
      Step countFails w (w.move p (.inserting holdout (solutionRow S.store S.toJson
        (S.calls p).agentId holdout.environmentId attemptedAt a) left))
  | insert {p : P} {holdout : HoldoutEnvironment} {row : SolutionRow}
      {left : List HoldoutEnvironment} :
      w.pc p = .inserting holdout row left →
      Step countFails w { w.move p (.loop left) with
        solutions := insertOrIgnore solutionKey row w.solutions }
  | returns {p : P} :
      w.pc p = .loop [] →
      Step countFails w { w.move p .outside with returned := w.returned ++ [p] }
  | kill (p : P) :
      Step countFails w { w.move p .outside with
        lost := w.lost ++ ((w.pc p).open (S.calls p).agentId).toList }

inductive Reached (countFails : Prop) (w₀ : World P G) : World P G → Prop
  | start : Reached countFails w₀ w₀
  | step {w w' : World P G} :
      Reached countFails w₀ w → S.Step countFails w w' → Reached countFails w₀ w'

end Setting

/-- A slice holds a node's hand of the sorted environments. -/
theorem loads_perm_hand {table rows : List HoldoutEnvironment} {maxDifficultyBin : Option ℤ}
    {n i : ℕ} (hi : i < n) (h : Loads table maxDifficultyBin i n rows) :
    rows.Perm (RoundRobin.hand n i ((eligible table maxDifficultyBin).insertionSort Before)) := by
  obtain ⟨result, hquery, hperm, _⟩ := h
  rw [query_eq_hand table maxDifficultyBin hi] at hquery
  rwa [← Option.some.inj hquery] at hperm

/-- Two slices of one split have no environment in common. -/
theorem loads_apart {table rows rows' : List HoldoutEnvironment} {maxDifficultyBin : Option ℤ}
    (hids : (table.map (·.environmentId)).Nodup) {n i j : ℕ} (hi : i < n) (hj : j < n)
    (hne : i ≠ j) (h : Loads table maxDifficultyBin i n rows)
    (h' : Loads table maxDifficultyBin j n rows') {e e' : HoldoutEnvironment} (he : e ∈ rows)
    (he' : e' ∈ rows') : e.environmentId ≠ e'.environmentId := by
  intro hid
  have hn : 0 < n := by omega
  have hsort := List.perm_insertionSort Before (eligible table maxDifficultyBin)
  have hnodup : ((eligible table maxDifficultyBin).insertionSort Before).Nodup :=
    hsort.nodup_iff.mpr ((List.Nodup.of_map _ hids).filter _)
  have hmem : ∀ {k : ℕ} {rows : List HoldoutEnvironment} {x : HoldoutEnvironment}, k < n →
      Loads table maxDifficultyBin k n rows → x ∈ rows →
      x ∈ RoundRobin.hand n k ((eligible table maxDifficultyBin).insertionSort Before) ∧
        x ∈ table := by
    intro k rows x hk hload hx
    have hhand := (loads_perm_hand hk hload).mem_iff.mp hx
    refine ⟨hhand, ((mem_eligible table maxDifficultyBin x).mp ?_).1⟩
    rw [← hsort.mem_iff, ← (RoundRobin.hands_perm hn _).mem_iff]
    exact List.mem_flatMap.mpr ⟨k, List.mem_range.mpr hk, hhand⟩
  obtain ⟨hhand, htable⟩ := hmem hi h he
  obtain ⟨hhand', htable'⟩ := hmem hj h' he'
  obtain rfl := List.inj_on_of_nodup_map hids htable htable' hid
  exact RoundRobin.hands_disjoint hn hnodup hi hj hne hhand hhand'

structure Fresh (w : World P G) : Prop where
  pc : ∀ p, w.pc p = .outside
  table : (keys w.solutions).Nodup
  returned : w.returned = []
  played : w.played = []
  lost : w.lost = []

section Moves

variable {w : World P G} {p q : P} {pc : Pc G}

@[simp] theorem move_solutions : (w.move p pc).solutions = w.solutions := rfl

@[simp] theorem move_returned : (w.move p pc).returned = w.returned := rfl

@[simp] theorem move_played : (w.move p pc).played = w.played := rfl

@[simp] theorem move_lost : (w.move p pc).lost = w.lost := rfl

theorem move_pc : (w.move p pc).pc q = if q = p then pc else w.pc q :=
  Function.update_apply w.pc p pc q

theorem mem_keys {solutions : List SolutionRow} {k : ℤ × ℤ} :
    k ∈ keys solutions ↔ ∃ row ∈ solutions, solutionKey row = k := List.mem_map

theorem keys_mono {solutions solutions' : List SolutionRow} (h : solutions <+: solutions')
    {k : ℤ × ℤ} (hk : k ∈ keys solutions) : k ∈ keys solutions' :=
  (h.map solutionKey).subset hk

end Moves

namespace Setting

variable {S : Setting P G F R} {countFails : Prop} {w₀ w w' : World P G} {p q : P}
variable {solutions solutions' : List SolutionRow} {rest : List HoldoutEnvironment}

section Progress

variable (S)

def Settled (solutions : List SolutionRow) (p : P) (holdout : HoldoutEnvironment) : Prop :=
  S.fromJson holdout.json ≠ none → S.key p holdout ∈ keys solutions

def Behind (solutions : List SolutionRow) (p : P) (rest : List HoldoutEnvironment) : Prop :=
  ∃ before, S.Loaded p (before ++ rest) ∧ ∀ holdout ∈ before, S.Settled solutions p holdout

def Progress (solutions : List SolutionRow) (p : P) : Pc G → Prop
  | .outside => True
  | .loop left => S.Behind solutions p left
  | .attempting holdout env left =>
    S.Behind solutions p (holdout :: left) ∧ S.fromJson holdout.json = some env
  | .inserting holdout row left =>
    S.Behind solutions p (holdout :: left) ∧ S.Attempted p holdout row

def Genuine (row : SolutionRow) : Prop :=
  ∃ p rows holdout, S.Loaded p rows ∧ holdout ∈ rows ∧ S.Attempted p holdout row

variable {S}

omit [DecidableEq P] [Field F] [LinearOrder F] [FloorSemiring F] [Saturation F] in
theorem Settled.mono (h : solutions <+: solutions') {holdout : HoldoutEnvironment}
    (hs : S.Settled solutions p holdout) : S.Settled solutions' p holdout :=
  fun hread => keys_mono h (hs hread)

omit [DecidableEq P] [Field F] [LinearOrder F] [FloorSemiring F] [Saturation F] in
theorem Behind.mono (h : solutions <+: solutions') (hb : S.Behind solutions p rest) :
    S.Behind solutions' p rest := by
  obtain ⟨before, hloaded, hsettled⟩ := hb
  exact ⟨before, hloaded, fun holdout hmem => (hsettled holdout hmem).mono h⟩

omit [DecidableEq P] in
theorem Progress.mono (h : solutions <+: solutions') {pc : Pc G}
    (hp : S.Progress solutions p pc) : S.Progress solutions' p pc := by
  cases pc with
  | outside => trivial
  | loop left => exact Behind.mono h hp
  | attempting holdout env left => exact ⟨hp.1.mono h, hp.2⟩
  | inserting holdout row left => exact ⟨hp.1.mono h, hp.2⟩

omit [DecidableEq P] [Field F] [LinearOrder F] [FloorSemiring F] [Saturation F] in
/-- One environment more is settled. -/
theorem Behind.next {holdout : HoldoutEnvironment} {left : List HoldoutEnvironment}
    (hb : S.Behind solutions p (holdout :: left)) (hs : S.Settled solutions p holdout) :
    S.Behind solutions p left := by
  obtain ⟨before, hloaded, hsettled⟩ := hb
  refine ⟨before ++ [holdout], ?_, ?_⟩
  · rwa [List.append_assoc, List.singleton_append]
  · intro e he
    rcases List.mem_append.mp he with he | he
    · exact hsettled e he
    · rwa [List.mem_singleton.mp he]

omit [DecidableEq P] in
/-- An attempt's row bears the key that the process asked for. -/
theorem Attempted.key {holdout : HoldoutEnvironment} {row : SolutionRow}
    (h : S.Attempted p holdout row) : solutionKey row = S.key p holdout := by
  obtain ⟨env, r, r', a, attemptedAt, _, _, rfl⟩ := h
  rfl

end Progress

section Soundness

variable (S)

structure Sound (w₀ w : World P G) : Prop where
  table : (keys w.solutions).Nodup
  kept : w₀.solutions <+: w.solutions
  rows : ∀ row ∈ w.solutions, row ∈ w₀.solutions ∨ S.Genuine row
  progress : ∀ p, S.Progress w.solutions p (w.pc p)
  returned : ∀ p ∈ w.returned, S.Behind w.solutions p []

variable {S}

omit [DecidableEq P] in
theorem Fresh.sound (h : Fresh w₀) : S.Sound w₀ w₀ where
  table := h.table
  kept := List.prefix_rfl
  rows _ hrow := Or.inl hrow
  progress p := by
    rw [h.pc p]
    trivial
  returned p hp := by simp [h.returned] at hp

/-- A step that leaves the table alone. -/
theorem Sound.move (h : S.Sound w₀ w) (pc : Pc G) (hpc : S.Progress w.solutions p pc)
    (hsolutions : w'.solutions = w.solutions) (hmoved : w'.pc = (w.move p pc).pc)
    (hreturned : ∀ q ∈ w'.returned, q ∈ w.returned ∨ S.Behind w.solutions q []) :
    S.Sound w₀ w' where
  table := hsolutions ▸ h.table
  kept := hsolutions ▸ h.kept
  rows := hsolutions ▸ h.rows
  progress q := by
    rw [hsolutions, hmoved, move_pc]
    split
    · next heq => exact heq ▸ hpc
    · exact h.progress q
  returned q hq := by
    rw [hsolutions]
    rcases hreturned q hq with hold | hnew
    · exact h.returned q hold
    · exact hnew

/-- The step that enters a row. -/
theorem Sound.insert (h : S.Sound w₀ w) {holdout : HoldoutEnvironment} {row : SolutionRow}
    {left : List HoldoutEnvironment} (hpc : w.pc p = .inserting holdout row left) :
    S.Sound w₀ { w.move p (.loop left) with
      solutions := insertOrIgnore solutionKey row w.solutions } := by
  have hgrows : w.solutions <+: insertOrIgnore solutionKey row w.solutions :=
    prefix_insertOrIgnore row w.solutions
  have hp := h.progress p
  rw [hpc] at hp
  obtain ⟨hbehind, hattempted⟩ := hp
  have hsettled : S.Settled (insertOrIgnore solutionKey row w.solutions) p holdout := by
    intro _
    exact mem_keys_insertOrIgnore.mpr (Or.inr hattempted.key.symm)
  refine ⟨nodup_insertOrIgnore h.table, h.kept.trans hgrows, ?_, ?_, ?_⟩
  · intro row' hrow'
    rcases mem_insertOrIgnore hrow' with hold | rfl
    · exact h.rows row' hold
    · obtain ⟨before, hloaded, _⟩ := hbehind
      exact Or.inr ⟨p, _, holdout, hloaded, by simp, hattempted⟩
  · intro q
    show S.Progress _ q ((w.move p (.loop left)).pc q)
    rw [move_pc]
    split
    · next heq =>
      subst heq
      exact (hbehind.mono hgrows).next hsettled
    · exact (h.progress q).mono hgrows
  · exact fun q hq => (h.returned q hq).mono hgrows

theorem Sound.step (h : S.Sound w₀ w) (hstep : S.Step countFails w w') : S.Sound w₀ w' := by
  have hsame : ∀ q ∈ w.returned, q ∈ w.returned ∨ S.Behind w.solutions q [] :=
    fun q hq => Or.inl hq
  cases hstep with
  | load hpc hloaded =>
    exact h.move (.loop _) ⟨[], hloaded, by simp⟩ rfl rfl hsame
  | @skip p holdout left hpc hkey =>
    have hp := h.progress p
    rw [hpc] at hp
    exact h.move (.loop left) (Behind.next hp fun _ => hkey) rfl rfl hsame
  | @unreadable p holdout left hpc _ hnone =>
    have hp := h.progress p
    rw [hpc] at hp
    exact h.move (.loop left) (Behind.next hp fun hread => absurd hnone hread) rfl rfl hsame
  | @attempt p holdout env left hpc _ hread =>
    have hp := h.progress p
    rw [hpc] at hp
    exact h.move (.attempting holdout env left) ⟨hp, hread⟩ rfl rfl hsame
  | @finish p holdout env left r r' a attemptedAt hpc heval =>
    have hp := h.progress p
    rw [hpc] at hp
    refine h.move (.inserting holdout _ left) ⟨hp.1, ?_⟩ rfl rfl hsame
    exact ⟨env, r, r', a, attemptedAt, hp.2, heval, rfl⟩
  | insert hpc => exact h.insert hpc
  | @returns p hpc =>
    have hp := h.progress p
    rw [hpc] at hp
    refine h.move .outside trivial rfl rfl fun q hq => ?_
    rcases List.mem_append.mp hq with hold | hnew
    · exact Or.inl hold
    · rw [List.mem_singleton.mp hnew]
      exact Or.inr hp
  | kill p => exact h.move .outside trivial rfl rfl hsame

theorem Sound.run (h₀ : Fresh w₀) (h : S.Reached countFails w₀ w) : S.Sound w₀ w := by
  induction h with
  | start => exact Fresh.sound h₀
  | step _ hstep ih => exact ih.step hstep

omit [DecidableEq P] in
/-- A key of the table is there once. -/
theorem Sound.count (h : S.Sound w₀ w) {k : ℤ × ℤ} (hk : k ∈ keys w.solutions) :
    (keys w.solutions).count k = 1 :=
  List.count_eq_one_of_mem h.table hk

variable (S)

/-- A call for every slice of a split has returned. -/
def AllReturned (w : World P G) (agentId : ℤ) (maxDifficultyBin : Option ℤ) (n : ℕ) : Prop :=
  ∀ i < n, ∃ p ∈ w.returned, (S.calls p).agentId = agentId ∧
    (S.calls p).maxDifficultyBin = maxDifficultyBin ∧ (S.calls p).nodeIdx = i ∧
    (S.calls p).numNodes = n

variable {S}

omit [DecidableEq P] in
/-- Then every environment that can be read has a row. -/
theorem Sound.all_returned (h : S.Sound w₀ w)
    (hids : (S.environments.map (·.environmentId)).Nodup) {agentId : ℤ}
    {maxDifficultyBin : Option ℤ} {n : ℕ} (hn : 1 ≤ n)
    (hreturned : S.AllReturned w agentId maxDifficultyBin n) {e : HoldoutEnvironment}
    (he : e ∈ eligible S.environments maxDifficultyBin) (hread : S.fromJson e.json ≠ none) :
    (agentId, e.environmentId) ∈ keys w.solutions := by
  have hslice : ∀ i, ∃ rows, i < n →
      Loads S.environments maxDifficultyBin i n rows ∧
        ∀ e ∈ rows, S.fromJson e.json ≠ none → (agentId, e.environmentId) ∈ keys w.solutions := by
    intro i
    by_cases hi : i < n
    · obtain ⟨p, hp, rfl, rfl, hidx, hnum⟩ := hreturned i hi
      obtain ⟨rows, hloaded, hsettled⟩ := h.returned p hp
      rw [List.append_nil, Loaded, hidx, hnum] at hloaded
      exact ⟨rows, fun _ => ⟨hloaded, hsettled⟩⟩
    · exact ⟨[], fun hlt => absurd hlt hi⟩
  choose slices hslices using hslice
  obtain ⟨_, hcover, _⟩ := slices_partition S.environments hids maxDifficultyBin n hn slices
    fun i hi => (hslices i hi).1
  obtain ⟨i, hi, hmem⟩ := (hcover e).mp ((mem_eligible _ _ _).mp he)
  exact (hslices i hi).2 e hmem hread

/-- However often the processes are killed and started again, and even where the
query for earlier attempts fails: no two rows have one key, earlier rows stay, new
ones come from attempts on the slices, and once a call for each slice has
returned, every environment that can be read has its row. -/
theorem evaluation_complete (h₀ : Fresh w₀) (h : S.Reached countFails w₀ w)
    (hids : (S.environments.map (·.environmentId)).Nodup) :
    (keys w.solutions).Nodup ∧ w₀.solutions <+: w.solutions ∧
    (∀ row ∈ w.solutions, row ∈ w₀.solutions ∨ S.Genuine row) ∧
    ∀ (agentId : ℤ) (maxDifficultyBin : Option ℤ) (n : ℕ), 1 ≤ n →
      (∀ i < n, ∃ p ∈ w.returned, (S.calls p).agentId = agentId ∧
        (S.calls p).maxDifficultyBin = maxDifficultyBin ∧ (S.calls p).nodeIdx = i ∧
        (S.calls p).numNodes = n) →
      ∀ e ∈ S.environments, (∀ maxBin, maxDifficultyBin = some maxBin → e.difficultyBin ≤ maxBin) →
        S.fromJson e.json ≠ none → (keys w.solutions).count (agentId, e.environmentId) = 1 := by
  have hsound := Sound.run h₀ h
  refine ⟨hsound.table, hsound.kept, hsound.rows, ?_⟩
  intro agentId maxDifficultyBin n hn hreturned e he hbin hread
  exact hsound.count
    (hsound.all_returned hids hn hreturned ((mem_eligible _ _ _).mpr ⟨he, hbin⟩) hread)

end Soundness

section Accounts

variable (S)

/-- The processes that evaluate one agent have different slices of one split. -/
structure Split : Prop where
  ids : (S.environments.map (·.environmentId)).Nodup
  range : ∀ p, 0 ≤ (S.calls p).nodeIdx ∧ (S.calls p).nodeIdx < (S.calls p).numNodes
  apart : ∀ p q, p ≠ q → (S.calls p).agentId = (S.calls q).agentId →
    (S.calls p).maxDifficultyBin = (S.calls q).maxDifficultyBin ∧
    (S.calls p).numNodes = (S.calls q).numNodes ∧ (S.calls p).nodeIdx ≠ (S.calls q).nodeIdx

def InFlight (w : World P G) (k : ℤ × ℤ) : Prop :=
  ∃ p, (w.pc p).open (S.calls p).agentId = some k

/-- Every play that was begun has led to a row, was lost to a kill, or is under way. -/
structure Accounted (w₀ w : World P G) : Prop where
  fresh : ∀ k, S.InFlight w k → k ∉ keys w.solutions
  alone : ∀ p q k, (w.pc p).open (S.calls p).agentId = some k →
    (w.pc q).open (S.calls q).agentId = some k → p = q
  early : ∀ k ∈ keys w₀.solutions, w.played.count k = 0
  settled : ∀ k, k ∉ keys w₀.solutions → (k ∈ keys w.solutions ∨ S.InFlight w k) →
    w.played.count k = w.lost.count k + 1
  other : ∀ k, k ∉ keys w.solutions → ¬ S.InFlight w k → w.played.count k = w.lost.count k

variable {S}

omit [DecidableEq P] [LinearOrder F] [FloorSemiring F] [Saturation F] [Field F] in
/-- An environment is in the slice of one process of its agent only. -/
theorem Split.alone (hsplit : S.Split) {rows rows' : List HoldoutEnvironment}
    (hp : S.Loaded p rows) (hq : S.Loaded q rows') {e e' : HoldoutEnvironment} (he : e ∈ rows)
    (he' : e' ∈ rows') (hkey : S.key p e = S.key q e') : p = q := by
  by_contra hne
  obtain ⟨hagent, hid⟩ := Prod.mk.inj hkey
  obtain ⟨hbin, hnum, hidx⟩ := hsplit.apart p q hne hagent
  obtain ⟨i, hi⟩ := Int.eq_ofNat_of_zero_le (hsplit.range p).1
  obtain ⟨j, hj⟩ := Int.eq_ofNat_of_zero_le (hsplit.range q).1
  have hlt := (hsplit.range p).2
  have hlt' := (hsplit.range q).2
  obtain ⟨n, hn⟩ := Int.eq_ofNat_of_zero_le (by omega : 0 ≤ (S.calls p).numNodes)
  rw [Loaded, ← hbin, ← hnum, hn, hj] at hq
  rw [Loaded, hn, hi] at hp
  exact loads_apart hsplit.ids (by omega) (by omega) (by omega) hp hq he he' hid

omit [DecidableEq P] [Field F] [LinearOrder F] [FloorSemiring F] [Saturation F] in
theorem Fresh.accounted (h : Fresh w₀) : S.Accounted w₀ w₀ := by
  have hnone : ∀ k, ¬ S.InFlight w₀ k := by
    rintro k ⟨p, hp⟩
    simp [h.pc p, Pc.open] at hp
  refine ⟨fun k hk => absurd hk (hnone k), fun p q k hp => absurd ⟨p, hp⟩ (hnone k), ?_, ?_, ?_⟩
  · intro k _
    simp [h.played]
  · rintro k hfresh (hk | hk)
    · exact absurd hk hfresh
    · exact absurd hk (hnone k)
  · intro k _ _
    simp [h.played, h.lost]

omit [Field F] [LinearOrder F] [FloorSemiring F] [Saturation F] in
/-- No two processes play one environment after a process has moved, either. -/
theorem alone_move {pc : Pc G} (hpc : w'.pc = (w.move p pc).pc)
    (h : ∀ q q' k, (w.pc q).open (S.calls q).agentId = some k →
      (w.pc q').open (S.calls q').agentId = some k → q = q')
    (hp : ∀ q k, pc.open (S.calls p).agentId = some k →
      (w.pc q).open (S.calls q).agentId = some k → p = q) (q q' : P) (k : ℤ × ℤ)
    (hq : (w'.pc q).open (S.calls q).agentId = some k)
    (hq' : (w'.pc q').open (S.calls q').agentId = some k) : q = q' := by
  rw [hpc, move_pc] at hq hq'
  by_cases hqp : q = p
  · by_cases hqp' : q' = p
    · exact hqp.trans hqp'.symm
    · subst hqp
      rw [if_pos rfl] at hq
      rw [if_neg hqp'] at hq'
      exact hp q' k hq hq'
  · rw [if_neg hqp] at hq
    by_cases hqp' : q' = p
    · subst hqp'
      rw [if_pos rfl] at hq'
      exact (hp q k hq' hq).symm
    · rw [if_neg hqp'] at hq'
      exact h q q' k hq hq'

omit [Field F] [LinearOrder F] [FloorSemiring F] [Saturation F] in
/-- What is under way after a process has moved. -/
theorem inFlight_iff {pc : Pc G} {k : ℤ × ℤ} (hpc : w'.pc = (w.move p pc).pc) :
    S.InFlight w' k ↔ pc.open (S.calls p).agentId = some k ∨
      ∃ q, q ≠ p ∧ (w.pc q).open (S.calls q).agentId = some k := by
  unfold InFlight
  simp only [hpc, move_pc]
  constructor
  · rintro ⟨q, hq⟩
    split at hq
    · next heq => exact Or.inl (heq ▸ hq)
    · next hne => exact Or.inr ⟨q, hne, hq⟩
  · rintro (hp | ⟨q, hne, hq⟩)
    · exact ⟨p, by rwa [if_pos rfl]⟩
    · exact ⟨q, by rwa [if_neg hne]⟩

omit [Field F] [LinearOrder F] [FloorSemiring F] [Saturation F] in
/-- A step that begins, ends and loses no play. -/
theorem Accounted.quiet (h : S.Accounted w₀ w) (pc : Pc G) (hpc : w'.pc = (w.move p pc).pc)
    (hopen : pc.open (S.calls p).agentId = (w.pc p).open (S.calls p).agentId)
    (hsolutions : w'.solutions = w.solutions) (hplayed : w'.played = w.played)
    (hlost : w'.lost = w.lost) : S.Accounted w₀ w' := by
  have heach : ∀ q, (w'.pc q).open (S.calls q).agentId = (w.pc q).open (S.calls q).agentId := by
    intro q
    rw [hpc, move_pc]
    split
    · next heq => rw [heq, hopen]
    · rfl
  have hflight : ∀ k, S.InFlight w' k ↔ S.InFlight w k := by
    intro k
    simp only [InFlight, heach]
  constructor
  · simpa only [hflight, hsolutions] using h.fresh
  · simpa only [heach] using h.alone
  · simpa only [hplayed] using h.early
  · simpa only [hflight, hsolutions, hplayed, hlost] using h.settled
  · simpa only [hflight, hsolutions, hplayed, hlost] using h.other

omit [Field F] [LinearOrder F] [FloorSemiring F] [Saturation F] in
/-- A play begins: of an environment without a row, and not under way already. -/
theorem Accounted.attempt (h : S.Accounted w₀ w) (hkept : w₀.solutions <+: w.solutions)
    (pc : Pc G) {k₀ : ℤ × ℤ} (hpc : w'.pc = (w.move p pc).pc)
    (hbefore : (w.pc p).open (S.calls p).agentId = none)
    (hopen : pc.open (S.calls p).agentId = some k₀) (hfresh : k₀ ∉ keys w.solutions)
    (hidle : ¬ S.InFlight w k₀) (hsolutions : w'.solutions = w.solutions)
    (hplayed : w'.played = w.played ++ [k₀]) (hlost : w'.lost = w.lost) :
    S.Accounted w₀ w' := by
  have hflight : ∀ k, S.InFlight w' k ↔ k = k₀ ∨ S.InFlight w k := by
    intro k
    rw [inFlight_iff hpc, hopen, Option.some.injEq, eq_comm]
    apply or_congr_right
    constructor
    · rintro ⟨q, _, hq⟩
      exact ⟨q, hq⟩
    · rintro ⟨q, hq⟩
      refine ⟨q, ?_, hq⟩
      rintro rfl
      simp [hbefore] at hq
  have hcount : ∀ k, k ≠ k₀ → w'.played.count k = w.played.count k := by
    intro k hne
    rw [hplayed, List.count_append, List.count_singleton, if_neg (by simpa using hne.symm)]
    rfl
  have hfirst : w'.played.count k₀ = w.played.count k₀ + 1 := by
    rw [hplayed, List.count_append, List.count_singleton_self]
  refine ⟨?_, ?_, ?_, ?_, ?_⟩
  · intro k hk
    rw [hsolutions]
    rcases (hflight k).mp hk with rfl | hk
    · exact hfresh
    · exact h.fresh k hk
  · apply alone_move hpc h.alone
    intro q k hp hq
    rw [hopen, Option.some.injEq] at hp
    exact absurd ⟨q, hp ▸ hq⟩ hidle
  · intro k hk
    have hne : k ≠ k₀ := fun heq => hfresh (heq ▸ keys_mono hkept hk)
    rw [hcount k hne]
    exact h.early k hk
  · intro k hk hor
    rw [hlost]
    by_cases heq : k = k₀
    · rw [heq, hfirst, h.other k₀ hfresh hidle]
    · rw [hcount k heq]
      rw [hsolutions, hflight] at hor
      exact h.settled k hk (hor.imp_right fun hk => hk.resolve_left heq)
  · intro k hk hnone
    rw [hflight, not_or] at hnone
    rw [hlost, hcount k hnone.1]
    exact h.other k (hsolutions ▸ hk) hnone.2

omit [Field F] [LinearOrder F] [FloorSemiring F] [Saturation F] in
/-- A play has led to a row. -/
theorem Accounted.insert (h : S.Accounted w₀ w) (pc : Pc G) {k₀ : ℤ × ℤ}
    (hpc : w'.pc = (w.move p pc).pc)
    (hbefore : (w.pc p).open (S.calls p).agentId = some k₀)
    (hopen : pc.open (S.calls p).agentId = none)
    (hkeys : ∀ k, k ∈ keys w'.solutions ↔ k ∈ keys w.solutions ∨ k = k₀)
    (hplayed : w'.played = w.played) (hlost : w'.lost = w.lost) : S.Accounted w₀ w' := by
  have hflight : ∀ k, S.InFlight w k ↔ k = k₀ ∨ S.InFlight w' k := by
    intro k
    rw [inFlight_iff hpc, hopen]
    constructor
    · rintro ⟨q, hq⟩
      by_cases hqp : q = p
      · subst hqp
        exact Or.inl (Option.some.inj (hq.symm.trans hbefore))
      · exact Or.inr (Or.inr ⟨q, hqp, hq⟩)
    · rintro (rfl | hk | ⟨q, _, hq⟩)
      · exact ⟨p, hbefore⟩
      · cases hk
      · exact ⟨q, hq⟩
  have hover : ¬ S.InFlight w' k₀ := by
    rw [inFlight_iff hpc, hopen]
    rintro (hk | ⟨q, hne, hq⟩)
    · cases hk
    · exact hne (h.alone q p k₀ hq hbefore)
  refine ⟨?_, ?_, hplayed ▸ h.early, ?_, ?_⟩
  · intro k hk hmem
    rcases (hkeys k).mp hmem with hold | rfl
    · exact h.fresh k ((hflight k).mpr (Or.inr hk)) hold
    · exact hover hk
  · apply alone_move hpc h.alone
    intro q k hp
    rw [hopen] at hp
    cases hp
  · intro k hk hor
    rw [hplayed, hlost]
    apply h.settled k hk
    rw [hkeys, or_assoc, ← hflight] at hor
    exact hor
  · intro k hk hnone
    rw [hkeys, not_or] at hk
    rw [hplayed, hlost]
    exact h.other k hk.1 fun hin => hnone (((hflight k).mp hin).resolve_left hk.2)

omit [Field F] [LinearOrder F] [FloorSemiring F] [Saturation F] in
/-- A play is lost to a kill. -/
theorem Accounted.lose (h : S.Accounted w₀ w) (hkept : w₀.solutions <+: w.solutions) (pc : Pc G) {k₀ : ℤ × ℤ}
    (hpc : w'.pc = (w.move p pc).pc)
    (hbefore : (w.pc p).open (S.calls p).agentId = some k₀)
    (hopen : pc.open (S.calls p).agentId = none) (hsolutions : w'.solutions = w.solutions)
    (hplayed : w'.played = w.played) (hlost : w'.lost = w.lost ++ [k₀]) :
    S.Accounted w₀ w' := by
  have hflight : ∀ k, k ≠ k₀ → (S.InFlight w' k ↔ S.InFlight w k) := by
    intro k hne
    rw [inFlight_iff hpc, hopen]
    constructor
    · rintro (hk | ⟨q, _, hq⟩)
      · cases hk
      · exact ⟨q, hq⟩
    · rintro ⟨q, hq⟩
      refine Or.inr ⟨q, ?_, hq⟩
      rintro rfl
      exact hne (Option.some.inj (hq.symm.trans hbefore))
  have hover : ¬ S.InFlight w' k₀ := by
    rw [inFlight_iff hpc, hopen]
    rintro (hk | ⟨q, hne, hq⟩)
    · cases hk
    · exact hne (h.alone q p k₀ hq hbefore)
  have hfresh := h.fresh k₀ ⟨p, hbefore⟩
  have hcount : ∀ k, k ≠ k₀ → w'.lost.count k = w.lost.count k := by
    intro k hne
    rw [hlost, List.count_append, List.count_singleton, if_neg (by simpa using hne.symm)]
    rfl
  refine ⟨?_, ?_, hplayed ▸ h.early, ?_, ?_⟩
  · intro k hk
    rw [hsolutions]
    by_cases heq : k = k₀
    · exact absurd (heq ▸ hk) hover
    · exact h.fresh k ((hflight k heq).mp hk)
  · apply alone_move hpc h.alone
    intro q k hp
    rw [hopen] at hp
    cases hp
  · intro k hk hor
    rw [hsolutions] at hor
    have hne : k ≠ k₀ := by
      rintro rfl
      exact hor.elim hfresh hover
    rw [hplayed, hcount k hne]
    exact h.settled k hk (hor.imp_right (hflight k hne).mp)
  · intro k hk hnone
    rw [hplayed]
    by_cases heq : k = k₀
    · have hstart : k₀ ∉ keys w₀.solutions := fun hk₀ => hfresh (keys_mono hkept hk₀)
      rw [heq, h.settled k₀ hstart (Or.inr ⟨p, hbefore⟩), hlost, List.count_append,
        List.count_singleton_self]
    · rw [hcount k heq]
      exact h.other k (hsolutions ▸ hk) fun hin => hnone ((hflight k heq).mpr hin)

omit [DecidableEq P] in
/-- What a process plays is in its slice. -/
theorem Progress.slice {pc : Pc G} {k : ℤ × ℤ} (h : S.Progress solutions p pc)
    (hopen : pc.open (S.calls p).agentId = some k) :
    ∃ rows holdout, S.Loaded p rows ∧ holdout ∈ rows ∧ k = S.key p holdout := by
  cases pc with
  | outside => cases hopen
  | loop left => cases hopen
  | attempting holdout env left =>
    obtain ⟨⟨before, hloaded, _⟩, _⟩ := h
    exact ⟨_, holdout, hloaded, by simp, (Option.some.inj hopen).symm⟩
  | inserting holdout row left =>
    obtain ⟨⟨before, hloaded, _⟩, _⟩ := h
    exact ⟨_, holdout, hloaded, by simp, (Option.some.inj hopen).symm⟩

/-- Where the query for earlier attempts answers, a step keeps the accounts. -/
theorem Accounted.step (h : S.Accounted w₀ w) (hsound : S.Sound w₀ w) (hsplit : S.Split)
    (hstep : S.Step False w w') : S.Accounted w₀ w' := by
  cases hstep with
  | @load p rows hpc _ => exact h.quiet (p := p) (.loop rows) rfl (by rw [hpc]; rfl) rfl rfl rfl
  | @skip p holdout left hpc _ =>
    exact h.quiet (p := p) (.loop left) rfl (by rw [hpc]; rfl) rfl rfl rfl
  | @unreadable p holdout left hpc _ _ =>
    exact h.quiet (p := p) (.loop left) rfl (by rw [hpc]; rfl) rfl rfl rfl
  | @attempt p holdout env left hpc hkey hread =>
    have hp := hsound.progress p
    rw [hpc] at hp
    obtain ⟨before, hloaded, _⟩ := hp
    refine h.attempt (p := p) hsound.kept (.attempting holdout env left) rfl (by rw [hpc]; rfl)
      rfl (hkey.resolve_left id) ?_ rfl rfl rfl
    rintro ⟨q, hq⟩
    obtain ⟨rows, e, hrows, he, hkey'⟩ := (hsound.progress q).slice hq
    obtain rfl := hsplit.alone hloaded hrows (by simp) he hkey'
    rw [hpc] at hq
    cases hq
  | @finish p holdout env left r r' a attemptedAt hpc _ =>
    exact h.quiet (p := p) (.inserting holdout _ left) rfl (by rw [hpc]; rfl) rfl rfl rfl
  | @insert p holdout row left hpc =>
    have hp := hsound.progress p
    rw [hpc] at hp
    refine h.insert (p := p) (.loop left) rfl (by rw [hpc]; rfl) rfl (fun k => ?_) rfl rfl
    show k ∈ keys _ ↔ k ∈ keys w.solutions ∨ k = S.key p holdout
    rw [← hp.2.key]
    exact mem_keys_insertOrIgnore
  | @returns p hpc =>
    exact h.quiet (p := p) .outside rfl (by rw [hpc]; rfl) rfl rfl rfl
  | kill p =>
    cases hopen : (w.pc p).open (S.calls p).agentId with
    | none => exact h.quiet (p := p) .outside rfl (by rw [hopen]; rfl) rfl rfl (by simp)
    | some k₀ => exact h.lose (p := p) hsound.kept .outside rfl hopen rfl rfl rfl rfl

theorem Accounted.run (h₀ : Fresh w₀) (hsplit : S.Split) (h : S.Reached False w₀ w) :
    S.Accounted w₀ w := by
  induction h with
  | start => exact Fresh.accounted h₀
  | step hreached hstep ih => exact ih.step (Sound.run h₀ hreached) hsplit hstep

/-- Resuming repeats no finished work. With one process for each slice of each agent,
and a query for earlier attempts that answers: at any moment an environment without
a row at the start has been played once more than its play was lost to kills if it
has a row now or is being played, and as often otherwise; one with a row never is. -/
theorem attempts_accounted (h₀ : Fresh w₀) (hsplit : S.Split) (h : S.Reached False w₀ w)
    (k : ℤ × ℤ) :
    (k ∈ keys w₀.solutions → w.played.count k = 0) ∧
    (k ∉ keys w₀.solutions →
      (k ∈ keys w.solutions ∨ S.InFlight w k → w.played.count k = w.lost.count k + 1) ∧
      (¬ (k ∈ keys w.solutions ∨ S.InFlight w k) → w.played.count k = w.lost.count k)) ∧
    (S.InFlight w k → k ∉ keys w.solutions ∧
      ∀ p q, (w.pc p).open (S.calls p).agentId = some k →
        (w.pc q).open (S.calls q).agentId = some k → p = q) := by
  have hacc := Accounted.run h₀ hsplit h
  refine ⟨hacc.early k, fun hk => ⟨hacc.settled k hk, fun hnone => ?_⟩, fun hin => ?_⟩
  · rw [not_or] at hnone
    exact hacc.other k hnone.1 hnone.2
  · exact ⟨hacc.fresh k hin, fun p q => hacc.alone p q k⟩

end Accounts

section Lone

omit [DecidableEq P] [FloorSemiring F] [Saturation F] [Field F] [LinearOrder F] in
theorem any_iff (p : P) (holdout : HoldoutEnvironment) :
    (solutions.any fun row => row.agentId = (S.calls p).agentId ∧
      row.environmentId = holdout.environmentId) = true ↔ S.key p holdout ∈ keys solutions := by
  rw [mem_keys, List.any_eq_true]
  simp only [decide_eq_true_eq, key, solutionKey, Prod.mk.injEq]

/-- A run whose other processes stand where they stood before. -/
theorem aside {v : World P G} {Ok : World P G → Prop}
    (h : ∃ w', S.Reached countFails w₀ w' ∧ Ok w' ∧ ∀ q ≠ p, w'.pc q = v.pc q)
    (hsame : ∀ q ≠ p, v.pc q = w.pc q) :
    ∃ w', S.Reached countFails w₀ w' ∧ Ok w' ∧ ∀ q ≠ p, w'.pc q = w.pc q := by
  obtain ⟨w', hreached, hok, hother⟩ := h
  exact ⟨w', hreached, hok, fun q hq => (hother q hq).trans (hsame q hq)⟩

/-- `evaluate_agent_with_client`, left to itself, is a run of the process through its list. -/
theorem lone_loop (now : R → String) (rows : List HoldoutEnvironment) :
    ∀ (w : World P G) (table' : List SolutionRow) (r r' : R), S.Reached countFails w₀ w →
      w.pc p = .loop rows →
      evaluateAgentWithClient (S.calls p).evaluator S.player S.fromJson S.store S.toJson now
        (S.calls p).agentId rows w.solutions r = some (table', r') →
      ∃ w', S.Reached countFails w₀ w' ∧
        (w'.pc p = .loop [] ∧ w'.solutions = table' ∧ w'.returned = w.returned ∧
          w'.lost = w.lost) ∧
        ∀ q ≠ p, w'.pc q = w.pc q := by
  induction rows with
  | nil =>
    intro w table' r r' h hpc heval
    obtain ⟨rfl, _⟩ := Prod.mk.inj (Option.some.inj heval)
    exact ⟨w, h, ⟨hpc, rfl, rfl, rfl⟩, fun _ _ => rfl⟩
  | cons holdout rest ih =>
    intro w table' r r' h hpc heval
    have hloop : ∀ {v : World P G}, (v.move p (.loop rest)).pc p = .loop rest := by
      intro v
      rw [move_pc, if_pos rfl]
    unfold evaluateAgentWithClient at heval
    split at heval
    · next hany =>
      have hkey := (any_iff p holdout).mp hany
      have hlast := ih (w.move p (.loop rest)) table' r r' (h.step (.skip hpc hkey)) hloop heval
      exact aside hlast fun q hq => by rw [move_pc, if_neg hq]
    · next hany =>
      have hkey : S.key p holdout ∉ keys w.solutions := fun hmem => hany ((any_iff p holdout).mpr hmem)
      split at heval
      · next hnone =>
        have hlast := ih (w.move p (.loop rest)) table' r r'
          (h.step (.unreadable hpc (Or.inr hkey) hnone)) hloop heval
        exact aside hlast fun q hq => by rw [move_pc, if_neg hq]
      · next env hread =>
        obtain ⟨⟨a, r₁⟩, hsingle, hgo⟩ := Option.bind_eq_some_iff.mp heval
        have h₁ := h.step (.attempt hpc (Or.inr hkey) hread)
        have h₂ := h₁.step (.finish (now r₁) (move_pc.trans (if_pos rfl)) hsingle)
        have h₃ := h₂.step (.insert (move_pc.trans (if_pos rfl)))
        have hfresh : insertOrIgnore solutionKey (solutionRow S.store S.toJson (S.calls p).agentId
            holdout.environmentId (now r₁) a) w.solutions = w.solutions ++ [solutionRow S.store
              S.toJson (S.calls p).agentId holdout.environmentId (now r₁) a] :=
          insertOrIgnore_fresh hkey
        have hgo' : evaluateAgentWithClient (S.calls p).evaluator S.player S.fromJson S.store S.toJson
            now (S.calls p).agentId rest (insertOrIgnore solutionKey (solutionRow S.store S.toJson
              (S.calls p).agentId holdout.environmentId (now r₁) a) w.solutions) r₁ =
            some (table', r') := by
          rw [hfresh]
          exact hgo
        have hlast := ih _ table' r₁ r' h₃ (move_pc.trans (if_pos rfl)) hgo'
        exact aside hlast fun q hq => by simp [move_pc, hq]

/-- A call of a process alone, from loading its slice to its return. -/
theorem lone_call (now : R → String) {rows : List HoldoutEnvironment}
    {table' : List SolutionRow} {r r' : R} (h : S.Reached countFails w₀ w)
    (hpc : w.pc p = .outside) (hloaded : S.Loaded p rows)
    (heval : evaluateAgentWithClient (S.calls p).evaluator S.player S.fromJson S.store S.toJson now
      (S.calls p).agentId rows w.solutions r = some (table', r')) :
    ∃ w', S.Reached countFails w₀ w' ∧ w'.solutions = table' ∧
      w'.returned = w.returned ++ [p] ∧ w'.lost = w.lost ∧ ∀ q ≠ p, w'.pc q = w.pc q := by
  obtain ⟨w₁, h₁, ⟨hpc₁, hsolutions, hreturned, hlost⟩, hother⟩ := lone_loop now rows
    (w.move p (.loop rows)) table' r r' (h.step (.load hpc hloaded)) (by rw [move_pc, if_pos rfl])
    heval
  refine ⟨_, h₁.step (.returns hpc₁), hsolutions, congrArg (· ++ [p]) hreturned, hlost,
    fun q hq => ?_⟩
  rw [move_pc, if_neg hq, hother q hq, move_pc, if_neg hq]

end Lone

end Setting

section Example

noncomputable def twoJobs : Setting Bool Job ℝ (List ℕ) where
  environments := [⟨1, "", 2, 0, 2⟩, ⟨2, "", 2, 0, 2⟩]
  calls second := ⟨historical, 7, none, if second then 1 else 0, 2⟩
  player := scripted
  fromJson _ := some ⟨2, 0⟩
  store d := ⌊d⌋
  toJson _ := ""

def idle : World Bool Job := ⟨fun _ => .outside, [], [], [], []⟩

theorem idle_fresh : Fresh idle := ⟨fun _ => rfl, List.nodup_nil, rfl, rfl, rfl⟩

theorem twoJobs_first : twoJobs.Loaded false [⟨1, "", 2, 0, 2⟩] := by
  have hload := loads_load twoJobs.environments none (n := 2) (i := 0) Nat.two_pos
  exact hload

theorem twoJobs_second : twoJobs.Loaded true [⟨2, "", 2, 0, 2⟩] := by
  have hload := loads_load twoJobs.environments none (n := 2) (i := 1) Nat.one_lt_two
  exact hload

/-- The first process plays its job, and is killed before it enters the row. -/
theorem twoJobs_killed (countFails : Prop) : ∃ w, twoJobs.Reached countFails idle w ∧
    (∀ p, w.pc p = .outside) ∧ w.solutions = [] ∧ w.returned = [] ∧ w.lost = [(7, 1)] := by
  have hload : twoJobs.Reached countFails idle _ :=
    Setting.Reached.start.step (.load (p := false) rfl twoJobs_first)
  have hplay := hload.step (.attempt (p := false) rfl (.inr List.not_mem_nil) rfl)
  have hfinish := hplay.step (.finish (p := false) "" rfl late_finish)
  refine ⟨_, hfinish.step (.kill false), fun p => ?_, rfl, rfl, rfl⟩
  cases p <;> rfl

/-- What either process makes of its job where the table has no row of it. -/
theorem twoJobs_plays (p : Bool) {id : ℤ} {table : List SolutionRow}
    (hfresh : (7, id) ∉ keys table) :
    evaluateAgentWithClient (twoJobs.calls p).evaluator twoJobs.player twoJobs.fromJson
      twoJobs.store twoJobs.toJson (fun _ => "") (twoJobs.calls p).agentId [⟨id, "", 2, 0, 2⟩] table
      [1, 0, 0] = some (table ++ [solutionRow twoJobs.store twoJobs.toJson 7 id ""
        (historical.grade (⟨2, 0⟩ : Job) ⟨0, 3⟩ 2 [1, 0, 0])], []) := by
  have hany := (Setting.any_iff (S := twoJobs) p ⟨id, "", 2, 0, 2⟩).not.mpr hfresh
  rw [evaluateAgentWithClient, if_neg hany]
  show (historical.evaluateSingle scripted (⟨2, 0⟩ : Job) [1, 0, 0]).bind _ = _
  rw [late_finish]
  rfl

/-- After the kill both processes work on what is left of their slices, and return. -/
theorem twoJobs_return (countFails : Prop) : ∃ w, twoJobs.Reached countFails idle w ∧
    keys w.solutions = [(7, 1), (7, 2)] ∧ w.returned = [false, true] ∧ w.lost = [(7, 1)] := by
  obtain ⟨w, hw, hpc, hnone, hreturned, hlost⟩ := twoJobs_killed countFails
  obtain ⟨w₁, h₁, hfirst, hreturned₁, hlost₁, hother⟩ := Setting.lone_call (fun _ => "") hw
    (hpc false) twoJobs_first (twoJobs_plays false (by simp [hnone, keys]))
  rw [hnone, List.nil_append] at hfirst
  have hkeys : keys w₁.solutions = [(7, 1)] := by rw [hfirst]; rfl
  obtain ⟨w₂, h₂, hsecond, hreturned₂, hlost₂, -⟩ := Setting.lone_call (fun _ => "") h₁
    ((hother true (by simp)).trans (hpc true)) twoJobs_second
    (twoJobs_plays true (by simp [hkeys]))
  refine ⟨w₂, h₂, ?_, by rw [hreturned₂, hreturned₁, hreturned]; rfl,
    hlost₂.trans (hlost₁.trans hlost)⟩
  rw [hsecond, hfirst]
  rfl

theorem evaluation_complete_job : ∃ w, twoJobs.Reached True idle w ∧ w.lost = [(7, 1)] ∧
    ∀ e ∈ twoJobs.environments, (keys w.solutions).count (7, e.environmentId) = 1 := by
  obtain ⟨w, hw, _, hreturned, hlost⟩ := twoJobs_return True
  obtain ⟨_, _, _, hcomplete⟩ := Setting.evaluation_complete idle_fresh hw (by simp [twoJobs])
  refine ⟨w, hw, hlost, fun e he => ?_⟩
  refine hcomplete 7 none 2 (by omega) (fun i hi => ?_) e he (by simp) (by simp [twoJobs])
  have hcases : i = 0 ∨ i = 1 := by omega
  rcases hcases with rfl | rfl
  · exact ⟨false, by simp [hreturned], rfl, rfl, rfl, rfl⟩
  · exact ⟨true, by simp [hreturned], rfl, rfl, rfl, rfl⟩

/-- The job of the kill is played twice, the other once. -/
theorem attempts_accounted_job : ∃ w, twoJobs.Reached False idle w ∧ w.lost = [(7, 1)] ∧
    w.played.count (7, 1) = 2 ∧ w.played.count (7, 2) = 1 := by
  obtain ⟨w, hw, hkeys, _, hlost⟩ := twoJobs_return False
  have hsplit : twoJobs.Split := by
    refine ⟨by simp [twoJobs], fun p => ?_, fun p q hne hagent => ⟨rfl, rfl, ?_⟩⟩
    · cases p <;> simp [twoJobs]
    · cases p <;> cases q <;> simp_all [twoJobs]
  obtain ⟨_, hfirst, _⟩ := Setting.attempts_accounted idle_fresh hsplit hw (7, 1)
  obtain ⟨_, hsecond, _⟩ := Setting.attempts_accounted idle_fresh hsplit hw (7, 2)
  refine ⟨w, hw, hlost, ?_, ?_⟩
  · rw [(hfirst (by simp [idle, keys])).1 (.inl (by simp [hkeys])), hlost]
    rfl
  · rw [(hsecond (by simp [idle, keys])).1 (.inl (by simp [hkeys])), hlost]
    rfl

end Example

end Mcts.EvaluatorRuns
