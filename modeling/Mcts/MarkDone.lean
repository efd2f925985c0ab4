import Mcts.Collecting

/-!
How often the handler completes a popped slot. The recovery after an exception
marks every view of the iteration, also those that were marked before; so each
is marked exactly once just when nothing has been marked before the exception.
-/
namespace Mcts.MarkDone

open Slots Handler Collecting

variable {F : Type} [Zero F]

/-- Every popped view has been marked done once when the loop goes on. -/
def Completes (x : Iteration F) (views : List ℕ) (w : World F) : Prop :=
  (doWork x views w).1 = .goesOn → (doWork x views w).2.marks.Perm (w.marks ++ views)

section Condition

inductive Cause
  | lookahead
  | read (k : ℕ)
  | concatenate
  | infer
  | write (k : ℕ)
  | metrics

def writeError (priors : Array2 F) (values : List F) (s : TilersSlot F) : Option PyError :=
  match writePriorsValues priors values s with
  | .error e => some e
  | .ok _ => none

/-- The first of the views from the `k`th on whose answer cannot be written. -/
def firstWrite (faults : Point → Option PyError) (priors : Array2 F) (values : List F)
    (slots : ℕ → TilersSlot F) : ℕ → ℕ → List (ℕ × ℕ) → Option (ℕ × PyError)
  | _, _, [] => none
  | k, idx, (slotLen, sv) :: rest =>
    match faults (.write k) with
    | some e => some (k, e)
    | none =>
      match writeError (priors.slice idx (idx + slotLen)) ((values.drop idx).take slotLen)
          (slots sv) with
      | some e => some (k, e)
      | none => firstWrite faults priors values slots (k + 1) (idx + slotLen) rest

def firstAnswer (x : Iteration F) (slots : ℕ → TilersSlot F) (batched : Batched) :
    Option (Cause × PyError) :=
  match x.agent batched.batch with
  | .error e => some (.infer, e)
  | .ok (priors, values) =>
    match firstWrite x.faults priors values slots 0 0
        (batched.slotBatchSizes.zip batched.validSlotViews) with
    | some (k, e) => some (.write k, e)
    | none => if x.metrics then (x.faults .metrics).map (Prod.mk .metrics) else none

def firstError (x : Iteration F) (slots : ℕ → TilersSlot F) (views : List ℕ) :
    Option (Cause × PyError) :=
  let numLayers := x.lookahead + 1
  if LOOKAHEAD_MAX < numLayers then
    some (.lookahead,
      .exception s!"lookahead+1={numLayers} exceeds LOOKAHEAD_MAX={LOOKAHEAD_MAX}")
  else
    match firstRead x.faults 0 views with
    | some (k, e) => some (.read k, e)
    | none =>
      if validViews slots views = [] then none
      else
        match x.faults .concatenate with
        | some e => some (.concatenate, e)
        | none => firstAnswer x slots (collected numLayers slots views).batched

/-- A view has been marked done before: one without rows that was already
collected, or one whose answer was already written. -/
def MarkedBefore (slots : ℕ → TilersSlot F) (views : List ℕ) : Cause → Prop
  | .lookahead => False
  | .read k => ∃ sv ∈ views.take k, batchLen (slots sv) = 0
  | .concatenate | .infer => ∃ sv ∈ views, batchLen (slots sv) = 0
  | .write k => 0 < k ∨ ∃ sv ∈ views, batchLen (slots sv) = 0
  | .metrics => True

end Condition

section Attempt

variable {faults : Point → Option PyError} {priors : Array2 F} {values : List F}
variable {slots : ℕ → TilersSlot F} {w w' : World F} {views : List ℕ}

theorem writeError_congr {s t : TilersSlot F} (h : batchLen s = batchLen t) :
    writeError priors values s = writeError priors values t := by
  simp only [writeError, writePriorsValues, h]
  split_ifs <;> rfl

theorem writePriorsValues_batchLen {s slot : TilersSlot F}
    (h : writePriorsValues priors values s = .ok slot) : batchLen slot = batchLen s := by
  simp only [writePriorsValues] at h
  split_ifs at h
  cases h
  rfl

omit [Zero F] in
/-- Writing an answer and marking the slot done change no batch size. -/
theorem batchLen_written {sv : ℕ} {slot : TilersSlot F}
    (hb : ∀ v, batchLen (w.slots v) = batchLen (slots v))
    (hslot : batchLen slot = batchLen (w.slots sv)) (v : ℕ) :
    batchLen ((markDone sv { w with slots := Function.update w.slots sv slot }).slots v) =
      batchLen (slots v) := by
  by_cases hv : v = sv
  · subst hv
    simp only [markDone, Function.update_self]
    exact hslot.trans (hb v)
  · simp only [markDone, Function.update_of_ne hv]
    exact hb v

theorem writeBack_ok (pairs : List (ℕ × ℕ)) {k idx : ℕ}
    (hb : ∀ v, batchLen (w.slots v) = batchLen (slots v))
    (hfirst : firstWrite faults priors values slots k idx pairs = none) :
    ∃ w', writeBack faults priors values k idx pairs w = (.ok (), w') ∧
      w'.marks = w.marks ++ pairs.map (·.2) := by
  induction pairs generalizing k idx w with
  | nil => exact ⟨w, rfl, by simp⟩
  | cons pair rest ih =>
    obtain ⟨slotLen, sv⟩ := pair
    rw [firstWrite] at hfirst
    cases hk : faults (.write k) with
    | some e => simp [hk] at hfirst
    | none =>
      rw [hk, ← writeError_congr (hb sv), writeError] at hfirst
      rw [writeBack, hk]
      cases hwrite : writePriorsValues (priors.slice idx (idx + slotLen))
          ((values.drop idx).take slotLen) (w.slots sv) with
      | error e => simp [hwrite] at hfirst
      | ok slot =>
        simp only [hwrite] at hfirst
        obtain ⟨w', hrest, hmarks⟩ :=
          ih (batchLen_written hb (writePriorsValues_batchLen hwrite)) hfirst
        exact ⟨w', hrest, by rw [hmarks]; simp [markDone]⟩

theorem writeBack_error (pairs : List (ℕ × ℕ)) {k idx j : ℕ} {e : PyError}
    (hb : ∀ v, batchLen (w.slots v) = batchLen (slots v))
    (hfirst : firstWrite faults priors values slots k idx pairs = some (j, e)) :
    ∃ i w', j = k + i ∧ i < pairs.length ∧
      writeBack faults priors values k idx pairs w = (.error e, w') ∧
      w'.marks = w.marks ++ (pairs.map (·.2)).take i := by
  induction pairs generalizing k idx w with
  | nil => simp [firstWrite] at hfirst
  | cons pair rest ih =>
    obtain ⟨slotLen, sv⟩ := pair
    rw [firstWrite] at hfirst
    cases hk : faults (.write k) with
    | some e' =>
      simp only [hk, Option.some.injEq, Prod.mk.injEq] at hfirst
      obtain ⟨rfl, rfl⟩ := hfirst
      exact ⟨0, w, rfl, by simp, by rw [writeBack, hk], by simp⟩
    | none =>
      rw [hk, ← writeError_congr (hb sv), writeError] at hfirst
      cases hwrite : writePriorsValues (priors.slice idx (idx + slotLen))
          ((values.drop idx).take slotLen) (w.slots sv) with
      | error e' =>
        simp only [hwrite, Option.some.injEq, Prod.mk.injEq] at hfirst
        obtain ⟨rfl, rfl⟩ := hfirst
        exact ⟨0, w, rfl, by simp, by rw [writeBack, hk]; simp only [hwrite], by simp⟩
      | ok slot =>
        simp only [hwrite] at hfirst
        obtain ⟨i, w', hj, hi, hrest, hmarks⟩ :=
          ih (batchLen_written hb (writePriorsValues_batchLen hwrite)) hfirst
        refine ⟨i + 1, w', by omega, by simpa using hi, ?_, by rw [hmarks]; simp [markDone]⟩
        rw [writeBack, hk]
        simp only [hwrite]
        exact hrest

omit [Zero F] in
theorem emptyViews_nil_iff : emptyViews slots views = [] ↔
    ¬ ∃ sv ∈ views, batchLen (slots sv) = 0 := by
  simp [emptyViews, List.filter_eq_nil_iff]

/-- From the call of the agent on, an exception leaves marked what was written before it. -/
theorem answer_error {x : Iteration F} {batched : Batched} {cause : Cause} {e : PyError}
    (hb : ∀ v, batchLen (w.slots v) = batchLen (slots v))
    (hfirst : firstAnswer x slots batched = some (cause, e)) :
    ∃ w' i, answer x batched w = (.error e, w') ∧ w'.marks = w.marks ++
      ((batched.slotBatchSizes.zip batched.validSlotViews).map (·.2)).take i ∧
      (cause = .infer ∧ i = 0 ∨ cause = .write i ∧
        i < (batched.slotBatchSizes.zip batched.validSlotViews).length ∨
        cause = .metrics ∧ i = (batched.slotBatchSizes.zip batched.validSlotViews).length) := by
  rw [firstAnswer] at hfirst
  rw [answer]
  cases hagent : x.agent batched.batch with
  | error e' =>
    simp only [hagent, Option.some.injEq, Prod.mk.injEq] at hfirst
    obtain ⟨rfl, rfl⟩ := hfirst
    exact ⟨w, 0, rfl, by simp, Or.inl ⟨rfl, rfl⟩⟩
  | ok out =>
    obtain ⟨priors, values⟩ := out
    simp only [hagent] at hfirst
    split at hfirst
    · rename_i k e' hwrite
      cases hfirst
      obtain ⟨i, w', hk, hi, hback, hmarks⟩ := writeBack_error _ hb hwrite
      refine ⟨w', i, by simp only [hback], hmarks, Or.inr (Or.inl ⟨?_, hi⟩)⟩
      rw [hk, Nat.zero_add]
    · rename_i hwrite
      split at hfirst
      · rename_i hmetrics
        obtain ⟨e', hfault, hcause⟩ := Option.map_eq_some_iff.mp hfirst
        cases hcause
        obtain ⟨w', hback, hmarks⟩ := writeBack_ok _ hb hwrite
        refine ⟨w', _, ?_, ?_, Or.inr (Or.inr ⟨rfl, rfl⟩)⟩
        · simp only [hback, hfault]
          rw [if_pos hmetrics]
        · rw [hmarks, List.take_of_length_le (by simp)]
      · exact absurd hfirst (by simp)

theorem answer_ok {x : Iteration F} {batched : Batched}
    (hb : ∀ v, batchLen (w.slots v) = batchLen (slots v))
    (hfirst : firstAnswer x slots batched = none) :
    ∃ w', answer x batched w = (.ok (), w') ∧ w'.marks = w.marks ++
      (batched.slotBatchSizes.zip batched.validSlotViews).map (·.2) := by
  rw [firstAnswer] at hfirst
  rw [answer]
  cases hagent : x.agent batched.batch with
  | error e' => simp [hagent] at hfirst
  | ok out =>
    obtain ⟨priors, values⟩ := out
    simp only [hagent] at hfirst
    split at hfirst
    · exact absurd hfirst (by simp)
    · rename_i hwrite
      obtain ⟨w', hback, hmarks⟩ := writeBack_ok _ hb hwrite
      simp only [hback]
      split
      · rename_i hmetrics
        rw [if_pos hmetrics, Option.map_eq_none_iff] at hfirst
        rw [hfirst]
        exact ⟨_, rfl, hmarks⟩
      · exact ⟨w', rfl, hmarks⟩

omit [Zero F] in
theorem collected_views (n : ℕ) (slots : ℕ → TilersSlot F) (views : List ℕ) :
    ((collected n slots views).batched.slotBatchSizes.zip
      (collected n slots views).batched.validSlotViews).map (·.2) = validViews slots views := by
  rw [collected_pairs, List.map_map]
  exact List.map_id _

/-- What an iteration has marked done when it stops: the views marked before the cause. -/
theorem attempt_error {x : Iteration F} {cause : Cause} {e : PyError}
    (hfirst : firstError x w.slots views = some (cause, e)) :
    ∃ w' made, attempt x views w = (.error e, w') ∧ w'.marks = w.marks ++ made ∧
      (made = [] ↔ ¬ MarkedBefore w.slots views cause) := by
  simp only [firstError] at hfirst
  split at hfirst
  · rename_i hlook
    cases hfirst
    refine ⟨w, [], ?_, by simp, by simp [MarkedBefore]⟩
    simp only [attempt, buildBoardBatch]
    rw [if_pos hlook]
  rename_i hlook
  cases hread : firstRead x.faults 0 views with
  | some found =>
    obtain ⟨k, e'⟩ := found
    simp only [hread, Option.some.injEq, Prod.mk.injEq] at hfirst
    obtain ⟨rfl, rfl⟩ := hfirst
    obtain ⟨i, w', hk, _, hcollect, hmarks⟩ := collect_error (x.lookahead + 1)
      ⟨[], [], [], [], [], [], []⟩ (Steady.refl w.slots) hread
    refine ⟨w', _, ?_, hmarks, ?_⟩
    · simp only [attempt, buildBoardBatch]
      rw [if_neg hlook, hcollect]
    · rw [hk, Nat.zero_add]
      exact emptyViews_nil_iff
  | none =>
    simp only [hread] at hfirst
    obtain ⟨w', hsteady, hmarks, _, hbuild⟩ := buildBoardBatch_eq (Nat.le_of_not_lt hlook) hread w
    split at hfirst
    · exact absurd hfirst (by simp)
    rename_i hvalid
    rw [if_neg hvalid] at hbuild
    cases hconcat : x.faults .concatenate with
    | some e' =>
      simp only [hconcat, Option.some.injEq, Prod.mk.injEq] at hfirst
      obtain ⟨rfl, rfl⟩ := hfirst
      refine ⟨w', _, ?_, hmarks, emptyViews_nil_iff⟩
      rw [attempt, hbuild, hconcat]
    | none =>
      simp only [hconcat] at hfirst hbuild
      obtain ⟨w'', i, hanswer, hmarks', hcause⟩ := answer_error hsteady.batchLen hfirst
      have hlength := congrArg List.length (collected_views (x.lookahead + 1) w.slots views)
      rw [List.length_map] at hlength
      rw [collected_views, hmarks, List.append_assoc] at hmarks'
      rw [hlength] at hcause
      refine ⟨w'', _, by rw [attempt, hbuild]; exact hanswer, hmarks', ?_⟩
      have hpos := List.length_pos_iff.mpr hvalid
      rw [List.append_eq_nil_iff, emptyViews_nil_iff, List.take_eq_nil_iff]
      rcases hcause with ⟨rfl, rfl⟩ | ⟨rfl, hi⟩ | ⟨rfl, rfl⟩
      · simp [MarkedBefore]
      · simp only [MarkedBefore, hvalid, or_false, not_or]
        constructor
        · rintro ⟨hempty, hzero⟩
          exact ⟨by omega, hempty⟩
        · rintro ⟨hzero, hempty⟩
          exact ⟨hempty, by omega⟩
      · simp [MarkedBefore, hvalid]

/-- Without an exception an iteration marks every view. -/
theorem attempt_ok {x : Iteration F} (hfirst : firstError x w.slots views = none) :
    ∃ w', attempt x views w = (.ok (), w') ∧ w'.marks.Perm (w.marks ++ views) := by
  simp only [firstError] at hfirst
  split at hfirst
  · exact absurd hfirst (by simp)
  rename_i hlook
  cases hread : firstRead x.faults 0 views with
  | some found => simp [hread] at hfirst
  | none =>
    simp only [hread] at hfirst
    obtain ⟨w', hsteady, hmarks, _, hbuild⟩ := buildBoardBatch_eq (Nat.le_of_not_lt hlook) hread w
    have hperm := (views_perm w.slots views).append_left w.marks
    split at hfirst
    · rename_i hvalid
      rw [if_pos hvalid] at hbuild
      rw [hvalid, List.append_nil, ← hmarks] at hperm
      exact ⟨w', by rw [attempt, hbuild], hperm⟩
    · rename_i hvalid
      rw [if_neg hvalid] at hbuild
      cases hconcat : x.faults .concatenate with
      | some e' => simp [hconcat] at hfirst
      | none =>
        simp only [hconcat] at hfirst hbuild
        obtain ⟨w'', hanswer, hmarks'⟩ := answer_ok hsteady.batchLen hfirst
        rw [collected_views, hmarks, List.append_assoc] at hmarks'
        exact ⟨w'', by rw [attempt, hbuild]; exact hanswer, hmarks' ▸ hperm⟩

end Attempt

section Recovery

variable {x : Iteration F} {views : List ℕ} {w : World F}

omit [Zero F] in
theorem recover_marks (views : List ℕ) (w : World F) :
    (views.foldl (fun w sv => markDone sv w) w).marks = w.marks ++ views := by
  induction views generalizing w with
  | nil => simp
  | cons sv rest ih =>
    rw [List.foldl_cons, ih]
    simp [markDone]

/-- The handler completes every popped slot exactly once, unless an exception
comes after it has marked a slot done. -/
theorem completes_iff (x : Iteration F) (views : List ℕ) (w : World F) :
    Completes x views w ↔ ∀ cause message,
      firstError x w.slots views = some (cause, .exception message) →
        ¬ MarkedBefore w.slots views cause := by
  rw [Completes, doWork]
  cases hfirst : firstError x w.slots views with
  | none =>
    obtain ⟨w', hattempt, hperm⟩ := attempt_ok hfirst
    simp [hattempt, hperm]
  | some found =>
    obtain ⟨cause, e⟩ := found
    obtain ⟨w', made, hattempt, hmarks, hmade⟩ := attempt_error hfirst
    cases e with
    | keyboardInterrupt => simp [hattempt]
    | baseException name => simp [hattempt]
    | exception message =>
      simp only [hattempt, recover_marks, hmarks, true_implies]
      constructor
      · intro hperm cause' message' hsome
        cases hsome
        rw [← hmade]
        have hlength := hperm.length_eq
        simp only [List.length_append] at hlength
        exact List.length_eq_zero_iff.mp (by omega)
      · intro hcause
        have hnil := hmade.mpr (hcause cause message rfl)
        rw [hnil, List.append_nil]

end Recovery

section Runs

def blank : TilersSlot ℕ :=
  ⟨SlotProtocol.SLOT_READY, 1, 0, 0, fun _ => 1, fun _ => 1, fun _ => 0, fun _ => 1, fun _ _ => 0,
    fun _ => 0, fun _ => 0, fun _ => 0⟩

def twoRows : Array2 ℕ := ⟨2, 1, [7, 8], rfl⟩

def secondFails : Iteration ℕ where
  lookahead := 1
  metrics := false
  agent _ := .ok (twoRows, [5, 6])
  faults
    | .write 1 => some (.exception "priors not contiguous")
    | _ => none

/-- Two slots are popped; the first is marked done a second time. -/
theorem marked_twice :
    (doWork secondFails [3, 4] ⟨fun _ => blank, [], []⟩).2.marks = [3, 3, 4] ∧
      ¬ Completes secondFails [3, 4] ⟨fun _ => blank, [], []⟩ := by
  have hmarks : (doWork secondFails [3, 4] ⟨fun _ => blank, [], []⟩).2.marks = [3, 3, 4] := by
    decide +kernel
  refine ⟨hmarks, fun hcompletes => ?_⟩
  have hperm := (hcompletes (by decide +kernel)).length_eq
  rw [hmarks] at hperm
  exact absurd hperm (by decide)

end Runs

end Mcts.MarkDone
