import Mcts.Handler

/-!
What the loop of `build_board_batch` collects. Views without a row are marked
done on the way; of all others the lists get one entry each, in order. The first
fault ends the loop.
-/
namespace Mcts.Collecting

open Slots Handler
open SlotProtocol (MAX_BATCH)

variable {F : Type} {faults : Point → Option PyError} {k : ℕ} {views : List ℕ}
variable {slots : ℕ → TilersSlot F} {w : World F}

def Steady (slots slots' : ℕ → TilersSlot F) : Prop :=
  ∀ sv, ∃ state, slots' sv = { slots sv with state := state }

theorem Steady.refl (slots : ℕ → TilersSlot F) : Steady slots slots := fun sv =>
  ⟨(slots sv).state, rfl⟩

theorem Steady.markDone (h : Steady slots w.slots) (sv : ℕ) :
    Steady slots (markDone sv w).slots := by
  intro v
  obtain ⟨state, hstate⟩ := h v
  by_cases hv : v = sv
  · subst hv
    refine ⟨SlotProtocol.SLOT_DONE, ?_⟩
    simp only [Handler.markDone, Function.update_self, hstate]
  · refine ⟨state, ?_⟩
    simp only [Handler.markDone, Function.update_of_ne hv, hstate]

theorem Steady.batchLen (h : Steady slots w.slots) (sv : ℕ) :
    batchLen (w.slots sv) = batchLen (slots sv) := by
  obtain ⟨state, hstate⟩ := h sv
  rw [hstate]
  rfl

theorem Steady.append (h : Steady slots w.slots) (acc : Lists) (n sv : ℕ) :
    acc.append n sv (w.slots sv) = acc.append n sv (slots sv) := by
  obtain ⟨state, hstate⟩ := h sv
  rw [hstate]
  rfl

def emptyViews (slots : ℕ → TilersSlot F) (views : List ℕ) : List ℕ :=
  views.filter fun sv => batchLen (slots sv) = 0

def validViews (slots : ℕ → TilersSlot F) (views : List ℕ) : List ℕ :=
  views.filter fun sv => batchLen (slots sv) ≠ 0

theorem views_perm (slots : ℕ → TilersSlot F) (views : List ℕ) :
    (emptyViews slots views ++ validViews slots views).Perm views := by
  have hperm := List.filter_append_perm (fun sv => decide (batchLen (slots sv) = 0)) views
  simpa [emptyViews, validViews] using hperm

def extended (acc : Lists) (n : ℕ) (slots : ℕ → TilersSlot F) (svs : List ℕ) : Lists where
  rawBoards := acc.rawBoards ++ svs.map fun sv =>
    rowsOf (slots sv) fun r => (reshape ((slots sv).board r)).take n
  maskList := acc.maskList ++ svs.map fun sv => rowsOf (slots sv) (maskRow (slots sv))
  hList := acc.hList ++ svs.map fun sv => rowsOf (slots sv) (slots sv).h
  wList := acc.wList ++ svs.map fun sv => rowsOf (slots sv) (slots sv).w
  ancList := acc.ancList ++ svs.map fun sv => rowsOf (slots sv) (slots sv).numAncillas
  slotBatchSizes := acc.slotBatchSizes ++ svs.map fun sv => batchLen (slots sv)
  validSlotViews := acc.validSlotViews ++ svs

/-- What `faults` says of the views from the `k`th on: the first to raise. -/
def firstRead (faults : Point → Option PyError) : ℕ → List ℕ → Option (ℕ × PyError)
  | _, [] => none
  | k, _ :: rest =>
    match faults (.read k) with
    | some e => some (k, e)
    | none => firstRead faults (k + 1) rest

theorem firstRead_none (k : ℕ) (views : List ℕ) : firstRead (fun _ => none) k views = none := by
  induction views generalizing k with
  | nil => rfl
  | cons sv rest ih => exact ih (k + 1)

theorem emptyViews_cons (sv : ℕ) (rest : List ℕ) : emptyViews slots (sv :: rest) =
    if batchLen (slots sv) = 0 then sv :: emptyViews slots rest else emptyViews slots rest := by
  simp [emptyViews, List.filter_cons]

theorem validViews_cons (sv : ℕ) (rest : List ℕ) : validViews slots (sv :: rest) =
    if batchLen (slots sv) = 0 then validViews slots rest else sv :: validViews slots rest := by
  simp only [validViews, List.filter_cons]
  split <;> simp_all

theorem extended_append (acc : Lists) (n sv : ℕ) (svs : List ℕ) :
    extended (acc.append n sv (slots sv)) n slots svs = extended acc n slots (sv :: svs) := by
  simp [extended, Lists.append]

/-- Without a fault the loop collects the views with rows and marks the others. -/
theorem collect_ok (n : ℕ) (acc : Lists) (hw : Steady slots w.slots)
    (hfaults : firstRead faults k views = none) :
    ∃ w', collect faults n k views acc w =
        (.ok (extended acc n slots (validViews slots views)), w') ∧
      Steady slots w'.slots ∧ w'.marks = w.marks ++ emptyViews slots views ∧
      w'.metrics = w.metrics := by
  induction views generalizing k acc w with
  | nil => exact ⟨w, by simp [collect, validViews, extended], hw, by simp [emptyViews], rfl⟩
  | cons sv rest ih =>
    rw [firstRead] at hfaults
    cases hk : faults (.read k) with
    | some e => simp [hk] at hfaults
    | none =>
      simp only [hk] at hfaults
      rw [collect, hk, emptyViews_cons, validViews_cons, ← hw.batchLen sv]
      simp only [Nat.le_zero]
      split
      · obtain ⟨w', hcollect, hsteady, hmarks, hmetrics⟩ := ih acc (hw.markDone sv) hfaults
        exact ⟨w', hcollect, hsteady, by rw [hmarks]; simp [Handler.markDone], hmetrics⟩
      · rw [hw.append acc n sv]
        obtain ⟨w', hcollect, hrest⟩ := ih (acc.append n sv (slots sv)) hw hfaults
        exact ⟨w', by rw [hcollect, extended_append], hrest⟩

/-- A fault leaves the views before it marked if they have no rows. -/
theorem collect_error (n : ℕ) (acc : Lists) (hw : Steady slots w.slots) {j : ℕ} {e : PyError}
    (hfaults : firstRead faults k views = some (j, e)) :
    ∃ i w', j = k + i ∧ i < views.length ∧ collect faults n k views acc w = (.error e, w') ∧
      w'.marks = w.marks ++ emptyViews slots (views.take i) := by
  induction views generalizing k acc w with
  | nil => simp [firstRead] at hfaults
  | cons sv rest ih =>
    rw [firstRead] at hfaults
    cases hk : faults (.read k) with
    | some e' =>
      simp only [hk, Option.some.injEq, Prod.mk.injEq] at hfaults
      obtain ⟨rfl, rfl⟩ := hfaults
      exact ⟨0, w, rfl, by simp, by rw [collect, hk], by simp [emptyViews]⟩
    | none =>
      simp only [hk] at hfaults
      rw [collect, hk]
      simp only [Nat.le_zero]
      split
      · rename_i hempty
        obtain ⟨i, w', hj, hi, hcollect, hmarks⟩ := ih acc (hw.markDone sv) hfaults
        refine ⟨i + 1, w', by omega, by simpa using hi, hcollect, ?_⟩
        rw [hmarks, List.take_succ_cons, emptyViews_cons, if_pos (hw.batchLen sv ▸ hempty)]
        simp [Handler.markDone]
      · rename_i hvalid
        obtain ⟨i, w', hj, hi, hcollect, hmarks⟩ :=
          ih (acc.append n sv (w.slots sv)) hw hfaults
        refine ⟨i + 1, w', by omega, by simpa using hi, hcollect, ?_⟩
        rw [hmarks, List.take_succ_cons, emptyViews_cons, if_neg (hw.batchLen sv ▸ hvalid)]

def collected (n : ℕ) (slots : ℕ → TilersSlot F) (views : List ℕ) : Lists :=
  extended ⟨[], [], [], [], [], [], []⟩ n slots (validViews slots views)

/-- Each view with rows stands beside its batch size. -/
theorem collected_pairs (n : ℕ) (slots : ℕ → TilersSlot F) (views : List ℕ) :
    (collected n slots views).batched.slotBatchSizes.zip
      (collected n slots views).batched.validSlotViews =
        (validViews slots views).map fun sv => (batchLen (slots sv), sv) := by
  have hzip : ((validViews slots views).map fun sv => batchLen (slots sv)).zip
      ((validViews slots views).map id) = _ := List.zip_map'
  rw [List.map_id] at hzip
  simpa only [collected, extended, Lists.batched, List.nil_append, id] using hzip

/-- `build_board_batch` when no view raises. -/
theorem buildBoardBatch_eq {lookahead : ℕ} (hlook : lookahead + 1 ≤ LOOKAHEAD_MAX)
    (hread : firstRead faults 0 views = none) (w : World F) :
    ∃ w', Steady w.slots w'.slots ∧ w'.marks = w.marks ++ emptyViews w.slots views ∧
      w'.metrics = w.metrics ∧ buildBoardBatch faults views lookahead w =
        if validViews w.slots views = [] then (.ok none, w')
        else
          match faults .concatenate with
          | some e => (.error e, w')
          | none => (.ok (some (collected (lookahead + 1) w.slots views).batched), w') := by
  obtain ⟨w', hcollect, hsteady, hmarks, hmetrics⟩ :=
    collect_ok (lookahead + 1) ⟨[], [], [], [], [], [], []⟩ (Steady.refl w.slots) hread
  refine ⟨w', hsteady, hmarks, hmetrics, ?_⟩
  simp only [buildBoardBatch]
  rw [if_neg (by omega), hcollect]
  rfl

end Mcts.Collecting
