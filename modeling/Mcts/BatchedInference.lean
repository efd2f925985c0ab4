import Mcts.BatchLayout

/-!
Inference in batches answers every observation as the model would on its own.
The answers follow the rows: through padding and its removal, through the slices
written back to each slot, and through the rows of the slot that a client reads.
-/
namespace Mcts.BatchedInference

open Regions Slots Handler Collecting Rows

variable {F : Type} {f : Row → List F × F} {cols : ℕ} {out : Array2 F × List F}
variable {before rows after : List Row}

section Models

structure Answers (f : Row → List F × F) (cols : ℕ) (rows : List Row)
    (out : Array2 F × List F) : Prop where
  rowCount : out.1.rows = rows.length
  colCount : out.1.cols = cols
  data : out.1.data = (rows.map fun row => (f row).1).flatten
  values : out.2 = rows.map fun row => (f row).2

structure Shaped (layers cells : ℕ) (row : Row) : Prop where
  layers : row.board.length = layers
  cells : ∀ layer ∈ row.board, layer.length = cells
  channels : ∀ layer ∈ row.board, ∀ cell ∈ layer, cell.length = CELL_FIELDS
  mask : row.actionMask.length = NUM_ACTIONS

/-- A model whose outputs in a row are those of `f`, whatever the other rows are
and whatever stands past the grid. -/
structure RowWise (model : Batch → Array2 F × List F) (f : Row → List F × F) (cols : ℕ) :
    Prop where
  cols_le : cols ≤ NUM_ACTIONS
  priors : ∀ row, (f row).1.length = cols
  answers : ∀ layers cells rows, rows ≠ [] → (∀ row ∈ rows, Shaped layers cells row) →
    Answers f cols rows (model (ofRows rows))
  pad : ∀ row, f (row.trim row.area) = f row

variable {model : Batch → Array2 F × List F}

/-- Cells past the grid may be cut. -/
theorem RowWise.trim (h : RowWise model f cols) {row : Row} {cells : ℕ}
    (hcells : row.area ≤ cells) : f (row.trim cells) = f row := by
  have hboard : (row.trim cells).trim (row.trim cells).area = row.trim row.area := by
    have harea : (row.trim cells).area = row.area := rfl
    rw [harea]
    simp only [Row.trim, List.map_map, Function.comp_def, List.take_take, Nat.min_eq_left hcells]
  rw [← h.pad (row.trim cells), hboard, h.pad]

theorem Answers.congr {g : Row → Row} (h : Answers f cols (rows.map g) out)
    (hg : ∀ row ∈ rows, f (g row) = f row) : Answers f cols rows out where
  rowCount := h.rowCount.trans (List.length_map g)
  colCount := h.colCount
  data := by
    rw [h.data, List.map_map]
    congr 1
    exact List.map_congr_left fun row hrow => congrArg Prod.fst (hg row hrow)
  values := by
    rw [h.values, List.map_map]
    exact List.map_congr_left fun row hrow => congrArg Prod.snd (hg row hrow)

end Models

section Slices

theorem drop_take_middle {α : Type} (xs ys zs : List α) :
    ((xs ++ ys ++ zs).drop xs.length).take ys.length = ys := by
  rw [List.append_assoc, List.drop_left, List.take_left]

theorem priors_length (hf : ∀ row, (f row).1.length = cols) (rows : List Row) :
    (rows.map fun row => (f row).1).flatten.length = rows.length * cols := by
  induction rows with
  | nil => exact (Nat.zero_mul cols).symm
  | cons row rest ih =>
    rw [List.map_cons, List.flatten_cons, List.length_append, ih, hf, List.length_cons,
      Nat.succ_mul, Nat.add_comm]

/-- The priors of a row stand where its index says. -/
theorem priors_row (hf : ∀ row, (f row).1.length = cols) {r : ℕ} {row : Row}
    (hrow : rows[r]? = some row) :
    ((rows.map fun row => (f row).1).flatten.drop (r * cols)).take cols = (f row).1 := by
  induction rows generalizing r with
  | nil => cases hrow
  | cons first rest ih =>
    rw [List.map_cons, List.flatten_cons]
    cases r with
    | zero =>
      cases hrow
      rw [Nat.zero_mul, List.drop_zero, List.take_left' (hf row)]
    | succ r =>
      have hstep : (r + 1) * cols = (f first).1.length + r * cols := by
        rw [hf, Nat.succ_mul, Nat.add_comm]
      rw [hstep, ← List.drop_drop, List.drop_left]
      exact ih hrow

/-- A slice of the outputs answers the rows in the same place. -/
theorem Answers.slice (hf : ∀ row, (f row).1.length = cols)
    (h : Answers f cols (before ++ rows ++ after) out) :
    Answers f cols rows (out.1.slice before.length (before.length + rows.length),
      (out.2.drop before.length).take rows.length) where
  rowCount := by
    simp only [Array2.slice, h.rowCount, List.length_append]
    omega
  colCount := h.colCount
  data := by
    simp only [Array2.slice, h.colCount, h.data, List.map_append, List.flatten_append,
      Nat.add_sub_cancel_left]
    rw [← priors_length hf before, ← priors_length hf rows]
    exact drop_take_middle _ _ _
  values := by
    have hbefore : (before.map fun row => (f row).2).length = before.length := List.length_map _
    have hrows : (rows.map fun row => (f row).2).length = rows.length := List.length_map _
    simp only [h.values, List.map_append]
    rw [← hbefore, ← hrows]
    exact drop_take_middle _ _ _

/-- The first rows of the outputs answer the first rows. -/
theorem Answers.first (hf : ∀ row, (f row).1.length = cols)
    (h : Answers f cols (rows ++ after) out) :
    Answers f cols rows (out.1.slice 0 rows.length, out.2.take rows.length) := by
  have hnil : Answers f cols ([] ++ rows ++ after) out := h
  have hslice := hnil.slice hf
  simpa only [List.length_nil, Nat.zero_add, List.drop_zero] using hslice

end Slices

section Padding

def padRow (rows : List Row) : Row where
  board := ((rows.map (·.board)).headD []).map fun layer => layer.map fun cell => cell.map fun _ => 0
  height := 1
  width := 1
  numAncillas := 1
  actionMask := ((rows.map (·.actionMask)).headD []).map fun _ => false

theorem pad_ofRows {bs : ℕ} (h : rows.length < bs) :
    (ofRows rows).pad bs = ofRows (rows ++ List.replicate (bs - rows.length) (padRow rows)) := by
  simp only [Batch.pad, padToBs, ofRows, List.length_map, if_neg (Nat.not_le.mpr h),
    List.map_append, List.map_replicate, padRow]

theorem padRow_shaped {layers cells : ℕ} (hrows : rows ≠ [])
    (h : ∀ row ∈ rows, Shaped layers cells row) : Shaped layers cells (padRow rows) := by
  obtain ⟨row, rest, rfl⟩ := List.exists_cons_of_ne_nil hrows
  have hrow := h row List.mem_cons_self
  refine ⟨?_, fun layer hlayer => ?_, fun layer hlayer cell hcell => ?_, ?_⟩
  · simpa [padRow] using hrow.layers
  · obtain ⟨layer, hmem, rfl⟩ := List.mem_map.mp hlayer
    simpa using hrow.cells layer hmem
  · obtain ⟨layer, hmem, rfl⟩ := List.mem_map.mp hlayer
    obtain ⟨cell, hmem', rfl⟩ := List.mem_map.mp hcell
    simpa using hrow.channels layer hmem cell hmem'
  · simpa [padRow] using hrow.mask

variable {model : Batch → Array2 F × List F}

/-- Padded or not, the runner returns the answers to the rows it was given. -/
theorem torchInfer_answers (hmodel : RowWise model f cols) {layers cells : ℕ} (hrows : rows ≠ [])
    (h : ∀ row ∈ rows, Shaped layers cells row) :
    Answers f cols rows (torchInfer model (ofRows rows)) := by
  have hlen : (ofRows rows).boards.length = rows.length := List.length_map _
  simp only [torchInfer, hlen]
  split
  · rename_i hlt
    rw [pad_ofRows hlt]
    refine Answers.first hmodel.priors (hmodel.answers layers cells _ (by simp [hrows]) ?_)
    intro row hrow
    rcases List.mem_append.mp hrow with hrow | hrow
    · exact h row hrow
    · rw [List.eq_of_mem_replicate hrow]
      exact padRow_shaped hrows h
  · have hanswers : Answers f cols (rows ++ []) (model (ofRows rows)) := by
      rw [List.append_nil]
      exact hmodel.answers layers cells rows hrows h
    exact hanswers.first hmodel.priors

end Padding

section Slots

variable {n : ℕ} {s slot : TilersSlot F} {slots : ℕ → TilersSlot F} {w : World F}

/-- The outputs of a slot are what `f` says of its rows, 0 in columns that it has not. -/
def Answered [Zero F] (f : Row → List F × F) (n : ℕ) (s slot : TilersSlot F) : Prop :=
  ∀ r row, (slotRows n s)[r]? = some row →
    (∀ a < NUM_ACTIONS, slot.priors (r * NUM_ACTIONS + a) = (f row).1.getD a 0) ∧
      slot.values r = (f row).2

def Kept (slots slots' : ℕ → TilersSlot F) : Prop :=
  ∀ sv, ∃ state priors values,
    slots' sv = { slots sv with state := state, priors := priors, values := values }

theorem Kept.of_steady {slots' : ℕ → TilersSlot F} (h : Steady slots slots') :
    Kept slots slots' := by
  intro sv
  obtain ⟨state, hstate⟩ := h sv
  exact ⟨state, (slots sv).priors, (slots sv).values, hstate⟩

theorem Kept.batchLen (h : Kept slots w.slots) (sv : ℕ) :
    batchLen (w.slots sv) = batchLen (slots sv) := by
  obtain ⟨_, _, _, hsv⟩ := h sv
  rw [hsv]
  rfl

variable [Zero F]

/-- Writing the answers to its rows into a slot. -/
theorem writePriorsValues_answers (hf : ∀ row, (f row).1.length = cols) (hcols : cols ≤ NUM_ACTIONS)
    (hlen : rows.length = batchLen s) (h : Answers f cols rows out) :
    ∃ priors values, writePriorsValues out.1 out.2 s =
        .ok { s with priors := priors, values := values } ∧
      ∀ r row, rows[r]? = some row →
        (∀ a < NUM_ACTIONS, priors (r * NUM_ACTIONS + a) = (f row).1.getD a 0) ∧
          values r = (f row).2 := by
  have hcount : out.2.length = batchLen s := by rw [h.values, List.length_map, hlen]
  have hrows : out.1.rows = batchLen s := h.rowCount.trans hlen
  have hcolumns : out.1.cols ≤ NUM_ACTIONS := h.colCount ▸ hcols
  have hwrite : writePriorsValues out.1 out.2 s = .ok { s with
      priors := copyRows 0 NUM_ACTIONS 0
        ((List.range (batchLen s)).map fun i => (out.1.data.drop (i * out.1.cols)).take out.1.cols)
        (fill 0 (batchLen s * NUM_ACTIONS) 0 s.priors)
      values := copyFromSlice 0 out.2 s.values } := by
    simp only [writePriorsValues]
    rw [if_neg (not_not.mpr hrows), if_neg (Nat.not_lt.mpr hcolumns), if_neg (not_not.mpr hcount)]
  refine ⟨_, _, hwrite, fun r row hrow => ⟨fun a ha => ?_, ?_⟩⟩
  · have hr : r < batchLen s := hlen ▸ (List.getElem?_eq_some_iff.mp hrow).1
    have hlast : r * NUM_ACTIONS + a < batchLen s * NUM_ACTIONS := by
      have hnext := Nat.mul_le_mul_right NUM_ACTIONS hr
      rw [Nat.succ_mul] at hnext
      omega
    have hlines : ∀ line ∈ (List.range (batchLen s)).map fun i =>
        (out.1.data.drop (i * out.1.cols)).take out.1.cols, line.length ≤ NUM_ACTIONS := by
      intro line hline
      obtain ⟨i, _, rfl⟩ := List.mem_map.mp hline
      exact Nat.le_trans (List.length_take_le _ _) hcolumns
    rw [← Nat.zero_add (r * NUM_ACTIONS), copyRows_zero_at hlines ha, List.getElem?_map,
      List.getElem?_range hr, Option.map_some, Option.bind_some, h.data, h.colCount,
      priors_row hf hrow, fill_in (Nat.zero_le _) (by omega), List.getD]
  · have hat : copyFromSlice 0 out.2 s.values (0 + r) = _ := copyFromSlice_at
    rw [Nat.zero_add] at hat
    rw [hat, h.values, List.getElem?_map, hrow]
    rfl

omit [Zero F] in
theorem Kept.written {sv : ℕ} {priors values : ℕ → F} (h : Kept slots w.slots)
    (hslot : slot = { w.slots sv with priors := priors, values := values }) :
    Kept slots (markDone sv { w with slots := Function.update w.slots sv slot }).slots := by
  intro v
  by_cases hv : v = sv
  · subst hv
    obtain ⟨_, _, _, hold⟩ := h v
    refine ⟨SlotProtocol.SLOT_DONE, priors, values, ?_⟩
    simp only [markDone, Function.update_self, hslot, hold]
  · simp only [markDone, Function.update_of_ne hv]
    exact h v

/-- The slices written back answer the rows of their slots. The induction is on
the views that are left; `before` are the rows of those already written. -/
theorem writeBack_answers (hf : ∀ row, (f row).1.length = cols) (hcols : cols ≤ NUM_ACTIONS)
    (views : List ℕ) (k : ℕ) (hkept : Kept slots w.slots)
    (h : Answers f cols (before ++ viewRows n slots views) out) :
    ∃ w', writeBack (fun _ => none) out.1 out.2 k before.length
        (views.map fun sv => (batchLen (slots sv), sv)) w = (.ok (), w') ∧
      Kept slots w'.slots ∧ ∀ v, v ∈ views ∨ Answered f n (slots v) (w.slots v) →
        Answered f n (slots v) (w'.slots v) := by
  induction views generalizing k before w with
  | nil => exact ⟨w, rfl, hkept, fun v hv => hv.resolve_left List.not_mem_nil⟩
  | cons sv rest ih =>
    have hlen : (slotRows n (slots sv)).length = batchLen (slots sv) := slotRows_length n _
    have hrows : Answers f cols (before ++ slotRows n (slots sv) ++ viewRows n slots rest) out := by
      rwa [List.append_assoc]
    have hslice := hrows.slice hf
    rw [hlen] at hslice
    obtain ⟨priors, values, hwrite, hanswers⟩ := writePriorsValues_answers hf hcols
      (hlen.trans (hkept.batchLen sv).symm) hslice
    have hnext : (before ++ slotRows n (slots sv)).length =
        before.length + batchLen (slots sv) := by rw [List.length_append, hlen]
    obtain ⟨w', hback, hkept', hanswered⟩ := ih (k + 1) (hkept.written rfl) hrows
    rw [hnext] at hback
    refine ⟨w', ?_, hkept', fun v hv => hanswered v ?_⟩
    · rw [List.map_cons, writeBack]
      simp only [hwrite]
      exact hback
    · by_cases hsv : v = sv
      · subst hsv
        refine Or.inr fun r row hrow => ?_
        simp only [markDone, Function.update_self]
        exact hanswers r row hrow
      · refine (hv.imp_left fun hmem => (List.mem_cons.mp hmem).resolve_left hsv).imp_right ?_
        intro hans
        simp only [markDone, Function.update_of_ne hsv]
        exact hans

end Slots

section Client

def priorMap (actionMask : List Bool) (prior : ℕ → F) : List (ℕ × F) :=
  (actionMask.zipIdx.filter (·.1)).map fun m => (m.2, prior m.2)

/-- What a client reads in `infer` once its slot is done. -/
def readResponse (ownerId reqId : ℕ) (observations : List TilersObs) (s : TilersSlot F) :
    Except String (List (List (ℕ × F)) × List F) :=
  let b := observations.length
  if s.ownerId ≠ ownerId ∨ s.reqId ≠ reqId then
    .error (s!"mismatched response: expected owner_id={ownerId} req_id={reqId}, " ++
      s!"got owner_id={s.ownerId} req_id={s.reqId}")
  else .ok
    (observations.zipIdx.map fun obs =>
      priorMap obs.1.actionMask fun a => s.priors (obs.2 * NUM_ACTIONS + a),
    (List.range b).map s.values)

theorem priorMap_congr {actionMask : List Bool} {p q : ℕ → F}
    (h : ∀ a < actionMask.length, p a = q a) : priorMap actionMask p = priorMap actionMask q := by
  refine List.map_congr_left fun m hm => ?_
  have hlt : m.2 < actionMask.length := by
    have hmem := List.mem_zipIdx' (List.mem_filter.mp hm).1
    exact hmem.1
  rw [h m.2 hlt]

def ownRow (n : ℕ) (o : TilersObs) : Row := obsRow n (o.height * o.width) o

variable [Zero F] {model : Batch → Array2 F × List F} {n : ℕ} {observations : List TilersObs}
variable {slots : ℕ → TilersSlot F} {w : World F}

/-- What `f` says of an observation alone: the priors of its legal actions, and the value. -/
def expected (f : Row → List F × F) (n : ℕ) (observations : List TilersObs) :
    List (List (ℕ × F)) × List F :=
  (observations.map fun o => priorMap o.actionMask fun a => (f (ownRow n o)).1.getD a 0,
    observations.map fun o => (f (ownRow n o)).2)

omit [Zero F] in
theorem RowWise.ownRow (h : RowWise model f cols) {o : TilersObs} (ho : InRange o) :
    f (obsRow n GRID_MAX o) = f (ownRow n o) := by
  rw [← h.pad (obsRow n GRID_MAX o)]
  exact congrArg f (obsRow_trim ho.grid)

/-- A client whose slot is answered reads what `f` says of its observations. -/
theorem readResponse_answered (hmodel : RowWise model f cols) (hn : n ≤ LOOKAHEAD_MAX) {sv : ℕ}
    (hsub : Submitted observations (slots sv)) (hkept : Kept slots w.slots)
    (hans : Answered f n (slots sv) (w.slots sv)) :
    readResponse (slots sv).ownerId (slots sv).reqId observations (w.slots sv) =
      .ok (expected f n observations) := by
  obtain ⟨_, _, _, hslot⟩ := hkept sv
  have howner : (w.slots sv).ownerId = (slots sv).ownerId := by rw [hslot]
  have hreq : (w.slots sv).reqId = (slots sv).reqId := by rw [hslot]
  have hrow : ∀ i o, observations[i]? = some o → (∀ a < NUM_ACTIONS,
      (w.slots sv).priors (i * NUM_ACTIONS + a) = (f (BatchedInference.ownRow n o)).1.getD a 0) ∧
        (w.slots sv).values i = (f (BatchedInference.ownRow n o)).2 := by
    intro i o ho
    have hread : (slotRows n (slots sv))[i]? = some (obsRow n GRID_MAX o) := by
      rw [slotRows_submitted hsub hn, List.getElem?_map, ho, Option.map_some]
    have hi := hans i _ hread
    rwa [hmodel.ownRow (hsub.1 o (List.mem_of_getElem? ho))] at hi
  simp only [readResponse, expected]
  rw [if_neg (by simp [howner, hreq])]
  refine congrArg Except.ok (Prod.ext ?_ ?_)
  · apply List.ext_getElem
    · simp
    · intro i _ hi
      rw [List.length_map] at hi
      have hobs := List.getElem?_eq_getElem hi
      simp only [List.getElem_map, List.getElem_zipIdx, Nat.zero_add]
      refine priorMap_congr fun a ha => ?_
      rw [(hsub.1 _ (List.getElem_mem hi)).mask] at ha
      exact (hrow i _ hobs).1 a ha
  · apply List.ext_getElem
    · simp
    · intro i _ hi
      rw [List.length_map] at hi
      simp only [List.getElem_map, List.getElem_range]
      exact (hrow i _ (List.getElem?_eq_getElem hi)).2

end Client

section Main

variable [Zero F]

def runner (model : Batch → Array2 F × List F) (lookahead : ℕ) (metrics : Bool) : Iteration F where
  lookahead := lookahead
  metrics := metrics
  agent batch := .ok (torchInfer model batch)
  faults _ := none

variable {model : Batch → Array2 F × List F} {slots : ℕ → TilersSlot F}

omit [Zero F] in
theorem slotRow_shaped {n cells r : ℕ} {s : TilersSlot F} (hn : n ≤ LOOKAHEAD_MAX) :
    Shaped n (min cells GRID_MAX) ((slotRow n s r).trim cells) := by
  have hboard : ((slotRow n s r).trim cells).board = (List.range n).map fun l =>
      (List.range (min cells GRID_MAX)).map fun c => (List.range CELL_FIELDS).map fun k =>
        s.board r ((l * GRID_MAX + c) * CELL_FIELDS + k) := by
    simp only [Row.trim, slotRow, reshape, ← List.map_take, List.take_range, List.map_map,
      Function.comp_def, Nat.min_eq_left hn]
  refine ⟨?_, fun layer hlayer => ?_, fun layer hlayer cell hcell => ?_, ?_⟩
  · rw [hboard, List.length_map, List.length_range]
  · rw [hboard] at hlayer
    obtain ⟨l, _, rfl⟩ := List.mem_map.mp hlayer
    rw [List.length_map, List.length_range]
  · rw [hboard] at hlayer
    obtain ⟨l, _, rfl⟩ := List.mem_map.mp hlayer
    obtain ⟨c, _, rfl⟩ := List.mem_map.mp hcell
    rw [List.length_map, List.length_range]
  · simp [Row.trim, slotRow, maskRow]

omit [Zero F] in
/-- The runner answers the rows of the views it is given. -/
theorem torchInfer_views (hmodel : RowWise model f cols) {n : ℕ} (hn : n ≤ LOOKAHEAD_MAX)
    {views : List ℕ} (hrows : viewRows n slots views ≠ []) :
    Answers f cols (viewRows n slots views) (torchInfer model
      (extended ⟨[], [], [], [], [], [], []⟩ n slots views).batched.batch) := by
  rw [batched_rows]
  have hshape : ∀ row ∈ (viewRows n slots views).map
      (Row.trim (cellAxis (viewRows n slots views))),
      Shaped n (min (cellAxis (viewRows n slots views)) GRID_MAX) row := by
    intro row hrow
    obtain ⟨row, hmem, rfl⟩ := List.mem_map.mp hrow
    obtain ⟨sv, _, hmem⟩ := List.mem_flatMap.mp hmem
    obtain ⟨r, _, rfl⟩ := List.mem_map.mp hmem
    exact slotRow_shaped hn
  refine (torchInfer_answers hmodel (by simpa using hrows) hshape).congr fun row hrow => ?_
  exact hmodel.trim (le_cellAxis hrow)

theorem answered_empty {n : ℕ} {s slot : TilersSlot F} (h : batchLen s = 0) :
    Answered f n s slot := by
  intro r row hrow
  have hr := (List.getElem?_eq_some_iff.mp hrow).1
  rw [slotRows_length, h] at hr
  exact absurd hr (Nat.not_lt_zero r)

/-- From the call of the runner on, every view with rows is answered. -/
theorem answer_runner (hmodel : RowWise model f cols) {lookahead : ℕ}
    (hlook : lookahead + 1 ≤ LOOKAHEAD_MAX) (metrics : Bool) {views : List ℕ} {w : World F}
    (hkept : Kept slots w.slots) (hvalid : validViews slots views ≠ []) :
    ∃ w', answer (runner model lookahead metrics)
        (collected (lookahead + 1) slots views).batched w = (.ok (), w') ∧
      Kept slots w'.slots ∧
      ∀ v, v ∈ validViews slots views ∨ Answered f (lookahead + 1) (slots v) (w.slots v) →
        Answered f (lookahead + 1) (slots v) (w'.slots v) := by
  have hrows : viewRows (lookahead + 1) slots (validViews slots views) ≠ [] := by
    obtain ⟨sv, hsv⟩ := List.exists_mem_of_ne_nil _ hvalid
    have hlen : batchLen (slots sv) ≠ 0 := of_decide_eq_true (List.mem_filter.mp hsv).2
    rw [← slotRows_length (lookahead + 1)] at hlen
    obtain ⟨row, hrow⟩ := List.exists_mem_of_ne_nil _ (List.ne_nil_of_length_pos
      (Nat.pos_of_ne_zero hlen))
    exact List.ne_nil_of_mem (List.mem_flatMap.mpr ⟨sv, hsv, hrow⟩)
  have hanswers : Answers f cols ([] ++ viewRows (lookahead + 1) slots (validViews slots views))
      (torchInfer model (collected (lookahead + 1) slots views).batched.batch) :=
    torchInfer_views hmodel hlook hrows
  obtain ⟨w', hback, hkept', hanswered⟩ := writeBack_answers hmodel.priors hmodel.cols_le
    (validViews slots views) 0 hkept hanswers
  rw [← collected_pairs (lookahead + 1), List.length_nil] at hback
  simp only [answer, runner, hback]
  cases metrics with
  | false => exact ⟨w', rfl, hkept', hanswered⟩
  | true => exact ⟨_, rfl, hkept', hanswered⟩

/-- Inference in batches is inference observation by observation: after an
iteration every popped slot holds the answers to its own rows, whatever they are,
and a client that submitted observations reads what the model says of each. -/
theorem infer_per_observation (model : Batch → Array2 F × List F) (f : Row → List F × F)
    (cols : ℕ) (hmodel : RowWise model f cols) (lookahead : ℕ)
    (hlook : lookahead + 1 ≤ LOOKAHEAD_MAX) (metrics : Bool) (views : List ℕ) (w : World F) :
    ∃ w', attempt (runner model lookahead metrics) views w = (.ok (), w') ∧
      doWork (runner model lookahead metrics) views w = (.goesOn, w') ∧
      ∀ sv ∈ views, Answered f (lookahead + 1) (w.slots sv) (w'.slots sv) ∧
        ∀ observations, Submitted observations (w.slots sv) →
          readResponse (w.slots sv).ownerId (w.slots sv).reqId observations (w'.slots sv) =
            .ok (expected f (lookahead + 1) observations) := by
  obtain ⟨w₁, hsteady, _, _, hbuild⟩ := buildBoardBatch_eq hlook (firstRead_none 0 views) w
  have hrun : ∃ w', attempt (runner model lookahead metrics) views w = (.ok (), w') ∧
      Kept w.slots w'.slots ∧
      ∀ sv ∈ views, Answered f (lookahead + 1) (w.slots sv) (w'.slots sv) := by
    by_cases hvalid : validViews w.slots views = []
    · rw [if_pos hvalid] at hbuild
      refine ⟨w₁, ?_, Kept.of_steady hsteady, fun sv hsv => answered_empty ?_⟩
      · rw [attempt]
        simp only [runner, hbuild]
      · by_contra hlen
        exact List.filter_eq_nil_iff.mp hvalid sv hsv (decide_eq_true hlen)
    · rw [if_neg hvalid] at hbuild
      obtain ⟨w', hanswer, hkept, hans⟩ :=
        answer_runner hmodel hlook metrics (Kept.of_steady hsteady) hvalid
      refine ⟨w', ?_, hkept, fun sv hsv => hans sv ?_⟩
      · rw [attempt]
        simp only [runner] at hanswer ⊢
        simp only [hbuild]
        exact hanswer
      · by_cases hlen : batchLen (w.slots sv) = 0
        · exact Or.inr (answered_empty hlen)
        · exact Or.inl (List.mem_filter.mpr ⟨hsv, decide_eq_true hlen⟩)
  obtain ⟨w', hattempt, hkept, hans⟩ := hrun
  refine ⟨w', hattempt, by rw [doWork, hattempt], fun sv hsv => ⟨hans sv hsv, ?_⟩⟩
  exact fun observations hsub => readResponse_answered hmodel hlook hsub hkept (hans sv hsv)

end Main

section Runs

open BatchLayout (wide small flat requests requestSlots requests_submitted)

def sizes (batch : Batch) : Array2 ℕ × List ℕ :=
  (⟨batch.heights.length, 1, batch.heights, (Nat.mul_one _).symm⟩, batch.widths)

theorem sizes_rowWise : RowWise sizes (fun row => ([row.height], row.width)) 1 where
  cols_le := by decide
  priors _ := rfl
  answers _ _ rows _ _ := by
    refine ⟨List.length_map _, rfl, ?_, rfl⟩
    have hflat : (rows.map fun row => [row.height]).flatten = rows.map (·.height) := by
      rw [← List.flatMap_def, ← List.map_eq_flatMap]
    exact hflat.symm
  pad _ := rfl

/-- Two clients with three observations in one batch of sixteen rows. -/
theorem infer_requests : ∃ w', doWork (runner sizes 1 true) [0, 1] ⟨requestSlots, [], []⟩ =
      (.goesOn, w') ∧
    readResponse 9 9 [wide] (w'.slots 0) = .ok ([[(0, 1), (2, 0)]], [2]) ∧
    readResponse 9 9 [small, flat] (w'.slots 1) =
      .ok ([[(0, 1), (2, 0)], [(0, 0), (2, 0)]], [1, 0]) := by
  obtain ⟨w', _, hwork, hread⟩ := infer_per_observation sizes _ 1 sizes_rowWise 1 (by decide) true
    [0, 1] ⟨requestSlots, [], []⟩
  refine ⟨w', hwork, ?_, ?_⟩
  · refine ((hread 0 (by decide)).2 [wide] (requests_submitted 0)).trans ?_
    exact congrArg Except.ok (by decide +kernel)
  · refine ((hread 1 (by decide)).2 [small, flat] (requests_submitted 1)).trans ?_
    exact congrArg Except.ok (by decide +kernel)

end Runs

end Mcts.BatchedInference
