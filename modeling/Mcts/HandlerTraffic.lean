import Mcts.HandlerRuns

/-!
An iteration of the handler while its clients go on. A client may do what it likes
with a slot that the handler has marked done or never popped: read it, release it,
take it for another request. What the handler shows of a slot is therefore said of
its first mark in the iteration; a later one finds whatever the clients have made
of the slot.
-/
namespace Mcts.HandlerTraffic

open Regions Slots Handler Collecting HandlerRuns
open SlotProtocol (SLOT_DONE)

variable {F : Type} [Zero F]

section Steps

inductive Place (F : Type)
  | starting
  | reading (k : ℕ) (rest : List ℕ) (acc : Lists)
  | asking (batched : Batched)
  | writing (k idx : ℕ) (priors : Array2 F) (values : List F) (batched : Batched)
      (rest : List (ℕ × ℕ))
  | recovering (outcome : Outcome) (rest : List ℕ)
  | ended (outcome : Outcome)

structure Flow (F : Type) where
  place : Place F
  world : World F

def clause (views : List ℕ) : PyError → Place F
  | .keyboardInterrupt => .recovering .stopped views
  | .exception _ => .recovering .goesOn views
  | .baseException name => .ended (.raised (.baseException name))

/-- A step of the handler: one turn of one of its loops, or a call between two loops. -/
def next (x : Iteration F) (views : List ℕ) (s : Flow F) : Flow F :=
  match s.place with
  | .starting =>
    let numLayers := x.lookahead + 1
    if LOOKAHEAD_MAX < numLayers then
      ⟨clause views (.exception s!"lookahead+1={numLayers} exceeds LOOKAHEAD_MAX={LOOKAHEAD_MAX}"),
        s.world⟩
    else ⟨.reading 0 views ⟨[], [], [], [], [], [], []⟩, s.world⟩
  | .reading _ [] acc =>
    if acc.validSlotViews = [] then ⟨.ended .goesOn, s.world⟩
    else
      match x.faults .concatenate with
      | some e => ⟨clause views e, s.world⟩
      | none => ⟨.asking acc.batched, s.world⟩
  | .reading k (sv :: rest) acc =>
    match x.faults (.read k) with
    | some e => ⟨clause views e, s.world⟩
    | none =>
      if batchLen (s.world.slots sv) ≤ 0 then ⟨.reading (k + 1) rest acc, markDone sv s.world⟩
      else
        ⟨.reading (k + 1) rest (acc.append (x.lookahead + 1) sv (s.world.slots sv)), s.world⟩
  | .asking batched =>
    match x.agent batched.batch with
    | .error e => ⟨clause views e, s.world⟩
    | .ok (priors, values) =>
      ⟨.writing 0 0 priors values batched
        (batched.slotBatchSizes.zip batched.validSlotViews), s.world⟩
  | .writing _ _ _ _ batched [] =>
    if x.metrics then
      match x.faults .metrics with
      | some e => ⟨clause views e, s.world⟩
      | none => ⟨.ended .goesOn, { s.world with
          metrics := s.world.metrics ++
            [(batched.validSlotViews.length, batched.batch.boards.length)] }⟩
    else ⟨.ended .goesOn, s.world⟩
  | .writing k idx priors values batched ((slotLen, sv) :: rest) =>
    match x.faults (.write k) with
    | some e => ⟨clause views e, s.world⟩
    | none =>
      match writePriorsValues (priors.slice idx (idx + slotLen))
          ((values.drop idx).take slotLen) (s.world.slots sv) with
      | .error e => ⟨clause views e, s.world⟩
      | .ok slot => ⟨.writing (k + 1) (idx + slotLen) priors values batched rest,
          markDone sv { s.world with slots := Function.update s.world.slots sv slot }⟩
  | .recovering outcome [] => ⟨.ended outcome, s.world⟩
  | .recovering outcome (sv :: rest) => ⟨.recovering outcome rest, markDone sv s.world⟩
  | .ended outcome => ⟨.ended outcome, s.world⟩

/-- What may come of an iteration for these slots, popped as they were, while the clients
go on. Until its first mark a slot is in the handler's hands. -/
inductive Reach (x : Iteration F) (views : List ℕ) (slots : ℕ → TilersSlot F) : Flow F → Prop
  | start (metrics : List (ℕ × ℕ)) : Reach x views slots ⟨.starting, ⟨slots, [], metrics⟩⟩
  | handler {s : Flow F} (h : Reach x views slots s) : Reach x views slots (next x views s)
  | clients {s : Flow F} (h : Reach x views slots s) (slots' : ℕ → TilersSlot F)
      (hheld : ∀ sv ∈ views, sv ∉ s.world.marks → slots' sv = s.world.slots sv) :
      Reach x views slots { s with world := { s.world with slots := slots' } }

def cleared (slots : ℕ → TilersSlot F) (views : List ℕ) (v : ℕ) : TilersSlot F :=
  if v ∈ views then clearOutputs (slots v) else slots v

end Steps

section Contents

variable {priors : Array2 F} {values : List F} {s t : TilersSlot F} {off : ℕ}

/-- The slot holds the rows of the answer from `off` on, and its request as it was. -/
structure OwnRows (priors : Array2 F) (values : List F) (off : ℕ) (s t : TilersSlot F) : Prop where
  request : ∃ state outPriors outValues,
    t = { s with state := state, priors := outPriors, values := outValues }
  prior : ∀ r a, r < batchLen s → a < priors.cols →
    priors.data[(off + r) * priors.cols + a]? = some (t.priors (r * NUM_ACTIONS + a))
  padding : ∀ r a, r < batchLen s → priors.cols ≤ a → a < NUM_ACTIONS →
    t.priors (r * NUM_ACTIONS + a) = 0
  value : ∀ r, r < batchLen s → values[off + r]? = some (t.values r)

omit [Zero F] in
/-- A number of a row of a slice is where the row stands in the whole. -/
theorem slice_get {b r a : ℕ} (hr : r < b) (ha : a < priors.cols) :
    (((priors.slice off (off + b)).data.drop (r * priors.cols)).take priors.cols)[a]? =
      priors.data[(off + r) * priors.cols + a]? := by
  have hnext := Nat.mul_le_mul_right priors.cols hr
  rw [Nat.succ_mul] at hnext
  have hwithin : r * priors.cols + a < (off + b - off) * priors.cols := by
    rw [Nat.add_sub_cancel_left]
    omega
  rw [List.getElem?_take_of_lt ha, List.getElem?_drop, Array2.slice,
    List.getElem?_take_of_lt hwithin, List.getElem?_drop, Nat.add_mul, Nat.add_assoc]

theorem writePriorsValues_ownRows
    (h : writePriorsValues (priors.slice off (off + batchLen s))
      ((values.drop off).take (batchLen s)) s = .ok t) : OwnRows priors values off s t := by
  simp only [writePriorsValues] at h
  split_ifs at h with hrows hcols hvalues
  cases h
  rw [not_not] at hrows hvalues
  have hfits : off + batchLen s ≤ priors.rows ∨ batchLen s = 0 := by
    simp only [Array2.slice] at hrows
    omega
  have hlines : ∀ line ∈ (List.range (batchLen s)).map fun i =>
      ((priors.slice off (off + batchLen s)).data.drop (i * priors.cols)).take priors.cols,
      line.length ≤ NUM_ACTIONS := by
    intro line hline
    obtain ⟨i, -, rfl⟩ := List.mem_map.mp hline
    exact Nat.le_trans (List.length_take_le _ _) (Nat.le_of_not_lt hcols)
  refine ⟨⟨s.state, _, _, rfl⟩, ?_, ?_, ?_⟩
  · intro r a hr ha
    have hin : (off + r) * priors.cols + a < priors.data.length := by
      have hrow : (off + r + 1) * priors.cols ≤ priors.rows * priors.cols :=
        Nat.mul_le_mul_right _ (by omega)
      rw [Nat.succ_mul] at hrow
      rw [priors.size]
      omega
    have hat : copyRows 0 NUM_ACTIONS 0 _ (fill 0 (batchLen s * NUM_ACTIONS) 0 s.priors)
        (0 + r * NUM_ACTIONS + a) = _ :=
      copyRows_zero_at hlines (Nat.lt_of_lt_of_le ha (Nat.le_of_not_lt hcols))
    rw [Nat.zero_add, List.getElem?_map, List.getElem?_range hr, Option.map_some, Option.bind_some,
      slice_get hr ha, List.getElem?_eq_getElem hin, Option.getD_some] at hat
    rw [List.getElem?_eq_getElem hin]
    exact congrArg some hat.symm
  · intro r a hr ha hlt
    have hat : copyRows 0 NUM_ACTIONS 0 _ (fill 0 (batchLen s * NUM_ACTIONS) 0 s.priors)
        (0 + r * NUM_ACTIONS + a) = _ := copyRows_zero_at hlines hlt
    have hnext := Nat.mul_le_mul_right NUM_ACTIONS hr
    rw [Nat.succ_mul] at hnext
    rw [Nat.zero_add, List.getElem?_map, List.getElem?_range hr, Option.map_some, Option.bind_some,
      List.getElem?_eq_none (Nat.le_trans (List.length_take_le _ _) ha), Option.getD_none,
      fill_in (Nat.zero_le _) (by omega)] at hat
    exact hat
  · intro r hr
    have hat : copyFromSlice 0 ((values.drop off).take (batchLen s)) s.values (0 + r) = _ :=
      copyFromSlice_at
    have hget : ((values.drop off).take (batchLen s))[r]? = values[off + r]? := by
      rw [List.getElem?_take_of_lt hr, List.getElem?_drop]
    have hin : off + r < values.length := by
      rw [List.length_take, List.length_drop] at hvalues
      omega
    rw [Nat.zero_add, hget, List.getElem?_eq_getElem hin, Option.getD_some] at hat
    rw [List.getElem?_eq_getElem hin]
    exact congrArg some hat.symm

end Contents

section Turns

variable {x : Iteration F} {views before rest read made : List ℕ} {slots : ℕ → TilersSlot F}
variable {s : Flow F} {w w' : World F} {sv : ℕ}

/-- What a slot holds at its first mark: what it was popped with, or its own rows of what
the agent has said of the batch. -/
def Left (x : Iteration F) (views : List ℕ) (slots : ℕ → TilersSlot F) (sv : ℕ)
    (t : TilersSlot F) : Prop :=
  (∃ state, t = { slots sv with state := state }) ∨
  ∃ before after out, validViews slots views = before ++ sv :: after ∧
    x.agent (collected (x.lookahead + 1) slots views).batched.batch = .ok out ∧
    OwnRows out.1 out.2 (before.map fun v => batchLen (slots v)).sum (slots sv) t

/-- A step of the handler marks these slots. At a first mark the slot holds what it should;
a later mark changes nothing but the state word; all other slots stay as they are. -/
structure Turn (x : Iteration F) (views : List ℕ) (slots : ℕ → TilersSlot F) (w w' : World F)
    (made : List ℕ) : Prop where
  marks : w'.marks = w.marks ++ made
  popped : ∀ v ∈ made, v ∈ views
  first : ∀ v ∈ made, v ∉ w.marks →
    (w'.slots v).state = SLOT_DONE ∧ Left x views slots v (w'.slots v)
  again : ∀ v ∈ made, v ∈ w.marks → w'.slots v = { w.slots v with state := SLOT_DONE }
  same : ∀ v ∉ made, w'.slots v = w.slots v

def At (x : Iteration F) (views : List ℕ) (slots : ℕ → TilersSlot F) (marks : List ℕ) :
    Place F → Prop
  | .starting => marks = []
  | .reading _ rest acc => ∃ read, views = read ++ rest ∧
    acc = collected (x.lookahead + 1) slots read ∧
    ∀ sv, sv ∈ marks ↔ sv ∈ emptyViews slots read
  | .asking batched => batched = (collected (x.lookahead + 1) slots views).batched ∧
    ∀ sv, sv ∈ marks ↔ sv ∈ emptyViews slots views
  | .writing _ idx priors values _ rest => ∃ before after,
    validViews slots views = before ++ after ∧
    rest = after.map (fun sv => (batchLen (slots sv), sv)) ∧
    idx = (before.map fun v => batchLen (slots v)).sum ∧
    x.agent (collected (x.lookahead + 1) slots views).batched.batch = .ok (priors, values) ∧
    ∀ sv, sv ∈ marks ↔ sv ∈ emptyViews slots views ∨ sv ∈ before
  | .recovering _ rest => rest ⊆ views ∧ ∀ sv ∈ views, sv ∈ marks ∨ sv ∈ rest
  | .ended outcome => (∀ e, outcome ≠ .raised e) → ∀ sv ∈ views, sv ∈ marks

structure Sound (x : Iteration F) (views : List ℕ) (slots : ℕ → TilersSlot F) (s : Flow F) :
    Prop where
  held : ∀ sv ∈ views, sv ∉ s.world.marks → s.world.slots sv = slots sv
  place : At x views slots s.world.marks s.place

theorem turn_none (hmarks : w'.marks = w.marks) (hslots : w'.slots = w.slots) :
    Turn x views slots w w' [] where
  marks := by rw [hmarks, List.append_nil]
  popped := by simp
  first := by simp
  again := by simp
  same v _ := by rw [hslots]

/-- The slots that a turn does not mark stay in the handler's hands as they are. -/
theorem Turn.held (h : Turn x views slots w w' made)
    (hheld : ∀ sv ∈ views, sv ∉ w.marks → w.slots sv = slots sv) :
    ∀ sv ∈ views, sv ∉ w'.marks → w'.slots sv = slots sv := by
  intro sv hsv hmarks
  rw [h.marks, List.mem_append, not_or] at hmarks
  rw [h.same sv hmarks.2, hheld sv hsv hmarks.1]

/-- A slot without rows, or one that is released again. -/
theorem turn_markDone (hsv : sv ∈ views)
    (hheld : ∀ v ∈ views, v ∉ w.marks → w.slots v = slots v) :
    Turn x views slots w (markDone sv w) [sv] where
  marks := rfl
  popped v hv := List.mem_singleton.mp hv ▸ hsv
  first v hv hmarks := by
    obtain rfl := List.mem_singleton.mp hv
    have hslot : (markDone v w).slots v = { w.slots v with state := SLOT_DONE } := by
      simp [markDone]
    rw [hslot, hheld v hsv hmarks]
    exact ⟨rfl, .inl ⟨SLOT_DONE, rfl⟩⟩
  again v hv _ := by
    obtain rfl := List.mem_singleton.mp hv
    simp [markDone]
  same v hv := by
    have hne : v ≠ sv := fun heq => hv (List.mem_singleton.mpr heq)
    simp [markDone, Function.update_of_ne hne]

/-- A slot whose rows are written into it. -/
theorem turn_write {priors : Array2 F} {values : List F} {after : List ℕ} {slot : TilersSlot F}
    (hsplit : validViews slots views = before ++ sv :: after)
    (hagent : x.agent (collected (x.lookahead + 1) slots views).batched.batch =
      .ok (priors, values))
    (hfresh : sv ∉ w.marks) (hslot : w.slots sv = slots sv)
    (hwrite : writePriorsValues
      (priors.slice (before.map fun v => batchLen (slots v)).sum
        ((before.map fun v => batchLen (slots v)).sum + batchLen (slots sv)))
      ((values.drop (before.map fun v => batchLen (slots v)).sum).take (batchLen (slots sv)))
      (w.slots sv) = .ok slot) :
    Turn x views slots w (markDone sv { w with slots := Function.update w.slots sv slot }) [sv] where
  marks := rfl
  popped v hv := by
    have hmem : sv ∈ validViews slots views := by
      rw [hsplit]
      exact List.mem_append_right before List.mem_cons_self
    exact List.mem_singleton.mp hv ▸ List.mem_of_mem_filter hmem
  first v hv _ := by
    obtain rfl := List.mem_singleton.mp hv
    rw [hslot] at hwrite
    have hown := writePriorsValues_ownRows hwrite
    obtain ⟨state, outPriors, outValues, rfl⟩ := hown.request
    obtain ⟨t, ht⟩ : ∃ t, t =
      { slots v with state := state, priors := outPriors, values := outValues } := ⟨_, rfl⟩
    rw [← ht]
    have hat : (markDone v { w with slots := Function.update w.slots v t }).slots v =
        { slots v with state := SLOT_DONE, priors := outPriors, values := outValues } := by
      simp [markDone, ht]
    rw [hat]
    exact ⟨rfl, .inr ⟨before, after, (priors, values), hsplit, hagent,
      ⟨SLOT_DONE, outPriors, outValues, rfl⟩, hown.prior, hown.padding, hown.value⟩⟩
  again v hv hmarks := absurd (List.mem_singleton.mp hv ▸ hmarks) hfresh
  same v hv := by
    have hne : v ≠ sv := fun heq => hv (List.mem_singleton.mpr heq)
    simp [markDone, Function.update_of_ne hne]

omit [Zero F] in
/-- All views are released after an exception that a clause catches. -/
theorem at_clause (marks : List ℕ) (e : PyError) : At x views slots marks (clause views e) := by
  cases e with
  | exception message => exact ⟨List.Subset.refl _, fun sv hsv => .inr hsv⟩
  | keyboardInterrupt => exact ⟨List.Subset.refl _, fun sv hsv => .inr hsv⟩
  | baseException name => exact fun hno => absurd rfl (hno _)

/-- A turn that ends where it should keeps the invariant. -/
theorem Sound.turn {t : Flow F} (h : Sound x views slots s)
    (hturn : Turn x views slots s.world t.world made)
    (hat : At x views slots t.world.marks t.place) :
    Sound x views slots t ∧ ∃ made, Turn x views slots s.world t.world made :=
  ⟨⟨hturn.held h.held, hat⟩, made, hturn⟩

/-- A turn that marks nothing. -/
theorem Sound.still {t : Flow F} (h : Sound x views slots s)
    (hmarks : t.world.marks = s.world.marks) (hslots : t.world.slots = s.world.slots)
    (hat : At x views slots s.world.marks t.place) :
    Sound x views slots t ∧ ∃ made, Turn x views slots s.world t.world made :=
  h.turn (turn_none hmarks hslots) (hmarks ▸ hat)

theorem Sound.raise (h : Sound x views slots s) (e : PyError) :
    Sound x views slots ⟨clause views e, s.world⟩ ∧
      ∃ made, Turn x views slots s.world s.world made :=
  h.still rfl rfl (at_clause s.world.marks e)

omit [Zero F] in
theorem collected_snoc (n : ℕ) (hrows : batchLen (slots sv) ≠ 0) :
    collected n slots (read ++ [sv]) = (collected n slots read).append n sv (slots sv) := by
  simp [collected, validViews, extended, Lists.append, hrows]

/-- A turn of the loop over the views. -/
theorem next_reading (hnodup : views.Nodup) {k : ℕ} {acc : Lists}
    (h : Sound x views slots ⟨.reading k (sv :: rest) acc, w⟩) :
    Sound x views slots (next x views ⟨.reading k (sv :: rest) acc, w⟩) ∧
      ∃ made, Turn x views slots w (next x views ⟨.reading k (sv :: rest) acc, w⟩).world made := by
  obtain ⟨read, rfl, rfl, hmarks⟩ := h.place
  have hsv : sv ∈ read ++ sv :: rest := by simp
  have hfresh : sv ∉ w.marks := by
    intro hmem
    have hread := List.mem_of_mem_filter ((hmarks sv).mp hmem)
    exact (List.nodup_append.mp hnodup).2.2 sv hread sv List.mem_cons_self rfl
  have hslot : w.slots sv = slots sv := h.held sv hsv hfresh
  have hviews : read ++ sv :: rest = (read ++ [sv]) ++ rest := by simp
  rw [next]
  dsimp only
  cases x.faults (.read k) with
  | some e => exact h.raise _
  | none =>
    dsimp only
    rw [hslot]
    split
    · next hle =>
      have hempty := Nat.le_zero.mp hle
      refine h.turn (turn_markDone hsv h.held) ⟨read ++ [sv], hviews, ?_, fun v => ?_⟩
      · simp [collected, validViews, hempty]
      · simp only [markDone, List.mem_append, List.mem_singleton, hmarks v, emptyViews,
          List.filter_append]
        simp [hempty]
    · next hlt =>
      have hrows : batchLen (slots sv) ≠ 0 := fun hzero => hlt (Nat.le_of_eq hzero)
      refine h.still rfl rfl ⟨read ++ [sv], hviews, (collected_snoc _ hrows).symm, fun v => ?_⟩
      rw [hmarks v]
      simp [emptyViews, hrows]

/-- A turn of the loop that writes the answer back. -/
theorem next_writing (hnodup : views.Nodup) {k idx : ℕ} {priors : Array2 F} {values : List F}
    {batched : Batched} {pair : ℕ × ℕ} {pairs : List (ℕ × ℕ)}
    (h : Sound x views slots ⟨.writing k idx priors values batched (pair :: pairs), w⟩) :
    Sound x views slots (next x views ⟨.writing k idx priors values batched (pair :: pairs), w⟩) ∧
      ∃ made, Turn x views slots w
        (next x views ⟨.writing k idx priors values batched (pair :: pairs), w⟩).world made := by
  obtain ⟨before, _ | ⟨sv, after⟩, hsplit, hpairs, rfl, hagent, hmarks⟩ := h.place
  · cases hpairs
  · obtain ⟨rfl, rfl⟩ := List.cons.inj hpairs
    have hvalid : sv ∈ validViews slots views := by
      rw [hsplit]
      simp
    have hrows : batchLen (slots sv) ≠ 0 := by simpa using List.of_mem_filter hvalid
    have hfresh : sv ∉ w.marks := by
      rw [hmarks sv, not_or]
      refine ⟨fun hempty => hrows (by simpa using List.of_mem_filter hempty), fun hbefore => ?_⟩
      have hdistinct : (before ++ sv :: after).Nodup := hsplit ▸ hnodup.filter _
      exact (List.nodup_append.mp hdistinct).2.2 sv hbefore sv List.mem_cons_self rfl
    have hslot := h.held sv (List.mem_of_mem_filter hvalid) hfresh
    rw [next]
    dsimp only
    cases x.faults (.write k) with
    | some e => exact h.raise _
    | none =>
      dsimp only
      split
      · exact h.raise _
      · next slot hwrite =>
        refine h.turn (turn_write hsplit hagent hfresh hslot hwrite)
          ⟨before ++ [sv], after, by rw [hsplit]; simp, rfl, by simp, hagent, fun v => ?_⟩
        simp only [markDone, List.mem_append, List.mem_singleton, hmarks v, or_assoc]

/-- The step lemma: one case for each place. -/
theorem next_sound (hnodup : views.Nodup) (h : Sound x views slots s) :
    Sound x views slots (next x views s) ∧
      ∃ made, Turn x views slots s.world (next x views s).world made := by
  obtain ⟨place, w⟩ := s
  have hat := h.place
  cases place with
  | starting =>
    rw [next]
    dsimp only
    split
    · exact h.raise _
    · refine h.still rfl rfl ⟨[], rfl, by simp [collected, extended, validViews], fun sv => ?_⟩
      rw [show w.marks = [] from hat]
      simp [emptyViews]
  | reading k rest acc =>
    cases rest with
    | nil =>
      obtain ⟨read, rfl, rfl, hmarks⟩ := hat
      rw [List.append_nil] at *
      rw [next]
      dsimp only
      split
      · next hvalid =>
        have hnone : validViews slots read = [] := by simpa [collected, extended] using hvalid
        have hall := views_perm slots read
        rw [hnone, List.append_nil] at hall
        exact h.still rfl rfl fun _ sv hsv => (hmarks sv).mpr (hall.mem_iff.mpr hsv)
      · cases x.faults .concatenate with
        | some e => exact h.raise _
        | none => exact h.still rfl rfl ⟨rfl, hmarks⟩
    | cons sv rest => exact next_reading hnodup h
  | asking batched =>
    obtain ⟨rfl, hmarks⟩ := hat
    rw [next]
    dsimp only
    cases hagent : x.agent (collected (x.lookahead + 1) slots views).batched.batch with
    | error e => exact h.raise _
    | ok out =>
      refine h.still rfl rfl ⟨[], validViews slots views, rfl, collected_pairs _ _ _, rfl, hagent,
        fun sv => ?_⟩
      rw [hmarks sv]
      simp
  | writing k idx priors values batched rest =>
    cases rest with
    | nil =>
      obtain ⟨before, after, hsplit, hafter, rfl, hagent, hmarks⟩ := hat
      rw [List.map_eq_nil_iff.mp hafter.symm, List.append_nil] at hsplit
      have hall : ∀ sv ∈ views, sv ∈ w.marks := by
        intro sv hsv
        rw [hmarks sv, ← hsplit, ← List.mem_append]
        exact (views_perm slots views).mem_iff.mpr hsv
      rw [next]
      dsimp only
      split
      · cases x.faults .metrics with
        | some e => exact h.raise _
        | none => exact h.still rfl rfl fun _ => hall
      · exact h.still rfl rfl fun _ => hall
    | cons pair rest => exact next_writing hnodup h
  | recovering outcome rest =>
    obtain ⟨hsub, hall⟩ := hat
    cases rest with
    | nil => exact h.still rfl rfl fun _ sv hsv => (hall sv hsv).resolve_right (by simp)
    | cons sv rest =>
      refine h.turn (turn_markDone (hsub List.mem_cons_self) h.held)
        ⟨fun v hv => hsub (List.mem_cons_of_mem sv hv), fun v hv => ?_⟩
      rcases hall v hv with hmarked | hwaits
      · exact .inl (List.mem_append_left [sv] hmarked)
      · rcases List.mem_cons.mp hwaits with rfl | hrest
        · exact .inl (List.mem_append_right w.marks List.mem_cons_self)
        · exact .inr hrest
  | ended outcome => exact h.still rfl rfl hat

/-- The invariant holds along every run. -/
theorem Reach.sound (hnodup : views.Nodup) (h : Reach x views slots s) :
    Sound x views slots s := by
  induction h with
  | start metrics => exact ⟨fun _ _ _ => rfl, rfl⟩
  | handler h ih => exact (next_sound hnodup ih).1
  | clients h slots' hheld ih =>
    refine ⟨fun sv hsv hmarks => ?_, ih.place⟩
    exact (hheld sv hsv hmarks).trans (ih.held sv hsv hmarks)

def rank (views : List ℕ) : Place F → ℕ
  | .starting => 3 * views.length + 6
  | .reading _ rest _ => rest.length + 2 * views.length + 5
  | .asking _ => 2 * views.length + 4
  | .writing _ _ _ _ _ rest => rest.length + views.length + 3
  | .recovering _ rest => rest.length + 1
  | .ended _ => 0

omit [Zero F] in
theorem rank_clause {n : ℕ} (hn : views.length + 1 < n) (e : PyError) (w : World F) :
    rank views (Flow.mk (clause views e) w).place < n := by
  cases e with
  | exception message => exact hn
  | keyboardInterrupt => exact hn
  | baseException name => exact Nat.zero_lt_of_lt hn

/-- Whatever the clients do, an iteration comes to its end. -/
theorem next_rank (h : Sound x views slots s) :
    (∃ outcome, s.place = .ended outcome) ∨
      rank views (next x views s).place < rank views s.place := by
  obtain ⟨place, w⟩ := s
  cases place with
  | starting =>
    refine .inr ?_
    rw [next]
    dsimp only
    split
    · exact rank_clause (by simp only [rank]; omega) _ w
    · simp only [rank]
      omega
  | reading k rest acc =>
    refine .inr ?_
    cases rest with
    | nil =>
      rw [next]
      dsimp only
      split
      · simp only [rank]
        omega
      · cases x.faults .concatenate with
        | some e => exact rank_clause (by simp only [rank]; omega) e w
        | none =>
          simp only [rank]
          omega
    | cons sv rest =>
      rw [next]
      dsimp only
      cases x.faults (.read k) with
      | some e => exact rank_clause (by simp only [rank]; omega) e w
      | none =>
        dsimp only
        split
        · simp only [rank, List.length_cons]
          omega
        · simp only [rank, List.length_cons]
          omega
  | asking batched =>
    refine .inr ?_
    obtain ⟨rfl, -⟩ := h.place
    rw [next]
    dsimp only
    cases x.agent (collected (x.lookahead + 1) slots views).batched.batch with
    | error e => exact rank_clause (by simp only [rank]; omega) e w
    | ok out =>
      have hlength : (validViews slots views).length ≤ views.length := List.length_filter_le _ _
      simp only [rank, collected_pairs, List.length_map]
      omega
  | writing k idx priors values batched rest =>
    refine .inr ?_
    cases rest with
    | nil =>
      rw [next]
      dsimp only
      split
      · cases x.faults .metrics with
        | some e => exact rank_clause (by simp only [rank]; omega) e w
        | none =>
          simp only [rank]
          omega
      · simp only [rank]
        omega
    | cons pair rest =>
      rw [next]
      dsimp only
      cases x.faults (.write k) with
      | some e => exact rank_clause (by simp only [rank]; omega) e w
      | none =>
        dsimp only
        split
        · exact rank_clause (by simp only [rank]; omega) _ w
        · simp only [rank, List.length_cons]
          omega
  | recovering outcome rest =>
    refine .inr ?_
    cases rest with
    | nil => simp [next, rank]
    | cons sv rest => simp [next, rank]
  | ended outcome => exact .inl ⟨outcome, rfl⟩

/-- Whatever the agent returns, whatever raises, and whatever the clients do with slots that
are not in the handler's hands: the slots that an iteration marks are slots it has popped,
each holds at its first mark either nothing or its own rows of what the agent has said of
this batch, and all others stay as they are. The iteration ends, and unless an exception
escapes every slot that was popped has been marked. -/
theorem traffic_answers (x : Iteration F) (views : List ℕ) (popped : ℕ → TilersSlot F)
    (hnodup : views.Nodup) (h : Reach x views (cleared popped views) s) :
    (∃ made, Turn x views (cleared popped views) s.world (next x views s).world made) ∧
      ((∃ outcome, s.place = .ended outcome) ∨
        rank views (next x views s).place < rank views s.place) ∧
      ∀ outcome, s.place = .ended outcome → (∀ e, outcome ≠ .raised e) →
        ∀ sv ∈ views, sv ∈ s.world.marks := by
  have hsound := h.sound hnodup
  refine ⟨(next_sound hnodup hsound).2, next_rank hsound, fun outcome hended => ?_⟩
  have hat := hsound.place
  rw [hended] at hat
  exact hat

end Turns

section Alone

variable {x : Iteration F} {views : List ℕ}

def Alone (x : Iteration F) (views : List ℕ) : Flow F → Flow F → Prop :=
  Relation.ReflTransGen fun s t => next x views s = t

theorem alone_next {s t : Flow F} (h : Alone x views (next x views s) t) : Alone x views s t :=
  .head rfl h

theorem alone_recovering (outcome : Outcome) (rest : List ℕ) (w : World F) :
    Alone x views ⟨.recovering outcome rest, w⟩
      ⟨.ended outcome, rest.foldl (fun w sv => markDone sv w) w⟩ := by
  induction rest generalizing w with
  | nil => exact alone_next .refl
  | cons sv rest ih => exact alone_next (ih (markDone sv w))

theorem alone_reading (x : Iteration F) (views rest : List ℕ) (k : ℕ) (acc : Lists) (w : World F) :
    (∀ acc' w', collect x.faults (x.lookahead + 1) k rest acc w = (.ok acc', w') →
      ∃ k', Alone x views ⟨.reading k rest acc, w⟩ ⟨.reading k' [] acc', w'⟩) ∧
    ∀ e w', collect x.faults (x.lookahead + 1) k rest acc w = (.error e, w') →
      Alone x views ⟨.reading k rest acc, w⟩ ⟨clause views e, w'⟩ := by
  induction rest generalizing k acc w with
  | nil =>
    refine ⟨fun acc' w' h => ?_, fun e w' h => by cases h⟩
    cases h
    exact ⟨k, .refl⟩
  | cons sv rest ih =>
    rw [collect]
    cases hk : x.faults (.read k) with
    | some e =>
      refine ⟨(fun acc' w' h => by cases h), fun e' w' h => ?_⟩
      cases h
      apply alone_next
      simp only [next, hk]
      exact .refl
    | none =>
      dsimp only
      split
      · next hempty =>
        have hturn : next x views ⟨.reading k (sv :: rest) acc, w⟩ =
            ⟨.reading (k + 1) rest acc, markDone sv w⟩ := by simp only [next, hk, if_pos hempty]
        obtain ⟨hreads, hraises⟩ := ih (k + 1) acc (markDone sv w)
        refine ⟨fun acc' w' h => ?_, fun e w' h => alone_next (hturn ▸ hraises e w' h)⟩
        obtain ⟨k', hrest⟩ := hreads acc' w' h
        exact ⟨k', alone_next (hturn ▸ hrest)⟩
      · next hrows =>
        have hturn : next x views ⟨.reading k (sv :: rest) acc, w⟩ = ⟨.reading (k + 1) rest
            (acc.append (x.lookahead + 1) sv (w.slots sv)), w⟩ := by
          simp only [next, hk, if_neg hrows]
        obtain ⟨hreads, hraises⟩ := ih (k + 1) (acc.append (x.lookahead + 1) sv (w.slots sv)) w
        refine ⟨fun acc' w' h => ?_, fun e w' h => alone_next (hturn ▸ hraises e w' h)⟩
        obtain ⟨k', hrest⟩ := hreads acc' w' h
        exact ⟨k', alone_next (hturn ▸ hrest)⟩

theorem alone_writing (x : Iteration F) (views : List ℕ) (priors : Array2 F) (values : List F)
    (batched : Batched) (rest : List (ℕ × ℕ)) (k idx : ℕ) (w : World F) :
    (∀ w', writeBack x.faults priors values k idx rest w = (.ok (), w') →
      ∃ k' idx', Alone x views ⟨.writing k idx priors values batched rest, w⟩
        ⟨.writing k' idx' priors values batched [], w'⟩) ∧
    ∀ e w', writeBack x.faults priors values k idx rest w = (.error e, w') →
      Alone x views ⟨.writing k idx priors values batched rest, w⟩ ⟨clause views e, w'⟩ := by
  induction rest generalizing k idx w with
  | nil =>
    refine ⟨fun w' h => ?_, fun e w' h => by cases h⟩
    cases h
    exact ⟨k, idx, .refl⟩
  | cons pair rest ih =>
    obtain ⟨slotLen, sv⟩ := pair
    rw [writeBack]
    cases hk : x.faults (.write k) with
    | some e =>
      refine ⟨(fun w' h => by cases h), fun e' w' h => ?_⟩
      cases h
      apply alone_next
      simp only [next, hk]
      exact .refl
    | none =>
      dsimp only
      cases hwrite : writePriorsValues (priors.slice idx (idx + slotLen))
          ((values.drop idx).take slotLen) (w.slots sv) with
      | error e =>
        refine ⟨(fun w' h => by cases h), fun e' w' h => ?_⟩
        cases h
        apply alone_next
        simp only [next, hk, hwrite]
        exact .refl
      | ok slot =>
        have hturn : next x views ⟨.writing k idx priors values batched ((slotLen, sv) :: rest), w⟩ =
            ⟨.writing (k + 1) (idx + slotLen) priors values batched rest,
              markDone sv { w with slots := Function.update w.slots sv slot }⟩ := by
          simp only [next, hk, hwrite]
        obtain ⟨hwrites, hraises⟩ := ih (k + 1) (idx + slotLen)
          (markDone sv { w with slots := Function.update w.slots sv slot })
        refine ⟨fun w' h => ?_, fun e w' h => alone_next (hturn ▸ hraises e w' h)⟩
        obtain ⟨k', idx', hrest⟩ := hwrites w' h
        exact ⟨k', idx', alone_next (hturn ▸ hrest)⟩

/-- From the call of the agent on. -/
theorem alone_answer (x : Iteration F) (views : List ℕ) (batched : Batched) (w : World F) :
    (∀ w', answer x batched w = (.ok (), w') →
      Alone x views ⟨.asking batched, w⟩ ⟨.ended .goesOn, w'⟩) ∧
    ∀ e w', answer x batched w = (.error e, w') →
      Alone x views ⟨.asking batched, w⟩ ⟨clause views e, w'⟩ := by
  rw [answer]
  cases hagent : x.agent batched.batch with
  | error e =>
    refine ⟨(fun w' h => by cases h), fun e' w' h => ?_⟩
    cases h
    apply alone_next
    simp only [next, hagent]
    exact .refl
  | ok out =>
    obtain ⟨priors, values⟩ := out
    have hturn : next x views ⟨.asking batched, w⟩ = ⟨.writing 0 0 priors values batched
        (batched.slotBatchSizes.zip batched.validSlotViews), w⟩ := by simp only [next, hagent]
    obtain ⟨hwrites, hraises⟩ := alone_writing x views priors values batched
      (batched.slotBatchSizes.zip batched.validSlotViews) 0 0 w
    rcases hback : writeBack x.faults priors values 0 0
      (batched.slotBatchSizes.zip batched.validSlotViews) w with ⟨done, w₁⟩
    dsimp only
    rw [hback]
    cases done with
    | error e =>
      refine ⟨(fun w' h => by cases h), fun e' w' h => ?_⟩
      cases h
      exact alone_next (hturn ▸ hraises e w₁ hback)
    | ok done =>
      obtain ⟨k, idx, hwritten⟩ := hwrites w₁ hback
      have hlast : ∀ {t}, Alone x views (next x views ⟨.writing k idx priors values batched [], w₁⟩) t →
          Alone x views ⟨.asking batched, w⟩ t := fun h =>
        alone_next (hturn ▸ hwritten.trans (alone_next h))
      dsimp only
      split
      · next hmetrics =>
        cases hfault : x.faults .metrics with
        | some e =>
          refine ⟨(fun w' h => by cases h), fun e' w' h => hlast ?_⟩
          cases h
          simp only [next, if_pos hmetrics, hfault]
          exact .refl
        | none =>
          refine ⟨fun w' h => hlast ?_, fun e' w' h => by cases h⟩
          cases h
          simp only [next, if_pos hmetrics, hfault]
          exact .refl
      · next hmetrics =>
        refine ⟨fun w' h => hlast ?_, fun e' w' h => by cases h⟩
        cases h
        simp only [next, if_neg hmetrics]
        exact .refl

/-- Where an attempt ends, the handler's steps lead: out of the `try`, or to a clause. -/
theorem alone_attempt (x : Iteration F) (views : List ℕ) (w : World F) :
    (∀ w', attempt x views w = (.ok (), w') →
      Alone x views ⟨.starting, w⟩ ⟨.ended .goesOn, w'⟩) ∧
    ∀ e w', attempt x views w = (.error e, w') →
      Alone x views ⟨.starting, w⟩ ⟨clause views e, w'⟩ := by
  by_cases hlook : LOOKAHEAD_MAX < x.lookahead + 1
  · simp only [attempt, buildBoardBatch, if_pos hlook]
    refine ⟨(fun w' h => by cases h), fun e w' h => ?_⟩
    cases h
    apply alone_next
    simp only [next, if_pos hlook]
    exact .refl
  · simp only [attempt, buildBoardBatch, if_neg hlook]
    have hturn : next x views ⟨.starting, w⟩ =
        ⟨.reading 0 views ⟨[], [], [], [], [], [], []⟩, w⟩ := by simp only [next, if_neg hlook]
    obtain ⟨hreads, hraises⟩ :=
      alone_reading x views views 0 ⟨[], [], [], [], [], [], []⟩ w
    rcases hcollect : collect x.faults (x.lookahead + 1) 0 views ⟨[], [], [], [], [], [], []⟩ w with
      ⟨result, w₁⟩
    cases result with
    | error e =>
      refine ⟨(fun w' h => by cases h), fun e' w' h => ?_⟩
      cases h
      exact alone_next (hturn ▸ hraises e w₁ hcollect)
    | ok acc =>
      obtain ⟨k, hread⟩ := hreads acc w₁ hcollect
      have hlast : ∀ {t}, Alone x views (next x views ⟨.reading k [] acc, w₁⟩) t →
          Alone x views ⟨.starting, w⟩ t := fun h =>
        alone_next (hturn ▸ hread.trans (alone_next h))
      dsimp only
      by_cases hvalid : acc.validSlotViews = []
      · simp only [if_pos hvalid]
        refine ⟨fun w' h => hlast ?_, fun e' w' h => by cases h⟩
        cases h
        simp only [next, if_pos hvalid]
        exact .refl
      · simp only [if_neg hvalid]
        cases hconcat : x.faults .concatenate with
        | some e =>
          refine ⟨(fun w' h => by cases h), fun e' w' h => hlast ?_⟩
          cases h
          simp only [next, if_neg hvalid, hconcat]
          exact .refl
        | none =>
          have hasks : next x views ⟨.reading k [] acc, w₁⟩ = ⟨.asking acc.batched, w₁⟩ := by
            simp only [next, if_neg hvalid, hconcat]
          obtain ⟨hanswers, hfails⟩ := alone_answer x views acc.batched w₁
          exact ⟨fun w' h => hlast (hasks ▸ hanswers w' h),
            fun e w' h => hlast (hasks ▸ hfails e w' h)⟩

/-- Without clients the steps of the handler are an iteration of `do_work`. -/
theorem alone_doWork (x : Iteration F) (views : List ℕ) (w : World F) :
    Alone x views ⟨.starting, w⟩ ⟨.ended (doWork x views w).1, (doWork x views w).2⟩ := by
  obtain ⟨hends, hraises⟩ := alone_attempt x views w
  rw [doWork]
  rcases hattempt : attempt x views w with ⟨result, w₁⟩
  cases result with
  | ok done => exact hends w₁ hattempt
  | error e =>
    have hclause := hraises e w₁ hattempt
    cases e with
    | keyboardInterrupt => exact hclause.trans (alone_recovering .stopped views w₁)
    | exception message => exact hclause.trans (alone_recovering .goesOn views w₁)
    | baseException name => exact hclause

theorem cleared_pop (slots : ℕ → TilersSlot F) (views : List ℕ) (sv : ℕ) :
    Function.update (cleared slots views) sv (clearOutputs (cleared slots views sv)) =
      cleared slots (views ++ [sv]) := by
  funext v
  by_cases hv : v = sv
  · subst hv
    by_cases hmem : v ∈ views
    · simp [cleared, hmem, clearOutputs]
    · simp [cleared, hmem]
  · simp [cleared, hv]

theorem fillBatch_slots {polls : List (Option Pop)} {p : Pump F} {slotViews : List ℕ}
    (hslots : p.world.slots = cleared slots views)
    (h : (fillBatch polls views p).1 = .ok slotViews) :
    (fillBatch polls views p).2.world.slots = cleared slots slotViews := by
  induction polls generalizing views p with
  | nil =>
    cases h
    exact hslots
  | cons poll rest ih =>
    rw [fillBatch.eq_def] at h ⊢
    dsimp only at h ⊢
    split at h
    · next hlt =>
      rw [if_pos hlt]
      cases poll with
      | none => exact ih hslots h
      | some pop =>
        cases pop with
        | view sv =>
          have hpop : (p.pop sv).world.slots = cleared slots (views ++ [sv]) := by
            rw [← cleared_pop, ← hslots]
            rfl
          exact ih hpop h
        | raised popped e => cases h
    · next hge =>
      cases h
      rw [if_neg hge]
      exact hslots

/-- A round without an exception outside the `try` hands the slots that it popped to such
an iteration, with their outputs cleared. -/
theorem round_alone (x : Round F) (p : Pump F) {sv : ℕ} {slotViews : List ℕ}
    (hfirst : x.first = .view sv)
    (hfill : (fillBatch x.polls [sv]
      (({ p with world := { p.world with slots := x.slots } } : Pump F).pop sv)).1 =
        .ok slotViews) :
    ∃ w : World F, w.slots = cleared x.slots slotViews ∧
      Alone x.iteration slotViews ⟨.starting, w⟩
        ⟨.ended (HandlerRuns.round x p).1, (HandlerRuns.round x p).2.world⟩ := by
  obtain ⟨start, hstart⟩ : ∃ start : Pump F,
    start = ({ p with world := { p.world with slots := x.slots } } : Pump F).pop sv := ⟨_, rfl⟩
  have hslots : start.world.slots = cleared x.slots [sv] := by
    have hnone : cleared x.slots [] = x.slots := by
      funext v
      simp [cleared]
    have hpop := cleared_pop x.slots [] sv
    rw [hnone] at hpop
    rw [hstart]
    exact hpop
  rw [← hstart] at hfill
  have hbatch := fillBatch_slots hslots hfill
  rw [HandlerRuns.round, hfirst]
  dsimp only
  rw [← hstart]
  rcases hresult : fillBatch x.polls [sv] start with ⟨result, p₁⟩
  rw [hresult] at hfill hbatch
  obtain rfl : result = .ok slotViews := hfill
  exact ⟨p₁.world, hbatch, alone_doWork x.iteration slotViews p₁.world⟩

end Alone

section Runs

open MarkDone

def stale (_ : ℕ) : TilersSlot ℕ := { blank with priors := fun _ => 9, values := fun _ => 9 }

def answered : Flow ℕ :=
  (next secondFails [3, 4])^[6] ⟨.starting, ⟨cleared stale [3, 4], [], []⟩⟩

/-- Its client has read it, and another client has taken the slot. -/
def taken : Flow ℕ :=
  { answered with world := { answered.world with
    slots := Function.update answered.world.slots 3 { blank with ownerId := 7 } } }

theorem reach_iterate {x : Iteration ℕ} {views : List ℕ} {slots : ℕ → TilersSlot ℕ} {s : Flow ℕ}
    (h : Reach x views slots s) (n : ℕ) : Reach x views slots ((next x views)^[n] s) := by
  induction n with
  | zero => exact h
  | succ n ih =>
    rw [Function.iterate_succ_apply']
    exact .handler ih

/-- The first slot was shown with its own value. The second answer cannot be written, and
the first slot is marked a second time, now in the hands of another client; the second
slot is shown without an answer. -/
theorem traffic_answers_taken :
    (answered.world.slots 3).values 0 = 5 ∧ answered.world.marks = [3] ∧
    (∃ made, Turn secondFails [3, 4] (cleared stale [3, 4]) taken.world
      (next secondFails [3, 4] taken).world made) ∧
    ((next secondFails [3, 4])^[4] taken).world.marks = [3, 3, 4] ∧
    (((next secondFails [3, 4])^[4] taken).world.slots 3).ownerId = 7 ∧
    (((next secondFails [3, 4])^[4] taken).world.slots 4).values 0 = 0 ∧
    ∀ sv ∈ [3, 4], sv ∈ ((next secondFails [3, 4])^[4] taken).world.marks := by
  have hanswered : Reach secondFails [3, 4] (cleared stale [3, 4]) answered :=
    reach_iterate (.start []) 6
  have htaken : Reach secondFails [3, 4] (cleared stale [3, 4]) taken := by
    refine .clients hanswered _ fun sv _ hmarks => ?_
    have hne : sv ≠ 3 := by
      rintro rfl
      exact hmarks (by decide +kernel)
    exact Function.update_of_ne hne _ _
  have hturn := (traffic_answers secondFails [3, 4] stale (by decide) htaken).1
  have hlast := (traffic_answers secondFails [3, 4] stale (by decide) (reach_iterate htaken 4)).2.2
    .goesOn (by rfl) (fun e => by simp)
  exact ⟨by decide +kernel, by decide +kernel, hturn, by decide +kernel, by decide +kernel,
    by decide +kernel, hlast⟩

end Runs

end Mcts.HandlerTraffic
