import Mcts.MarkDone

/-!
The whole of `do_work`: pop a slot, fill up the batch as long as there is time,
try to answer it, and again. Whatever raises on the way, what has been popped is
marked done before the next pop. An exception may leave the loop, from outside the
`try` or past its clauses; then the slots of that round are lost, and no others.
-/
namespace Mcts.HandlerRuns

open Regions Slots Handler Collecting
open SlotProtocol (SLOT_DONE)

def MAX_SLOTS_PER_BATCH : ℕ := 64

variable {F : Type} [Zero F]

section Loop

/-- A pop that is not in vain, or an exception outside the `try`: before or after a
pop, or in the sleep after an empty poll. -/
inductive Pop
  | view (sv : ℕ)
  | raised (popped : Option ℕ) (e : PyError)

/-- What one round of the loop meets. The slots are what the clients have made of them
when it begins; the polls are those that there is time for, `none` an empty queue. -/
structure Round (F : Type) where
  slots : ℕ → TilersSlot F
  first : Pop
  polls : List (Option Pop)
  iteration : Iteration F

structure Pump (F : Type) where
  world : World F
  popped : List ℕ

/-- `pop_ready_view(clear_outputs=True)`, which got this slot. -/
def Pump.pop (sv : ℕ) (p : Pump F) : Pump F where
  world := { p.world with
    slots := Function.update p.world.slots sv (clearOutputs (p.world.slots sv)) }
  popped := p.popped ++ [sv]

def Pump.lose (popped : Option ℕ) (p : Pump F) : Pump F :=
  match popped with
  | none => p
  | some sv => p.pop sv

def fillBatch : List (Option Pop) → List ℕ → Pump F → Except PyError (List ℕ) × Pump F
  | [], slotViews, p => (.ok slotViews, p)
  | poll :: rest, slotViews, p =>
    if slotViews.length < MAX_SLOTS_PER_BATCH then
      match poll with
      | none => fillBatch rest slotViews p
      | some (.view sv) => fillBatch rest (slotViews ++ [sv]) (p.pop sv)
      | some (.raised popped e) => (.error e, p.lose popped)
    else (.ok slotViews, p)

/-- One round of the loop. An interrupt of the first pop ends it in silence. -/
def round (x : Round F) (p : Pump F) : Outcome × Pump F :=
  let p := { p with world := { p.world with slots := x.slots } }
  match x.first with
  | .raised popped e => (if e = .keyboardInterrupt then .stopped else .raised e, p.lose popped)
  | .view sv =>
    match fillBatch x.polls [sv] (p.pop sv) with
    | (.error e, p) => (.raised e, p)
    | (.ok slotViews, p) =>
      match doWork x.iteration slotViews p.world with
      | (outcome, w) => (outcome, { p with world := w })

def work : List (Round F) → Pump F → Outcome × Pump F
  | [], p => (.goesOn, p)
  | x :: rest, p =>
    match round x p with
    | (.goesOn, p) => work rest p
    | (outcome, p) => (outcome, p)

end Loop

section Steps

omit [Zero F]

/-- From `w` to `w'` these views were marked done, and no other slot was touched. -/
structure Step (w w' : World F) (made : List ℕ) : Prop where
  marks : w'.marks = w.marks ++ made
  done : ∀ sv ∈ made, (w'.slots sv).state = SLOT_DONE
  same : ∀ sv ∉ made, w'.slots sv = w.slots sv

variable {w w' w'' : World F} {made made' : List ℕ} {sv : ℕ} {slot : TilersSlot F}

theorem Step.refl (w : World F) : Step w w [] := ⟨by simp, by simp, fun _ _ => rfl⟩

theorem Step.trans (h : Step w w' made) (h' : Step w' w'' made') :
    Step w w'' (made ++ made') where
  marks := by rw [h'.marks, h.marks, List.append_assoc]
  done sv hsv := by
    by_cases hlate : sv ∈ made'
    · exact h'.done sv hlate
    · rw [h'.same sv hlate]
      exact h.done sv ((List.mem_append.mp hsv).resolve_right hlate)
  same sv hsv := by
    rw [List.mem_append, not_or] at hsv
    rw [h'.same sv hsv.2, h.same sv hsv.1]

/-- A slot is written and marked. -/
theorem step_write (sv : ℕ) (slot : TilersSlot F) (w : World F) :
    Step w (markDone sv { w with slots := Function.update w.slots sv slot }) [sv] where
  marks := rfl
  done v hv := by
    obtain rfl := List.mem_singleton.mp hv
    simp [markDone]
  same v hv := by
    have hne : v ≠ sv := fun heq => hv (List.mem_singleton.mpr heq)
    simp [markDone, Function.update_of_ne hne]

theorem step_markDone (sv : ℕ) (w : World F) : Step w (markDone sv w) [sv] := by
  have hsame := step_write sv (w.slots sv) w
  rwa [Function.update_eq_self] at hsame

theorem step_recover (views : List ℕ) (w : World F) :
    Step w (views.foldl (fun w sv => markDone sv w) w) views := by
  induction views generalizing w with
  | nil => exact Step.refl w
  | cons sv rest ih => exact (step_markDone sv w).trans (ih (markDone sv w))

end Steps

section Attempts

variable {faults : Point → Option PyError} {x : Iteration F} {views rest : List ℕ} {n k idx : ℕ}
variable {slots : ℕ → TilersSlot F} {w w' : World F} {priors : Array2 F} {values : List F}

omit [Zero F] in
/-- The views without rows are marked on the way, up to an exception. -/
theorem collect_step (faults : Point → Option PyError) (n k : ℕ) (views : List ℕ) (acc : Lists)
    (hw : Steady slots w.slots) :
    ∃ i, Step w (collect faults n k views acc w).2 (emptyViews slots (views.take i)) ∧
      Steady slots (collect faults n k views acc w).2.slots ∧
      ∀ acc', (collect faults n k views acc w).1 = .ok acc' → i = views.length := by
  induction views generalizing k acc w with
  | nil => exact ⟨0, Step.refl w, hw, fun _ _ => rfl⟩
  | cons sv rest ih =>
    cases hk : faults (.read k) with
    | some e =>
      simp only [collect, hk]
      exact ⟨0, Step.refl w, hw, fun _ hok => by cases hok⟩
    | none =>
      simp only [collect, hk, Nat.le_zero]
      split
      · next hempty =>
        obtain ⟨i, hstep, hsteady, hlast⟩ := ih (k + 1) acc (hw.markDone sv)
        refine ⟨i + 1, ?_, hsteady, fun acc' hok => congrArg Nat.succ (hlast acc' hok)⟩
        rw [List.take_succ_cons, emptyViews_cons, if_pos (hw.batchLen sv ▸ hempty)]
        exact (step_markDone sv w).trans hstep
      · next hrows =>
        obtain ⟨i, hstep, hsteady, hlast⟩ := ih (k + 1) (acc.append n sv (w.slots sv)) hw
        refine ⟨i + 1, ?_, hsteady, fun acc' hok => congrArg Nat.succ (hlast acc' hok)⟩
        rw [List.take_succ_cons, emptyViews_cons, if_neg (hw.batchLen sv ▸ hrows)]
        exact hstep

omit [Zero F] in
theorem buildBoardBatch_step (faults : Point → Option PyError) (views : List ℕ) (lookahead : ℕ)
    (w : World F) :
    ∃ i, Step w (buildBoardBatch faults views lookahead w).2 (emptyViews w.slots (views.take i)) ∧
      Steady w.slots (buildBoardBatch faults views lookahead w).2.slots ∧
      ∀ b, (buildBoardBatch faults views lookahead w).1 = .ok b → i = views.length ∧
        (b = none ∧ validViews w.slots views = [] ∨
          b = some (collected (lookahead + 1) w.slots views).batched) := by
  obtain ⟨i, hstep, hsteady, hlast⟩ :=
    collect_step faults (lookahead + 1) 0 views ⟨[], [], [], [], [], [], []⟩ (Steady.refl w.slots)
  rw [buildBoardBatch]
  split
  · exact ⟨0, Step.refl w, Steady.refl _, fun _ hok => by cases hok⟩
  · cases hread : firstRead faults 0 views with
    | some found =>
      obtain ⟨j, e⟩ := found
      obtain ⟨-, w', -, -, hcollect, -⟩ := collect_error (lookahead + 1)
        ⟨[], [], [], [], [], [], []⟩ (Steady.refl w.slots) hread
      rw [hcollect] at hstep hsteady ⊢
      exact ⟨i, hstep, hsteady, fun _ hok => by cases hok⟩
    | none =>
      obtain ⟨w', hcollect, -⟩ := collect_ok (lookahead + 1) ⟨[], [], [], [], [], [], []⟩
        (Steady.refl w.slots) hread
      rw [hcollect] at hstep hsteady hlast ⊢
      dsimp only
      split
      · next hvalid =>
        refine ⟨i, hstep, hsteady, fun b hok => ⟨hlast _ rfl, .inl ⟨?_, ?_⟩⟩⟩
        · cases hok
          rfl
        · simpa [extended] using hvalid
      · cases faults .concatenate with
        | some e => exact ⟨i, hstep, hsteady, fun _ hok => by cases hok⟩
        | none =>
          refine ⟨i, hstep, hsteady, fun b hok => ⟨hlast _ rfl, .inr ?_⟩⟩
          cases hok
          rfl

/-- The slots are marked in order as they are written, up to an exception. -/
theorem writeBack_step (faults : Point → Option PyError) (priors : Array2 F) (values : List F)
    (k idx : ℕ) (rest : List ℕ) (lens : ℕ → ℕ) (w : World F) :
    ∃ i, Step w (writeBack faults priors values k idx (rest.map fun sv => (lens sv, sv)) w).2
        (rest.take i) ∧
      ((writeBack faults priors values k idx (rest.map fun sv => (lens sv, sv)) w).1 = .ok () →
        i = rest.length) := by
  induction rest generalizing k idx w with
  | nil => exact ⟨0, Step.refl w, fun _ => rfl⟩
  | cons sv rest ih =>
    rw [List.map_cons, writeBack]
    cases hk : faults (.write k) with
    | some e => exact ⟨0, Step.refl w, fun hok => by cases hok⟩
    | none =>
      dsimp only
      cases hwrite : writePriorsValues (priors.slice idx (idx + lens sv))
          ((values.drop idx).take (lens sv)) (w.slots sv) with
      | error e => exact ⟨0, Step.refl w, fun hok => by cases hok⟩
      | ok slot =>
        obtain ⟨i, hstep, hlast⟩ := ih (k + 1) (idx + lens sv)
          (markDone sv { w with slots := Function.update w.slots sv slot })
        exact ⟨i + 1, (step_write sv slot w).trans hstep, fun hok => congrArg Nat.succ (hlast hok)⟩

/-- Whatever becomes of an attempt, it has marked each view once at most, and each
view if it went well. -/
theorem attempt_step (x : Iteration F) (views : List ℕ) (w : World F) :
    ∃ made, Step w (attempt x views w).2 made ∧ made.Subperm views ∧
      ((attempt x views w).1 = .ok () → made.Perm views) := by
  obtain ⟨i, hstep, hsteady, hbuilt⟩ := buildBoardBatch_step x.faults views x.lookahead w
  have hsub : (emptyViews w.slots (views.take i)).Subperm views :=
    (List.filter_sublist.trans (List.take_sublist i views)).subperm
  have hall := views_perm w.slots views
  rw [attempt]
  rcases hbuild : buildBoardBatch x.faults views x.lookahead w with ⟨built, w₁⟩
  rw [hbuild] at hstep hbuilt
  cases built with
  | error e => exact ⟨_, hstep, hsub, fun hok => by cases hok⟩
  | ok b =>
    obtain ⟨rfl, hb⟩ := hbuilt b rfl
    rw [List.take_length] at hstep hsub
    rcases hb with ⟨rfl, hnone⟩ | rfl
    · rw [hnone, List.append_nil] at hall
      exact ⟨_, hstep, hsub, fun _ => hall⟩
    · dsimp only
      rw [answer]
      cases x.agent (collected (x.lookahead + 1) w.slots views).batched.batch with
      | error e => exact ⟨_, hstep, hsub, fun hok => by cases hok⟩
      | ok out =>
        obtain ⟨priors, values⟩ := out
        dsimp only
        rw [collected_pairs]
        obtain ⟨j, hwritten, hlast⟩ := writeBack_step x.faults priors values 0 0
          (validViews w.slots views) (fun sv => batchLen (w.slots sv)) w₁
        have hmade := hstep.trans hwritten
        have hpart :
            (emptyViews w.slots views ++ (validViews w.slots views).take j).Subperm views :=
          (((List.Sublist.refl _).append (List.take_sublist j _)).subperm).trans hall.subperm
        rcases hback : writeBack x.faults priors values 0 0
          ((validViews w.slots views).map fun sv => (batchLen (w.slots sv), sv)) w₁ with ⟨done, w₂⟩
        rw [hback] at hmade hlast
        cases done with
        | error e => exact ⟨_, hmade, hpart, fun hok => by cases hok⟩
        | ok done =>
          have hj := hlast rfl
          rw [hj, List.take_length] at hmade hpart
          dsimp only
          split
          · cases x.faults .metrics with
            | some e => exact ⟨_, hmade, hpart, fun hok => by cases hok⟩
            | none => exact ⟨_, ⟨hmade.marks, hmade.done, hmade.same⟩, hpart, fun _ => hall⟩
          · exact ⟨_, hmade, hpart, fun _ => hall⟩

omit [Zero F] in
theorem collect_source {name : String} {acc : Lists}
    (h : (collect faults n k views acc w).1 = .error (.baseException name)) :
    ∃ point, faults point = some (.baseException name) := by
  induction views generalizing k acc w with
  | nil => cases h
  | cons sv rest ih =>
    rw [collect] at h
    cases hk : faults (.read k) with
    | some e =>
      simp only [hk, Except.error.injEq] at h
      exact ⟨_, h ▸ hk⟩
    | none =>
      simp only [hk] at h
      split at h
      · exact ih h
      · exact ih h

omit [Zero F] in
theorem buildBoardBatch_source {name : String} {lookahead : ℕ}
    (h : (buildBoardBatch faults views lookahead w).1 = .error (.baseException name)) :
    ∃ point, faults point = some (.baseException name) := by
  rw [buildBoardBatch] at h
  split at h
  · cases h
  · rcases hcollect : collect faults (lookahead + 1) 0 views ⟨[], [], [], [], [], [], []⟩ w with
      ⟨result, w₁⟩
    rw [hcollect] at h
    cases result with
    | error e =>
      cases h
      exact collect_source (congrArg Prod.fst hcollect)
    | ok acc =>
      dsimp only at h
      split at h
      · cases h
      · cases hconcat : faults .concatenate with
        | none => simp [hconcat] at h
        | some e =>
          simp only [hconcat, Except.error.injEq] at h
          exact ⟨_, h ▸ hconcat⟩

theorem writeBack_source {name : String} {pairs : List (ℕ × ℕ)}
    (h : (writeBack faults priors values k idx pairs w).1 = .error (.baseException name)) :
    ∃ point, faults point = some (.baseException name) := by
  induction pairs generalizing k idx w with
  | nil => cases h
  | cons pair rest ih =>
    obtain ⟨slotLen, sv⟩ := pair
    rw [writeBack] at h
    cases hk : faults (.write k) with
    | some e =>
      simp only [hk, Except.error.injEq] at h
      exact ⟨_, h ▸ hk⟩
    | none =>
      simp only [hk] at h
      cases hwrite : writePriorsValues (priors.slice idx (idx + slotLen))
          ((values.drop idx).take slotLen) (w.slots sv) with
      | error e =>
        -- What `write_priors_values` itself raises is of class `Exception`.
        rw [hwrite] at h
        simp only [writePriorsValues] at hwrite
        split_ifs at hwrite <;> cases hwrite <;> cases h
      | ok slot =>
        rw [hwrite] at h
        exact ih h

/-- What neither clause catches comes from the agent or from one of the other points. -/
theorem attempt_source {name : String}
    (h : (attempt x views w).1 = .error (.baseException name)) :
    (∃ point, x.faults point = some (.baseException name)) ∨
      ∃ batch, x.agent batch = .error (.baseException name) := by
  rw [attempt] at h
  rcases hbuild : buildBoardBatch x.faults views x.lookahead w with ⟨built, w₁⟩
  rw [hbuild] at h
  cases built with
  | error e =>
    cases h
    exact .inl (buildBoardBatch_source (congrArg Prod.fst hbuild))
  | ok b =>
    cases b with
    | none => cases h
    | some batched =>
      dsimp only at h
      rw [answer] at h
      cases hagent : x.agent batched.batch with
      | error e =>
        simp only [hagent, Except.error.injEq] at h
        exact .inr ⟨_, h ▸ hagent⟩
      | ok out =>
        obtain ⟨priors, values⟩ := out
        simp only [hagent] at h
        rcases hback : writeBack x.faults priors values 0 0
          (batched.slotBatchSizes.zip batched.validSlotViews) w₁ with ⟨done, w₂⟩
        rw [hback] at h
        cases done with
        | error e =>
          cases h
          exact .inl (writeBack_source (congrArg Prod.fst hback))
        | ok done =>
          dsimp only at h
          split at h
          · cases hmetrics : x.faults .metrics with
            | none => simp [hmetrics] at h
            | some e =>
              simp only [hmetrics, Except.error.injEq] at h
              exact .inl ⟨_, h ▸ hmetrics⟩
          · cases h

/-- An iteration marks no view more than twice, and each at least once; unless an
exception escapes, when none is marked more than once. -/
theorem doWork_step (x : Iteration F) (views : List ℕ) (w : World F) :
    ∃ made, Step w (doWork x views w).2 made ∧
      ((∀ sv, views.count sv ≤ made.count sv ∧ made.count sv ≤ 2 * views.count sv) ∧
        (∀ e, (doWork x views w).1 ≠ .raised e) ∨
      made.Subperm views ∧ ∃ name, (doWork x views w).1 = .raised (.baseException name) ∧
        (attempt x views w).1 = .error (.baseException name)) := by
  obtain ⟨made, hstep, hsub, hok⟩ := attempt_step x views w
  have hboth : ∀ sv, views.count sv ≤ (made ++ views).count sv ∧
      (made ++ views).count sv ≤ 2 * views.count sv := by
    intro sv
    have hle := hsub.count_le sv
    rw [List.count_append]
    omega
  rw [doWork]
  rcases hattempt : attempt x views w with ⟨result, w₁⟩
  rw [hattempt] at hstep hok
  cases result with
  | error e =>
    have hrecovered := hstep.trans (step_recover views w₁)
    cases e with
    | keyboardInterrupt => exact ⟨_, hrecovered, .inl ⟨hboth, fun e h => by cases h⟩⟩
    | exception message => exact ⟨_, hrecovered, .inl ⟨hboth, fun e h => by cases h⟩⟩
    | baseException name => exact ⟨made, hstep, .inr ⟨hsub, name, rfl, rfl⟩⟩
  | ok done =>
    refine ⟨made, hstep, .inl ⟨fun sv => ?_, fun e h => by cases h⟩⟩
    have heq := (hok rfl).count_eq sv
    omega

end Attempts

section Runs

variable {p : Pump F} {views handled lost : List ℕ}

@[simp] theorem pop_marks (sv : ℕ) (p : Pump F) : (p.pop sv).world.marks = p.world.marks := rfl

@[simp] theorem pop_popped (sv : ℕ) (p : Pump F) : (p.pop sv).popped = p.popped ++ [sv] := rfl

theorem lose_spec (popped : Option ℕ) (p : Pump F) :
    (p.lose popped).popped = p.popped ++ popped.toList ∧
      (p.lose popped).world.marks = p.world.marks := by
  cases popped with
  | none => exact ⟨by simp [Pump.lose], rfl⟩
  | some sv => exact ⟨rfl, rfl⟩

/-- Filling up pops at most as many slots as a batch has room for, and marks none. -/
theorem fillBatch_spec (polls : List (Option Pop)) (p : Pump F) (views : List ℕ)
    (hviews : views.length ≤ MAX_SLOTS_PER_BATCH) :
    ∃ more, (fillBatch polls views p).2.popped = p.popped ++ more ∧
      (views ++ more).length ≤ MAX_SLOTS_PER_BATCH ∧
      (fillBatch polls views p).2.world.marks = p.world.marks ∧
      ∀ slotViews, (fillBatch polls views p).1 = .ok slotViews → slotViews = views ++ more := by
  induction polls generalizing views p with
  | nil =>
    exact ⟨[], by simp [fillBatch], by simpa using hviews, rfl, fun _ hok => by cases hok; simp⟩
  | cons poll rest ih =>
    rw [fillBatch.eq_def]
    dsimp only
    split
    · next hlt =>
      cases poll with
      | none => exact ih p views hviews
      | some pop =>
        cases pop with
        | view sv =>
          obtain ⟨more, hpopped, hlength, hmarks, hok⟩ := ih (p.pop sv) (views ++ [sv])
            (by rw [List.length_append]; exact hlt)
          refine ⟨sv :: more, ?_, by simpa using hlength, hmarks, fun slotViews h => ?_⟩
          · rw [hpopped, pop_popped, List.append_assoc, List.singleton_append]
          · rw [hok slotViews h, List.append_assoc, List.singleton_append]
        | raised popped e =>
          obtain ⟨hpopped, hmarks⟩ := lose_spec popped p
          refine ⟨popped.toList, hpopped, ?_, hmarks, fun _ hok => by cases hok⟩
          have hone : popped.toList.length ≤ 1 := by cases popped <;> simp
          rw [List.length_append]
          omega
    · exact ⟨[], by simp, by simpa using hviews, rfl, fun _ hok => by cases hok; simp⟩

/-- The views that were handled have been marked once or twice each, the lost ones once
at most. -/
structure Released (p : Pump F) (handled lost : List ℕ) : Prop where
  popped : p.popped = handled ++ lost
  least : ∀ sv, handled.count sv ≤ p.world.marks.count sv
  most : ∀ sv, p.world.marks.count sv ≤ 2 * handled.count sv + lost.count sv
  bounded : lost.length ≤ MAX_SLOTS_PER_BATCH

/-- The ways out of the loop: an exception outside the `try`, or one inside that neither
clause catches. -/
inductive Escapes (x : Round F) : Prop
  | first (popped : Option ℕ) (e : PyError) (h : x.first = .raised popped e)
  | poll (popped : Option ℕ) (e : PyError) (h : some (.raised popped e) ∈ x.polls)
  | fault (point : Point) (name : String)
      (h : x.iteration.faults point = some (.baseException name))
  | agent (batch : Batch) (name : String)
      (h : x.iteration.agent batch = .error (.baseException name))

theorem fillBatch_escapes {polls : List (Option Pop)} {e : PyError}
    (h : (fillBatch polls views p).1 = .error e) : ∃ popped, some (.raised popped e) ∈ polls := by
  induction polls generalizing views p with
  | nil => cases h
  | cons poll rest ih =>
    rw [fillBatch.eq_def] at h
    dsimp only at h
    split at h
    · cases poll with
      | none =>
        obtain ⟨popped, hmem⟩ := ih h
        exact ⟨popped, List.mem_cons_of_mem _ hmem⟩
      | some pop =>
        cases pop with
        | view sv =>
          obtain ⟨popped, hmem⟩ := ih h
          exact ⟨popped, List.mem_cons_of_mem _ hmem⟩
        | raised popped e' =>
          cases h
          exact ⟨popped, List.mem_cons_self⟩
    · cases h

/-- A round releases what it pops, unless an exception escapes; then it is the last. -/
theorem round_released (x : Round F) (h : Released p handled []) :
    ∃ handled' lost', Released (round x p).2 handled' lost' ∧
      (lost' = [] ∨ handled' = handled ∧ (round x p).1 ≠ .goesOn ∧ Escapes x) := by
  have hhandled : p.popped = handled := by rw [h.popped, List.append_nil]
  have hlost : ∀ (q : Pump F) (lost : List ℕ), q.popped = p.popped ++ lost →
      q.world.marks = p.world.marks → lost.length ≤ MAX_SLOTS_PER_BATCH →
      Released q handled lost := by
    intro q lost hpopped hmarks hlength
    refine ⟨by rw [hpopped, hhandled], hmarks ▸ h.least, fun sv => ?_, hlength⟩
    have hmost := h.most sv
    rw [List.count_nil, Nat.add_zero] at hmost
    exact hmarks ▸ Nat.le_add_right_of_le hmost
  rw [round]
  cases hfirst : x.first with
  | raised popped e =>
    obtain ⟨hpopped, hmarks⟩ :=
      lose_spec popped { p with world := { p.world with slots := x.slots } }
    have hone : popped.toList.length ≤ MAX_SLOTS_PER_BATCH := by
      cases popped <;> simp [MAX_SLOTS_PER_BATCH]
    refine ⟨handled, _, hlost _ _ hpopped hmarks hone, .inr ⟨rfl, ?_, .first popped e hfirst⟩⟩
    dsimp only
    split <;> exact fun hgo => by cases hgo
  | view sv =>
    dsimp only
    obtain ⟨start, hstart⟩ : ∃ start : Pump F,
      start = ({ p with world := { p.world with slots := x.slots } } : Pump F).pop sv := ⟨_, rfl⟩
    obtain ⟨more, hpopped, hlength, hmarks, hok⟩ := fillBatch_spec x.polls start [sv]
      (by simp [MAX_SLOTS_PER_BATCH])
    rw [← hstart]
    rcases hfill : fillBatch x.polls [sv] start with ⟨result, p₁⟩
    rw [hfill] at hpopped hmarks hok
    rw [hstart, pop_popped, List.append_assoc] at hpopped
    rw [hstart, pop_marks] at hmarks
    cases result with
    | error e =>
      obtain ⟨popped, hmem⟩ := fillBatch_escapes (congrArg Prod.fst hfill)
      exact ⟨handled, _, hlost _ _ hpopped hmarks hlength,
        .inr ⟨rfl, (fun hgo => by cases hgo), .poll popped e hmem⟩⟩
    | ok slotViews =>
      obtain rfl := hok slotViews rfl
      obtain ⟨made, hstep, hways⟩ := doWork_step x.iteration ([sv] ++ more) p₁.world
      have hmore : (doWork x.iteration ([sv] ++ more) p₁.world).2.marks =
          p.world.marks ++ made := by rw [hstep.marks, hmarks]
      dsimp only
      rcases hways with ⟨hcount, -⟩ | ⟨hsub, name, houtcome, hattempt⟩
      · refine ⟨handled ++ ([sv] ++ more), [], ⟨?_, fun v => ?_, fun v => ?_, Nat.zero_le _⟩,
          .inl rfl⟩
        · rw [List.append_nil, ← hhandled]
          exact hpopped
        · have hold := h.least v
          have hnew := (hcount v).1
          rw [hmore]
          simp only [List.count_append] at hnew ⊢
          omega
        · have hold := h.most v
          have hnew := (hcount v).2
          rw [hmore]
          simp only [List.count_append, List.count_nil] at hold hnew ⊢
          omega
      · refine ⟨handled, [sv] ++ more, ⟨?_, fun v => ?_, fun v => ?_, hlength⟩,
          .inr ⟨rfl, (fun hgo => ?_), ?_⟩⟩
        · rw [← hhandled]
          exact hpopped
        · have hold := h.least v
          rw [hmore, List.count_append]
          omega
        · have hold := h.most v
          have hnew := hsub.count_le v
          rw [hmore]
          simp only [List.count_append, List.count_nil] at hold hnew ⊢
          omega
        · rw [houtcome] at hgo
          cases hgo
        · rcases attempt_source hattempt with ⟨point, hfault⟩ | ⟨batch, hagent⟩
          · exact .fault point name hfault
          · exact .agent batch name hagent

/-- Whatever the agent returns and whatever raises: every slot that the handler has popped
has been marked done, once or twice for each time it was popped. Only a last round may
lose the slots it has popped, if an exception escapes from it, and they are one batch. -/
theorem work_releases (rounds : List (Round F)) (slots : ℕ → TilersSlot F)
    (metrics : List (ℕ × ℕ)) : ∃ handled lost,
      Released (work rounds ⟨⟨slots, [], metrics⟩, []⟩).2 handled lost ∧
      (lost = [] ∨ ∃ before x after, rounds = before ++ x :: after ∧ Escapes x ∧
        (work before ⟨⟨slots, [], metrics⟩, []⟩).1 = .goesOn ∧
        (work before ⟨⟨slots, [], metrics⟩, []⟩).2.popped = handled ∧
        work rounds ⟨⟨slots, [], metrics⟩, []⟩ =
          round x (work before ⟨⟨slots, [], metrics⟩, []⟩).2) := by
  have hrun : ∀ (p : Pump F) (handled : List ℕ), Released p handled [] → ∃ handled' lost,
      Released (work rounds p).2 handled' lost ∧
      (lost = [] ∨ ∃ before x after, rounds = before ++ x :: after ∧ Escapes x ∧
        (work before p).1 = .goesOn ∧ (work before p).2.popped = handled' ∧
        work rounds p = round x (work before p).2) := by
    induction rounds with
    | nil => exact fun p handled h => ⟨handled, [], h, .inl rfl⟩
    | cons x rest ih =>
      intro p handled h
      obtain ⟨handled', lost, hreleased, hways⟩ := round_released x h
      rw [work]
      rcases hround : round x p with ⟨outcome, p'⟩
      rw [hround] at hreleased hways
      have hpopped : p.popped = handled := by rw [h.popped, List.append_nil]
      -- A round that is not followed by another is the one that loses its slots.
      have hlast : lost = [] ∨ ∃ before y after,
          x :: rest = before ++ y :: after ∧ Escapes y ∧ (work before p).1 = .goesOn ∧
          (work before p).2.popped = handled' ∧ (outcome, p') = round y (work before p).2 := by
        rcases hways with hnone | ⟨rfl, -, hescapes⟩
        · exact .inl hnone
        · exact .inr ⟨[], x, rest, rfl, hescapes, rfl, hpopped, hround.symm⟩
      cases outcome with
      | goesOn =>
        rcases hways with rfl | ⟨-, hgo, -⟩
        · obtain ⟨handled'', lost, hreleased, hways⟩ := ih p' handled' hreleased
          refine ⟨handled'', lost, hreleased, hways.imp_right ?_⟩
          rintro ⟨before, y, after, hrest, hescapes, hgo, hpopped, hwork⟩
          have hbefore : work (x :: before) p = work before p' := by rw [work, hround]
          refine ⟨x :: before, y, after, by rw [hrest, List.cons_append], hescapes, ?_, ?_, ?_⟩
          · rw [hbefore]
            exact hgo
          · rw [hbefore]
            exact hpopped
          · rw [hbefore]
            exact hwork
        · exact absurd rfl hgo
      | stopped => exact ⟨handled', lost, hreleased, hlast⟩
      | raised e => exact ⟨handled', lost, hreleased, hlast⟩
  exact hrun _ [] ⟨rfl, by simp, by simp, Nat.zero_le _⟩

end Runs

section Runs

open MarkDone

def cutRound : Round ℕ where
  slots _ := blank
  first := .view 3
  polls := [some (.view 4), none, some (.raised none .keyboardInterrupt)]
  iteration := secondFails

def idle : Pump ℕ := ⟨⟨fun _ => blank, [], []⟩, []⟩

/-- No pop was hit, and yet the whole batch is lost. -/
example : (work [cutRound] idle).2.popped = [3, 4] ∧ (work [cutRound] idle).2.world.marks = [] :=
  ⟨rfl, rfl⟩

end Runs

end Mcts.HandlerRuns
