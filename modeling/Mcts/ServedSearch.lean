import Mcts.BatchedInference
import Mcts.Transposition

/-!
The search asks its model through shared memory: each query is packed into a
slot, answered in a batch with the slots of other clients, and read back. For a
model that answers row by row the search cannot tell this from a model that it
calls itself, one observation at a time.
-/
namespace Mcts.ServedSearch

open Program Prog Environments Nodes Engine SearchRun ArenaInvariant Walks Selection Turns
open Transposition Regions Slots Handler Collecting Rows BatchedInference
open SlotProtocol (MAX_BATCH SLOT_READY)

section Congruence

variable {σ α β τ : Type} {P : σ → Prop} {Q : α → σ → Prop} {X : σ → Prop}

/-- Programs that agree where the first has come to agree as a whole. -/
theorem bind_congr {p p' : Prog σ α} {k k' : α → Prog σ β} (h : Triple P p Q X)
    (hp : ∀ s, P s → p s = p' s) (hk : ∀ a s, Q a s → k a s = k' a s) (s : σ) (hs : P s) :
    (p >>= k) s = (p' >>= k') s := by
  have hcs := h s hs
  rw [bind_run, bind_run, ← hp s hs]
  rcases hrun : p s with ⟨_ | a, t⟩
  · rfl
  · rw [hrun] at hcs
    exact hk a t hcs

theorem forEach_congr {body body' : τ → Prog σ Unit} (xs : List τ)
    (hkeep : ∀ x, Triple P (body x) (fun _ => P) X) (hsame : ∀ x s, P s → body x s = body' x s) :
    ∀ s, P s → forEach xs body s = forEach xs body' s := by
  induction xs with
  | nil => exact fun _ _ => rfl
  | cons x rest ih => exact bind_congr (hkeep x) (hsame x) fun _ => ih

end Congruence

section Clients

variable {E A O F : Type} [Environment E A O] [Act A] [DecidableEq A]
variable [Field F] [LinearOrder F] [Roots F]
variable {S : Set E} {i : RunInput E A O F} {m : MCTS A F} {B : ℕ}

def Asked (S : Set E) (B : ℕ) (observations : List O) : Prop :=
  0 < observations.length ∧ observations.length ≤ max B 1 ∧
    ∀ o ∈ observations, ∃ g ∈ S, done g = false ∧ o = observation g

omit [Roots F] in
/-- No more leaves are pending than a batch holds. -/
theorem room_invariant : Invariant S i B fun _ pending _ => pending.length ≤ B where
  turn n pending m w r m' _ _ hroom _ _ _ := by
    have hr : r.toList.length ≤ 1 := by cases r <;> simp
    rw [List.length_append]
    omega
  answer n p pending m priors value _ h := by
    rw [List.length_cons] at h
    omega
  drop _ n p pending m h := by
    rw [List.length_cons] at h
    omega

def Between (S : Set E) (i : RunInput E A O F) (B : ℕ) (s : Search A E F) : Prop :=
  ∃ n, Held S i B (fun _ pending _ => pending.length ≤ B) n [] s

variable {client : ℕ → List O → Option (List (HashMap A F) × List F)}

theorem runBatch_congr (hE : LawfulEnvironment E A) (hS : SoundHash S) (henv : i.env ∈ S)
    (hsame : ∀ k obs, Asked S B obs → i.client k obs = client k obs) (batch : ℕ)
    (s : Search A E F) (hs : Between S i B s) :
    runBatch i (hash i.env) batch s =
      runBatch { i with client := client } (hash i.env) batch s := by
  obtain ⟨n, hheld⟩ := hs
  have hsize : s.mcts.batchSize = B := by
    obtain ⟨m, hat, _, hb, _⟩ := hheld
    rw [hat.mcts, hb]
  unfold runBatch
  rw [get_bind_run, get_bind_run, hsize]
  have hcollect := collect_held hE hS henv room_invariant (n + B) n le_rfl
  refine bind_congr hcollect (fun _ _ => rfl) (fun pending t ht => ?_) s hheld
  obtain ⟨m, _, hst, _, hroom⟩ := ht
  dsimp only
  split
  · rfl
  · next hfull =>
    have hpos : 0 < pending.length := by
      rw [List.isEmpty_iff] at hfull
      exact List.length_pos_iff.mpr hfull
    rw [hsame (batch + 1) (pending.map fun p => observation p.env) ⟨by simpa using hpos, ?_, ?_⟩]
    · rfl
    · rw [List.length_map]
      exact hroom.trans (le_max_left B 1)
    · intro o ho
      obtain ⟨p, hp, rfl⟩ := List.mem_map.mp ho
      obtain ⟨_, _, _, _, _, _, hmem⟩ := (hst.taken p hp).sync hS hst.truth henv rfl
      exact ⟨p.env, hmem, hst.running p hp, rfl⟩

omit [Roots F] in
theorem ensureRoot_congr (henv : i.env ∈ S)
    (hsame : ∀ k obs, Asked S B obs → i.client k obs = client k obs) (s : Search A E F) :
    ensureRoot i (hash i.env) s = ensureRoot { i with client := client } (hash i.env) s := by
  unfold ensureRoot
  rw [get_bind_run, get_bind_run]
  dsimp only
  cases hrun : done i.env with
  | true => rfl
  | false =>
    have hasked : Asked S B [observation i.env] := by
      refine ⟨Nat.one_pos, le_max_right B 1, fun o ho => ⟨i.env, henv, hrun, ?_⟩⟩
      exact List.mem_singleton.mp ho
    rw [hsame 0 _ hasked]

/-- A run depends on its client only through the queries it makes. -/
theorem run_congr (hE : LawfulEnvironment E A) (hS : SoundHash S) (henv : i.env ∈ S)
    (hm : WellFormed m) (ht : Truthful S m)
    (hsame : ∀ k obs, Asked S m.batchSize obs → i.client k obs = client k obs)
    (s : Search A E F) (hs : At m s) : run i s = run { i with client := client } s := by
  have hrooted : WellFormed (m.setRoot (some (hash i.env))) := ⟨hm.indexed, hm.node, hm.linked⟩
  unfold run
  refine bind_congr (mutate_at (X := fun _ => True) (·.setRoot (some (hash i.env))))
    (fun _ _ => rfl) (fun _ t hat => ?_) s hs
  refine bind_congr ensureRoot_at (fun u _ => ensureRoot_congr henv hsame u)
    (fun _ u hu => ?_) t hat
  obtain ⟨m', hat', hmade⟩ := hu
  obtain ⟨hst, hb⟩ := hmade.standing hE hS henv hrooted ht
  cases hrun : done i.env with
  | true => rfl
  | false =>
    rw [if_neg (by simp), if_neg (by simp), get_bind_run, get_bind_run]
    have hstart : Between S i m.batchSize u :=
      ⟨0, m', hat', hst, hb, Nat.zero_le _⟩
    have hkeep : ∀ batch, Triple (Between S i m.batchSize) (runBatch i (hash i.env) batch)
        (fun _ => Between S i m.batchSize) (fun _ => True) := by
      rintro batch v ⟨n, hheld⟩
      exact ((runBatch_held hE hS henv room_invariant (n + m.batchSize) n batch le_rfl).weaken
        (fun _ h => h) (fun _ _ h => ⟨_, h⟩) fun _ _ => trivial) v hheld
    refine bind_congr (Triple.each_mem fun batch _ => hkeep batch) ?_ (fun _ _ _ => rfl) u hstart
    exact forEach_congr _ hkeep fun batch v hv => runBatch_congr hE hS henv hsame batch v hv

end Clients

section Service

variable {F : Type} [Field F]

/-- What a query meets in shared memory: the slot it gets, with whatever slots and
outputs hold by then, and the slots that the handler pops in the same iteration. -/
structure Traffic (F : Type) where
  ownerId : ℕ
  reqId : ℕ
  slotIdx : ℕ
  views : List ℕ
  popped : slotIdx ∈ views
  slots : ℕ → TilersSlot F
  marks : List ℕ
  metrics : Bool
  metricLines : List (ℕ × ℕ)

def toMap (prior : List (ℕ × F)) : HashMap ℕ F := (prior.map fun p => ⟨p.1, p.2⟩).toAList

/-- `infer` of a client, answered by the iteration of `do_work` that pops its slot.
`none` is an error. -/
def infer (model : Batch → Array2 F × List F) (lookahead : ℕ) (t : Traffic F)
    (observations : List TilersObs) : Option (List (HashMap ℕ F) × List F) :=
  let b := observations.length
  if b = 0 ∨ MAX_BATCH < b then none
  else
    let request := { t.slots t.slotIdx with b := b, ownerId := t.ownerId, reqId := t.reqId }
    match packObservations observations request with
    | .error _ => none
    | .ok packed =>
      let ready := clearOutputs { packed with state := SLOT_READY }
      let w : World F := ⟨Function.update t.slots t.slotIdx ready, t.marks, t.metricLines⟩
      let w' := (doWork (runner model lookahead t.metrics) t.views w).2
      match readResponse t.ownerId t.reqId observations (w'.slots t.slotIdx) with
      | .error _ => none
      | .ok (priors, values) => some (priors.map toMap, values)

def ask (f : Row → List F × F) (n : ℕ) (observations : List TilersObs) :
    List (HashMap ℕ F) × List F :=
  (observations.map fun o =>
    toMap (priorMap o.actionMask fun a => (f (ownRow n o)).1.getD a 0),
    observations.map fun o => (f (ownRow n o)).2)

variable {model : Batch → Array2 F × List F} {f : Row → List F × F} {cols lookahead : ℕ}
variable {observations : List TilersObs}

/-- An iteration over slots of which one holds a request answers that slot. -/
theorem doWork_answers (hmodel : RowWise model f cols) (hlook : lookahead + 1 ≤ LOOKAHEAD_MAX)
    (metrics : Bool) {views : List ℕ} {sv : ℕ} (hsv : sv ∈ views) (w : World F)
    (hlen : 0 < batchLen (w.slots sv)) :
    Kept w.slots (doWork (runner model lookahead metrics) views w).2.slots ∧
      Answered f (lookahead + 1) (w.slots sv)
        ((doWork (runner model lookahead metrics) views w).2.slots sv) := by
  have hmem : sv ∈ validViews w.slots views :=
    List.mem_filter.mpr ⟨hsv, decide_eq_true hlen.ne'⟩
  have hvalid : validViews w.slots views ≠ [] := List.ne_nil_of_mem hmem
  obtain ⟨w₁, hsteady, _, _, hbuild⟩ := buildBoardBatch_eq hlook (firstRead_none 0 views) w
  rw [if_neg hvalid] at hbuild
  obtain ⟨w', hanswer, hkept, hans⟩ :=
    answer_runner hmodel hlook metrics (Kept.of_steady hsteady) hvalid
  have hattempt : attempt (runner model lookahead metrics) views w = (.ok (), w') := by
    rw [attempt]
    simp only [runner] at hanswer ⊢
    simp only [hbuild]
    exact hanswer
  rw [doWork, hattempt]
  exact ⟨hkept, hans sv (Or.inl hmem)⟩

omit [Field F] in
theorem packFrom_ids (i : ℕ) (observations : List TilersObs) (s : TilersSlot F) :
    (packFrom i observations s).ownerId = s.ownerId ∧
      (packFrom i observations s).reqId = s.reqId := by
  induction observations generalizing i s with
  | nil => exact ⟨rfl, rfl⟩
  | cons first rest ih => exact ih (i + 1) (packObservation i first s)

/-- Whatever the traffic, the service answers as the model does. -/
theorem infer_eq_ask (hmodel : RowWise model f cols) (hlook : lookahead + 1 ≤ LOOKAHEAD_MAX)
    (t : Traffic F) (hpos : 0 < observations.length) (hmax : observations.length ≤ MAX_BATCH)
    (hin : ∀ o ∈ observations, InRange o) :
    infer model lookahead t observations = some (ask f (lookahead + 1) observations) := by
  have hsize : ¬ (observations.length = 0 ∨ MAX_BATCH < observations.length) := by omega
  obtain ⟨request, hrequest⟩ : ∃ request, request = { t.slots t.slotIdx with
    b := observations.length, ownerId := t.ownerId, reqId := t.reqId } := ⟨_, rfl⟩
  obtain ⟨packed, hpack⟩ : ∃ packed, packObservations observations request = .ok packed :=
    ⟨_, if_neg hsize⟩
  obtain ⟨ready, hready⟩ : ∃ ready, ready = clearOutputs { packed with state := SLOT_READY } :=
    ⟨_, rfl⟩
  have hids : ready.ownerId = t.ownerId ∧ ready.reqId = t.reqId := by
    rw [packObservations, if_neg hsize] at hpack
    have hkept := packFrom_ids 0 observations { request with b := observations.length }
    rw [Except.ok.inj hpack, hrequest] at hkept
    exact hready ▸ hkept
  obtain ⟨w, hw⟩ : ∃ w : World F,
    w = ⟨Function.update t.slots t.slotIdx ready, t.marks, t.metricLines⟩ := ⟨_, rfl⟩
  have hslot : w.slots t.slotIdx = ready := by
    rw [hw]
    exact Function.update_self _ _ _
  have hsub : Submitted observations (w.slots t.slotIdx) :=
    ⟨hin, request, packed, SLOT_READY, fun _ => 0, fun _ => 0, hpack, hslot.trans hready⟩
  have hlen : 0 < batchLen (w.slots t.slotIdx) := by
    rw [hsub.spec.1]
    exact hpos
  obtain ⟨hkept, hans⟩ := doWork_answers hmodel hlook t.metrics t.popped w hlen
  have hread := readResponse_answered hmodel hlook hsub hkept hans
  rw [hslot, hids.1, hids.2] at hread
  rw [infer]
  dsimp only
  rw [if_neg hsize, ← hrequest, hpack]
  dsimp only
  rw [← hready, ← hw, hread]
  simp only [expected, ask, List.map_map]
  rfl

/-- The actions of the tiling environment are u16, their own index. -/
instance : Act ℕ := ⟨fun a => a⟩

variable {E : Type} [Environment E ℕ TilersObs] [LinearOrder F] [Roots F] {S : Set E}

omit [Environment E ℕ TilersObs] [LinearOrder F] [Roots F] in
/-- The model answers every query that it is asked directly. -/
theorem ask_answering (f : Row → List F × F) (n : ℕ) (i : RunInput E ℕ TilersObs F) :
    Answering { i with client := fun _ obs => some (ask f n obs) } :=
  fun _ _ => ⟨_, _, rfl, List.length_map _, List.length_map _⟩

/-- One run over the service is the run that asks the model. -/
theorem run_infer (hE : LawfulEnvironment E ℕ) (hS : SoundHash S)
    (hin : ∀ g ∈ S, done g = false → InRange (observation g)) (hmodel : RowWise model f cols)
    (hlook : lookahead + 1 ≤ LOOKAHEAD_MAX) (traffic : ℕ → Traffic F) {s : Search ℕ E F}
    (hm : WellFormed s.mcts) (ht : Truthful S s.mcts) (hlog : ∀ e ∈ s.log, Sound e)
    (hb : s.mcts.batchSize ≤ MAX_BATCH) (i : RunInput E ℕ TilersObs F) (henv : i.env ∈ S) :
    run { i with client := fun k => infer model lookahead (traffic k) } s =
      run { i with client := fun _ obs => some (ask f (lookahead + 1) obs) } s := by
  have hsame : ∀ k obs, Asked S s.mcts.batchSize obs →
      infer model lookahead (traffic k) obs = some (ask f (lookahead + 1) obs) := by
    intro k obs ⟨hpos, hsize, hstates⟩
    have hmax : obs.length ≤ MAX_BATCH := hsize.trans (max_le hb (by decide))
    refine infer_eq_ask hmodel hlook (traffic k) hpos hmax fun o ho => ?_
    obtain ⟨g, hg, hrun, rfl⟩ := hstates o ho
    exact hin g hg hrun
  exact run_congr (i := { i with client := fun k => infer model lookahead (traffic k) })
    hE hS henv hm ht hsame s ⟨rfl, hlog⟩

/-- A search over the service is the search that asks the model itself: it returns
the same node, and leaves the same engine and log, whatever else goes through the
service meanwhile. Asked directly the model answers every query. -/
theorem run_served {C : RunInput E ℕ TilersObs F → Prop} (hE : LawfulEnvironment E ℕ)
    (hS : SoundHash S) (hin : ∀ g ∈ S, done g = false → InRange (observation g))
    (hmodel : RowWise model f cols) (hlook : lookahead + 1 ≤ LOOKAHEAD_MAX)
    (traffic : ℕ → Traffic F) {s : Search ℕ E F} (hs : Session C s) (hC : ∀ i, C i → On S i)
    (hb : s.mcts.batchSize ≤ MAX_BATCH) (i : RunInput E ℕ TilersObs F) (henv : i.env ∈ S) :
    run { i with client := fun k => infer model lookahead (traffic k) } s =
      run { i with client := fun _ obs => some (ask f (lookahead + 1) obs) } s ∧
    Answering { i with client := fun _ obs => some (ask f (lookahead + 1) obs) } := by
  obtain ⟨hm, ht, hlog⟩ := session_truthful hE hS hC hs
  exact ⟨run_infer hE hS hin hmodel hlook traffic hm ht hlog hb i henv, ask_answering f _ i⟩

end Service

section Countdown

structure Countdown where
  left : ℕ

instance : Environment Countdown ℕ TilersObs where
  step s _ := ⟨s.left - 1⟩
  done s := s.left == 0
  observation _ := BatchLayout.small
  validActions _ := [0, 2]
  numActions _ := 301
  hash s := s.left

theorem countdown_lawful : LawfulEnvironment Countdown ℕ where
  index_lt _ a ha := by
    have hcases : a = 0 ∨ a = 2 := by simpa [validActions] using ha
    show a < 301
    omega
  nodup _ := by simp [validActions]
  index_injective _ _ h := h

theorem countdown_soundHash : SoundHash (Set.univ : Set Countdown) := by
  have hstate : ∀ s t : Countdown, hash s = hash t → s = t := by
    rintro ⟨p⟩ ⟨q⟩ h
    exact congrArg Countdown.mk h
  refine ⟨fun _ _ _ _ _ => Set.mem_univ _, ?_, ?_, ?_, ?_⟩
  · exact fun s _ t _ h => by rw [hstate s t h]
  · exact fun s _ t _ h _ => by rw [hstate s t h]
  · exact fun s _ t _ h => by rw [hstate s t h]
  · exact fun s _ t _ h _ _ _ => by rw [hstate s t h]

def ones (batch : Batch) : Array2 ℚ × List ℚ :=
  (⟨batch.heights.length, 1, batch.heights.map fun _ => 1, by simp⟩,
    batch.widths.map fun w : ℕ => (w : ℚ))

theorem ones_rowWise : RowWise ones (fun row => ([1], (row.width : ℚ))) 1 where
  cols_le := by decide
  priors _ := rfl
  answers _ _ rows _ _ := by
    refine ⟨List.length_map _, rfl, ?_, ?_⟩
    · show ((rows.map (·.height)).map fun _ => (1 : ℚ)) = _
      rw [List.map_map, ← List.flatMap_def, ← List.map_eq_flatMap]
      rfl
    · show ((rows.map (·.width)).map fun w : ℕ => (w : ℚ)) = _
      rw [List.map_map]
      rfl
  pad _ := rfl

def idle (k : ℕ) : Traffic ℚ :=
  ⟨7, k, 3, [1, 3], by decide, fun _ => ⟨SLOT_READY, 5, 9, 9, fun _ => 9, fun _ => 9, fun _ => 9,
    fun _ => 3, fun _ _ => 9, fun _ => 1, fun _ => 9, fun _ => 9⟩, [], true, []⟩

def countdown : RunInput Countdown ℕ TilersObs ℚ where
  env := ⟨5⟩
  client _ _ := none
  numSteps := 20
  cPuct := 1
  terminalEvaluator _ := 1
  forcedPlayouts := true
  order := ⟨fun _ xs => xs, fun _ xs => List.Perm.refl xs⟩
  fuel := 100

/-- Twenty steps in batches of eight, next to another client's slot. -/
theorem run_served_countdown :
    run { countdown with client := fun k => infer ones 1 (idle k) } ⟨MCTS.new 8, []⟩ =
      run { countdown with
        client := fun _ obs => some (ask (fun row => ([1], (row.width : ℚ))) 2 obs) }
        ⟨MCTS.new 8, []⟩ :=
  (run_served countdown_lawful countdown_soundHash (fun _ _ _ => BatchLayout.small_inRange)
    ones_rowWise (by decide) idle (.new 8 (by decide)) (fun _ h => h) le_rfl countdown
    (Set.mem_univ _)).1

end Countdown

end Mcts.ServedSearch
