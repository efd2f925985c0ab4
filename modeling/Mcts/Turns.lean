import Mcts.Expansion

/-!
A run as a sequence of turns on the engine and the pending leaves: a selection,
backed up at once or left pending, or the answer to a pending leaf. `run_rule`
turns an invariant of the turns into one of the whole run, for any client.
-/
namespace Mcts.Turns

open Program Prog Environments Nodes Engine Arena SearchRun ArenaInvariant Walks Selection Backup
open Expansion

variable {E A O F : Type} [Environment E A O] [Act A] [DecidableEq A]
variable [Field F] [LinearOrder F]

/-- One simulation: what it leaves pending, and the engine it leaves. -/
inductive Turn (i : RunInput E A O F) (m : MCTS A F) (w : Walk A E) :
    Option (PendingInference A E) → MCTS A F → Prop
  | idle (hidle : w.path = []) : Turn i m w none m
  | repeated {parent : NodeId} {a : A}
      (htaken : Taken m (hash i.env) i.env w.path parent a w.game)
      (hrepeat : w.repeatDetected = true) :
      Turn i m w none (backup w.path true (addLosses w.path m))
  | terminal {parent : NodeId} {a : A}
      (htaken : Taken m (hash i.env) i.env w.path parent a w.game)
      (hrepeat : w.repeatDetected = false) (hdone : done w.game = true) :
      Turn i m w none (backup w.path false
        (expanded i.order parent a w.game ∅ (i.terminalEvaluator w.game) (addLosses w.path m)))
  | selected {parent : NodeId} {a : A}
      (htaken : Taken m (hash i.env) i.env w.path parent a w.game)
      (hrepeat : w.repeatDetected = false) (hlive : done w.game = false) :
      Turn i m w (some ⟨w.path, parent, a, w.game⟩) (addLosses w.path m)

def answered (i : RunInput E A O F) (p : PendingInference A E) (priors : HashMap A F) (value : F)
    (m : MCTS A F) : MCTS A F :=
  backup p.path false (expanded i.order p.parentId p.action p.env priors value m)

structure Standing (S : Set E) (i : RunInput E A O F) (pending : List (PendingInference A E))
    (m : MCTS A F) : Prop where
  arena : WellFormed m
  truth : Truthful S m
  root : m.nodeExists (hash i.env) = true
  taken : ∀ p ∈ pending, Taken m (hash i.env) i.env p.path p.parentId p.action p.env
  running : ∀ p ∈ pending, done p.env = false

variable {S : Set E} {i : RunInput E A O F} {m m' : MCTS A F}
variable {pending : List (PendingInference A E)}

omit [DecidableEq A] [LinearOrder F] in
theorem Standing.carry (h : Standing S i pending m) (hc : Carries S m m') :
    Standing S i pending m' where
  arena := hc.arena
  truth := hc.truth
  root := by
    obtain ⟨n, hn⟩ := (nodeExists_iff h.arena.indexed).mp h.root
    obtain ⟨n', hn', _⟩ := hc.ext _ n hn
    exact (nodeExists_iff hc.arena.indexed).mpr ⟨n', hn'⟩
  taken p hp := (h.taken p hp).extends hc.ext
  running := h.running

omit [DecidableEq A] [LinearOrder F] in
theorem Standing.subset {fewer : List (PendingInference A E)} (h : Standing S i pending m)
    (hsub : ∀ p ∈ fewer, p ∈ pending) : Standing S i fewer m :=
  ⟨h.arena, h.truth, h.root, fun p hp => h.taken p (hsub p hp), fun p hp => h.running p (hsub p hp)⟩

/-- Expanding the last edge of a selection and backing it up. -/
theorem expanded_backup_carries (hE : LawfulEnvironment E A) (hS : SoundHash S)
    (henv : i.env ∈ S) (hm : WellFormed m) (ht : Truthful S m) {path : List (NodeId × A)}
    {parent : NodeId} {a : A} {g : E} (htaken : Taken m (hash i.env) i.env path parent a g)
    (priors : HashMap A F) (value : F) :
    Carries S m (backup path false (expanded i.order parent a g priors value m)) := by
  obtain ⟨before, hb, hid, hrun, ha, rfl, hg⟩ := htaken.sync hS ht henv rfl
  have hexpand := expanded_carries hE hS hm ht i.order hb hid hrun ha hg
    (htaken.offers _ htaken.last_mem) priors value
  exact hexpand.trans (backup_carries path false hexpand.arena hexpand.truth
    (htaken.extends hexpand.ext).offers)

theorem Turn.carries (hE : LawfulEnvironment E A) (hS : SoundHash S) (henv : i.env ∈ S)
    {w : Walk A E} {r : Option (PendingInference A E)} (h : Turn i m w r m')
    (hm : WellFormed m) (ht : Truthful S m) : Carries S m m' := by
  cases h with
  | idle _ => exact Carries.refl hm ht
  | repeated htaken _ =>
    have hloss := addLosses_carries w.path hm ht htaken.offers
    exact hloss.trans (backup_carries _ true hloss.arena hloss.truth
      (htaken.extends hloss.ext).offers)
  | terminal htaken _ _ =>
    have hloss := addLosses_carries w.path hm ht htaken.offers
    exact hloss.trans (expanded_backup_carries hE hS henv hloss.arena hloss.truth
      (htaken.extends hloss.ext) _ _)
  | selected htaken _ _ => exact addLosses_carries w.path hm ht htaken.offers

/-- A turn leaves its leaf pending and disturbs no other. -/
theorem Standing.turn (hE : LawfulEnvironment E A) (hS : SoundHash S) (henv : i.env ∈ S)
    {w : Walk A E} {r : Option (PendingInference A E)} (hturn : Turn i m w r m')
    (h : Standing S i pending m) : Standing S i (pending ++ r.toList) m' := by
  have hcarry := hturn.carries hE hS henv h.arena h.truth
  have hall := h.carry hcarry
  cases hturn with
  | idle _ => simpa using hall
  | repeated _ _ => simpa using hall
  | terminal _ _ _ => simpa using hall
  | selected htaken _ hlive =>
    refine ⟨hall.arena, hall.truth, hall.root, fun p hp => ?_, fun p hp => ?_⟩
    · rcases List.mem_append.mp hp with hp | hp
      · exact hall.taken p hp
      · rw [List.mem_singleton.mp hp]
        exact htaken.extends hcarry.ext
    · rcases List.mem_append.mp hp with hp | hp
      · exact h.running p hp
      · rw [List.mem_singleton.mp hp]
        exact hlive

theorem Standing.answer (hE : LawfulEnvironment E A) (hS : SoundHash S) (henv : i.env ∈ S)
    {p : PendingInference A E} (h : Standing S i (p :: pending) m) (priors : HashMap A F)
    (value : F) : Standing S i pending (answered i p priors value m) :=
  (h.subset fun _ hp => List.mem_cons_of_mem p hp).carry
    (expanded_backup_carries hE hS henv h.arena h.truth (h.taken p List.mem_cons_self) priors value)

section Programs

variable [Roots F]

/-- `simulate` makes one turn, out of one of the listed selections. -/
theorem simulate_at (hE : LawfulEnvironment E A) (hS : SoundHash S) (henv : i.env ∈ S)
    (hm : WellFormed m) (ht : Truthful S m) :
    Triple (At m) (simulate i (hash i.env))
      (fun r s => ∃ w m', Selected m (hash i.env) i.env w ∧ Turn i m w r m' ∧ At m' s)
      (fun s => i.fuel ≤ m.nodes.length ∧ ∀ e ∈ s.log, Sound e) := by
  unfold simulate
  refine Triple.seq (selectLeaf_at hS hm ht i henv) fun w => ?_
  refine Triple.pre (Triple.assume fun hsel => ?_) fun s hs => ⟨hs.2, hs.1⟩
  rcases hsel.chosen with ⟨hpath, haction⟩ | ⟨parent, a, hparent, haction, htaken⟩
  · rw [haction, hpath]
    exact Triple.ret fun s hs => ⟨w, m, hsel, .idle hpath, hs⟩
  rw [haction, hparent]
  have hloss := addLosses_carries w.path hm ht htaken.offers
  dsimp only
  cases hrepeat : w.repeatDetected with
  | true =>
    rw [Bool.true_or, if_pos rfl]
    refine Triple.seq (R := fun _ => At (addLosses w.path m)) (Triple.ret fun _ hs => hs) fun _ => ?_
    refine Triple.seq (backpropagate_at w.path true _) fun _ => Triple.ret fun s hs => ?_
    exact ⟨w, _, hsel, .repeated htaken hrepeat, hs⟩
  | false =>
    rw [Bool.false_or]
    cases hdone : done w.game with
    | false => exact Triple.ret fun s hs => ⟨w, _, hsel, .selected htaken hrepeat hdone, hs⟩
    | true =>
      obtain ⟨before, hb, hid, _, _, hgame, hg⟩ := htaken.sync hS ht henv rfl
      have hexpand := expand_at hE hS hloss.arena hloss.truth i.order hb hid (hgame ▸ hg)
        (hloss.ext.offers (htaken.offers _ htaken.last_mem)) ∅ (i.terminalEvaluator w.game)
        (fun s => i.fuel ≤ m.nodes.length ∧ ∀ e ∈ s.log, Sound e)
      rw [← hgame] at hexpand
      refine Triple.seq hexpand fun _ => ?_
      refine Triple.seq (backpropagate_at w.path false _) fun _ => Triple.ret fun s hs => ?_
      exact ⟨w, _, hsel, .terminal htaken hrepeat hdone, hs⟩

omit [Roots F] in
theorem answer_at (hE : LawfulEnvironment E A) (hS : SoundHash S) (henv : i.env ∈ S)
    {p : PendingInference A E} (h : Standing S i (p :: pending) m) (priors : HashMap A F)
    (value : F) (X : Search A E F → Prop) :
    Triple (At m) (answer i p priors value) (fun _ => At (answered i p priors value m)) X := by
  have htaken := h.taken p List.mem_cons_self
  obtain ⟨before, hb, hid, _, _, hgame, hg⟩ := htaken.sync hS h.truth henv rfl
  have hexpand := expand_at hE hS h.arena h.truth i.order hb hid (hgame ▸ hg)
    (htaken.offers _ htaken.last_mem) priors value X
  rw [← hgame] at hexpand
  exact Triple.seq hexpand fun _ => backpropagate_at p.path false X

/-- The engine once the root node is there: found, or made from valid actions. -/
inductive RootMade (i : RunInput E A O F) (m : MCTS A F) : MCTS A F → Prop
  | found (h : m.nodeExists (hash i.env) = true) : RootMade i m m
  | made (hfresh : m.nodeExists (hash i.env) = false) (priors : HashMap A F) (value : F)
      (hkeys : ∀ a ∈ priors, a ∈ validActions i.env) :
      RootMade i m (MCTS.createNode i.order i.env priors value m)

omit [Roots F] [DecidableEq A] in
theorem RootMade.standing (hE : LawfulEnvironment E A) (hS : SoundHash S) (henv : i.env ∈ S)
    (hm : WellFormed m) (ht : Truthful S m) (h : RootMade i m m') :
    Standing S i [] m' ∧ m'.batchSize = m.batchSize := by
  have hnone : ∀ p : PendingInference A E, p ∉ ([] : List _) := fun _ => List.not_mem_nil
  cases h with
  | found hroot =>
    exact ⟨⟨hm, ht, hroot, fun p hp => absurd hp (hnone p), fun p hp => absurd hp (hnone p)⟩, rfl⟩
  | made hfresh priors value hkeys =>
    refine ⟨⟨hm.createNode hE _ _ _ _ hfresh hkeys, ht.createNode hS hm.indexed _ henv _ hkeys _,
      ?_, fun p hp => absurd hp (hnone p), fun p hp => absurd hp (hnone p)⟩, rfl⟩
    rw [MCTS.createNode, insertNode_nodeExists]
    simp

/-- The client answers every query, with one prior map and one value for each observation. -/
def Answering (i : RunInput E A O F) : Prop :=
  ∀ k obs, ∃ priors values, i.client k obs = some (priors, values) ∧
    priors.length = obs.length ∧ values.length = obs.length

/-- What an invariant `J` of the turns has to satisfy. It may count the
simulations begun, and knows that fewer leaves are pending than a batch holds. -/
structure Invariant (S : Set E) (i : RunInput E A O F) (B : ℕ)
    (J : ℕ → List (PendingInference A E) → MCTS A F → Prop) : Prop where
  turn : ∀ n pending m w r m', Standing S i pending m → m.batchSize = B → pending.length < B →
    J n pending m → Selected m (hash i.env) i.env w → Turn i m w r m' →
    J (n + 1) (pending ++ r.toList) m'
  answer : ∀ n p pending m priors value, Standing S i (p :: pending) m →
    J n (p :: pending) m → J n pending (answered i p priors value m)
  drop : ¬ Answering i → ∀ n p pending m, J n (p :: pending) m → J n pending m

variable {B : ℕ} {J : ℕ → List (PendingInference A E) → MCTS A F → Prop}

omit [Roots F] in
theorem Invariant.both {J' : ℕ → List (PendingInference A E) → MCTS A F → Prop}
    (h : Invariant S i B J) (h' : Invariant S i B J') :
    Invariant S i B fun n pending m => J n pending m ∧ J' n pending m :=
  ⟨fun n pending m w r m' hst hb hroom hj hsel hturn =>
      ⟨h.turn n pending m w r m' hst hb hroom hj.1 hsel hturn,
        h'.turn n pending m w r m' hst hb hroom hj.2 hsel hturn⟩,
    fun n p pending m priors value hst hj =>
      ⟨h.answer n p pending m priors value hst hj.1, h'.answer n p pending m priors value hst hj.2⟩,
    fun hshort n p pending m hj => ⟨h.drop hshort n p pending m hj.1, h'.drop hshort n p pending m hj.2⟩⟩

def Held (S : Set E) (i : RunInput E A O F) (B : ℕ)
    (J : ℕ → List (PendingInference A E) → MCTS A F → Prop) (n : ℕ)
    (pending : List (PendingInference A E)) (s : Search A E F) : Prop :=
  ∃ m, At m s ∧ Standing S i pending m ∧ m.batchSize = B ∧ J n pending m

/-- How a run can fail to return within `N` simulations: a client that does not
answer, or fuel for fewer rounds than there are nodes. -/
def CutShort (S : Set E) (i : RunInput E A O F)
    (J : ℕ → List (PendingInference A E) → MCTS A F → Prop) (N : ℕ) (s : Search A E F) : Prop :=
  (∀ e ∈ s.log, Sound e) ∧ (Answering i → ∃ n pending m, n ≤ N ∧ Standing S i pending m ∧
    J n pending m ∧ i.fuel ≤ m.nodes.length)

theorem simulate_held (hE : LawfulEnvironment E A) (hS : SoundHash S) (henv : i.env ∈ S)
    (hJ : Invariant S i B J) (N n : ℕ) (hn : n ≤ N) (hroom : pending.length < B) :
    Triple (Held S i B J n pending) (simulate i (hash i.env))
      (fun r => Held S i B J (n + 1) (pending ++ r.toList)) (CutShort S i J N) := by
  rintro s ⟨m, hat, hst, hb, hj⟩
  refine ((simulate_at hE hS henv hst.arena hst.truth).weaken (fun t ht => ht) ?_ ?_) s hat
  · rintro r t ⟨w, m', hsel, hturn, hat'⟩
    exact ⟨m', hat', hst.turn hE hS henv hturn,
      (hturn.carries hE hS henv hst.arena hst.truth).batch.trans hb,
      hJ.turn n pending m w r m' hst hb hroom hj hsel hturn⟩
  · rintro t ⟨hfuel, hlog⟩
    exact ⟨hlog, fun _ => ⟨n, pending, m, hn, hst, hj, hfuel⟩⟩

omit [Roots F] in
theorem answer_held (hE : LawfulEnvironment E A) (hS : SoundHash S) (henv : i.env ∈ S)
    (hJ : Invariant S i B J) (n : ℕ) (p : PendingInference A E) (priors : HashMap A F) (value : F)
    (X : Search A E F → Prop) :
    Triple (Held S i B J n (p :: pending)) (answer i p priors value)
      (fun _ => Held S i B J n pending) X := by
  rintro s ⟨m, hat, hst, hb, hj⟩
  refine ((answer_at hE hS henv hst priors value X).post fun _ t ht => ?_) s hat
  exact ⟨_, ht, hst.answer hE hS henv priors value,
    (expanded_backup_carries hE hS henv hst.arena hst.truth (hst.taken p List.mem_cons_self)
      priors value).batch.trans hb, hJ.answer n p pending m priors value hst hj⟩

omit [Roots F] in
/-- Leaves that a short reply leaves out are forgotten. -/
theorem Held.forget (hJ : Invariant S i B J) (hshort : ¬ Answering i) {n : ℕ} {s : Search A E F}
    (h : Held S i B J n pending s) : Held S i B J n [] s := by
  induction pending with
  | nil => exact h
  | cons p rest ih =>
    obtain ⟨m, hat, hst, hb, hj⟩ := h
    exact ih ⟨m, hat, hst.subset fun _ hp => List.mem_cons_of_mem p hp, hb,
      hJ.drop hshort n p rest m hj⟩

/-- The leaves of a batch are collected one simulation after the other. -/
theorem collect_held (hE : LawfulEnvironment E A) (hS : SoundHash S) (henv : i.env ∈ S)
    (hJ : Invariant S i B J) (N n : ℕ) (hn : n + B ≤ N) :
    Triple (Held S i B J n []) (collect (simulate i (hash i.env)) [] B)
      (Held S i B J (n + B)) (CutShort S i J N) := by
  refine ((Triple.gather (I := fun k acc s => Held S i B J (n + (B - k)) acc s ∧
    (acc.length + k ≤ B)) (fun k acc => Triple.assume fun hk => ?_) B []).pre
      fun s hs => ⟨by simpa using hs, by simp⟩).post fun acc s hs => by simpa using hs.1
  refine (simulate_held hE hS henv hJ N _ (by omega) (by omega)).post fun r s hs => ⟨?_, ?_⟩
  · have hcount : n + (B - (k + 1)) + 1 = n + (B - k) := by omega
    rwa [hcount] at hs
  · rw [List.length_append]
    have hr : r.toList.length ≤ 1 := by cases r <;> simp
    omega

theorem runBatch_held (hE : LawfulEnvironment E A) (hS : SoundHash S) (henv : i.env ∈ S)
    (hJ : Invariant S i B J) (N n batch : ℕ) (hn : n + B ≤ N) :
    Triple (Held S i B J n []) (runBatch i (hash i.env) batch)
      (fun _ => Held S i B J (n + B) []) (CutShort S i J N) := by
  unfold runBatch
  refine Triple.read fun s hs => ?_
  have hsize : s.mcts.batchSize = B := by
    obtain ⟨m, hat, _, hb, _⟩ := hs
    rw [hat.mcts, hb]
  rw [hsize]
  refine Triple.seq ((collect_held hE hS henv hJ N n hn).pre fun t ht => ht ▸ hs) fun pending => ?_
  split
  · rename_i hempty
    rw [List.isEmpty_iff] at hempty
    exact Triple.ret fun t ht => hempty ▸ ht
  split
  · rename_i hnone
    refine Triple.halt fun t ht => ⟨?_, fun hans => ?_⟩
    · obtain ⟨m, hat, _⟩ := ht
      exact hat.log
    · obtain ⟨_, _, hsome, _⟩ := hans (batch + 1) (pending.map fun p => observation p.env)
      exact absurd (hnone.symm.trans hsome) (by simp)
  rename_i priorBatch valueBatch hreply
  refine (Triple.each_zip (I := Held S i B J (n + B))
    fun r rest => answer_held hE hS henv hJ _ r.1 r.2.1 r.2.2 _).post fun _ t ht => ?_
  by_cases hans : Answering i
  · obtain ⟨priors, values, hsome, hp, hv⟩ :=
      hans (batch + 1) (pending.map fun p => observation p.env)
    rw [hreply, Option.some.injEq, Prod.mk.injEq] at hsome
    obtain ⟨rfl, rfl⟩ := hsome
    rw [List.length_map] at hp hv
    rwa [List.length_zip, hp, hv, Nat.min_self, List.drop_length] at ht
  · exact ht.forget hJ hans

/-- All batches of a run, from the first simulation on. -/
theorem batches_held (hE : LawfulEnvironment E A) (hS : SoundHash S) (henv : i.env ∈ S)
    (hJ : Invariant S i B J) (K : ℕ) :
    Triple (Held S i B J 0 []) (forEach (List.range K) (runBatch i (hash i.env)))
      (fun _ => Held S i B J (K * B) []) (CutShort S i J (K * B)) := by
  refine ((Triple.each (I := fun rest s => Held S i B J ((K - rest.length) * B) [] s ∧
    rest.length ≤ K) fun batch rest => Triple.assume fun hrest => ?_).pre
      fun s hs => ⟨by simpa using hs, by simp⟩).post fun _ s hs => hs.1
  rw [List.length_cons] at hrest ⊢
  obtain ⟨k, rfl⟩ := Nat.exists_eq_add_of_le hrest
  have hdone : rest.length + 1 + k - (rest.length + 1) = k := by omega
  have hnext : rest.length + 1 + k - rest.length = k + 1 := by omega
  rw [hdone, hnext, Nat.succ_mul]
  have hbound : k * B + B ≤ (rest.length + 1 + k) * B := by
    rw [← Nat.succ_mul]
    exact Nat.mul_le_mul_right B (by omega)
  exact (runBatch_held hE hS henv hJ _ _ batch hbound).post fun _ s hs => ⟨hs, by omega⟩

omit [Roots F] in
theorem ensureRoot_at :
    Triple (At m) (ensureRoot i (hash i.env)) (fun _ s => ∃ m', At m' s ∧ RootMade i m m')
      (fun s => (∀ e ∈ s.log, Sound e) ∧ ¬ Answering i) := by
  unfold ensureRoot
  refine Triple.read fun s hs => ?_
  rw [hs.mcts]
  have hmake : ∀ (hfresh : m.nodeExists (hash i.env) = false) (priors : HashMap A F) (value : F)
      (hkeys : ∀ a ∈ priors, a ∈ validActions i.env) (X : Search A E F → Prop),
      Triple (fun t => t = s) (mutate (MCTS.createNode i.order i.env priors value))
        (fun _ t => ∃ m', At m' t ∧ RootMade i m m') X := by
    intro hfresh priors value hkeys X
    refine ((mutate_at (MCTS.createNode i.order i.env priors value)).pre
      fun t ht => ht ▸ hs).post fun _ t ht => ?_
    exact ⟨_, ht, .made hfresh priors value hkeys⟩
  split
  · rename_i hfresh
    have hfresh : m.nodeExists (hash i.env) = false := by simpa using hfresh
    split
    · exact hmake hfresh _ _ (fun a ha => absurd ha (AList.notMem_empty a)) _
    · split
      · exact hmake hfresh _ _ (fun a ha => normalizePrior_keys _ _ ha) _
      · rename_i hreply
        refine Triple.halt fun t ht => ⟨ht ▸ hs.log, fun hans => ?_⟩
        obtain ⟨priors, values, hsome, hp, hv⟩ := hans 0 [observation i.env]
        obtain ⟨p, rfl⟩ := List.length_eq_one_iff.mp hp
        obtain ⟨v, rfl⟩ := List.length_eq_one_iff.mp hv
        exact hreply p [] v [] hsome
  · rename_i hfound
    exact Triple.ret fun t ht => ⟨m, ht ▸ hs, .found (by simpa using hfound)⟩

def simulations (i : RunInput E A O F) (B : ℕ) : ℕ := (i.numSteps + B - 1) / max B 1 * B

/-- The invariant after a run: on a terminal root nothing but the root is made;
else all simulations have been made and, noise aside, the turns' invariant holds. -/
def Done (i : RunInput E A O F) (B : ℕ)
    (J : ℕ → List (PendingInference A E) → MCTS A F → Prop) (m₀ m : MCTS A F) : Prop :=
  (done i.env = true ∧ RootMade i (m₀.setRoot (some (hash i.env))) m) ∨
    (done i.env = false ∧ ∃ m', J (simulations i B) [] m' ∧ m = m'.clearNoise)

omit [Act A] [DecidableEq A] [Field F] [LinearOrder F] [Roots F] in
theorem rootNode_at (rootHash : NodeId) (X : Search A E F → Prop)
    (hroot : m.nodeExists rootHash = true) (hm : Indexed m) :
    Triple (At m) (rootNode rootHash)
      (fun node s => m.getNode rootHash = some node ∧ At m s) X := by
  obtain ⟨n, hn⟩ := (nodeExists_iff hm).mp hroot
  unfold rootNode
  refine Triple.read fun s hs => ?_
  rw [hs.mcts, hn]
  exact Triple.ret fun t ht => ⟨rfl, ht ▸ hs⟩

/-- The rule for whole runs. -/
theorem run_rule (hE : LawfulEnvironment E A) (hS : SoundHash S) (henv : i.env ∈ S)
    (hm : WellFormed m) (ht : Truthful S m) (hb : m.batchSize = B) (hJ : Invariant S i B J)
    (hstart : ∀ m', RootMade i (m.setRoot (some (hash i.env))) m' → done i.env = false →
      J 0 [] m') :
    Triple (At m) (run i)
      (fun node s => ∃ m', At m' s ∧ Standing S i [] m' ∧ m'.batchSize = B ∧
        m'.getNode (hash i.env) = some node ∧ Done i B J m m')
      (CutShort S i J (simulations i B)) := by
  unfold run
  refine Triple.seq (mutate_at (·.setRoot (some (hash i.env)))) fun _ => ?_
  have hensure : Triple (At (m.setRoot (some (hash i.env)))) (ensureRoot i (hash i.env))
      (fun _ s => ∃ m', At m' s ∧ RootMade i (m.setRoot (some (hash i.env))) m')
      (CutShort S i J (simulations i B)) :=
    ensureRoot_at.weaken (fun _ hs => hs) (fun _ _ hs => hs)
      fun s hs => ⟨hs.1, fun hans => absurd hans hs.2⟩
  refine Triple.seq hensure fun _ => Triple.any fun m' => Triple.assume fun hmade => ?_
  have hrooted : WellFormed (m.setRoot (some (hash i.env))) := ⟨hm.indexed, hm.node, hm.linked⟩
  obtain ⟨hst, hb'⟩ := hmade.standing hE hS henv hrooted ht
  split
  · rename_i hdone
    exact (rootNode_at _ _ hst.root hst.arena.indexed).post fun node s hs =>
      ⟨m', hs.2, hst, hb'.trans hb, hs.1, Or.inl ⟨hdone, hmade⟩⟩
  rename_i hrun
  rw [Bool.not_eq_true] at hrun
  have hbatches := batches_held hE hS henv hJ ((i.numSteps + B - 1) / max B 1)
  refine Triple.read fun s hs => ?_
  have hsize : s.mcts.batchSize = B := by
    rw [hs.mcts, hb', ← hb]
    rfl
  rw [hsize]
  refine Triple.seq (hbatches.pre fun t ht' => ?_) fun _ =>
    Triple.any fun m'' => Triple.assume fun ⟨hst', hb'', hj⟩ => ?_
  · exact ht' ▸ ⟨m', hs, hst, hb'.trans hb, hstart m' hmade hrun⟩
  refine Triple.seq (mutate_at (·.clearNoise)) fun _ => ?_
  have hclear : Standing S i [] m''.clearNoise :=
    ⟨⟨hst'.arena.indexed, hst'.arena.node, hst'.arena.linked⟩, hst'.truth, hst'.root,
      fun p hp => absurd hp List.not_mem_nil, hst'.running⟩
  exact (rootNode_at _ _ hclear.root hclear.arena.indexed).post fun node s hs =>
    ⟨_, hs.2, hclear, hb'', hs.1, Or.inr ⟨hrun, m'', hj, rfl⟩⟩

end Programs

end Mcts.Turns
