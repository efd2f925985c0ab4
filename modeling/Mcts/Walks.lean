import Mcts.ArenaInvariant

/-!
Walks through the stored graph, and what the stored nodes say of the states
they stand for. On a graph that tells the truth, a walk from the root stays in
step with the game: the node it stands on bears the hash of the state.
-/
namespace Mcts.Walks

open Environments Nodes Engine Arena ArenaInvariant

variable {E A O F : Type} [Environment E A O] [Act A]

structure Describes (n : Node A F) (s : E) : Prop where
  terminal : n.terminalState = done s
  dead : done s = true → n.validActions = []
  num : done s = false → n.numActions = numActions s
  valid : done s = false → ∀ a ∈ n.validActions, a ∈ validActions s
  child : ∀ a c, n.child a = some c → c = hash (step s a)

/-- Every node describes every state of `S` that bears its id. -/
def Truthful (S : Set E) (m : MCTS A F) : Prop :=
  ∀ id n, m.getNode id = some n → ∀ s ∈ S, hash s = id → Describes n s

/-- A walk from the root along expanded edges, with the game it plays: no state
on the way is terminal or repeats an id of the path so far. -/
inductive Walked (m : MCTS A F) (root : NodeId) (env : E) : List (NodeId × A) → NodeId → E → Prop
  | start : Walked m root env [] root env
  | step {path : List (NodeId × A)} {id c : NodeId} {g : E} {n : Node A F} {a : A} :
      Walked m root env path id g → done g = false → hash g ∉ path.map (·.1) →
      m.getNode id = some n → a ∈ n.validActions → n.child a = some c →
      Walked m root env (path ++ [(id, a)]) c (step g a)

/-- A walk and one step more, taken in its last state; the child may be missing. -/
inductive Taken (m : MCTS A F) (root : NodeId) (env : E) :
    List (NodeId × A) → NodeId → A → E → Prop
  | intro {front : List (NodeId × A)} {parent : NodeId} {before : E} {n : Node A F} {a : A} :
      Walked m root env front parent before → done before = false →
      hash before ∉ front.map (·.1) → m.getNode parent = some n → a ∈ n.validActions →
      Taken m root env (front ++ [(parent, a)]) parent a (step before a)

section Extension

/-- Later engines keep nodes, their actions and their children. -/
def Extends (m m' : MCTS A F) : Prop :=
  ∀ id n, m.getNode id = some n → ∃ n', m'.getNode id = some n' ∧
    n'.validActions = n.validActions ∧ ∀ a c, n.child a = some c → n'.child a = some c

variable {m m' m'' : MCTS A F}

theorem Extends.refl (m : MCTS A F) : Extends m m :=
  fun _ n hn => ⟨n, hn, rfl, fun _ _ hc => hc⟩

theorem Extends.trans (h : Extends m m') (h' : Extends m' m'') : Extends m m'' := by
  intro id n hn
  obtain ⟨n', hn', hvalid, hchild⟩ := h id n hn
  obtain ⟨n'', hn'', hvalid', hchild'⟩ := h' id n' hn'
  exact ⟨n'', hn'', hvalid'.trans hvalid, fun a c hc => hchild' a c (hchild a c hc)⟩

theorem Extends.offers (h : Extends m m') {id : NodeId} {a : A} (ho : Offers m id a) :
    Offers m' id a := by
  obtain ⟨n, hn, ha⟩ := ho
  obtain ⟨n', hn', hvalid, _⟩ := h id n hn
  exact ⟨n', hn', hvalid.symm ▸ ha⟩

theorem Extends.updateNode (hm : Indexed m) (id : NodeId) {f : Node A F → Node A F}
    (hvalid : ∀ n, (f n).validActions = n.validActions)
    (hchild : ∀ n a c, m.getNode id = some n → n.child a = some c → (f n).child a = some c) :
    Extends m (m.updateNode id f) := by
  intro key n hn
  rw [updateNode_getNode hm]
  by_cases hkey : id = key
  · subst hkey
    exact ⟨f n, by rw [if_pos rfl, hn]; rfl, hvalid n, fun a c => hchild n a c hn⟩
  · exact ⟨n, by rw [if_neg hkey, hn], rfl, fun _ _ hc => hc⟩

theorem Extends.insertNode (hm : Indexed m) {id : NodeId} (hfresh : m.nodeExists id = false)
    (node : Node A F) : Extends m (m.insertNode id node) := by
  intro key n hn
  refine ⟨n, ?_, rfl, fun _ _ hc => hc⟩
  rw [getNode_insertNode hm, if_neg, hn]
  rintro rfl
  rw [(getNode_eq_none_iff hm).mpr hfresh] at hn
  exact absurd hn (by simp)

theorem Walked.extends {root : NodeId} {env : E} (hext : Extends m m')
    {path : List (NodeId × A)} {id : NodeId} {g : E} (h : Walked m root env path id g) :
    Walked m' root env path id g := by
  induction h with
  | start => exact .start
  | step _ hrun hnew hn ha hc ih =>
    obtain ⟨n', hn', hvalid, hchild⟩ := hext _ _ hn
    exact .step ih hrun hnew hn' (hvalid.symm ▸ ha) (hchild _ _ hc)

theorem Taken.extends {root : NodeId} {env : E} (hext : Extends m m')
    {path : List (NodeId × A)} {parent : NodeId} {a : A} {g : E}
    (h : Taken m root env path parent a g) : Taken m' root env path parent a g := by
  obtain ⟨hw, hrun, hnew, hn, ha⟩ := h
  obtain ⟨n', hn', hvalid, _⟩ := hext _ _ hn
  exact ⟨hw.extends hext, hrun, hnew, hn', hvalid.symm ▸ ha⟩

end Extension

section Truth

variable {S : Set E} {m : MCTS A F} {root : NodeId} {env : E}

theorem Truthful.updateNode (hm : Indexed m) (h : Truthful S m) {id : NodeId}
    {f : Node A F → Node A F}
    (hf : ∀ n s, m.getNode id = some n → s ∈ S → hash s = id → Describes n s → Describes (f n) s) :
    Truthful S (m.updateNode id f) := by
  intro key n hn s hs hkey
  rcases updateNode_found hm hn with ⟨old, rfl, hold, rfl⟩ | ⟨_, hn⟩
  · exact hf old s hold hs hkey (h id old hold s hs hkey)
  · exact h key n hn s hs hkey

/-- The update of a counter or a value changes nothing that a node says. -/
theorem Describes.congr {n n' : Node A F} {s : E} (h : Describes n s)
    (hterminal : n'.terminalState = n.terminalState) (hvalid : n'.validActions = n.validActions)
    (hnum : n'.numActions = n.numActions) (hchildren : n'.children = n.children) :
    Describes n' s where
  terminal := hterminal.trans h.terminal
  dead hdone := hvalid.trans (h.dead hdone)
  num hrun := hnum.trans (h.num hrun)
  valid hrun := hvalid ▸ h.valid hrun
  child a c hc := h.child a c (by rwa [Node.child, ← hchildren])

/-- A fresh node describes every state with the hash of the state it was made for. -/
theorem Truthful.createNode [Field F] [LinearOrder F] (hS : SoundHash S) (hm : Indexed m)
    (h : Truthful S m) (order : IterationOrder (Σ _ : A, F)) (henv : env ∈ S)
    (priors : HashMap A F) (hkeys : ∀ a ∈ priors, a ∈ validActions env) (value : F) :
    Truthful S (MCTS.createNode order env priors value m) := by
  obtain ⟨node, heq, hnode⟩ := createNode_fresh order env priors value m
  rw [heq]
  intro key n hn s hs hkey
  rcases insertNode_found hm hn with ⟨hid, rfl⟩ | ⟨_, hn⟩
  · have hsame : hash s = hash env := hkey.trans hid.symm
    have hdone : done s = done env := hS.done_eq s hs env henv hsame
    refine ⟨hnode.terminal.trans hdone.symm, fun hd => hnode.dead (hdone ▸ hd), fun hr => ?_,
      fun hr a ha => ?_, fun a c hc => ?_⟩
    · exact (hnode.num (hdone ▸ hr)).trans (hS.num_eq s hs env henv hsame).symm
    · have hprior : a ∈ priors := (hnode.valid (hdone ▸ hr)).mem_iff.mp ha
      exact (hS.valid_iff s hs env henv hsame a).mpr (hkeys a hprior)
    · rw [Node.child, hnode.children] at hc
      exact absurd hc (by simp)
  · exact h key n hn s hs hkey

/-- A walk on a truthful graph plays legally and stands on the state's own id. -/
theorem Walked.sync (hS : SoundHash S) (hm : Truthful S m) (henv : env ∈ S)
    (hroot : hash env = root) {path : List (NodeId × A)} {id : NodeId} {g : E}
    (h : Walked m root env path id g) :
    Legal env (path.map (·.2)) ∧ g = play env (path.map (·.2)) ∧ g ∈ S ∧ hash g = id := by
  induction h with
  | start => exact ⟨trivial, rfl, henv, hroot⟩
  | step _ hrun _ hn ha hc ih =>
    obtain ⟨hlegal, hgame, hmem, hhash⟩ := ih
    have hdescribes := hm _ _ hn _ hmem hhash
    have hvalid := hdescribes.valid hrun _ ha
    rw [List.map_append, List.map_singleton, legal_concat, play_concat, ← hgame]
    exact ⟨⟨hlegal, hrun, hvalid⟩, rfl, hS.step_mem _ hmem hrun _ hvalid,
      (hdescribes.child _ _ hc).symm⟩

/-- No id comes twice on a walk. -/
theorem Walked.nodup (hS : SoundHash S) (hm : Truthful S m) (henv : env ∈ S)
    (hroot : hash env = root) {path : List (NodeId × A)} {id : NodeId} {g : E}
    (h : Walked m root env path id g) : (path.map (·.1)).Nodup := by
  induction h with
  | start => exact List.nodup_nil
  | step hw hrun hnew hn ha hc ih =>
    have hhash := (hw.sync hS hm henv hroot).2.2.2
    rw [List.map_append, List.map_singleton, List.nodup_append]
    refine ⟨ih, List.nodup_singleton _, fun x hx y hy => ?_⟩
    rw [List.mem_singleton.mp hy]
    rintro rfl
    exact hnew (hhash ▸ hx)

theorem Walked.offers {path : List (NodeId × A)} {id : NodeId} {g : E}
    (h : Walked m root env path id g) : ∀ e ∈ path, Offers m e.1 e.2 := by
  induction h with
  | start => exact fun e he => absurd he List.not_mem_nil
  | step _ _ _ hn ha _ ih =>
    intro e he
    rcases List.mem_append.mp he with he | he
    · exact ih e he
    · exact List.mem_singleton.mp he ▸ ⟨_, hn, ha⟩

/-- The edges of a walk are expanded. -/
theorem Walked.linked {path : List (NodeId × A)} {id : NodeId} {g : E}
    (h : Walked m root env path id g) :
    ∀ e ∈ path, ∃ n c, m.getNode e.1 = some n ∧ n.child e.2 = some c := by
  induction h with
  | start => exact fun e he => absurd he List.not_mem_nil
  | step _ _ _ hn _ hc ih =>
    intro e he
    rcases List.mem_append.mp he with he | he
    · exact ih e he
    · exact List.mem_singleton.mp he ▸ ⟨_, _, hn, hc⟩

/-- A walk with an edge begins at the root. -/
theorem Walked.head {path : List (NodeId × A)} {id : NodeId} {g : E}
    (h : Walked m root env path id g) :
    (path = [] ∧ id = root ∧ g = env) ∨ ∃ a rest, path = (root, a) :: rest := by
  induction h with
  | start => exact Or.inl ⟨rfl, rfl, rfl⟩
  | step _ _ _ _ _ _ ih =>
    rcases ih with ⟨hnil, hid, _⟩ | ⟨b, rest, hcons⟩
    · exact Or.inr ⟨_, [], by rw [hnil, hid]; rfl⟩
    · exact Or.inr ⟨b, rest ++ _, by rw [hcons]; rfl⟩

/-- A walk with an edge ends in a step along an expanded one. -/
theorem Walked.taken {path : List (NodeId × A)} {id : NodeId} {g : E}
    (h : Walked m root env path id g) (hne : path ≠ []) :
    ∃ parent a n, Taken m root env path parent a g ∧ path.getLast? = some (parent, a) ∧
      m.getNode parent = some n ∧ n.child a = some id := by
  cases h with
  | start => exact absurd rfl hne
  | step hw hrun hnew hn ha hc => exact ⟨_, _, _, ⟨hw, hrun, hnew, hn, ha⟩, by simp, hn, hc⟩

namespace Taken

variable {path : List (NodeId × A)} {parent : NodeId} {a : A} {g : E}

/-- The last step is legal in a state that bears the parent's id. -/
theorem sync (hS : SoundHash S) (hm : Truthful S m) (henv : env ∈ S) (hroot : hash env = root)
    (h : Taken m root env path parent a g) :
    ∃ before ∈ S, hash before = parent ∧ done before = false ∧ a ∈ validActions before ∧
      g = step before a ∧ g ∈ S := by
  obtain ⟨hw, hrun, _, hn, ha⟩ := h
  obtain ⟨_, _, hmem, hhash⟩ := hw.sync hS hm henv hroot
  have hvalid := (hm _ _ hn _ hmem hhash).valid hrun _ ha
  exact ⟨_, hmem, hhash, hrun, hvalid, rfl, hS.step_mem _ hmem hrun _ hvalid⟩

theorem nodup (hS : SoundHash S) (hm : Truthful S m) (henv : env ∈ S) (hroot : hash env = root)
    (h : Taken m root env path parent a g) : (path.map (·.1)).Nodup := by
  obtain ⟨hw, _, hnew, _, _⟩ := h
  have hhash := (hw.sync hS hm henv hroot).2.2.2
  rw [List.map_append, List.map_singleton, List.nodup_append]
  refine ⟨hw.nodup hS hm henv hroot, List.nodup_singleton _, fun x hx y hy => ?_⟩
  rw [List.mem_singleton.mp hy]
  rintro rfl
  exact hnew (hhash ▸ hx)

theorem offers (h : Taken m root env path parent a g) : ∀ e ∈ path, Offers m e.1 e.2 := by
  obtain ⟨hw, _, _, hn, ha⟩ := h
  intro e he
  rcases List.mem_append.mp he with he | he
  · exact hw.offers e he
  · exact List.mem_singleton.mp he ▸ ⟨_, hn, ha⟩

theorem head (h : Taken m root env path parent a g) : ∃ b rest, path = (root, b) :: rest := by
  obtain ⟨hw, _, _, _, _⟩ := h
  rcases hw.head with ⟨hnil, hid, _⟩ | ⟨b, rest, hcons⟩
  · exact ⟨_, [], by rw [hnil, hid]; rfl⟩
  · exact ⟨b, rest ++ _, by rw [hcons]; rfl⟩

theorem last (h : Taken m root env path parent a g) : path.getLast? = some (parent, a) := by
  obtain ⟨_, _, _, _, _⟩ := h
  simp

theorem last_mem (h : Taken m root env path parent a g) : (parent, a) ∈ path :=
  List.mem_of_getLast? h.last

end Taken

end Truth

end Mcts.Walks
