import Mcts.Expansion

/-!
Searches of a game tree. If distinct action sequences have distinct hashes, an
id is a place in the tree: every stored node but the root has one parent, and a
walk that meets a child of a node came there through that node.
-/
namespace Mcts.Trees

open Environments Nodes Engine Arena Rerooting Worklist ArenaInvariant Walks Selection Backup
open Expansion

variable {E A O F : Type} [Environment E A O]

def treeStates (start : E) : Set E := {e | ∃ acts : List A, Legal start acts ∧ e = play start acts}

/-- Distinct legal action sequences have distinct hashes. -/
def TreeShaped (start : E) : Prop :=
  ∀ left right : List A, Legal start left → Legal start right →
    hash (play start left) = hash (play start right) → left = right

/-- On a tree the hash determines the state. -/
theorem treeStates_sound {start : E} (htree : TreeShaped start) :
    SoundHash (treeStates start) := by
  have hstate : ∀ s ∈ treeStates start, ∀ t ∈ treeStates start, hash s = hash t → s = t := by
    rintro s ⟨left, hleft, rfl⟩ t ⟨right, hright, rfl⟩ h
    rw [htree left right hleft hright h]
  refine ⟨?_, ?_, ?_, ?_, ?_⟩
  · rintro s ⟨acts, hacts, rfl⟩ hrun a ha
    exact ⟨acts ++ [a], (legal_concat _ _ _).mpr ⟨hacts, hrun, ha⟩, (play_concat _ _ _).symm⟩
  · exact fun s hs t ht h => by rw [hstate s hs t ht h]
  · exact fun s hs t ht h _ => by rw [hstate s hs t ht h]
  · exact fun s hs t ht h => by rw [hstate s hs t ht h]
  · exact fun s hs t ht h _ _ _ => by rw [hstate s hs t ht h]

def idOf (start : E) (acts : List A) : NodeId := hash (play start acts)

variable [Act A]

/-- A stored tree below the state that `root` leads to: each id is the place of
its node, and each node but the root is a stored node's child. -/
structure Planted (start : E) (root : List A) (m : MCTS A F) : Prop where
  legal : Legal start root
  placed : ∀ id n, m.getNode id = some n →
    ∃ acts, Legal start (root ++ acts) ∧ idOf start (root ++ acts) = id
  parented : ∀ id n, m.getNode id = some n →
    id = idOf start root ∨ ∃ p np a, m.getNode p = some np ∧ np.child a = some id

/-- A stored tree whose nodes are well formed and describe the states at their places. -/
structure Tree [Field F] (start : E) (root : List A) (m : MCTS A F) : Prop where
  arena : WellFormed m
  truth : Truthful (treeStates start) m
  planted : Planted start root m

omit [Environment E A O] in
/-- Only valid actions have children. -/
theorem child_valid [Field F] (hinj : Function.Injective (toActionIndex : A → ℕ)) {n : Node A F}
    (hn : n.WellFormed) {a : A} {c : NodeId} (hc : n.child a = some c) : a ∈ n.validActions := by
  by_contra ha
  have hblank := (n.child a).isSome_iff_exists.mpr ⟨c, hc⟩
  have hnone : n.child a = none := (hn.blank (toActionIndex a) fun b hb hindex =>
    ha (hinj hindex ▸ hb)).2.2.2.2
  simp [hnone] at hblank

section Places

variable [Field F] {start : E} {root : List A} {m : MCTS A F}

/-- A child stands one action further than its parent. -/
theorem Tree.child_at (hinj : Function.Injective (toActionIndex : A → ℕ)) (h : Tree start root m)
    {acts : List A} (hacts : Legal start acts) {p x : NodeId} {n : Node A F} {a : A}
    (hp : idOf start acts = p) (hn : m.getNode p = some n) (hc : n.child a = some x) :
    Legal start (acts ++ [a]) ∧ idOf start (acts ++ [a]) = x := by
  have hd := h.truth p n hn (play start acts) ⟨acts, hacts, rfl⟩ hp
  have ha := child_valid hinj (h.arena.node p n hn) hc
  have hrun : done (play start acts) = false := by
    by_contra hdone
    rw [Bool.not_eq_false] at hdone
    rw [hd.dead hdone] at ha
    exact List.not_mem_nil ha
  refine ⟨(legal_concat _ _ _).mpr ⟨hacts, hrun, hd.valid hrun a ha⟩, ?_⟩
  rw [idOf, play_concat]
  exact (hd.child a x hc).symm

/-- The place of a child, relative to the root. -/
theorem Tree.child_place (hinj : Function.Injective (toActionIndex : A → ℕ))
    (h : Tree start root m) {p x : NodeId} {n : Node A F} {a : A} (hn : m.getNode p = some n)
    (hc : n.child a = some x) : ∃ acts, Legal start (root ++ acts) ∧ idOf start (root ++ acts) = p ∧
      Legal start (root ++ acts ++ [a]) ∧ idOf start (root ++ acts ++ [a]) = x := by
  obtain ⟨acts, hacts, hp⟩ := h.planted.placed p n hn
  exact ⟨acts, hacts, hp, h.child_at hinj hacts hp hn hc⟩

def Located (start : E) (root : List A) (path : List (NodeId × A)) : Prop :=
  ∀ front e rest, path = front ++ e :: rest →
    Legal start (root ++ front.map (·.2)) ∧ idOf start (root ++ front.map (·.2)) = e.1

omit [Act A] in
theorem Located.concat {path : List (NodeId × A)} (h : Located start root path) {id : NodeId}
    {a : A} (hlegal : Legal start (root ++ path.map (·.2)))
    (hid : idOf start (root ++ path.map (·.2)) = id) : Located start root (path ++ [(id, a)]) := by
  intro front e rest hsplit
  rcases List.eq_nil_or_concat rest with rfl | ⟨rest, last, rfl⟩
  · obtain ⟨rfl, hlast⟩ := List.append_inj' hsplit rfl
    rw [← (List.cons.inj hlast).1]
    exact ⟨hlegal, hid⟩
  · rw [List.concat_eq_append, ← List.cons_append, ← List.append_assoc] at hsplit
    exact h front e rest (List.append_inj' hsplit rfl).1

variable {path : List (NodeId × A)} {id : NodeId} {g : E}

/-- A walk from the root is located, and so is the state it ends in. -/
theorem walked_located (htree : TreeShaped start) (h : Tree start root m)
    (hw : Walked m (idOf start root) (play start root) path id g) :
    Located start root path ∧ Legal start (root ++ path.map (·.2)) ∧
      g = play start (root ++ path.map (·.2)) ∧ hash g = id := by
  have hsync : ∀ {path id g}, Walked m (idOf start root) (play start root) path id g →
      Legal start (root ++ path.map (·.2)) ∧ g = play start (root ++ path.map (·.2)) ∧
        hash g = id := by
    intro path id g hw
    obtain ⟨hlegal, hgame, _, hid⟩ := hw.sync (treeStates_sound htree) h.truth
      ⟨root, h.planted.legal, rfl⟩ rfl
    exact ⟨(legal_append _ _ _).mpr ⟨h.planted.legal, hlegal⟩, by rw [play_append, hgame], hid⟩
  refine ⟨?_, hsync hw⟩
  induction hw with
  | start => exact fun front e rest hsplit => absurd hsplit.symm (by simp)
  | step hw _ _ _ _ _ ih =>
    obtain ⟨hlegal, hgame, hid⟩ := hsync hw
    exact ih.concat hlegal (by rw [idOf, ← hgame, hid])

variable {parent : NodeId} {a : A}

theorem Tree.path_nodup (htree : TreeShaped start) (h : Tree start root m)
    (htaken : Taken m (idOf start root) (play start root) path parent a g) :
    (path.map (·.1)).Nodup :=
  htaken.nodup (treeStates_sound htree) h.truth ⟨root, h.planted.legal, rfl⟩ rfl

/-- So is the path of a selection, and the leaf it ends in. -/
theorem taken_located (htree : TreeShaped start) (h : Tree start root m)
    (htaken : Taken m (idOf start root) (play start root) path parent a g) :
    Located start root path ∧ Legal start (root ++ path.map (·.2)) ∧
      g = play start (root ++ path.map (·.2)) := by
  obtain ⟨hw, hrun, hnew, hn, ha⟩ := htaken
  rename_i front before n
  obtain ⟨hloc, hlegal, hgame, hid⟩ := walked_located htree h hw
  have hvalid := (h.truth parent n hn before ⟨_, hlegal, hgame⟩ hid).valid hrun a ha
  rw [List.map_append, List.map_singleton, ← List.append_assoc, play_concat, legal_concat, ← hgame]
  exact ⟨hloc.concat hlegal (by rw [idOf, ← hgame, hid]), ⟨hlegal, hrun, hvalid⟩, rfl⟩

omit [Act A] in
/-- The leaf of a selection is none of the nodes on the way to it. -/
theorem Located.leaf_off (htree : TreeShaped start) (h : Located start root path)
    (hlegal : Legal start (root ++ path.map (·.2))) :
    idOf start (root ++ path.map (·.2)) ∉ path.map (·.1) := by
  intro hmem
  obtain ⟨e, he, heq⟩ := List.mem_map.mp hmem
  obtain ⟨front, rest, rfl⟩ := List.append_of_mem he
  obtain ⟨hfront, hid⟩ := h front e rest rfl
  have hsame := congrArg List.length (htree _ _ hfront hlegal (hid.trans heq))
  simp only [List.length_append, List.length_map, List.length_cons] at hsame
  omega

/-- An edge to the place where a path leads is the path's last. -/
theorem Located.last_edge (hinj : Function.Injective (toActionIndex : A → ℕ))
    (htree : TreeShaped start) (h : Tree start root m) (hloc : Located start root path)
    (hlegal : Legal start (root ++ path.map (·.2))) {p : NodeId} {n : Node A F}
    (hn : m.getNode p = some n)
    (hc : n.child a = some (idOf start (root ++ path.map (·.2)))) :
    path.getLast? = some (p, a) := by
  obtain ⟨acts, _, hp, hlegal', hid⟩ := h.child_place hinj hn hc
  have hplace := htree _ _ hlegal' hlegal hid
  rw [List.append_assoc] at hplace
  have hacts := List.append_cancel_left hplace
  rcases List.eq_nil_or_concat path with rfl | ⟨front, ⟨q, c⟩, rfl⟩
  · exact absurd hacts (by simp)
  rw [List.concat_eq_append, List.map_append] at hacts
  obtain ⟨hacts', hlast⟩ := List.append_inj' hacts rfl
  have hca : a = c := (List.cons.inj hlast).1
  have hq := (hloc front (q, c) [] (by simp)).2
  rw [← hacts', hp] at hq
  simp [hca, hq]

/-- A child of a node on a path is not met at or before the node. -/
theorem Located.child_below (hinj : Function.Injective (toActionIndex : A → ℕ))
    (htree : TreeShaped start) (h : Tree start root m) (hloc : Located start root path)
    {front rest : List (NodeId × A)} {p x : NodeId} {b : A}
    (hsplit : path = front ++ (p, b) :: rest) {n : Node A F} (hn : m.getNode p = some n)
    (hc : n.child a = some x) : x ∉ front.map (·.1) ∧ x ≠ p := by
  obtain ⟨hlegal, hp⟩ := hloc front (p, b) rest hsplit
  obtain ⟨hlegal', hx⟩ := h.child_at hinj hlegal hp hn hc
  have hfront : Located start root (front ++ [(p, a)]) :=
    Located.concat (fun left e right hleft => hloc left e (right ++ (p, b) :: rest)
      (by simp [hsplit, hleft])) hlegal hp
  have hend : idOf start (root ++ (front ++ [(p, a)]).map (·.2)) = x := by
    rw [List.map_append, List.map_singleton, ← List.append_assoc, hx]
  have hoff := hfront.leaf_off htree (by simpa using hlegal')
  rw [hend] at hoff
  simpa [not_or] using hoff

/-- A path that meets a child comes from its parent. -/
theorem Located.from_parent (hinj : Function.Injective (toActionIndex : A → ℕ))
    (htree : TreeShaped start) (h : Tree start root m) (hloc : Located start root path)
    {p x : NodeId} {n : Node A F} (hn : m.getNode p = some n) (hc : n.child a = some x)
    (hx : x ∈ path.map (·.1)) : ∃ front b rest, path = front ++ (p, a) :: (x, b) :: rest := by
  obtain ⟨⟨x, b⟩, he, rfl⟩ := List.mem_map.mp hx
  obtain ⟨front, rest, rfl⟩ := List.append_of_mem he
  obtain ⟨hlegal, hid⟩ := hloc front _ rest rfl
  have hfront : Located start root front := fun left e right hsplit =>
    hloc left e (right ++ (x, b) :: rest) (by simp [hsplit])
  have hlast := hfront.last_edge hinj htree h hlegal hn (hid ▸ hc)
  obtain ⟨front, rfl⟩ := List.getLast?_eq_some_iff.mp hlast
  exact ⟨front, b, rest, by simp⟩

/-- The step after an edge goes on from the edge's child. -/
theorem Located.next (hinj : Function.Injective (toActionIndex : A → ℕ)) (h : Tree start root m)
    {front rest : List (NodeId × A)} {p x : NodeId} {e : NodeId × A}
    (hloc : Located start root (front ++ (p, a) :: e :: rest)) {n : Node A F}
    (hn : m.getNode p = some n) (hc : n.child a = some x) : x = e.1 := by
  obtain ⟨hlegal, hp⟩ := hloc front (p, a) (e :: rest) rfl
  obtain ⟨_, hx⟩ := h.child_at hinj hlegal hp hn hc
  have he := (hloc (front ++ [(p, a)]) e rest (by simp)).2
  rw [List.map_append, List.map_singleton, ← List.append_assoc, hx] at he
  exact he

/-- A leaf without a link is not stored yet. -/
theorem leaf_fresh (hinj : Function.Injective (toActionIndex : A → ℕ)) (htree : TreeShaped start)
    (h : Tree start root m)
    (htaken : Taken m (idOf start root) (play start root) path parent a g) {n : Node A F}
    (hn : m.getNode parent = some n) (hc : n.child a = none) : m.nodeExists (hash g) = false := by
  obtain ⟨hloc, hlegal, rfl⟩ := taken_located htree h htaken
  rw [← Bool.not_eq_true]
  intro hstored
  obtain ⟨leaf, hleaf⟩ := (nodeExists_iff h.arena.indexed).mp hstored
  rcases h.planted.parented _ leaf hleaf with hroot | ⟨p, np, b, hp, hb⟩
  · have hsame := congrArg List.length (htree _ _ hlegal h.planted.legal hroot)
    obtain ⟨c, rest, rfl⟩ := htaken.head
    simp only [List.map_cons, List.length_append, List.length_cons] at hsame
    omega
  · -- the link would be there already
    have hlast := hloc.last_edge hinj htree h hlegal hp hb
    rw [htaken.last, Option.some.injEq, Prod.mk.injEq] at hlast
    obtain ⟨rfl, rfl⟩ := hlast
    rw [hn, Option.some.injEq] at hp
    rw [hp, hb] at hc
    exact absurd hc (by simp)

end Places

section Growth

variable [Field F] {start : E} {root : List A} {m m' : MCTS A F}

/-- A later engine without new nodes. -/
theorem Tree.carry (h : Tree start root m) (hc : Carries (treeStates start) m m')
    (hold : ∀ id n', m'.getNode id = some n' → ∃ n, m.getNode id = some n) :
    Tree start root m' := by
  refine ⟨hc.arena, hc.truth, h.planted.legal, fun id n' hn' => ?_, fun id n' hn' => ?_⟩
  · obtain ⟨n, hn⟩ := hold id n' hn'
    exact h.planted.placed id n hn
  · obtain ⟨n, hn⟩ := hold id n' hn'
    rcases h.planted.parented id n hn with hroot | ⟨p, np, a, hp, hchild⟩
    · exact Or.inl hroot
    · obtain ⟨np', hp', _, hkeep⟩ := hc.ext p np hp
      exact Or.inr ⟨p, np', a, hp', hkeep a id hchild⟩

variable {path : List (NodeId × A)} {parent : NodeId} {a : A} {g : E}

theorem Tree.addLosses (h : Tree start root m) (hnodup : (path.map (·.1)).Nodup)
    (hpath : ∀ e ∈ path, Offers m e.1 e.2) : Tree start root (addLosses path m) :=
  h.carry (addLosses_carries path h.arena h.truth hpath) fun _ _ hn' =>
    let ⟨n, hn, _⟩ := addLosses_origin h.arena.indexed hnodup hn'
    ⟨n, hn⟩

theorem Tree.backup (h : Tree start root m) (hnodup : (path.map (·.1)).Nodup)
    (hpath : ∀ e ∈ path, Offers m e.1 e.2) (repeated : Bool) :
    Tree start root (backup path repeated m) :=
  h.carry (backup_carries path repeated h.arena h.truth hpath) fun _ _ hn' =>
    let ⟨n, hn, _⟩ := backup_origin h.arena.indexed hnodup hpath hn'
    ⟨n, hn⟩

variable [DecidableEq A] [LinearOrder F]

theorem Tree.expanded_carries (hE : LawfulEnvironment E A) (htree : TreeShaped start)
    (h : Tree start root m)
    (htaken : Taken m (idOf start root) (play start root) path parent a g)
    (order : IterationOrder (Σ _ : A, F)) (priors : HashMap A F) (value : F) :
    Carries (treeStates start) m (expanded order parent a g priors value m) := by
  have hS := treeStates_sound htree
  obtain ⟨before, hb, hid, hrun, ha, rfl, hg⟩ :=
    htaken.sync hS h.truth ⟨root, h.planted.legal, rfl⟩ rfl
  exact Expansion.expanded_carries hE hS h.arena h.truth order hb hid hrun ha hg
    (htaken.offers _ htaken.last_mem) priors value

/-- An expansion plants its leaf where the selection led. -/
theorem Tree.expanded (hE : LawfulEnvironment E A) (htree : TreeShaped start)
    (h : Tree start root m)
    (htaken : Taken m (idOf start root) (play start root) path parent a g)
    (order : IterationOrder (Σ _ : A, F)) (priors : HashMap A F) (value : F) :
    Tree start root (expanded order parent a g priors value m) := by
  have ho := htaken.offers _ htaken.last_mem
  have hc := h.expanded_carries hE htree htaken order priors value
  obtain ⟨_, hlegal, hgame⟩ := taken_located htree h htaken
  obtain ⟨before, hb, hid, _, _, rfl, hg⟩ :=
    htaken.sync (treeStates_sound htree) h.truth ⟨root, h.planted.legal, rfl⟩ rfl
  have hchild := expanded_child hE (treeStates_sound htree) h.arena h.truth order hb hid hg ho
    priors value
  refine ⟨hc.arena, hc.truth, h.planted.legal, fun id n' hn' => ?_, fun id n' hn' => ?_⟩
  · rcases expanded_origin h.arena.indexed ho order priors value hn' with
      ⟨n, hn, _⟩ | ⟨rfl, _, _⟩
    · exact h.planted.placed id n hn
    · exact ⟨_, hlegal, by rw [idOf, ← hgame]⟩
  · rcases expanded_origin h.arena.indexed ho order priors value hn' with
      ⟨n, hn, _⟩ | ⟨rfl, _, _⟩
    · rcases h.planted.parented id n hn with hroot | ⟨p, np, b, hp, hb⟩
      · exact Or.inl hroot
      · obtain ⟨np', hp', _, hkeep⟩ := hc.ext p np hp
        exact Or.inr ⟨p, np', b, hp', hkeep b id hb⟩
    · obtain ⟨n, hn, hlink⟩ := hchild
      exact Or.inr ⟨parent, n, a, hn, hlink⟩

omit [DecidableEq A] in
/-- A root node planted alone, or found. -/
theorem Tree.createRoot (hE : LawfulEnvironment E A) (htree : TreeShaped start)
    (h : Tree start root m) (order : IterationOrder (Σ _ : A, F)) (priors : HashMap A F) (value : F)
    (hfresh : m.nodeExists (idOf start root) = false)
    (hkeys : ∀ a ∈ priors, a ∈ validActions (play start root)) :
    Tree start root (MCTS.createNode order (play start root) priors value m) := by
  obtain ⟨node, heq, _⟩ := createNode_fresh order (play start root) priors value m
  have hext : Extends m (m.insertNode (hash (play start root)) node) :=
    Extends.insertNode h.arena.indexed hfresh node
  refine ⟨h.arena.createNode hE order _ priors value hfresh hkeys,
    h.truth.createNode (treeStates_sound htree) h.arena.indexed order ⟨root, h.planted.legal, rfl⟩
      priors hkeys value, h.planted.legal, fun id n hn => ?_, fun id n hn => ?_⟩
  · rw [heq] at hn
    rcases insertNode_found h.arena.indexed hn with ⟨hid, _⟩ | ⟨_, hn⟩
    · exact ⟨[], by simpa using h.planted.legal, by simpa [idOf] using hid⟩
    · exact h.planted.placed id n hn
  · rw [heq] at hn
    rcases insertNode_found h.arena.indexed hn with ⟨hid, _⟩ | ⟨_, hn⟩
    · exact Or.inl hid.symm
    · rcases h.planted.parented id n hn with hroot | ⟨p, np, a, hp, hchild⟩
      · exact Or.inl hroot
      · obtain ⟨np', hp', _, hkeep⟩ := hext p np hp
        exact Or.inr ⟨p, np', a, heq ▸ hp', hkeep a id hchild⟩

end Growth

section Advance

variable [Field F] {start : E} {root : List A} {m : MCTS A F} {a : A} {n : Node A F} {c : NodeId}

omit [Environment E A O] in
/-- A successor is the child of a valid action. -/
theorem successors_child (hm : WellFormed m) {id x : NodeId} (hx : x ∈ successors m id) :
    ∃ n b, m.getNode id = some n ∧ n.child b = some x := by
  unfold successors at hx
  split at hx
  · rename_i n hn
    obtain ⟨slot, hslot, rfl⟩ := List.mem_filterMap.mp hx
    obtain ⟨k, hk⟩ := List.mem_iff_getElem?.mp hslot
    have hget : n.children.getD k none = some x := by simp [hk]
    by_cases hvalid : ∃ b ∈ n.validActions, toActionIndex b = k
    · obtain ⟨b, _, rfl⟩ := hvalid
      exact ⟨n, b, hn, hget⟩
    · have hblank := ((hm.node id n hn).blank k fun b hb hindex => hvalid ⟨b, hb, hindex⟩).2.2.2.2
      rw [hget] at hblank
      exact absurd hblank (by simp)
  · exact absurd hx List.not_mem_nil

/-- Advancing to a child leaves the tree below the child. -/
theorem Tree.advanceRoot (hinj : Function.Injective (toActionIndex : A → ℕ))
    (h : Tree start root m) (hroot : m.rootId = some (idOf start root))
    (hn : m.getNode (idOf start root) = some n) (hc : n.child a = some c) :
    idOf start (root ++ [a]) = c ∧ Tree start (root ++ [a]) (advanceRoot a m) := by
  have hfind := advanceRoot_getNode h.arena.indexed hroot hn hc
  obtain ⟨hlegal, hid⟩ := h.child_at hinj h.planted.legal rfl hn hc
  refine ⟨hid, h.arena.advanceRoot a, fun key found hfound => ?_, hlegal, fun key found hfound => ?_,
    fun key found hfound => ?_⟩
  · exact h.truth key found ((hfind key found).mp hfound).1
  · obtain ⟨_, hreach⟩ := (hfind key found).mp hfound
    clear hfound
    induction hreach generalizing found with
    | refl => exact ⟨[], by simpa using hlegal, by simpa using hid⟩
    | tail hreach hedge ih =>
      obtain ⟨p, b, hp, hb⟩ := successors_child h.arena hedge
      obtain ⟨acts, hacts, hplace⟩ := ih p hp
      obtain ⟨hacts', hplace'⟩ := h.child_at hinj hacts hplace hp hb
      rw [List.append_assoc] at hacts' hplace'
      exact ⟨_, hacts', hplace'⟩
  · obtain ⟨_, hreach⟩ := (hfind key found).mp hfound
    rcases Relation.ReflTransGen.cases_tail hreach with rfl | ⟨q, hq, hedge⟩
    · exact Or.inl hid.symm
    · obtain ⟨p, b, hp, hb⟩ := successors_child h.arena hedge
      exact Or.inr ⟨q, p, b, (hfind q p).mpr ⟨hp, hq⟩, hb⟩

end Advance

end Mcts.Trees
