import Mcts.Trees
import Mcts.Ledger

/-!
Values and visits of a search on a tree. A value goes stale only while losses
are booked on its node; the backup that clears the last one recomputes it after
all values below it. An edge counts one visit more than its child hands on.
-/
namespace Mcts.TreeSearch

open Program Prog Environments Nodes Engine Arena Rerooting SearchRun ArenaInvariant Walks
open Selection Backup Expansion Turns Updates Transposition Recomputation Ledger Trees

variable {E A O F : Type} [Act A]

def Averaged [Field F] (m : MCTS A F) : Prop :=
  ∀ id n, m.getNode id = some n → n.totalLosses = 0 → n.value = mean m n

def Outvisits (m : MCTS A F) : Prop :=
  ∀ p n a x nx, m.getNode p = some n → n.child a = some x → m.getNode x = some nx →
    1 + nx.totalVisits ≤ n.visits a

def Tallied (m : MCTS A F) : Prop :=
  ∀ p n a x nx, m.getNode p = some n → n.child a = some x → m.getNode x = some nx →
    nx.validActions ≠ [] → n.visits a = 1 + nx.totalVisits

/-- An edge that leads to no node with something to play. -/
def Blunt (m : MCTS A F) (p : NodeId) (a : A) : Prop :=
  ∀ n x nx, m.getNode p = some n → n.child a = some x → m.getNode x = some nx →
    nx.validActions = []

section Losses

variable {m : MCTS A F} {path : List (NodeId × A)}

/-- A selection changes neither values nor visits nor links. -/
theorem addLosses_same (hm : Indexed m) (hnodup : (path.map (·.1)).Nodup) {id : NodeId}
    {n' : Node A F} (hn' : (addLosses path m).getNode id = some n') :
    ∃ n, m.getNode id = some n ∧ n'.value = n.value ∧ n'.visits = n.visits ∧
      n'.child = n.child ∧ n'.totalVisits = n.totalVisits ∧ n'.validActions = n.validActions := by
  obtain ⟨n, hn, ⟨_, rfl⟩ | ⟨a, _, rfl⟩⟩ := addLosses_origin hm hnodup hn'
  · exact ⟨n', hn, rfl, rfl, rfl, rfl, rfl⟩
  · exact ⟨n, hn, rfl, rfl, rfl, rfl, rfl⟩

theorem addLosses_value (hm : Indexed m) (hnodup : (path.map (·.1)).Nodup) (id : NodeId) :
    ((addLosses path m).getNode id).map (·.value) = (m.getNode id).map (·.value) := by
  cases hn' : (addLosses path m).getNode id with
  | some n' =>
    obtain ⟨n, hn, hvalue, _⟩ := addLosses_same hm hnodup hn'
    simp [hn, hvalue]
  | none =>
    have hgone : (addLosses path m).nodeExists id = false :=
      (getNode_eq_none_iff (along_indexed (by intros; rfl) _ hm)).mp hn'
    rw [addLosses, along_nodeExists, ← getNode_eq_none_iff hm] at hgone
    rw [hgone]

theorem averaged_addLosses [Field F] (hm : WellFormed m) (hnodup : (path.map (·.1)).Nodup)
    (hpath : ∀ e ∈ path, Offers m e.1 e.2) (h : Averaged m) : Averaged (addLosses path m) := by
  intro id n' hn' hzero
  obtain ⟨n, hn, ⟨_, rfl⟩ | ⟨a, ha, rfl⟩⟩ := addLosses_origin hm.indexed hnodup hn'
  · rw [h id n' hn hzero]
    exact (mean_congr fun _ c _ => addLosses_value hm.indexed hnodup c).symm
  · rw [(hm.node id n hn).addVirtualLoss_totalLosses ((hpath _ ha).mem hn)] at hzero
    exact absurd hzero (by omega)

theorem outvisits_addLosses (hm : Indexed m) (hnodup : (path.map (·.1)).Nodup)
    (h : Outvisits m) : Outvisits (addLosses path m) := by
  intro p n' a x nx' hn' hc hx'
  obtain ⟨n, hn, _, hvisits, hchild, _, _⟩ := addLosses_same hm hnodup hn'
  obtain ⟨nx, hx, _, _, _, htotal, _⟩ := addLosses_same hm hnodup hx'
  rw [hvisits, htotal]
  exact h p n a x nx hn (hchild ▸ hc) hx

theorem tallied_addLosses (hm : Indexed m) (hnodup : (path.map (·.1)).Nodup)
    (h : Tallied m) : Tallied (addLosses path m) := by
  intro p n' a x nx' hn' hc hx' hvalid
  obtain ⟨n, hn, _, hvisits, hchild, _, _⟩ := addLosses_same hm hnodup hn'
  obtain ⟨nx, hx, _, _, _, htotal, hactions⟩ := addLosses_same hm hnodup hx'
  rw [hvisits, htotal]
  exact h p n a x nx hn (hchild ▸ hc) hx (hactions ▸ hvalid)

theorem blunt_addLosses (hm : Indexed m) (hnodup : (path.map (·.1)).Nodup) {p : NodeId} {a : A}
    (h : Blunt m p a) : Blunt (addLosses path m) p a := by
  intro n' x nx' hn' hc hx'
  obtain ⟨n, hn, _, _, hchild, _, _⟩ := addLosses_same hm hnodup hn'
  obtain ⟨nx, hx, _, _, _, _, hactions⟩ := addLosses_same hm hnodup hx'
  rw [hactions]
  exact h n x nx hn (hchild ▸ hc) hx

end Losses

variable [Field F] [Environment E A O] [DecidableEq A] [LinearOrder F]

section Growth

variable {start : E} {root : List A} {m : MCTS A F} {path : List (NodeId × A)}
variable {parent : NodeId} {a : A} {g : E}

/-- Where a node found after an expansion and its backup comes from. -/
inductive Origin (m : MCTS A F) (path : List (NodeId × A)) (parent : NodeId) (a : A) (g : E)
    (id : NodeId) (n' : Node A F) : Prop
  | kept (hn : m.getNode id = some n') (hoff : id ∉ path.map (·.1))
  | leaf {priors : HashMap A F} {value : F} (hid : id = hash g)
      (hnew : m.nodeExists (hash g) = false) (hfresh : Fresh g priors value n')
  | walked {n : Node A F} {b : A} (hn : m.getNode id = some n) (hb : (id, b) ∈ path)
      (hvisits : ∀ c, n'.visits c = n.visits c + if toActionIndex b = toActionIndex c then 1 else 0)
      (htotal : n'.totalVisits = n.totalVisits + 1) (hvalid : n'.validActions = n.validActions)
      (hchild : ∀ c x, n'.child c = some x → n.child c = some x ∨
        (id = parent ∧ c = a ∧ n.child a = none ∧ x = hash g))

/-- The engine after the expansion of a selection's leaf and the backup of its path. -/
def grown (order : IterationOrder (Σ _ : A, F)) (path : List (NodeId × A)) (parent : NodeId) (a : A)
    (g : E) (priors : HashMap A F) (value : F) (m : MCTS A F) : MCTS A F :=
  backup path false (expanded order parent a g priors value m)

variable (order : IterationOrder (Σ _ : A, F)) (priors : HashMap A F) (value : F)

theorem grown_carries (hE : LawfulEnvironment E A) (htree : TreeShaped start)
    (h : Tree start root m)
    (htaken : Taken m (idOf start root) (play start root) path parent a g) :
    Carries (treeStates start) m (grown order path parent a g priors value m) := by
  have hcarry := h.expanded_carries hE htree htaken order priors value
  exact hcarry.trans (backup_carries path false hcarry.arena hcarry.truth
    (htaken.extends hcarry.ext).offers)

theorem grown_tree (hE : LawfulEnvironment E A) (htree : TreeShaped start) (h : Tree start root m)
    (htaken : Taken m (idOf start root) (play start root) path parent a g) :
    Tree start root (grown order path parent a g priors value m) := by
  have hcarry := h.expanded_carries hE htree htaken order priors value
  exact (h.expanded hE htree htaken order priors value).backup (h.path_nodup htree htaken)
    (htaken.extends hcarry.ext).offers false

theorem grown_origin (hE : LawfulEnvironment E A) (htree : TreeShaped start)
    (h : Tree start root m)
    (htaken : Taken m (idOf start root) (play start root) path parent a g) {id : NodeId}
    {n' : Node A F} (hn' : (grown order path parent a g priors value m).getNode id = some n') :
    Origin m path parent a g id n' := by
  have hnodup := h.path_nodup htree htaken
  have ho := htaken.offers _ htaken.last_mem
  have hlast := List.mem_map_of_mem (f := (·.1)) htaken.last_mem
  have hexpanded := h.expanded hE htree htaken order priors value
  have hcarry := h.expanded_carries hE htree htaken order priors value
  have hoffers := (htaken.extends hcarry.ext).offers
  obtain ⟨mid, hmid, ⟨hoff, rfl⟩ | ⟨b, hb, hback⟩⟩ :=
    backup_origin hexpanded.arena.indexed hnodup hoffers hn'
  · rcases expanded_origin h.arena.indexed ho order priors value hmid with
      ⟨n, hn, rfl | ⟨rfl, _, _⟩⟩ | ⟨rfl, hnew, hfresh⟩
    · exact .kept hn hoff
    · exact absurd hlast hoff
    · exact .leaf rfl hnew hfresh
  · have hmem := (hoffers _ hb).mem hmid
    have hwell := hexpanded.arena.node id mid hmid
    have htotal : n'.totalVisits = mid.totalVisits + 1 := by
      rw [← hwell.addVisit_totalVisits hmem, Node.totalVisits, hback.visits]
      rfl
    have hvisits : ∀ c, n'.visits c =
        mid.visits c + if toActionIndex b = toActionIndex c then 1 else 0 := fun c => by
      rw [← hwell.addVisit_visits hmem, Node.visits, hback.visits]
      rfl
    have hchildren : ∀ c, n'.child c = mid.child c := fun c => by
      rw [Node.child, hback.children]
      rfl
    rcases expanded_origin h.arena.indexed ho order priors value hmid with
      ⟨n, hn, rfl | ⟨rfl, hnone, rfl⟩⟩ | ⟨rfl, hnew, _⟩
    · exact .walked hn hb hvisits htotal hback.valid fun c x hc => Or.inl (hchildren c ▸ hc)
    · refine .walked hn hb hvisits htotal hback.valid fun c x hc => ?_
      rw [hchildren, (h.arena.node id n hn).setChild_child (ho.mem hn)] at hc
      split at hc
      · rename_i hindex
        exact Or.inr ⟨rfl, (hE.index_injective hindex).symm, hnone, (Option.some.inj hc).symm⟩
      · exact Or.inl hc
    · -- the nodes of the path are stored already
      obtain ⟨n, hn, _⟩ := htaken.offers _ hb
      rw [(getNode_eq_none_iff h.arena.indexed).mpr hnew] at hn
      exact absurd hn (by simp)

/-- A stored node off the path is left alone. -/
theorem grown_off (hE : LawfulEnvironment E A) (htree : TreeShaped start) (h : Tree start root m)
    (htaken : Taken m (idOf start root) (play start root) path parent a g) {id : NodeId}
    {n : Node A F} (hn : m.getNode id = some n) (hoff : id ∉ path.map (·.1)) :
    (grown order path parent a g priors value m).getNode id = some n := by
  obtain ⟨n', hn', _⟩ := (grown_carries order priors value hE htree h htaken).ext id n hn
  cases grown_origin order priors value hE htree h htaken hn' with
  | kept hold _ => rw [hn', ← hn, hold]
  | leaf hid hnew _ =>
    rw [hid, (getNode_eq_none_iff h.arena.indexed).mpr hnew] at hn
    exact absurd hn (by simp)
  | walked _ hb _ _ _ _ => exact absurd (List.mem_map_of_mem hb) hoff

omit [DecidableEq A] in
theorem mean_fresh {env : E} {priors : HashMap A F} {value : F} {n : Node A F}
    (h : Fresh env priors value n) (m : MCTS A F) : n.value = mean m n := by
  have hnone : MCTS.childData n = [] :=
    List.filterMap_eq_nil_iff.mpr fun b _ => by rw [Node.child, h.children]; rfl
  have hlosses : n.totalLosses = 0 := (Dense.sum_eq_zero_iff_getD _).mpr h.losses
  simp [mean, childTotal, weight, linkedVisits, hnone, hlosses, h.value_eq]

/-- Off the path no value below changes, on the path it is recomputed from below. -/
theorem averaged_grown (hE : LawfulEnvironment E A) (htree : TreeShaped start)
    (h : Tree start root m)
    (htaken : Taken m (idOf start root) (play start root) path parent a g) (hmean : Averaged m) :
    Averaged (grown order path parent a g priors value m) := by
  have hinj := hE.index_injective
  obtain ⟨hloc, _, _⟩ := taken_located htree h htaken
  intro id n' hn' hzero
  cases grown_origin order priors value hE htree h htaken hn' with
  | kept hn hoff =>
    rw [hmean id n' hn hzero]
    refine (mean_congr fun b c hc => ?_).symm
    obtain ⟨child, hchild⟩ := (nodeExists_iff h.arena.indexed).mp (h.arena.linked id n' _ c hn hc)
    rw [grown_off order priors value hE htree h htaken hchild, hchild]
    intro hmem
    obtain ⟨front, d, rest, hsplit⟩ := hloc.from_parent hinj htree h hn hc hmem
    exact hoff (List.mem_map.mpr ⟨(id, b), by simp [hsplit], rfl⟩)
  | leaf _ _ hfresh => exact mean_fresh hfresh _
  | walked hn hb _ _ _ _ =>
    have hexpanded := h.expanded hE htree htaken order priors value
    obtain ⟨front, rest, hsplit⟩ := List.append_of_mem hb
    obtain ⟨mid, hmid, _⟩ := (h.expanded_carries hE htree htaken order priors value).ext id _ hn
    exact backup_mean false hexpanded.arena.indexed (h.path_nodup htree htaken) hsplit hmid
      (fun d c hc => hloc.child_below hinj htree hexpanded hsplit hmid hc) hn'

/-- What a backup does to an edge and to the node below. -/
inductive Counted (m : MCTS A F) (parent : NodeId) (a : A) (p : NodeId) (c : A) (x : NodeId)
    (n' nx' : Node A F) : Prop
  | old {n nx : Node A F} (hn : m.getNode p = some n) (hc : n.child c = some x)
      (hx : m.getNode x = some nx) (hvalid : nx'.validActions = nx.validActions)
      (hcount : (n'.visits c = n.visits c ∧ nx'.totalVisits = nx.totalVisits) ∨
        (n'.visits c = n.visits c + 1 ∧ nx'.totalVisits = nx.totalVisits + 1) ∨
        (p = parent ∧ c = a ∧ n'.visits c = n.visits c + 1 ∧ nx'.totalVisits = nx.totalVisits))
  | made (hvisits : n'.visits c = 1) (htotal : nx'.totalVisits = 0)

theorem grown_counted (hE : LawfulEnvironment E A) (htree : TreeShaped start)
    (h : Tree start root m) (hacc : Everywhere Accounts m)
    (htaken : Taken m (idOf start root) (play start root) path parent a g)
    {p x : NodeId} {c : A} {n' nx' : Node A F}
    (hn' : (grown order path parent a g priors value m).getNode p = some n')
    (hc : n'.child c = some x)
    (hx' : (grown order path parent a g priors value m).getNode x = some nx') :
    Counted m parent a p c x n' nx' := by
  have hinj := hE.index_injective
  have hnodup := h.path_nodup htree htaken
  obtain ⟨hloc, hlegal, hgame⟩ := taken_located htree h htaken
  have hx := grown_origin order priors value hE htree h htaken hx'
  cases grown_origin order priors value hE htree h htaken hn' with
  | leaf _ _ hfresh =>
    rw [Node.child, hfresh.children] at hc
    exact absurd hc (by simp)
  | kept hn hoff =>
    cases hx with
    | kept hx _ => exact .old hn hc hx rfl (Or.inl ⟨rfl, rfl⟩)
    | leaf hid hnew _ =>
      have hstored := h.arena.linked p n' _ x hn hc
      rw [hid, hnew] at hstored
      exact absurd hstored (by simp)
    | walked _ hd _ _ _ _ =>
      obtain ⟨front, b, rest, hsplit⟩ :=
        hloc.from_parent hinj htree h hn hc (List.mem_map_of_mem hd)
      exact absurd (List.mem_map.mpr ⟨(p, c), by simp [hsplit], rfl⟩) hoff
  | @walked n b hn hb hvisits _ _ hchild =>
    -- the path takes one edge out of each of its nodes
    have hsame : ∀ {d}, (p, d) ∈ path → b = d := fun hd =>
      (Prod.mk.inj (List.inj_on_of_nodup_map hnodup hb hd rfl)).2
    rcases hchild c x hc with hold | ⟨rfl, rfl, hnone, rfl⟩
    · cases hx with
      | leaf hid hnew _ =>
        have hstored := h.arena.linked p n _ x hn hold
        rw [hid, hnew] at hstored
        exact absurd hstored (by simp)
      | walked hx hd _ htotal hvalid _ =>
        obtain ⟨front, d, rest, hsplit⟩ :=
          hloc.from_parent hinj htree h hn hold (List.mem_map_of_mem hd)
        have hbc : b = c := hsame (by simp [hsplit])
        exact .old hn hold hx hvalid (Or.inr (Or.inl ⟨by rw [hvisits, hbc, if_pos rfl], htotal⟩))
      | kept hx hoff =>
        by_cases hbc : toActionIndex b = toActionIndex c
        · obtain rfl := hinj hbc
          have hlast : (p, b) = (parent, a) := by
            obtain ⟨front, rest, rfl⟩ := List.append_of_mem hb
            cases rest with
            | nil => simpa using htaken.last
            | cons e rest =>
              have hnext := hloc.next hinj h hn hold
              exact absurd (List.mem_map.mpr ⟨e, by simp, hnext.symm⟩) hoff
          obtain ⟨hp, hc'⟩ := Prod.mk.inj hlast
          exact .old hn hold hx rfl (Or.inr (Or.inr ⟨hp, hc', by rw [hvisits, if_pos rfl], rfl⟩))
        · exact .old hn hold hx rfl (Or.inl ⟨by rw [hvisits, if_neg hbc, Nat.add_zero], rfl⟩)
    · have hbc := hsame htaken.last_mem
      have hunvisited : n.visits c = 0 := by
        by_contra hpos
        exact (hacc p n hn).linked c ((htaken.offers _ htaken.last_mem).mem hn)
          (Nat.pos_of_ne_zero hpos) hnone
      have hnew := leaf_fresh hinj htree h htaken hn hnone
      refine .made (by rw [hvisits, hbc, if_pos rfl, hunvisited]) ?_
      cases hx with
      | leaf _ _ hfresh => exact (Dense.sum_eq_zero_iff_getD _).mpr hfresh.visits
      | kept hx _ =>
        rw [(getNode_eq_none_iff h.arena.indexed).mpr hnew] at hx
        exact absurd hx (by simp)
      | walked hx _ _ _ _ _ =>
        rw [(getNode_eq_none_iff h.arena.indexed).mpr hnew] at hx
        exact absurd hx (by simp)

theorem outvisits_grown (hE : LawfulEnvironment E A) (htree : TreeShaped start)
    (h : Tree start root m) (hacc : Everywhere Accounts m)
    (htaken : Taken m (idOf start root) (play start root) path parent a g) (hout : Outvisits m) :
    Outvisits (grown order path parent a g priors value m) := by
  intro p n' c x nx' hn' hc hx'
  cases grown_counted order priors value hE htree h hacc htaken hn' hc hx' with
  | old hn hc hx _ hcount =>
    have hbefore := hout _ _ _ _ _ hn hc hx
    rcases hcount with ⟨_, _⟩ | ⟨_, _⟩ | ⟨_, _, _, _⟩ <;> omega
  | made hvisits htotal => omega

/-- The count stays exact if the path ended at a leaf with nothing below. -/
theorem tallied_grown (hE : LawfulEnvironment E A) (htree : TreeShaped start)
    (h : Tree start root m) (hacc : Everywhere Accounts m)
    (htaken : Taken m (idOf start root) (play start root) path parent a g)
    (hblunt : Blunt m parent a) (htally : Tallied m) :
    Tallied (grown order path parent a g priors value m) := by
  intro p n' c x nx' hn' hc hx' hvalid
  cases grown_counted order priors value hE htree h hacc htaken hn' hc hx' with
  | old hn hc hx hsame hcount =>
    rw [hsame] at hvalid
    have hbefore := htally _ _ _ _ _ hn hc hx hvalid
    rcases hcount with ⟨_, _⟩ | ⟨_, _⟩ | ⟨rfl, rfl, _, _⟩
    · omega
    · omega
    · exact absurd (hblunt _ _ _ hn hc hx) hvalid
  | made hvisits htotal => omega

end Growth

section Run

variable {start : E} {root : List A} {i : RunInput E A O F} {m m' : MCTS A F} {w : Walk A E}
variable {parent : NodeId} {a : A}

omit [DecidableEq A] [LinearOrder F] in
/-- No walk on a tree comes back to one of its nodes. -/
theorem selected_no_repeat (htree : TreeShaped start) (h : Tree start root m)
    (hsel : Selected m (idOf start root) (play start root) w)
    (htaken : Taken m (idOf start root) (play start root) w.path parent a w.game) :
    w.repeatDetected = false := by
  obtain ⟨hloc, hlegal, hgame⟩ := taken_located htree h htaken
  cases hsel with
  | idle hpath _ _ =>
    obtain ⟨b, rest, hcons⟩ := htaken.head
    exact absurd (hpath.symm.trans hcons) (by simp)
  | fresh _ _ _ _ _ hrepeat => exact hrepeat
  | stopped _ _ _ _ _ hrepeat _ => exact hrepeat
  | repeated _ _ _ _ _ _ hseen =>
    rw [hgame] at hseen
    exact absurd hseen (hloc.leaf_off htree hlegal)

omit [DecidableEq A] [LinearOrder F] in
/-- A selection stops at an edge without a child, or above a node with nothing to play. -/
theorem selected_blunt (htree : TreeShaped start) (h : Tree start root m)
    (hsel : Selected m (idOf start root) (play start root) w)
    (htaken : Taken m (idOf start root) (play start root) w.path parent a w.game) :
    Blunt m parent a := by
  have hno := selected_no_repeat htree h hsel htaken
  have hedge : ∀ {p b}, Taken m (idOf start root) (play start root) w.path p b w.game →
      (parent, a) = (p, b) := fun htaken' =>
    Option.some.inj (htaken.last.symm.trans htaken'.last)
  intro n x nx hn hc hx
  cases hsel with
  | idle hpath _ _ =>
    obtain ⟨b, rest, hcons⟩ := htaken.head
    exact absurd (hpath.symm.trans hcons) (by simp)
  | fresh _ _ htaken' hnode hchild _ =>
    obtain ⟨rfl, rfl⟩ := Prod.mk.inj (hedge htaken')
    rw [hnode, Option.some.injEq] at hn
    rw [← hn, hchild] at hc
    exact absurd hc (by simp)
  | stopped _ _ htaken' hnode hchild _ hend =>
    obtain ⟨rfl, rfl⟩ := Prod.mk.inj (hedge htaken')
    rw [hnode, Option.some.injEq] at hn
    rw [← hn, hchild, Option.some.injEq] at hc
    subst hc
    rcases hend with hdone | hmissing | ⟨found, hfound, hnothing⟩
    · obtain ⟨hloc, hlegal, hgame⟩ := taken_located htree h htaken
      obtain ⟨before, hb, hid, _, _, hstep, hg⟩ := htaken.sync (treeStates_sound htree) h.truth
        ⟨root, h.planted.legal, rfl⟩ rfl
      have hleaf := (h.truth _ _ hnode before hb hid).child _ _ hchild
      exact (h.truth _ nx hx w.game hg (by rw [hleaf, hstep])).dead hdone
    · have hstored := (nodeExists_iff h.arena.indexed).mpr ⟨nx, hx⟩
      exact absurd (hstored.symm.trans hmissing) (by simp)
    · rw [hx, Option.some.injEq] at hfound
      exact hfound ▸ hnothing
  | repeated _ _ _ _ _ hrepeat _ => exact absurd (hno.symm.trans hrepeat) (by simp)

structure Kept (start : E) (root : List A) (B : ℕ) (pending : List (PendingInference A E))
    (m : MCTS A F) : Prop where
  tree : Tree start root m
  accounts : Everywhere Accounts m
  averaged : Averaged m
  outvisits : Outvisits m
  tallied : B = 1 → Tallied m ∧ pending.length ≤ 1 ∧ ∀ p ∈ pending, Blunt m p.parentId p.action

variable {B : ℕ}

omit [DecidableEq A] [Field F] [LinearOrder F] in
theorem taken_at (henv : i.env = play start root) {path : List (NodeId × A)} {g : E}
    (h : Taken m (hash i.env) i.env path parent a g) :
    Taken m (idOf start root) (play start root) path parent a g := by
  rw [henv] at h
  exact h

variable {pending pending' : List (PendingInference A E)} {path : List (NodeId × A)} {g : E}

omit [DecidableEq A] [LinearOrder F] in
/-- Booking a selection keeps what holds of the engine. -/
theorem Kept.addLosses (h : Kept start root B pending m) (htree : TreeShaped start)
    (htaken : Taken m (idOf start root) (play start root) path parent a g)
    (hpending : B = 1 → pending'.length ≤ 1 ∧
      ∀ p ∈ pending', Blunt (addLosses path m) p.parentId p.action) :
    Kept start root B pending' (addLosses path m) := by
  have hnodup := h.tree.path_nodup htree htaken
  have hindexed := h.tree.arena.indexed
  refine ⟨h.tree.addLosses hnodup htaken.offers, ?_, ?_, ?_, ?_⟩
  · exact accounts_addLosses h.tree.arena hnodup htaken.offers h.accounts
  · exact averaged_addLosses h.tree.arena hnodup htaken.offers h.averaged
  · exact outvisits_addLosses hindexed hnodup h.outvisits
  · intro hone
    exact ⟨tallied_addLosses hindexed hnodup (h.tallied hone).1, hpending hone⟩

/-- So does an expansion with its backup, at a leaf with nothing below if counts are exact. -/
theorem Kept.grown (h : Kept start root B pending m) (hE : LawfulEnvironment E A)
    (htree : TreeShaped start)
    (htaken : Taken m (idOf start root) (play start root) path parent a g)
    (order : IterationOrder (Σ _ : A, F)) (priors : HashMap A F) (value : F)
    (hacc : Everywhere Accounts (grown order path parent a g priors value m))
    (hblunt : B = 1 → Blunt m parent a) (hpending : B = 1 → pending' = []) :
    Kept start root B pending' (grown order path parent a g priors value m) := by
  refine ⟨grown_tree order priors value hE htree h.tree htaken, hacc, ?_, ?_, ?_⟩
  · exact averaged_grown order priors value hE htree h.tree htaken h.averaged
  · exact outvisits_grown order priors value hE htree h.tree h.accounts htaken h.outvisits
  · intro hone
    have htally := tallied_grown order priors value hE htree h.tree h.accounts htaken
      (hblunt hone) (h.tallied hone).1
    exact ⟨htally, by simp [hpending hone], by simp [hpending hone]⟩

theorem kept_invariant (hE : LawfulEnvironment E A) (htree : TreeShaped start)
    (henv : i.env = play start root) (B : ℕ) :
    Invariant (treeStates start) i B fun _ pending m => Kept start root B pending m where
  turn n pending m w r m' hst hb hroom h hsel hturn := by
    have hS := treeStates_sound htree
    have hmem : i.env ∈ treeStates start := ⟨root, h.tree.planted.legal, henv⟩
    have hacc := (accounts_invariant hE hS hmem B).turn n pending m w r m' hst hb hroom h.accounts
      hsel hturn
    have hempty : B = 1 → pending = [] := by
      intro hone
      exact List.length_eq_zero_iff.mp (by omega)
    rw [henv] at hsel
    cases hturn with
    | idle _ => simpa using h
    | repeated htaken hrepeat =>
      have hno := selected_no_repeat htree h.tree hsel (taken_at henv htaken)
      exact absurd (hno.symm.trans hrepeat) (by simp)
    | terminal htaken _ _ =>
      have htaken := taken_at henv htaken
      have hlater := htaken.extends
        (addLosses_carries w.path h.tree.arena h.tree.truth htaken.offers).ext
      have hblunt := blunt_addLosses h.tree.arena.indexed (h.tree.path_nodup htree htaken)
        (selected_blunt htree h.tree hsel htaken)
      have hloss : Kept start root B pending (addLosses w.path m) := by
        apply h.addLosses htree htaken
        intro hone
        simp [hempty hone]
      apply hloss.grown hE htree hlater i.order ∅ _ hacc fun _ => hblunt
      intro hone
      simp [hempty hone]
    | selected htaken _ _ =>
      have htaken := taken_at henv htaken
      apply h.addLosses htree htaken
      intro hone
      rw [hempty hone, List.nil_append, Option.toList_some]
      refine ⟨le_rfl, fun p hp => ?_⟩
      rw [List.mem_singleton.mp hp]
      exact blunt_addLosses h.tree.arena.indexed (h.tree.path_nodup htree htaken)
        (selected_blunt htree h.tree hsel htaken)
  answer n p pending m priors value hst h := by
    have hS := treeStates_sound htree
    have hmem : i.env ∈ treeStates start := ⟨root, h.tree.planted.legal, henv⟩
    have hacc := (accounts_invariant hE hS hmem B).answer n p pending m priors value hst h.accounts
    have htaken := taken_at henv (hst.taken p List.mem_cons_self)
    apply h.grown hE htree htaken i.order priors value hacc
    · intro hone
      exact (h.tallied hone).2.2 p List.mem_cons_self
    · intro hone
      exact List.length_eq_zero_iff.mp (by simpa using (h.tallied hone).2.1)
  drop _ _ p pending m h := by
    refine ⟨h.tree, h.accounts, h.averaged, h.outvisits, fun hone => ?_⟩
    obtain ⟨htally, hlength, hblunt⟩ := h.tallied hone
    rw [List.length_cons] at hlength
    exact ⟨htally, by omega, fun q hq => hblunt q (List.mem_cons_of_mem p hq)⟩

end Run

end Mcts.TreeSearch
