import Mcts.TreeSearch

/-!
Whole searches of a tree. A run begins and ends with no loss booked, so after
it every value is the mean of its children's, at every depth; moving the root
to a child keeps whole subtrees, and with them their values and visits.
-/
namespace Mcts.MeanValues

open Program Prog Environments Nodes Engine Arena Rerooting SearchRun ArenaInvariant Walks
open Selection Backup Expansion Turns Updates Transposition Recomputation Ledger Trees TreeSearch

variable {E A O F : Type} [Environment E A O] [Act A] [DecidableEq A]
variable [Field F] [LinearOrder F] [Roots F]

/-- A run on a state of the tree, the root's if there is one, whose client answers. -/
structure Admitted (start : E) (m : MCTS A F) (i : RunInput E A O F) : Prop where
  env : i.env ∈ treeStates start
  current : ∀ id, m.rootId = some id → hash i.env = id
  answering : Answering i

/-- The searches reached on a tree by such runs and by moves to expanded children. -/
inductive TreeSession (start : E) : Search A E F → Prop
  | new (batchSize : ℕ) (hpos : 1 ≤ batchSize) : TreeSession start ⟨MCTS.new batchSize, []⟩
  | run {s t : Search A E F} {i : RunInput E A O F} {node : Node A F} :
      TreeSession start s → Admitted start s.mcts i → run i s = (some node, t) →
      TreeSession start t
  | advanceRoot {s : Search A E F} {id c : NodeId} {n : Node A F} (action : A) :
      TreeSession start s → s.mcts.rootId = some id → s.mcts.getNode id = some n →
      n.child action = some c →
      TreeSession start { s with mcts := advanceRoot action s.mcts }

variable {start : E} {root : List A} {s t : Search A E F} {m m' : MCTS A F}
variable {i : RunInput E A O F}

theorem TreeSession.session (h : TreeSession start s) : Session (On (treeStates start)) s := by
  induction h with
  | new batchSize hpos => exact .new batchSize hpos
  | run _ hi hrun ih => exact .run ih hi.env hrun
  | advanceRoot a _ _ _ _ ih => exact .advanceRoot a ih

structure Rested (start : E) (m : MCTS A F) : Prop where
  place : (m.rootId = none ∧ m.nodes = []) ∨
    ∃ root, m.rootId = some (idOf start root) ∧ Tree start root m
  booked : Booked [] m
  averaged : Averaged m
  outvisits : Outvisits m
  tallied : m.batchSize = 1 → Tallied m

omit [DecidableEq A] [LinearOrder F] [Roots F] in
/-- The place in the tree where a run begins: nothing is stored yet, or it is the root. -/
theorem Rested.begins (htree : TreeShaped start) (h : Rested start m)
    (hi : Admitted start m i) : ∃ root, Legal start root ∧ i.env = play start root ∧
      (m.nodes = [] ∨ m.rootId = some (hash i.env) ∧ Tree start root m) := by
  obtain ⟨acts, hlegal, henv⟩ := hi.env
  refine ⟨acts, hlegal, henv, ?_⟩
  rcases h.place with ⟨_, hnodes⟩ | ⟨root, hroot, htreeAt⟩
  · exact Or.inl hnodes
  · have hid := hi.current _ hroot
    rw [henv] at hid
    obtain rfl := htree acts root hlegal htreeAt.planted.legal hid
    exact Or.inr ⟨by rw [hroot, henv]; rfl, htreeAt⟩

omit [DecidableEq A] [Roots F] in
/-- The invariant of the turns holds once the root node is there. -/
theorem kept_rootMade (hE : LawfulEnvironment E A) (htree : TreeShaped start)
    (hm : WellFormed m) (ht : Truthful (treeStates start) m) (hacc : Everywhere Accounts m)
    (hstored : ∀ id, m.rootId = some id → m.nodeExists id = true) (h : Rested start m)
    (hlegal : Legal start root) (henv : i.env = play start root)
    (hplace : m.nodes = [] ∨ m.rootId = some (hash i.env) ∧ Tree start root m)
    (hmade : RootMade i (m.setRoot (some (hash i.env))) m') :
    Kept start root m.batchSize [] m' := by
  have hindexed : Indexed (m.setRoot (some (hash i.env))) := hm.indexed
  have haccounts := accounts_rootMade hindexed (hacc.congr rfl rfl) hmade
  cases hmade with
  | found hroot =>
    rcases hplace with hnodes | ⟨_, htreeAt⟩
    · obtain ⟨n, hn⟩ := (nodeExists_iff hindexed).mp hroot
      exact absurd hn (by simp [getNode_empty hindexed hnodes])
    · exact ⟨⟨⟨hm.indexed, hm.node, hm.linked⟩, htreeAt.truth, htreeAt.planted.legal,
          htreeAt.planted.placed, htreeAt.planted.parented⟩, haccounts, h.averaged, h.outvisits,
        fun hone => ⟨h.tallied hone, by simp, by simp⟩⟩
  | made hnew priors value hkeys =>
    rcases hplace with hnodes | ⟨hroot, _⟩
    · have hnone := getNode_empty hindexed hnodes
      have hempty : Tree start root (m.setRoot (some (hash i.env))) :=
        ⟨⟨hm.indexed, hm.node, hm.linked⟩, ht, hlegal,
          fun id n hn => absurd hn (by simp [hnone]), fun id n hn => absurd hn (by simp [hnone])⟩
      obtain ⟨node, heq, hfresh⟩ := createNode_fresh i.order i.env priors value
        (m.setRoot (some (hash i.env)))
      have honly : ∀ id n, (MCTS.createNode i.order i.env priors value
          (m.setRoot (some (hash i.env)))).getNode id = some n → n = node := by
        intro id n hn
        rw [heq] at hn
        rcases insertNode_found hindexed hn with ⟨_, rfl⟩ | ⟨_, hn⟩
        · rfl
        · rw [hnone] at hn
          exact absurd hn (by simp)
      have hnochild : ∀ a c, node.child a ≠ some c := fun a c hc => by
        rw [Node.child, hfresh.children] at hc
        exact absurd hc (by simp)
      refine ⟨?_, haccounts, fun id n hn _ => ?_, fun p n a x nx hn hc _ => ?_,
        fun _ => ⟨fun p n a x nx hn hc _ => ?_, by simp, by simp⟩⟩
      · have hmake := hempty.createRoot hE htree i.order priors value
          (by rw [idOf, ← henv]; exact hnew) (henv ▸ hkeys)
        rwa [← henv] at hmake
      · exact honly id n hn ▸ mean_fresh hfresh _
      · exact absurd (honly p n hn ▸ hc) (hnochild a x)
      · exact absurd (honly p n hn ▸ hc) (hnochild a x)
    · exact absurd ((hstored _ hroot).symm.trans hnew) (by simp)

/-- A run from a resting tree search leaves one. -/
theorem rested_run (hE : LawfulEnvironment E A) (htree : TreeShaped start)
    (hs : TreeSession start s) (hi : Admitted start s.mcts i) {node : Node A F}
    (hrun : run i s = (some node, t)) (h : Rested start s.mcts) : Rested start t.mcts := by
  have hS := treeStates_sound htree
  obtain ⟨hm, ht, hlog⟩ := session_truthful hE hS (fun _ hi => hi) hs.session
  have hacc := session_accounts hE hS (fun _ hi => hi) hs.session
  have hstored := (session_wellFormed hE hs.session).2
  have hrootId : t.mcts.rootId = some (hash i.env) :=
    ((run_holding i hm.indexed).returned rfl hrun).1.trail.fixed.1
  obtain ⟨root, hlegal, henv, hplace⟩ := h.begins htree hi
  have hindexed : Indexed (s.mcts.setRoot (some (hash i.env))) := hm.indexed
  have hbooked : Booked [] (s.mcts.setRoot (some (hash i.env))) := h.booked
  have hstart := fun m' (hmade : RootMade i (s.mcts.setRoot (some (hash i.env))) m') =>
    kept_rootMade hE htree hm ht hacc hstored h hlegal henv hplace hmade
  have hbooks := fun m' (hmade : RootMade i (s.mcts.setRoot (some (hash i.env))) m') =>
    books_rootMade (m := s.mcts.setRoot (some (hash i.env))) hindexed hbooked hmade
  have hplaceAfter : some (hash i.env) = some (idOf start root) := by rw [henv]; rfl
  cases hdone : done i.env with
  | true =>
    obtain ⟨m', hat, _, hb, _, ⟨_, hmade⟩ | ⟨hlive, _⟩⟩ := (run_rule hE hS hi.env hm ht rfl
      (kept_invariant hE htree henv s.mcts.batchSize)
      fun m' hmade _ => hstart m' hmade).returned ⟨rfl, hlog⟩ hrun
    · have hkept := hstart m' hmade
      rw [hat.mcts] at hrootId ⊢
      exact ⟨Or.inr ⟨root, hrootId.trans hplaceAfter, hkept.tree⟩, (hbooks m' hmade).booked,
        hkept.averaged, hkept.outvisits, fun hone => (hkept.tallied (hb.symm.trans hone)).1⟩
    · exact absurd (hdone.symm.trans hlive) (by simp)
  | false =>
    obtain ⟨m', hat, _, hb, _, ⟨hend, _⟩ | ⟨_, m'', ⟨hkept, hj⟩, rfl⟩⟩ :=
      (run_rule hE hS hi.env hm ht rfl
        ((kept_invariant hE htree henv s.mcts.batchSize).both
          (books_invariant hE hS hi.env hdone hi.answering (rootVisits s.mcts (hash i.env))
            (s.mcts.nodes.length + 1) s.mcts.batchSize))
        fun m' hmade _ => ⟨hstart m' hmade, hbooks m' hmade⟩).returned ⟨rfl, hlog⟩ hrun
    · exact absurd (hdone.symm.trans hend) (by simp)
    · have htreeAt : Tree start root m''.clearNoise :=
        ⟨⟨hkept.tree.arena.indexed, hkept.tree.arena.node, hkept.tree.arena.linked⟩,
          hkept.tree.truth, hkept.tree.planted.legal, hkept.tree.planted.placed,
          hkept.tree.planted.parented⟩
      rw [hat.mcts] at hrootId ⊢
      exact ⟨Or.inr ⟨root, hrootId.trans hplaceAfter, htreeAt⟩, hj.booked, hkept.averaged,
        hkept.outvisits, fun hone => (hkept.tallied (hb.symm.trans hone)).1⟩

omit [DecidableEq A] [LinearOrder F] [Roots F] in
/-- Moving the root to a child keeps the subtree below the child as it is. -/
theorem rested_advanceRoot (hE : LawfulEnvironment E A) (h : Rested start m) {a : A} {id c : NodeId}
    {n : Node A F} (hroot : m.rootId = some id) (hn : m.getNode id = some n)
    (hc : n.child a = some c) : Rested start (advanceRoot a m) := by
  rcases h.place with ⟨hnone, _⟩ | ⟨root, hroot', htreeAt⟩
  · exact absurd (hroot.symm.trans hnone) (by simp)
  obtain rfl : id = idOf start root := Option.some.inj (hroot.symm.trans hroot')
  have hfind := advanceRoot_getNode htreeAt.arena.indexed hroot hn hc
  obtain ⟨hid, hlater⟩ := htreeAt.advanceRoot hE.index_injective hroot hn hc
  obtain ⟨hnew, _, _, hbatch⟩ := advanceRoot_child htreeAt.arena.indexed hroot hn hc
  refine ⟨Or.inr ⟨root ++ [a], by rw [hnew, hid], hlater⟩,
    fun key found hfound => h.booked key found ((hfind key found).mp hfound).1,
    fun key found hfound hzero => ?_,
    fun p np b x nx hp hb hx => ?_, fun hone p np b x nx hp hb hx => ?_⟩
  · obtain ⟨hold, hreach⟩ := (hfind key found).mp hfound
    rw [h.averaged key found hold hzero]
    refine (mean_congr fun b x hx => ?_).symm
    obtain ⟨child, hchild⟩ := (nodeExists_iff htreeAt.arena.indexed).mp
      (htreeAt.arena.linked key found _ x hold hx)
    rw [hchild, (hfind x child).mpr ⟨hchild, hreach.tail (mem_successors hold hx)⟩]
  · exact h.outvisits p np b x nx ((hfind p np).mp hp).1 hb ((hfind x nx).mp hx).1
  · exact h.tallied (hbatch.symm.trans hone) p np b x nx ((hfind p np).mp hp).1 hb
      ((hfind x nx).mp hx).1

theorem treeSession_rested (hE : LawfulEnvironment E A) (htree : TreeShaped start)
    (h : TreeSession start s) : Rested start s.mcts := by
  induction h with
  | new batchSize hpos =>
    have hnone : ∀ id, (MCTS.new batchSize : MCTS A F).getNode id = none := fun id => by
      simp [MCTS.getNode, MCTS.new]
    exact ⟨Or.inl ⟨rfl, rfl⟩, fun id n hn => absurd hn (by simp [hnone]),
      fun id n hn => absurd hn (by simp [hnone]), fun p n a x nx hn => absurd hn (by simp [hnone]),
      fun _ p n a x nx hn => absurd hn (by simp [hnone])⟩
  | run hs hi hrun ih => exact rested_run hE htree hs hi hrun ih
  | advanceRoot a _ hroot hn hc ih => exact rested_advanceRoot hE ih hroot hn hc

section Sums

variable {n : Node A F}

def childValue (m : MCTS A F) (n : Node A F) (a : A) : F :=
  match (n.child a).bind m.getNode with
  | some c => c.value
  | none => 0

omit [Environment E A O] [DecidableEq A] [LinearOrder F] [Roots F] in
/-- Where visited edges have stored children, the total is over all actions. -/
theorem childTotal_eq (m : MCTS A F) (n : Node A F)
    (hlinked : ∀ a ∈ n.validActions, 0 < n.visits a → n.child a ≠ none)
    (hstored : ∀ a c, n.child a = some c → ∃ child, m.getNode c = some child) :
    childTotal m n =
      (n.validActions.map fun a => (n.visits a : F) * (childValue m n a + n.penalty a)).sum := by
  unfold childTotal
  apply sum_childData
  · intro a c hc
    obtain ⟨child, hchild⟩ := hstored a c hc
    simp [edgeTotal, childValue, hc, hchild]
  · intro a ha hnone
    have hzero : n.visits a = 0 := by
      by_contra hpos
      exact hlinked a ha (Nat.pos_of_ne_zero hpos) hnone
    simp [hzero]

end Sums

/-- On a tree, whenever no run is under way, every stored node has exactly the
visit-weighted mean of its estimate and its children's values; a linked edge has
all visits of its child and one more, and just these in batches of one leaf, if
the child has something to play. -/
theorem values_exact (hE : LawfulEnvironment E A) (htree : TreeShaped start)
    (h : TreeSession start s) :
    (∀ n ∈ s.mcts.nodes,
      n.value = (n.valueEstimate + (n.validActions.map fun a =>
        (n.visits a : F) * (childValue s.mcts n a + n.penalty a)).sum) /
          ((1 + n.totalVisits : ℕ) : F) ∧
      ∀ a ∈ n.validActions, 0 < n.visits a → ∃ c ∈ s.mcts.nodes, n.child a = some c.id) ∧
    ∀ p ∈ s.mcts.nodes, ∀ x ∈ s.mcts.nodes, ∀ a, p.child a = some x.id →
      1 + x.totalVisits ≤ p.visits a ∧
      (s.mcts.batchSize = 1 → x.terminalState = false → x.validActions ≠ [] →
        p.visits a = 1 + x.totalVisits) := by
  have hrested := treeSession_rested hE htree h
  have hm := (session_wellFormed hE h.session).1
  have hacc := session_accounts hE (treeStates_sound htree) (fun _ hi => hi) h.session
  have hfind : ∀ n ∈ s.mcts.nodes, s.mcts.getNode n.id = some n :=
    fun n hn => getNode_of_mem hm.indexed hn
  have hstored : ∀ n ∈ s.mcts.nodes, ∀ a c, n.child a = some c →
      ∃ child, s.mcts.getNode c = some child := fun n hn a c hc =>
    (nodeExists_iff hm.indexed).mp (hm.linked n.id n _ c (hfind n hn) hc)
  refine ⟨fun n hn => ⟨?_, fun a ha hvisits => ?_⟩, fun p hp x hx a hc =>
    ⟨hrested.outvisits _ p a _ x (hfind p hp) hc (hfind x hx), fun hone _ hvalid =>
      hrested.tallied hone _ p a _ x (hfind p hp) hc (hfind x hx) hvalid⟩⟩
  · have hlinked := (hacc n.id n (hfind n hn)).linked
    have hlosses : n.totalLosses = 0 :=
      (Dense.sum_eq_zero_iff_getD _).mpr (hrested.booked n.id n (hfind n hn))
    have hweight := weight_eq (hm.node n.id n (hfind n hn)) hE.index_injective hlinked
    rw [hlosses, Nat.add_zero] at hweight
    rw [← childTotal_eq s.mcts n hlinked (hstored n hn), ← hweight]
    exact hrested.averaged n.id n (hfind n hn) hlosses
  · obtain ⟨c, hc⟩ := Option.ne_none_iff_exists'.mp
      ((hacc n.id n (hfind n hn)).linked a ha hvisits)
    obtain ⟨child, hchild⟩ := hstored n hn a c hc
    obtain ⟨hmem, hid⟩ := (getNode_eq_some_iff hm.indexed).mp hchild
    exact ⟨child, hmem, by rw [hc, hid]⟩

/-- No two ways lead to one position of the heap. -/
theorem heapGame_treeShaped : TreeShaped (⟨0⟩ : HeapGame) := by
  have hnext : ∀ (acts : List Bool) (b : Bool), (play (⟨0⟩ : HeapGame) (acts ++ [b])).position =
      2 * (play (⟨0⟩ : HeapGame) acts).position + 1 + b.toNat := fun acts b => by
    rw [play_concat]
    rfl
  have hbit : ∀ a b : Bool, a.toNat = b.toNat → a = b := by decide
  have hinj : ∀ left right : List Bool, (play (⟨0⟩ : HeapGame) left).position =
      (play (⟨0⟩ : HeapGame) right).position → left = right := by
    intro left
    induction left using List.reverseRecOn with
    | nil =>
      intro right h
      rcases List.eq_nil_or_concat right with rfl | ⟨right, b, rfl⟩
      · rfl
      · have hlast := hnext right b
        rw [List.concat_eq_append, hlast] at h
        change 0 = _ at h
        omega
    | append_singleton left a ih =>
      intro right h
      rw [hnext] at h
      rcases List.eq_nil_or_concat right with rfl | ⟨right, b, rfl⟩
      · change _ = 0 at h
        omega
      · rw [List.concat_eq_append, hnext] at h
        have ha := Bool.toNat_lt a
        have hb := Bool.toNat_lt b
        rw [List.concat_eq_append, ih right (by omega), hbit a b (by omega)]
  exact fun left right _ _ h => hinj left right h

theorem values_exact_heapSearch : heapSearch.mcts.nodes.length = 4 ∧
    ∀ n ∈ heapSearch.mcts.nodes, n.value = (n.valueEstimate + (n.validActions.map fun a =>
      (n.visits a : ℚ) * (childValue heapSearch.mcts n a + n.penalty a)).sum) /
        ((1 + n.totalVisits : ℕ) : ℚ) := by
  have hreturns : (run (heapInput 4) ⟨MCTS.new 2, []⟩).1.isSome = true := by decide +kernel
  obtain ⟨node, hnode⟩ := Option.isSome_iff_exists.mp hreturns
  have hsession : TreeSession (⟨0⟩ : HeapGame) heapSearch :=
    .run (i := heapInput 4) (.new 2 (by decide))
      ⟨⟨[], trivial, rfl⟩, fun id hid => absurd hid (by simp [MCTS.new]),
        fun k obs => ⟨_, _, rfl, by simp, by simp⟩⟩ (Prod.ext hnode rfl)
  refine ⟨by decide +kernel, fun n hn => ?_⟩
  exact ((values_exact heapGame_lawful heapGame_treeShaped hsession).1 n hn).1

end Mcts.MeanValues
