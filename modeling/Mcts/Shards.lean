import Mcts.Nodes
import Mathlib.Data.Multiset.AddSub
import Mathlib.Data.List.AList

/-!
`retire_shards` over two directories. The timestamped name for a collision is
not looked up before the move, and a move replaces what has that name already;
`Fresh` says where that does not happen, and then nothing is lost.
-/
namespace Mcts.Shards

open Nodes

abbrev FileName := List Char

abbrev Directory (C : Type) := HashMap FileName C

variable {C : Type}

/-- `glob("*.jsonl")`. -/
def isShard (name : FileName) : Bool := ['.', 'j', 's', 'o', 'n', 'l'].isSuffixOf name

/-- `Path.stem`: up to the last dot, unless nothing stands before or after it. -/
def stem (name : FileName) : FileName :=
  match name.reverse.dropWhile (· ≠ '.') with
  | '.' :: rest =>
    if rest.isEmpty || (name.reverse.takeWhile (· ≠ '.')).isEmpty then name else rest.reverse
  | _ => name

/-- An integer clock reading as `str` prints it. -/
def stamp (t : ℤ) : List Char :=
  if t < 0 then '-' :: Nat.toDigits 10 t.natAbs else Nat.toDigits 10 t.natAbs

def stampedName (name : FileName) (t : ℤ) : FileName :=
  stem name ++ '_' :: stamp t ++ ['.', 'j', 's', 'o', 'n', 'l']

structure Dirs (C : Type) where
  shards : Directory C
  retired : Directory C

def destination (retired : Directory C) (name : FileName) (t : ℤ) : FileName :=
  if name ∈ retired then stampedName name t else name

/-- One turn of the loop. The move replaces a file of the destination's name. -/
def retireOne (d : Dirs C) (entry : FileName × ℤ) : Dirs C :=
  match d.shards.lookup entry.1 with
  | none => d
  | some content =>
    ⟨d.shards.erase entry.1, d.retired.insert (destination d.retired entry.1 entry.2) content⟩

/-- `retire_shards` for the shards in the order listed, each with the clock at its turn. -/
def retireShards (listing : List (FileName × ℤ)) (d : Dirs C) : Dirs C := listing.foldl retireOne d

def Lists (listing : List (FileName × ℤ)) (shards : Directory C) : Prop :=
  (listing.map (·.1)).Perm (shards.keys.filter isShard)

def contents (dir : Directory C) : Multiset C := (dir.entries.map fun e => e.2 : List C)

def shardContents (dir : Directory C) : Multiset C :=
  ((dir.entries.filter fun e => isShard e.1).map fun e => e.2 : List C)

structure Keeps (before after : Dirs C) : Prop where
  none_left : ∀ name ∈ after.shards, isShard name = false
  contents_eq : contents after.retired = contents before.retired + shardContents before.shards
  not_overwritten : ∀ name content, before.retired.lookup name = some content →
    after.retired.lookup name = some content

/-- Both names a shard can get are taken. -/
def Clash (d : Dirs C) (entry : FileName × ℤ) : Prop :=
  entry.1 ∈ d.retired ∧ stampedName entry.1 entry.2 ∈ d.retired

def Fresh : List (FileName × ℤ) → Dirs C → Prop
  | [], _ => True
  | entry :: rest, d => ¬ Clash d entry ∧ Fresh rest (retireOne d entry)

structure Call (C : Type) where
  shards : Directory C
  listing : List (FileName × ℤ)

def Call.before (call : Call C) (retired : Directory C) : Dirs C := ⟨call.shards, retired⟩

def Call.after (call : Call C) (retired : Directory C) : Dirs C :=
  retireShards call.listing (call.before retired)

def AllKept : List (Call C) → Directory C → Prop
  | [], _ => True
  | call :: calls, retired =>
    Keeps (call.before retired) (call.after retired) ∧ AllKept calls (call.after retired).retired

def AllFresh : List (Call C) → Directory C → Prop
  | [], _ => True
  | call :: calls, retired =>
    Fresh call.listing (call.before retired) ∧ AllFresh calls (call.after retired).retired

section Files

variable {dir : Directory C} {name : FileName} {content : C}

/-- Taking a file out leaves the other entries. -/
theorem entries_perm_erase (h : dir.lookup name = some content) :
    dir.entries.Perm (⟨name, content⟩ :: (dir.erase name).entries) := by
  have hmem : name ∈ dir.entries.keys :=
    AList.mem_keys.mp (AList.lookup_isSome.mp (by rw [h]; rfl))
  obtain ⟨content', left, right, _, heq, herase⟩ := List.exists_of_kerase hmem
  have hfound : (⟨name, content'⟩ : Sigma fun _ : FileName => C) ∈ dir.entries := by
    rw [heq]
    simp
  have hsame : dir.lookup name = some content' := AList.mem_lookup_iff.mpr hfound
  obtain rfl : content = content' := Option.some.inj (h.symm.trans hsame)
  show dir.entries.Perm (⟨name, content⟩ :: List.kerase name dir.entries)
  rw [herase, heq]
  exact List.perm_middle

theorem contents_insert (dest : FileName) (content : C) (h : dest ∉ dir) :
    contents (dir.insert dest content) = content ::ₘ contents dir := by
  unfold contents
  rw [AList.entries_insert_of_notMem h]
  rfl

/-- Replacing a file does not add one. -/
theorem card_insert (dest : FileName) (content : C) (h : dest ∈ dir) :
    (contents (dir.insert dest content)).card = (contents dir).card := by
  obtain ⟨old, hold⟩ := Option.isSome_iff_exists.mp (AList.lookup_isSome.mpr h)
  unfold contents
  rw [Multiset.coe_card, Multiset.coe_card, List.length_map, List.length_map, AList.entries_insert,
    (entries_perm_erase hold).length_eq]
  rfl

theorem shardContents_erase (hshard : isShard name = true) (h : dir.lookup name = some content) :
    shardContents dir = content ::ₘ shardContents (dir.erase name) := by
  unfold shardContents
  rw [Multiset.cons_coe, Multiset.coe_eq_coe]
  have hperm := ((entries_perm_erase h).filter fun e => isShard e.1).map fun e => e.2
  rwa [List.filter_cons_of_pos (by exact hshard), List.map_cons] at hperm

/-- Where nothing is a shard there are no contents of shards. -/
theorem shardContents_none (h : ∀ name ∈ dir, isShard name = false) : shardContents dir = 0 := by
  have hempty : (dir.entries.filter fun e => isShard e.1) = [] := by
    rw [List.filter_eq_nil_iff]
    intro e he
    have hmem : e.1 ∈ dir := AList.mem_keys.mpr (List.mem_keys_of_mem he)
    simp [h e.1 hmem]
  unfold shardContents
  rw [hempty]
  rfl

end Files

section Calls

variable {d : Dirs C} {entry : FileName × ℤ} {listing : List (FileName × ℤ)}

theorem destination_mem (retired : Directory C) (name : FileName) (t : ℤ) :
    destination retired name t ∈ retired ↔ name ∈ retired ∧ stampedName name t ∈ retired := by
  unfold destination
  split
  · next h => exact ⟨fun hmem => ⟨h, hmem⟩, fun hmem => hmem.2⟩
  · next h => exact ⟨fun hmem => absurd hmem h, fun hmem => absurd hmem.1 h⟩

/-- A listed shard is there, and the rest of the listing lists the rest. -/
theorem Lists.head (h : Lists (entry :: listing) d.shards) :
    ∃ content, d.shards.lookup entry.1 = some content ∧ isShard entry.1 = true ∧
      Lists listing (d.shards.erase entry.1) := by
  unfold Lists at h
  rw [List.map_cons] at h
  have hmem : entry.1 ∈ d.shards.keys.filter isShard := h.mem_iff.mp List.mem_cons_self
  obtain ⟨hkey, hshard⟩ := List.mem_filter.mp hmem
  obtain ⟨content, hlookup⟩ := Option.isSome_iff_exists.mp
    (AList.lookup_isSome.mpr (AList.mem_keys.mpr hkey))
  refine ⟨content, hlookup, hshard, ?_⟩
  have hkeys : d.shards.keys.Perm (entry.1 :: (d.shards.erase entry.1).keys) :=
    (entries_perm_erase hlookup).map Sigma.fst
  have hnames := h.trans (hkeys.filter isShard)
  rw [List.filter_cons_of_pos hshard] at hnames
  exact hnames.cons_inv

theorem retireOne_some {content : C} (h : d.shards.lookup entry.1 = some content) :
    retireOne d entry =
      ⟨d.shards.erase entry.1, d.retired.insert (destination d.retired entry.1 entry.2) content⟩ := by
  unfold retireOne
  rw [h]

/-- Without clashes the moved contents are added and nothing is replaced. -/
theorem Fresh.keeps (hfresh : Fresh listing d) (hlist : Lists listing d.shards) :
    Keeps d (retireShards listing d) := by
  induction listing generalizing d with
  | nil =>
    have hnone : d.shards.keys.filter isShard = [] := hlist.symm.eq_nil
    have hno : ∀ name ∈ d.shards, isShard name = false := by
      intro name hname
      by_contra hshard
      have := List.mem_filter.mpr ⟨AList.mem_keys.mp hname, by simpa using hshard⟩
      rw [hnone] at this
      cases this
    refine ⟨hno, ?_, fun name content h => h⟩
    show contents d.retired = _
    rw [shardContents_none hno, Multiset.add_zero]
  | cons entry listing ih =>
    obtain ⟨hclash, hrest⟩ := hfresh
    obtain ⟨content, hlookup, hshard, hlist'⟩ := hlist.head
    have hstep := retireOne_some hlookup
    have hdest : destination d.retired entry.1 entry.2 ∉ d.retired := by
      rw [destination_mem]
      exact hclash
    obtain ⟨hnone, hcontents, hkept⟩ := ih hrest (by rw [hstep]; exact hlist')
    refine ⟨hnone, ?_, ?_⟩
    · show contents (retireShards listing (retireOne d entry)).retired = _
      rw [hcontents, hstep, contents_insert _ _ hdest, shardContents_erase hshard hlookup,
        Multiset.cons_add, Multiset.add_cons]
    · intro name old hold
      apply hkept
      rw [hstep]
      have hne : name ≠ destination d.retired entry.1 entry.2 := by
        rintro rfl
        exact hdest (AList.lookup_isSome.mp (by rw [hold]; rfl))
      rw [AList.lookup_insert_ne hne]
      exact hold

theorem Lists.card (h : Lists listing d.shards) : (shardContents d.shards).card = listing.length := by
  have hlength := h.length_eq
  unfold AList.keys List.keys at hlength
  rw [List.length_map, List.filter_map, List.length_map] at hlength
  unfold shardContents
  rw [Multiset.coe_card, List.length_map, hlength]
  rfl

/-- A call adds at most one file a move, and fewer where a move met a clash. -/
theorem card_retireShards (hlist : Lists listing d.shards) :
    (contents (retireShards listing d).retired).card ≤ (contents d.retired).card + listing.length ∧
      (¬ Fresh listing d → (contents (retireShards listing d).retired).card <
        (contents d.retired).card + listing.length) := by
  induction listing generalizing d with
  | nil => exact ⟨le_rfl, fun h => absurd trivial h⟩
  | cons entry listing ih =>
    obtain ⟨content, hlookup, _, hlist'⟩ := hlist.head
    have hstep := retireOne_some hlookup
    obtain ⟨hle, hlt⟩ := ih (d := retireOne d entry) (by rw [hstep]; exact hlist')
    show (contents (retireShards listing (retireOne d entry)).retired).card ≤ _ ∧ _
    rw [List.length_cons]
    by_cases hclash : Clash d entry
    · have hdest := (destination_mem d.retired entry.1 entry.2).mpr hclash
      have hcard : (contents (retireOne d entry).retired).card = (contents d.retired).card := by
        rw [hstep]
        exact card_insert _ _ hdest
      rw [hcard] at hle
      refine ⟨by omega, fun _ => ?_⟩
      show (contents (retireShards listing (retireOne d entry)).retired).card < _
      omega
    · have hdest : destination d.retired entry.1 entry.2 ∉ d.retired := by
        rw [destination_mem]
        exact hclash
      have hcard : (contents (retireOne d entry).retired).card = (contents d.retired).card + 1 := by
        rw [hstep, contents_insert _ _ hdest, Multiset.card_cons]
      rw [hcard] at hle hlt
      refine ⟨by omega, fun hnot => ?_⟩
      have hrest : ¬ Fresh listing (retireOne d entry) := fun h => hnot ⟨hclash, h⟩
      have := hlt hrest
      show (contents (retireShards listing (retireOne d entry)).retired).card < _
      omega

/-- A call keeps everything exactly when no move of it meets a clash. -/
theorem keeps_iff_fresh (hlist : Lists listing d.shards) :
    Keeps d (retireShards listing d) ↔ Fresh listing d := by
  constructor
  · intro hkeeps
    by_contra hfresh
    have hlt := (card_retireShards hlist).2 hfresh
    rw [hkeeps.contents_eq, Multiset.card_add, hlist.card] at hlt
    omega
  · intro hfresh
    exact hfresh.keeps hlist

end Calls

/-- Over a run of calls nothing is lost exactly when no move meets a clash. -/
theorem allKept_iff_allFresh (calls : List (Call C)) (retired : Directory C)
    (hlist : ∀ call ∈ calls, Lists call.listing call.shards) :
    AllKept calls retired ↔ AllFresh calls retired := by
  induction calls generalizing retired with
  | nil => exact Iff.rfl
  | cons call calls ih =>
    have hcall : Lists call.listing (call.before retired).shards := hlist call List.mem_cons_self
    have hrest := ih (call.after retired).retired fun c hc => hlist c (List.mem_cons_of_mem call hc)
    exact and_congr (keeps_iff_fresh hcall) hrest

def hundredthSecond (content : ℕ) : Call ℕ where
  shards := AList.singleton ['a', '.', 'j', 's', 'o', 'n', 'l'] content
  listing := [(['a', '.', 'j', 's', 'o', 'n', 'l'], 100)]

theorem hundredthSecond_lists (content : ℕ) :
    Lists (hundredthSecond content).listing (hundredthSecond content).shards := by
  have hshard : isShard ['a', '.', 'j', 's', 'o', 'n', 'l'] = true := by decide
  unfold Lists hundredthSecond
  rw [AList.keys_singleton, List.filter_singleton, hshard]
  exact List.Perm.refl _

/-- The third retirement of a name within a second replaces the second. -/
theorem third_overwrites :
    (∀ call ∈ [hundredthSecond 1, hundredthSecond 2, hundredthSecond 3],
      Lists call.listing call.shards) ∧
    ¬ AllKept [hundredthSecond 1, hundredthSecond 2, hundredthSecond 3] ∅ := by
  constructor
  · intro call hcall
    rcases List.mem_cons.mp hcall with rfl | hcall
    · exact hundredthSecond_lists 1
    rcases List.mem_pair.mp hcall with rfl | rfl
    · exact hundredthSecond_lists 2
    · exact hundredthSecond_lists 3
  · intro ⟨_, _, hthird, _⟩
    have hsecond := hthird.not_overwritten ['a', '_', '1', '0', '0', '.', 'j', 's', 'o', 'n', 'l'] 2
      (by decide)
    revert hsecond
    decide

/-- The rule for the first two of those retirements. -/
theorem allKept_iff_allFresh_second :
    AllKept [hundredthSecond 1, hundredthSecond 2] ∅ ↔
      AllFresh [hundredthSecond 1, hundredthSecond 2] ∅ := by
  apply allKept_iff_allFresh
  intro call hcall
  rcases List.mem_pair.mp hcall with rfl | rfl
  · exact hundredthSecond_lists 1
  · exact hundredthSecond_lists 2

end Mcts.Shards
