import Mathlib.Data.Set.Basic
import Mathlib.Data.List.Basic
import Mathlib.Tactic.Common

/-!
The environments the search runs on, and what a search may assume of them.
A state hash is a node id. `SoundHash` says on which states the hash may be
taken for the state; `Legal` lists the action sequences the rules allow.
-/
namespace Mcts.Environments

/-- A u64 state hash. Ids are only ever compared, so any natural number will do. -/
abbrev NodeId := ℕ

class Act (A : Type) where
  toActionIndex : A → ℕ

export Act (toActionIndex)

class Environment (E : Type) (A O : outParam Type) where
  step : E → A → E
  done : E → Bool
  observation : E → O
  validActions : E → List A
  numActions : E → ℕ
  hash : E → NodeId

export Environment (step done observation validActions numActions hash)

variable {E A O : Type} [Environment E A O]

variable (E A) in
/-- The contract in the traits' comments: dense indices in bounds, no action
listed twice, and an index that names its action. -/
structure LawfulEnvironment [Act A] : Prop where
  index_lt : ∀ (s : E) (a : A), a ∈ validActions s → toActionIndex a < numActions s
  nodup : ∀ s : E, (validActions s).Nodup
  index_injective : Function.Injective (toActionIndex : A → ℕ)

/-- On the set `S`, closed under play, equal hashes mean equal behaviour. -/
structure SoundHash (S : Set E) : Prop where
  step_mem : ∀ s ∈ S, done s = false → ∀ a ∈ validActions s, step s a ∈ S
  done_eq : ∀ s ∈ S, ∀ t ∈ S, hash s = hash t → done s = done t
  valid_iff : ∀ s ∈ S, ∀ t ∈ S, hash s = hash t → ∀ a, a ∈ validActions s ↔ a ∈ validActions t
  num_eq : ∀ s ∈ S, ∀ t ∈ S, hash s = hash t → numActions s = numActions t
  step_hash : ∀ s ∈ S, ∀ t ∈ S, hash s = hash t → done s = false →
    ∀ a ∈ validActions s, hash (step s a) = hash (step t a)

def play (s : E) (acts : List A) : E := acts.foldl step s

def Legal (s : E) : List A → Prop
  | [] => True
  | a :: rest => done s = false ∧ a ∈ validActions s ∧ Legal (step s a) rest

@[simp] theorem play_nil (s : E) : play s ([] : List A) = s := rfl

@[simp] theorem play_cons (s : E) (a : A) (rest : List A) :
    play s (a :: rest) = play (step s a) rest := rfl

theorem play_append (s : E) (left right : List A) :
    play s (left ++ right) = play (play s left) right := List.foldl_append

theorem play_concat (s : E) (acts : List A) (a : A) :
    play s (acts ++ [a]) = step (play s acts) a := by
  rw [play_append]
  rfl

theorem legal_append (s : E) (left right : List A) :
    Legal s (left ++ right) ↔ Legal s left ∧ Legal (play s left) right := by
  induction left generalizing s with
  | nil => simp [Legal]
  | cons a rest ih => simp only [List.cons_append, Legal, play_cons, ih, and_assoc]

theorem legal_concat (s : E) (acts : List A) (a : A) :
    Legal s (acts ++ [a]) ↔
      Legal s acts ∧ done (play s acts) = false ∧ a ∈ validActions (play s acts) := by
  rw [legal_append]
  simp [Legal]

section HeapGame

/-- A small game: the positions of a binary heap, over from the third on. -/
structure HeapGame where
  position : ℕ
deriving DecidableEq

instance : Act Bool := ⟨Bool.toNat⟩

instance : Environment HeapGame Bool ℕ where
  step s a := ⟨2 * s.position + 1 + a.toNat⟩
  done s := decide (3 ≤ s.position)
  observation s := s.position
  validActions _ := [false, true]
  numActions _ := 2
  hash s := s.position

theorem heapGame_lawful : LawfulEnvironment HeapGame Bool where
  index_lt _ a _ := Bool.toNat_lt a
  nodup _ := by simp [validActions]
  index_injective a b h := by cases a <;> cases b <;> simp_all [toActionIndex]

/-- The hash is the state. -/
theorem heapGame_soundHash : SoundHash (Set.univ : Set HeapGame) := by
  have hstate : ∀ s t : HeapGame, hash s = hash t → s = t := by
    rintro ⟨p⟩ ⟨q⟩ h
    exact congrArg HeapGame.mk h
  refine ⟨fun _ _ _ _ _ => Set.mem_univ _, ?_, ?_, ?_, ?_⟩
  · exact fun s _ t _ h => by rw [hstate s t h]
  · exact fun s _ t _ h _ => by rw [hstate s t h]
  · exact fun s _ t _ h => by rw [hstate s t h]
  · exact fun s _ t _ h _ _ _ => by rw [hstate s t h]

end HeapGame

end Mcts.Environments
