import Mathlib.Data.Nat.Notation
import Mathlib.Tactic.Basic

/-!
Sequential programs over a mutable state, with a Hoare calculus.
A program either returns a value or stops early (a panic, an exception, a loop
out of fuel); the state reached is kept in both cases, so an assertion about
early stops can be carried along. Nothing here depends on what the state is.
-/
namespace Mcts.Program

/-- The returned value, `none` after an early stop, and the state reached. -/
def Prog (σ α : Type) := σ → Option α × σ

namespace Prog

variable {σ α β τ : Type}

def stop : Prog σ α := fun s => (none, s)

def get : Prog σ σ := fun s => (some s, s)

def modify (f : σ → σ) : Prog σ Unit := fun s => (some (), f s)

def bind (c : Prog σ α) (k : α → Prog σ β) : Prog σ β := fun s =>
  match c s with
  | (some a, t) => k a t
  | (none, t) => (none, t)

instance : Monad (Prog σ) where
  pure a := fun s => (some a, s)
  bind := bind

def whenever (c : Bool) (body : Prog σ Unit) : Prog σ Unit := if c then body else pure ()

def forEach (xs : List τ) (body : τ → Prog σ Unit) : Prog σ Unit :=
  match xs with
  | [] => pure ()
  | x :: rest => do
    body x
    forEach rest body

/-- Run the body `n` times and append the values it yields to `acc`. -/
def collect (body : Prog σ (Option τ)) (acc : List τ) : ℕ → Prog σ (List τ)
  | 0 => pure acc
  | n + 1 => do
    let r ← body
    collect body (acc ++ r.toList) n

/-- A `while` loop carrying a value: `inl` goes round again, `inr` leaves. -/
def loop (body : τ → Prog σ (τ ⊕ α)) : ℕ → τ → Prog σ α
  | 0, _ => stop
  | fuel + 1, t => do
    match ← body t with
    | .inl next => loop body fuel next
    | .inr a => pure a

@[simp] theorem pure_run (a : α) (s : σ) : (pure a : Prog σ α) s = (some a, s) := rfl

@[simp] theorem stop_run (s : σ) : (stop : Prog σ α) s = (none, s) := rfl

@[simp] theorem get_run (s : σ) : (get : Prog σ σ) s = (some s, s) := rfl

@[simp] theorem modify_run (f : σ → σ) (s : σ) : modify f s = (some (), f s) := rfl

theorem bind_run (c : Prog σ α) (k : α → Prog σ β) (s : σ) :
    (c >>= k) s = match c s with
      | (some a, t) => k a t
      | (none, t) => (none, t) := rfl

@[simp] theorem get_bind_run (k : σ → Prog σ β) (s : σ) : (get >>= k) s = k s s := rfl

@[simp] theorem modify_bind_run (f : σ → σ) (k : Unit → Prog σ β) (s : σ) :
    (modify f >>= k) s = k () (f s) := rfl

theorem bind_assoc (c : Prog σ α) (k : α → Prog σ β) (l : β → Prog σ τ) :
    ((c >>= k) >>= l) = (c >>= fun a => k a >>= l) := by
  funext s
  rw [bind_run, bind_run, bind_run]
  rcases c s with ⟨_ | a, t⟩
  · rfl
  · rfl

theorem forEach_append (xs ys : List τ) (body : τ → Prog σ Unit) :
    forEach (xs ++ ys) body = (forEach xs body >>= fun _ => forEach ys body) := by
  induction xs with
  | nil => rfl
  | cons x rest ih =>
    show (body x >>= fun _ => forEach (rest ++ ys) body) = _
    rw [ih]
    exact (bind_assoc (body x) (fun _ => forEach rest body) fun _ => forEach ys body).symm

/-- The last round of `collect` apart. -/
theorem collect_succ (body : Prog σ (Option τ)) (acc : List τ) (n : ℕ) :
    collect body acc (n + 1) = (collect body acc n >>= fun xs =>
      body >>= fun r => pure (xs ++ r.toList)) := by
  induction n generalizing acc with
  | zero => rfl
  | succ n ih =>
    have hrest : collect body acc (n + 2) = (body >>= fun r => collect body (acc ++ r.toList) n >>=
        fun xs => body >>= fun r => pure (xs ++ r.toList)) :=
      congrArg (fun k => body >>= k) (funext fun r => ih (acc ++ r.toList))
    exact hrest.trans (bind_assoc body (fun r => collect body (acc ++ r.toList) n) fun xs =>
      body >>= fun r => pure (xs ++ r.toList)).symm

/-- Two programs in a row return if the first returns and then the second does. -/
theorem bind_eq_some {c : Prog σ α} {k : α → Prog σ β} {s t : σ} {b : β}
    (h : (c >>= k) s = (some b, t)) : ∃ a u, c s = (some a, u) ∧ k a u = (some b, t) := by
  rw [bind_run] at h
  rcases hrun : c s with ⟨_ | a, u⟩
  · rw [hrun] at h
    exact absurd (congrArg Prod.fst h) (by simp)
  · rw [hrun] at h
    exact ⟨a, u, rfl, h⟩

end Prog

open Prog

variable {σ α β τ : Type}

/-- From `P` the program returns in `Q` or stops early in `X`. With `X` empty
this is total correctness, with `X` full it is partial correctness. -/
def Triple (P : σ → Prop) (c : Prog σ α) (Q : α → σ → Prop) (X : σ → Prop) : Prop :=
  ∀ s, P s → match c s with
    | (some a, t) => Q a t
    | (none, t) => X t

namespace Triple

variable {P P' : σ → Prop} {X X' : σ → Prop} {Q Q' : α → σ → Prop} {c : Prog σ α}

theorem returned (h : Triple P c Q X) {s t : σ} {a : α} (hs : P s)
    (hrun : c s = (some a, t)) : Q a t := by
  have hc := h s hs
  rw [hrun] at hc
  exact hc

theorem stopped (h : Triple P c Q X) {s t : σ} (hs : P s)
    (hrun : c s = (none, t)) : X t := by
  have hc := h s hs
  rw [hrun] at hc
  exact hc

theorem weaken (h : Triple P c Q X) (hP : ∀ s, P' s → P s)
    (hQ : ∀ a s, Q a s → Q' a s) (hX : ∀ s, X s → X' s) : Triple P' c Q' X' := by
  intro s hs
  have hc := h s (hP s hs)
  rcases hrun : c s with ⟨_ | a, t⟩
  · rw [hrun] at hc
    exact hX t hc
  · rw [hrun] at hc
    exact hQ a t hc

theorem pre (h : Triple P c Q X) (hP : ∀ s, P' s → P s) : Triple P' c Q X :=
  h.weaken hP (fun _ _ hq => hq) (fun _ hx => hx)

theorem post (h : Triple P c Q X) (hQ : ∀ a s, Q a s → Q' a s) : Triple P c Q' X :=
  h.weaken (fun _ hp => hp) hQ (fun _ hx => hx)

theorem both (h : Triple P c Q X) (h' : Triple P' c Q' X') :
    Triple (fun s => P s ∧ P' s) c (fun a s => Q a s ∧ Q' a s) (fun s => X s ∧ X' s) := by
  intro s hs
  have hc := h s hs.1
  have hc' := h' s hs.2
  rcases hrun : c s with ⟨_ | a, t⟩
  · rw [hrun] at hc hc'
    exact ⟨hc, hc'⟩
  · rw [hrun] at hc hc'
    exact ⟨hc, hc'⟩

/-- With nothing to show, any program will do. -/
theorem anyway : Triple P c (fun _ _ => True) (fun _ => True) := by
  intro s _
  split <;> trivial

theorem ret {a : α} (h : ∀ s, P s → Q a s) : Triple P (pure a) Q X := fun s hs => h s hs

theorem halt (h : ∀ s, P s → X s) : Triple P (stop : Prog σ α) Q X := fun s hs => h s hs

theorem update {f : σ → σ} {Q : Unit → σ → Prop} (h : ∀ s, P s → Q () (f s)) :
    Triple P (modify f) Q X := fun s hs => h s hs

theorem seq {R : α → σ → Prop} {k : α → Prog σ β} {Q : β → σ → Prop}
    (hc : Triple P c R X) (hk : ∀ a, Triple (R a) (k a) Q X) :
    Triple P (c >>= k) Q X := by
  intro s hs
  have hcs := hc s hs
  rw [bind_run]
  rcases hrun : c s with ⟨_ | a, t⟩
  · rw [hrun] at hcs
    exact hcs
  · rw [hrun] at hcs
    exact hk a t hcs

/-- Reading the state fixes it in the continuation. -/
theorem read {k : σ → Prog σ β} {Q : β → σ → Prop}
    (h : ∀ s₀, P s₀ → Triple (fun s => s = s₀) (k s₀) Q X) : Triple P (get >>= k) Q X := by
  intro s hs
  exact h s hs s rfl

/-- A precondition on no state is a hypothesis. -/
theorem assume {p : Prop} (h : p → Triple P c Q X) : Triple (fun s => P s ∧ p) c Q X :=
  fun s hs => h hs.2 s hs.1

/-- A precondition may name a witness. -/
theorem any {P : τ → σ → Prop} (h : ∀ x, Triple (P x) c Q X) : Triple (fun s => ∃ x, P x s) c Q X :=
  fun s ⟨x, hs⟩ => h x s hs

theorem cond {b : Bool} {body : Prog σ Unit} {Q : Unit → σ → Prop}
    (ht : b = true → Triple P body Q X) (hf : b = false → ∀ s, P s → Q () s) :
    Triple P (whenever b body) Q X := by
  cases b with
  | true => exact ht rfl
  | false => exact ret (hf rfl)

/-- Loop rule for `forEach`: the invariant speaks of what is left of the list. -/
theorem each {xs : List τ} {body : τ → Prog σ Unit} {I : List τ → σ → Prop}
    (h : ∀ x rest, Triple (I (x :: rest)) (body x) (fun _ => I rest) X) :
    Triple (I xs) (forEach xs body) (fun _ => I []) X := by
  induction xs with
  | nil => exact ret fun _ hs => hs
  | cons x rest ih => exact seq (h x rest) fun _ => ih

/-- The case of an invariant that every element keeps. -/
theorem each_mem {xs : List τ} {body : τ → Prog σ Unit} {I : σ → Prop}
    (h : ∀ x ∈ xs, Triple I (body x) (fun _ => I) X) :
    Triple I (forEach xs body) (fun _ => I) X := by
  induction xs with
  | nil => exact ret fun _ hs => hs
  | cons x rest ih =>
    exact seq (h x List.mem_cons_self) fun _ => ih fun y hy => h y (List.mem_cons_of_mem x hy)

/-- Loop rule for `xs.zip ys`: what of `xs` has no partner is left over. -/
theorem each_zip {υ : Type} {xs : List τ} {ys : List υ} {body : τ × υ → Prog σ Unit}
    {I : List τ → σ → Prop} (h : ∀ r rest, Triple (I (r.1 :: rest)) (body r) (fun _ => I rest) X) :
    Triple (I xs) (forEach (xs.zip ys) body) (fun _ => I (xs.drop ys.length)) X := by
  induction xs generalizing ys with
  | nil =>
    rw [List.drop_nil]
    exact ret fun _ hs => hs
  | cons x rest ih =>
    cases ys with
    | nil => exact ret fun _ hs => hs
    | cons y ys => exact seq (h (x, y) rest) fun _ => ih

/-- Loop rule for `collect`: the invariant speaks of the rounds left and of
what has been collected. -/
theorem gather {body : Prog σ (Option τ)} {I : ℕ → List τ → σ → Prop}
    (h : ∀ n acc, Triple (I (n + 1) acc) body (fun r => I n (acc ++ r.toList)) X)
    (n : ℕ) (acc : List τ) : Triple (I n acc) (collect body acc n) (I 0) X := by
  induction n generalizing acc with
  | zero => exact ret fun _ hs => hs
  | succ n ih => exact seq (h n acc) fun r => ih (acc ++ r.toList)

/-- Loop rule for `loop`: the invariant may speak of the fuel left, so a count
of the rounds turns running out of fuel into a statement about the state. -/
theorem while_rule {body : τ → Prog σ (τ ⊕ α)} {I : ℕ → τ → σ → Prop}
    (hstep : ∀ n t, Triple (I (n + 1) t) (body t) (fun r => Sum.elim (I n) Q r) X)
    (hout : ∀ t s, I 0 t s → X s) (fuel : ℕ) (t : τ) :
    Triple (I fuel t) (loop body fuel t) Q X := by
  induction fuel generalizing t with
  | zero => exact halt fun s hs => hout t s hs
  | succ n ih =>
    refine seq (hstep n t) fun r => ?_
    cases r with
    | inl next => exact ih next
    | inr a => exact ret fun _ hs => hs

end Triple

end Mcts.Program
