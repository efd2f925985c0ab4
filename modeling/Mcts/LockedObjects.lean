import Mathlib.Logic.Function.Basic
import Mathlib.Data.Nat.Notation

/-!
Objects behind a test-and-set lock. Any number of processes call operations; a call
swaps the flag until it gets the lock, runs its critical section one access at a
time and unlocks. Sections that do alone what a sequential object does in one
step do so in every interleaving, one after another in the order of the unlocks.
-/
namespace Mcts.LockedObjects

variable {P Op L σ ρ τ : Type}

/-- The critical sections of an object: the registers a call starts with, and
what one access makes of registers and object. -/
structure Code (Op L σ ρ : Type) where
  start : Op → L
  access : L → σ → (L ⊕ ρ) × σ

inductive Pc (Op L ρ : Type)
  | outside
  | locking (op : Op)
  | inside (op : Op) (regs : L)
  | unlocking (op : Op) (res : ρ)

def Pc.InSection : Pc Op L ρ → Prop
  | .inside _ _ | .unlocking _ _ => True
  | .outside | .locking _ => False

/-- `log` lists the calls that have returned; no step reads it. -/
structure State (P Op L σ ρ : Type) where
  flag : ℕ
  object : σ
  pc : P → Pc Op L ρ
  log : List (P × Op × ρ)

inductive Action (P Op : Type)
  | call (p : P) (op : Op)
  | step (p : P)

def Action.advances [DecidableEq P] (p : P) : Action P Op → Bool
  | .call _ _ => false
  | .step q => q = p

section Steps

variable [DecidableEq P] (code : Code Op L σ ρ)

/-- The next step of a process inside a call: `none` for one outside. A swap that
finds the flag set leaves the process where it is. -/
def stepOf (p : P) (s : State P Op L σ ρ) : Option (State P Op L σ ρ) :=
  match s.pc p with
  | .outside => none
  | .locking op =>
    if s.flag = 1 then some { s with flag := 1 }
    else some { s with flag := 1, pc := Function.update s.pc p (.inside op (code.start op)) }
  | .inside op regs =>
    match code.access regs s.object with
    | (.inl regs', object) =>
      some { s with object := object, pc := Function.update s.pc p (.inside op regs') }
    | (.inr res, object) =>
      some { s with object := object, pc := Function.update s.pc p (.unlocking op res) }
  | .unlocking op res => some { s with
      flag := 0
      pc := Function.update s.pc p .outside
      log := s.log ++ [(p, op, res)] }

def act (s : State P Op L σ ρ) : Action P Op → Option (State P Op L σ ρ)
  | .call p op =>
    match s.pc p with
    | .outside => some { s with pc := Function.update s.pc p (.locking op) }
    | _ => none
  | .step p => stepOf code p s

def acts : List (Action P Op) → State P Op L σ ρ → Option (State P Op L σ ρ)
  | [], s => some s
  | a :: rest, s => (act code s a).bind (acts rest)

end Steps

/-- A section of `n` accesses that has the object to itself. -/
inductive Runs (code : Code Op L σ ρ) : L → σ → ℕ → ρ → σ → Prop
  | last {regs : L} {s s' : σ} {res : ρ} :
      code.access regs s = (.inr res, s') → Runs code regs s 1 res s'
  | more {regs regs' : L} {s s' s'' : σ} {n : ℕ} {res : ρ} :
      code.access regs s = (.inl regs', s') → Runs code regs' s' n res s'' →
      Runs code regs s (n + 1) res s''

/-- The log of a sequential object that starts at `t₀`, and where it ends. -/
inductive Explains (spec : Op → τ → ρ × τ) (t₀ : τ) : List (P × Op × ρ) → τ → Prop
  | nil : Explains spec t₀ [] t₀
  | snoc {log : List (P × Op × ρ)} {t : τ} (p : P) (op : Op) :
      Explains spec t₀ log t → Explains spec t₀ (log ++ [(p, op, (spec op t).1)]) (spec op t).2

/-- Sections of at most `bound` accesses do alone what the sequential object does. -/
def Implements (code : Code Op L σ ρ) (spec : Op → τ → ρ × τ) (R : σ → τ → Prop) (bound : ℕ) : Prop :=
  ∀ op s t, R s t → ∃ n s', n ≤ bound ∧
    Runs code (code.start op) s n (spec op t).1 s' ∧ R s' (spec op t).2

section Invariant

variable (code : Code Op L σ ρ) (spec : Op → τ → ρ × τ) (R : σ → τ → Prop) (t₀ : τ)

/-- What the section of the holder still does: it ends where the sequential
object's step does, after at most `bound` accesses more. -/
def Completes (bound : ℕ) (object : σ) (t : τ) : Pc Op L ρ → Prop
  | .inside op regs => ∃ n s', n ≤ bound ∧ Runs code regs object n (spec op t).1 s' ∧
      R s' (spec op t).2
  | .unlocking op res => res = (spec op t).1 ∧ R object (spec op t).2
  | .outside | .locking _ => False

/-- The flag is clear and the object at rest, or it is set and one process is inside. -/
structure Linear (bound : ℕ) (s : State P Op L σ ρ) (t : τ) : Prop where
  explains : Explains spec t₀ s.log t
  flag : s.flag = 0 ∨ s.flag = 1
  free : s.flag = 0 → R s.object t ∧ ∀ p, ¬(s.pc p).InSection
  held : s.flag = 1 → ∃ p, (∀ q, (s.pc q).InSection ↔ q = p) ∧
    Completes code spec R bound s.object t (s.pc p)

end Invariant

section Runs

variable [DecidableEq P] {code : Code Op L σ ρ} {spec : Op → τ → ρ × τ} {R : σ → τ → Prop} {t₀ t : τ}
variable {bound : ℕ} {s s' : State P Op L σ ρ}

omit [DecidableEq P] in
theorem Linear.of_idle (hobject : R s.object t₀) (hflag : s.flag = 0) (hlog : s.log = [])
    (hpc : ∀ p, s.pc p = .outside) : Linear code spec R t₀ bound s t₀ where
  explains := hlog ▸ .nil
  flag := Or.inl hflag
  free _ := ⟨hobject, fun p => by rw [hpc p]; exact id⟩
  held hset := absurd (hflag.symm.trans hset) (by omega)

omit [DecidableEq P] in
/-- A process inside its section is the holder. -/
theorem Linear.holder (h : Linear code spec R t₀ bound s t) {p : P} (hp : (s.pc p).InSection) :
    s.flag = 1 ∧ (∀ q, (s.pc q).InSection ↔ q = p) ∧
      Completes code spec R bound s.object t (s.pc p) := by
  have hset : s.flag = 1 := by
    rcases h.flag with hclear | hset
    · exact absurd hp ((h.free hclear).2 p)
    · exact hset
  obtain ⟨holder, honly, hcompletes⟩ := h.held hset
  obtain rfl := (honly p).mp hp
  exact ⟨hset, honly, hcompletes⟩

/-- A process moves on outside of every section. -/
theorem Linear.aside (h : Linear code spec R t₀ bound s t) {p : P} {pc : Pc Op L ρ}
    (hbefore : ¬(s.pc p).InSection) (hafter : ¬pc.InSection) :
    Linear code spec R t₀ bound { s with pc := Function.update s.pc p pc } t := by
  have hsection : ∀ q, (Function.update s.pc p pc q).InSection ↔ (s.pc q).InSection := fun q => by
    by_cases hq : q = p
    · subst hq
      simp [hbefore, hafter]
    · rw [Function.update_of_ne hq]
  refine ⟨h.explains, h.flag, fun hclear => ?_, fun hset => ?_⟩
  · obtain ⟨hobject, hnone⟩ := h.free hclear
    exact ⟨hobject, fun q hq => hnone q ((hsection q).mp hq)⟩
  · obtain ⟨holder, honly, hcompletes⟩ := h.held hset
    have hne : holder ≠ p := fun heq => hbefore (heq ▸ (honly holder).mpr rfl)
    refine ⟨holder, fun q => (hsection q).trans (honly q), ?_⟩
    show Completes code spec R bound s.object t (Function.update s.pc p pc holder)
    rwa [Function.update_of_ne hne]

omit [DecidableEq P] in
theorem only_update [DecidableEq P] {pc : P → Pc Op L ρ} {p : P} {next : Pc Op L ρ}
    (honly : ∀ q, q ≠ p → ¬(pc q).InSection) (hnext : next.InSection) (q : P) :
    (Function.update pc p next q).InSection ↔ q = p := by
  by_cases hq : q = p
  · subst hq
    simp [hnext]
  · simp [hq, honly q hq]

/-- Each step of a process keeps the calls in a sequence. -/
theorem Linear.stepOf (hcode : Implements code spec R bound) (h : Linear code spec R t₀ bound s t)
    {p : P} (hstep : stepOf code p s = some s') : ∃ t', Linear code spec R t₀ bound s' t' := by
  rw [LockedObjects.stepOf] at hstep
  cases hpc : s.pc p with
  | outside => simp [hpc] at hstep
  | locking op =>
    simp only [hpc] at hstep
    split at hstep
    · rename_i hset
      cases hstep
      rw [← hset]
      exact ⟨t, h⟩
    · rename_i hclear
      cases hstep
      -- the swap found the flag clear: this process is now the holder
      obtain ⟨hobject, hnone⟩ := h.free (h.flag.resolve_right hclear)
      obtain ⟨n, object, hn, hruns, hafter⟩ := hcode op s.object t hobject
      refine ⟨t, h.explains, Or.inr rfl, fun hzero => absurd hzero (by simp), fun _ => ⟨p,
        only_update (fun q _ => hnone q) trivial, ?_⟩⟩
      simp only [Function.update_self]
      exact ⟨n, object, hn, hruns, hafter⟩
  | inside op regs =>
    obtain ⟨hset, honly, hcompletes⟩ := h.holder (p := p) (by rw [hpc]; trivial)
    have hothers : ∀ q, q ≠ p → ¬(s.pc q).InSection := fun q hq hin => hq ((honly q).mp hin)
    rw [hpc] at hcompletes
    obtain ⟨n, object, hn, hruns, hafter⟩ := hcompletes
    simp only [hpc] at hstep
    cases hruns with
    | last haccess =>
      rw [haccess] at hstep
      cases hstep
      refine ⟨t, h.explains, h.flag, fun hclear => absurd (hclear.symm.trans hset) (by omega),
        fun _ => ⟨p, only_update hothers trivial, ?_⟩⟩
      simp only [Function.update_self]
      exact ⟨rfl, hafter⟩
    | more haccess hrest =>
      rw [haccess] at hstep
      cases hstep
      refine ⟨t, h.explains, h.flag, fun hclear => absurd (hclear.symm.trans hset) (by omega),
        fun _ => ⟨p, only_update hothers trivial, ?_⟩⟩
      simp only [Function.update_self]
      exact ⟨_, object, by omega, hrest, hafter⟩
  | unlocking op res =>
    obtain ⟨_, honly, hcompletes⟩ := h.holder (p := p) (by rw [hpc]; trivial)
    rw [hpc] at hcompletes
    obtain ⟨rfl, hafter⟩ := hcompletes
    simp only [hpc] at hstep
    cases hstep
    refine ⟨(spec op t).2, .snoc p op h.explains, Or.inl rfl, fun _ => ⟨hafter, fun q => ?_⟩,
      fun hset => absurd hset (by simp)⟩
    by_cases hq : q = p
    · subst hq
      simp [Pc.InSection]
    · simp only [Function.update_of_ne hq]
      exact fun hin => hq ((honly q).mp hin)

theorem Linear.act (hcode : Implements code spec R bound) (h : Linear code spec R t₀ bound s t)
    {a : Action P Op} (hact : act code s a = some s') :
    ∃ t', Linear code spec R t₀ bound s' t' := by
  cases a with
  | call p op =>
    rw [LockedObjects.act] at hact
    cases hpc : s.pc p with
    | outside =>
      simp only [hpc] at hact
      cases hact
      exact ⟨t, h.aside (by rw [hpc]; exact id) id⟩
    | locking | inside | unlocking => simp [hpc] at hact
  | step p => exact h.stepOf hcode hact

/-- In every interleaving the calls happen one after another. -/
theorem Linear.acts (hcode : Implements code spec R bound) (as : List (Action P Op))
    (h : Linear code spec R t₀ bound s t) (hacts : acts code as s = some s') :
    ∃ t', Linear code spec R t₀ bound s' t' := by
  induction as generalizing s t with
  | nil =>
    cases hacts
    exact ⟨t, h⟩
  | cons a rest ih =>
    obtain ⟨u, hact, hrest⟩ := Option.bind_eq_some_iff.mp hacts
    obtain ⟨t', h'⟩ := h.act hcode hact
    exact ih h' hrest

end Runs

section Holder

variable [DecidableEq P] {code : Code Op L σ ρ} {spec : Op → τ → ρ × τ} {R : σ → τ → Prop} {t₀ t : τ}
variable {bound : ℕ} {s s' : State P Op L σ ρ} {p : P}

/-- The flag is set for `p`, and everyone else is outside or waits. -/
def HeldBy (p : P) (s : State P Op L σ ρ) : Prop := s.flag = 1 ∧ ∀ q, (s.pc q).InSection ↔ q = p

theorem act_log {a : Action P Op} (hact : act code s a = some s') : s.log <+: s'.log := by
  cases a with
  | call p op =>
    simp only [act] at hact
    split at hact <;> cases hact
    exact List.prefix_rfl
  | step p =>
    simp only [act, stepOf] at hact
    split at hact
    · cases hact
    · split at hact <;> cases hact <;> exact List.prefix_rfl
    · split at hact <;> cases hact <;> exact List.prefix_rfl
    · cases hact
      exact List.prefix_append _ _

theorem acts_log (as : List (Action P Op)) (hacts : acts code as s = some s') :
    s.log <+: s'.log := by
  induction as generalizing s with
  | nil =>
    cases hacts
    exact List.prefix_rfl
  | cons a rest ih =>
    obtain ⟨u, hact, hrest⟩ := Option.bind_eq_some_iff.mp hacts
    exact (act_log hact).trans (ih hrest)

theorem HeldBy.move (h : HeldBy p s) (object : σ) (pc : Pc Op L ρ) (hpc : pc.InSection) :
    HeldBy p { s with object := object, pc := Function.update s.pc p pc } :=
  ⟨h.1, only_update (fun q hq hin => hq ((h.2 q).mp hin)) hpc⟩

/-- No step of another process touches what the holder of the lock is at. -/
theorem HeldBy.act_other (h : HeldBy p s) {a : Action P Op} (ha : a.advances p = false)
    (hact : act code s a = some s') :
    HeldBy p s' ∧ s'.object = s.object ∧ s'.log = s.log ∧ s'.pc p = s.pc p := by
  obtain ⟨hset, honly⟩ := h
  have hin := (honly p).mpr rfl
  cases a with
  | call q op =>
    rw [act] at hact
    cases hpc : s.pc q with
    | outside =>
      have hq : p ≠ q := fun heq => by
        subst heq
        rw [hpc] at hin
        exact hin
      simp only [hpc] at hact
      cases hact
      refine ⟨⟨hset, fun r => ?_⟩, rfl, rfl, Function.update_of_ne hq _ _⟩
      by_cases hr : r = q
      · subst hr
        simp [Pc.InSection, Ne.symm hq]
      · simp only [Function.update_of_ne hr]
        exact honly r
    | locking | inside | unlocking => simp [hpc] at hact
  | step q =>
    have hq : q ≠ p := by simpa [Action.advances] using ha
    have hout : ¬(s.pc q).InSection := fun hin => hq ((honly q).mp hin)
    rw [act, stepOf] at hact
    cases hpc : s.pc q with
    | outside => simp [hpc] at hact
    | locking op =>
      simp only [hpc, if_pos hset] at hact
      cases hact
      exact ⟨⟨rfl, honly⟩, rfl, rfl, rfl⟩
    | inside op regs => exact absurd (by rw [hpc]; trivial) hout
    | unlocking op res => exact absurd (by rw [hpc]; trivial) hout

/-- A holder that takes no step keeps everyone from the object. -/
theorem HeldBy.acts_other (as : List (Action P Op)) (h : HeldBy p s) (hstill : as.countP (Action.advances p) = 0)
    (hacts : acts code as s = some s') :
    HeldBy p s' ∧ s'.object = s.object ∧ s'.log = s.log := by
  induction as generalizing s with
  | nil =>
    cases hacts
    exact ⟨h, rfl, rfl⟩
  | cons a rest ih =>
    obtain ⟨u, hact, hrest⟩ := Option.bind_eq_some_iff.mp hacts
    rw [List.countP_eq_zero] at hstill
    have ha : a.advances p = false := by simpa using hstill a List.mem_cons_self
    obtain ⟨hu, hobject, hlog, _⟩ := h.act_other ha hact
    obtain ⟨hs', hobject', hlog'⟩ := ih hu
      (List.countP_eq_zero.mpr fun b hb => hstill b (List.mem_cons_of_mem a hb)) hrest
    exact ⟨hs', hobject'.trans hobject, hlog'.trans hlog⟩

/-- A holder that takes one step more than its section has accesses has returned,
whatever the others did meanwhile. -/
theorem HeldBy.returns (as : List (Action P Op)) {k : ℕ} (h : HeldBy p s)
    (hcompletes : Completes code spec R k s.object t (s.pc p))
    (hsteps : k < as.countP (Action.advances p)) (hacts : acts code as s = some s') :
    ∃ op, s.log ++ [(p, op, (spec op t).1)] <+: s'.log := by
  induction as generalizing s k with
  | nil => simp at hsteps
  | cons a rest ih =>
    obtain ⟨u, hact, hrest⟩ := Option.bind_eq_some_iff.mp hacts
    cases ha : a.advances p with
    | true =>
      rw [List.countP_cons_of_pos ha] at hsteps
      obtain rfl : a = .step p := by
        cases a with
        | call q op => simp [Action.advances] at ha
        | step q => simpa [Action.advances] using ha
      rw [act, stepOf] at hact
      cases hpc : s.pc p with
      | outside => simp [hpc] at hact
      | locking op => exact absurd ((h.2 p).mpr rfl) (by rw [hpc]; exact id)
      | inside op regs =>
        rw [hpc] at hcompletes
        obtain ⟨n, object, hn, hruns, hafter⟩ := hcompletes
        simp only [hpc] at hact
        cases hruns with
        | last haccess =>
          rw [haccess] at hact
          cases hact
          have hreturns := ih (k := k - 1) (h.move _ (.unlocking op _) trivial)
            (by simp only [Function.update_self]; exact ⟨rfl, hafter⟩) (by omega) hrest
          exact hreturns
        | more haccess hmore =>
          rw [haccess] at hact
          cases hact
          have hreturns := ih (k := k - 1) (h.move _ (.inside op _) trivial)
            (by simp only [Function.update_self]; exact ⟨_, object, by omega, hmore, hafter⟩)
            (by omega) hrest
          exact hreturns
      | unlocking op res =>
        rw [hpc] at hcompletes
        obtain ⟨rfl, _⟩ := hcompletes
        simp only [hpc] at hact
        cases hact
        exact ⟨op, acts_log rest hrest⟩
    | false =>
      obtain ⟨hu, hobject, hlog, hpc⟩ := h.act_other ha hact
      rw [List.countP_cons_of_neg (by simp [ha])] at hsteps
      obtain ⟨op, hprefix⟩ := ih hu (by rwa [hobject, hpc]) hsteps hrest
      exact ⟨op, hlog ▸ hprefix⟩

end Holder

end Mcts.LockedObjects
