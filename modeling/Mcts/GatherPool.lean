import Mathlib.Algebra.Order.BigOperators.Group.List
import Mathlib.Algebra.Order.Ring.Nat
import Mathlib.Data.List.Perm.Subperm
import Mathlib.Logic.Function.Basic
import Mathlib.Logic.Relation

/-!
The gather phase: the handlers, a pool of jobs and the loop that feeds it. The jobs
append to their shards while the loop counts lines, and may end or break the pool at
any moment; an exception may come anywhere. However the steps interleave, each worker
has one job at most, and the loop ends with enough lines and no job at work.
-/
namespace Mcts.GatherPool

structure Args where
  numGatherers : ℕ
  numHandlers : ℕ
  gatherThreshold : ℕ

/-- A value of `future_to_worker`, and whether the job of its future has ended. -/
structure Future where
  worker : ℕ
  done : Bool

/-- Where `run_gather_phase` is. A count remembers the total when the shards were
listed, for the record only. -/
inductive Pc
  | starting
  | seeding (k : ℕ)
  | waiting
  | handling (worker : ℕ)
  | counting (worker : ℕ) (left : List ℕ) (total base : ℕ)
  | submitting (worker base : ℕ)
  | shutdown (raised : Bool)
  | stopping (raised : Bool)
  | saving
  | returned
  | failed

/-- Orchestrator, executor and shard directory. Worker `k` appends to the file `k`;
other files may be there from before. The handlers are those started and not waited
for. For the record only: submissions and handled futures are counted, and it is kept
whether an exception hit the exit of the executor or the start or stop of the handlers. -/
structure World where
  futures : List Future
  broken : Bool
  thresholdReached : Bool
  files : List ℕ
  lines : ℕ → ℕ
  handlers : ℕ
  pc : Pc
  submitted : ℕ
  handled : ℕ
  joinCut : Bool
  handlersCut : Bool

namespace World

def workers (w : World) : List ℕ := w.futures.map (·.worker)

/-- The jobs that are queued or at work. -/
def running (w : World) : List ℕ := (w.futures.filter fun f => !f.done).map (·.worker)

def totalLines (w : World) : ℕ := (w.files.map w.lines).sum

def submit (worker : ℕ) (pc : Pc) (w : World) : World :=
  { w with futures := w.futures ++ [⟨worker, false⟩], submitted := w.submitted + 1, pc := pc }

def write (worker k : ℕ) (w : World) : World :=
  { w with
    files := if worker ∈ w.files then w.files else w.files ++ [worker]
    lines := Function.update w.lines worker
      ((if worker ∈ w.files then w.lines worker else 0) + k) }

end World

/-- The body of the `with` block: an exception leads to the exit of the executor. -/
def Pc.guarded : Pc → Bool
  | .seeding _ | .waiting | .handling _ | .counting _ _ _ _ | .submitting _ _ => true
  | _ => false

/-- From the start of the last handler to the stop of the first. -/
def Pc.staffed : Pc → Bool
  | .shutdown _ => true
  | pc => pc.guarded

variable {args : Args} {w w' : World}

inductive Step (args : Args) (w : World) : World → Prop
  | start : w.pc = .starting → w.handlers < args.numHandlers →
      Step args w { w with handlers := w.handlers + 1 }
  | startRaises : w.pc = .starting → Step args w { w with handlersCut := true, pc := .failed }
  | started : w.pc = .starting → w.handlers = args.numHandlers →
      Step args w { w with pc := .seeding 0 }
  | seed {k : ℕ} : w.pc = .seeding k → k < args.numGatherers → w.broken = false →
      Step args w (w.submit k (.seeding (k + 1)))
  | seedFails {k : ℕ} : w.pc = .seeding k → k < args.numGatherers → w.broken = true →
      Step args w { w with pc := .shutdown true }
  | seeded : w.pc = .seeding args.numGatherers → Step args w { w with pc := .waiting }
  | take {before after : List Future} {worker : ℕ} : w.pc = .waiting →
      w.futures = before ++ ⟨worker, true⟩ :: after →
      Step args w { w with
        futures := before ++ after, handled := w.handled + 1, pc := .handling worker }
  | drained : w.pc = .waiting → w.futures = [] →
      Step args w { w with pc := .shutdown false }
  | skip {worker : ℕ} : w.pc = .handling worker → w.thresholdReached = true →
      Step args w { w with pc := .waiting }
  | glob {worker : ℕ} {names : List ℕ} : w.pc = .handling worker → w.thresholdReached = false →
      names.Perm w.files → Step args w { w with pc := .counting worker names 0 w.totalLines }
  | read {worker name total base : ℕ} {left : List ℕ} :
      w.pc = .counting worker (name :: left) total base →
      Step args w { w with pc := .counting worker left (total + w.lines name) base }
  | reached {worker total base : ℕ} : w.pc = .counting worker [] total base →
      args.gatherThreshold ≤ total → Step args w { w with thresholdReached := true, pc := .waiting }
  | below {worker total base : ℕ} : w.pc = .counting worker [] total base →
      total < args.gatherThreshold → Step args w { w with pc := .submitting worker base }
  | resubmit {worker base : ℕ} : w.pc = .submitting worker base → w.broken = false →
      Step args w (w.submit worker .waiting)
  | resubmitFails {worker base : ℕ} : w.pc = .submitting worker base → w.broken = true →
      Step args w { w with pc := .shutdown true }
  | raise : w.pc.guarded = true → Step args w { w with pc := .shutdown true }
  | joined {raised : Bool} : w.pc = .shutdown raised → w.running = [] →
      Step args w { w with pc := .stopping raised }
  | joinRaises {raised : Bool} : w.pc = .shutdown raised →
      Step args w { w with joinCut := true, pc := .stopping true }
  | stop {raised : Bool} {left : ℕ} : w.pc = .stopping raised → w.handlers = left + 1 →
      Step args w { w with handlers := left }
  | stopRaises {raised : Bool} : w.pc = .stopping raised →
      Step args w { w with handlersCut := true, pc := .failed }
  | stopped {raised : Bool} : w.pc = .stopping raised → w.handlers = 0 →
      Step args w { w with pc := if raised then .failed else .saving }
  | saved : w.pc = .saving → Step args w { w with pc := .returned }
  | saveFails : w.pc = .saving → Step args w { w with pc := .failed }
  | write {worker : ℕ} (k : ℕ) : worker ∈ w.running → Step args w (w.write worker k)
  | finish {before after : List Future} {worker : ℕ} :
      w.futures = before ++ ⟨worker, false⟩ :: after →
      Step args w { w with futures := before ++ ⟨worker, true⟩ :: after }
  | crash : Step args w { w with
      broken := true, futures := w.futures.map fun f => { f with done := true } }

abbrev Steps (args : Args) : World → World → Prop := Relation.ReflTransGen (Step args)

/-- The phase begins without handlers; shards may be left from an earlier run. -/
structure Fresh (w : World) : Prop where
  pc : w.pc = .starting
  futures : w.futures = []
  broken : w.broken = false
  thresholdReached : w.thresholdReached = false
  files : w.files.Nodup
  handlers : w.handlers = 0
  submitted : w.submitted = 0
  handled : w.handled = 0
  joinCut : w.joinCut = false
  handlersCut : w.handlersCut = false

section Invariant

def World.AtPc (args : Args) (w : World) : Prop :=
  match w.pc with
  | .starting => w.futures = [] ∧ w.thresholdReached = false
  | .seeding k => k ≤ args.numGatherers ∧ w.thresholdReached = false ∧ w.workers = List.range k
  | .waiting => w.workers.Subperm (List.range args.numGatherers) ∧
      (w.thresholdReached = false → w.workers.Perm (List.range args.numGatherers))
  | .handling worker => (worker :: w.workers).Subperm (List.range args.numGatherers) ∧
      (w.thresholdReached = false → (worker :: w.workers).Perm (List.range args.numGatherers))
  | .counting worker left total base => w.thresholdReached = false ∧
      (worker :: w.workers).Perm (List.range args.numGatherers) ∧
      (∃ read, (read ++ left).Subperm w.files ∧ total ≤ (read.map w.lines).sum) ∧
      base ≤ total + (left.map w.lines).sum
  | .submitting worker base => w.thresholdReached = false ∧
      (worker :: w.workers).Perm (List.range args.numGatherers) ∧ base < args.gatherThreshold
  | .shutdown raised => w.workers.Subperm (List.range args.numGatherers) ∧
      (raised = false → w.futures = [] ∧ (0 < args.numGatherers → w.thresholdReached = true))
  | .stopping raised => (w.joinCut = false → w.running = []) ∧
      (raised = false → w.futures = [] ∧ (0 < args.numGatherers → w.thresholdReached = true))
  | .saving | .returned => w.handlers = 0 ∧ w.futures = [] ∧
      (0 < args.numGatherers → w.thresholdReached = true)
  | .failed => (w.joinCut = false → w.running = []) ∧ (w.handlersCut = false → w.handlers = 0)

structure World.Sound (args : Args) (w : World) : Prop where
  files : w.files.Nodup
  workers : w.workers.Subperm (List.range args.numGatherers)
  counted : w.submitted = w.handled + w.futures.length
  reached : w.thresholdReached = true → args.gatherThreshold ≤ w.totalLines
  handlers : w.pc.staffed = true → w.handlers = args.numHandlers
  atPc : w.AtPc args

theorem running_sublist (w : World) : w.running.Sublist w.workers :=
  List.Sublist.map _ List.filter_sublist

theorem running_nil (h : w.futures = []) : w.running = [] := by
  rw [World.running, h]
  rfl

@[simp] theorem workers_submit (k : ℕ) (pc : Pc) : (w.submit k pc).workers = w.workers ++ [k] := by
  simp [World.workers, World.submit]

/-- What the jobs do on their own keeps what holds of the orchestrator. -/
theorem World.AtPc.mono (h : w.AtPc args) (hpc : w'.pc = w.pc)
    (hflag : w'.thresholdReached = w.thresholdReached) (hhandlers : w'.handlers = w.handlers)
    (hjoin : w'.joinCut = w.joinCut) (hcut : w'.handlersCut = w.handlersCut)
    (hworkers : w'.workers = w.workers)
    (hrunning : w.running = [] → w'.running = []) (hfiles : w.files.Subperm w'.files)
    (hlines : ∀ name ∈ w.files, w.lines name ≤ w'.lines name) : w'.AtPc args := by
  have hfutures : w.futures = [] → w'.futures = [] := by
    intro hnil
    rw [World.workers, World.workers, hnil, List.map_nil] at hworkers
    exact List.map_eq_nil_iff.mp hworkers
  unfold World.AtPc at h ⊢
  rw [hpc, hflag, hworkers, hhandlers, hjoin, hcut]
  cases hw : w.pc with
  | starting =>
    simp only [hw] at h
    exact ⟨hfutures h.1, h.2⟩
  | seeding k => simpa only [hw] using h
  | waiting => simpa only [hw] using h
  | handling worker => simpa only [hw] using h
  | counting worker left total base =>
    simp only [hw] at h
    obtain ⟨hopen, hperm, ⟨read, hread, htotal⟩, hbase⟩ := h
    have hgrows : ∀ names : List ℕ, names ⊆ w.files →
        (names.map w.lines).sum ≤ (names.map w'.lines).sum :=
      fun names hsub => List.sum_le_sum fun name hname => hlines name (hsub hname)
    have hleft : left ⊆ w.files := fun name hname =>
      hread.subset (List.mem_append_right read hname)
    have hread' : read ⊆ w.files := fun name hname =>
      hread.subset (List.mem_append_left left hname)
    exact ⟨hopen, hperm, ⟨read, hread.trans hfiles, htotal.trans (hgrows read hread')⟩,
      hbase.trans (Nat.add_le_add_left (hgrows left hleft) total)⟩
  | submitting worker base => simpa only [hw] using h
  | shutdown raised =>
    simp only [hw] at h
    exact ⟨h.1, fun hraised => ⟨hfutures (h.2 hraised).1, (h.2 hraised).2⟩⟩
  | stopping raised =>
    simp only [hw] at h
    exact ⟨fun hjoin => hrunning (h.1 hjoin),
      fun hraised => ⟨hfutures (h.2 hraised).1, (h.2 hraised).2⟩⟩
  | saving =>
    simp only [hw] at h
    exact ⟨h.1, hfutures h.2.1, h.2.2⟩
  | returned =>
    simp only [hw] at h
    exact ⟨h.1, hfutures h.2.1, h.2.2⟩
  | failed =>
    simp only [hw] at h
    exact ⟨fun hjoin => hrunning (h.1 hjoin), h.2⟩

theorem lines_write {worker name : ℕ} (k : ℕ) (h : name ∈ w.files) :
    w.lines name ≤ (w.write worker k).lines name := by
  rw [World.write]
  dsimp only
  by_cases hname : name = worker
  · subst hname
    rw [Function.update_self, if_pos h]
    exact Nat.le_add_right _ k
  · rw [Function.update_of_ne hname]

theorem files_write (worker k : ℕ) : w.files.Sublist (w.write worker k).files := by
  rw [World.write]
  dsimp only
  split
  · exact List.Sublist.refl _
  · exact List.sublist_append_left _ _

theorem sum_le_of_subperm (lines : ℕ → ℕ) {read files : List ℕ} (h : read.Subperm files) :
    (read.map lines).sum ≤ (files.map lines).sum := by
  obtain ⟨names, hperm, hsub⟩ := h
  rw [← (hperm.map lines).sum_eq]
  exact (hsub.map lines).sum_le_sum fun _ _ => Nat.zero_le _

/-- Appending to a shard does not lower the total. -/
theorem totalLines_write (worker k : ℕ) : w.totalLines ≤ (w.write worker k).totalLines := by
  have hgrows : w.totalLines ≤ (w.files.map (w.write worker k).lines).sum :=
    List.sum_le_sum fun name hname => lines_write k hname
  exact hgrows.trans (sum_le_of_subperm _ (files_write worker k).subperm)

theorem nodup_files_write (h : w.files.Nodup) (worker k : ℕ) : (w.write worker k).files.Nodup := by
  rw [World.write]
  dsimp only
  split
  · exact h
  · next hnew => exact List.nodup_append.mpr ⟨h, by simp,
      fun a ha b hb heq => hnew (List.mem_singleton.mp hb ▸ heq ▸ ha)⟩

/-- The jobs that end on their own stay in the table. -/
theorem World.Sound.ended (h : w.Sound args) {futures : List Future} (broken : Bool)
    (hworkers : futures.map (·.worker) = w.workers)
    (hrunning : w.running = [] →
      (futures.filter fun f => !f.done).map (·.worker) = []) :
    World.Sound args { w with futures := futures, broken := broken } where
  files := h.files
  workers := by
    show (futures.map (·.worker)).Subperm _
    rw [hworkers]
    exact h.workers
  counted := by
    have hlength := congrArg List.length hworkers
    rw [World.workers, List.length_map, List.length_map] at hlength
    rw [h.counted, ← hlength]
  reached := h.reached
  handlers := h.handlers
  atPc := h.atPc.mono rfl rfl rfl rfl rfl hworkers hrunning (List.Subperm.refl _) fun _ _ => le_rfl

/-- The orchestrator moves on without touching the table. -/
theorem World.Sound.move (h : w.Sound args) (pc : Pc)
    (hup : pc.staffed = true → w.handlers = args.numHandlers)
    (hpc : World.AtPc args { w with pc := pc }) : World.Sound args { w with pc := pc } :=
  ⟨h.files, h.workers, h.counted, h.reached, hup, hpc⟩

theorem World.Sound.raise (h : w.Sound args) (hup : w.handlers = args.numHandlers) :
    World.Sound args { w with pc := .shutdown true } :=
  h.move _ (fun _ => hup) ⟨h.workers, fun hraised => absurd hraised (by simp)⟩

theorem World.Sound.submit (h : w.Sound args) (hup : w.handlers = args.numHandlers)
    {worker : ℕ} {pc : Pc}
    (hworkers : (w.workers ++ [worker]).Subperm (List.range args.numGatherers))
    (hpc : (w.submit worker pc).AtPc args) : (w.submit worker pc).Sound args where
  files := h.files
  workers := by rwa [workers_submit]
  counted := by
    show w.submitted + 1 = w.handled + (w.futures ++ [_]).length
    rw [h.counted, List.length_append, List.length_singleton, Nat.add_assoc]
  reached := h.reached
  handlers _ := hup
  atPc := hpc

theorem staffed_of_guarded {pc : Pc} (h : pc.guarded = true) : pc.staffed = true := by
  cases pc with
  | shutdown raised => rfl
  | _ => exact h

/-- Handlers come and go where no job is to be served. -/
theorem World.Sound.count (h : w.Sound args) (handlers : ℕ)
    (hpc : w.pc = .starting ∨ ∃ raised, w.pc = .stopping raised) :
    World.Sound args { w with handlers := handlers } := by
  have hat := h.atPc
  unfold World.AtPc at hat
  refine ⟨h.files, h.workers, h.counted, h.reached, fun hstaffed => ?_, ?_⟩
  · rcases hpc with hpc | ⟨raised, hpc⟩
    · rw [hpc] at hstaffed
      exact absurd hstaffed Bool.false_ne_true
    · rw [hpc] at hstaffed
      exact absurd hstaffed Bool.false_ne_true
  · unfold World.AtPc
    dsimp only
    rcases hpc with hpc | ⟨raised, hpc⟩
    · rw [hpc] at hat ⊢
      exact hat
    · rw [hpc] at hat ⊢
      exact hat

/-- The worker of a future that has ended leaves the table. -/
theorem World.Sound.take (h : w.Sound args) {before after : List Future} {worker : ℕ}
    (hpc : w.pc = .waiting) (hfutures : w.futures = before ++ ⟨worker, true⟩ :: after) :
    World.Sound args { w with
      futures := before ++ after, handled := w.handled + 1, pc := .handling worker } := by
  have hat := h.atPc
  have hup := h.handlers
  unfold World.AtPc at hat
  rw [hpc] at hat hup
  have hperm : w.workers.Perm (worker :: (before ++ after).map (·.worker)) := by
    rw [World.workers, hfutures]
    exact List.perm_middle.map _
  have hsub := hperm.subperm_right.mp hat.1
  have hcounted : w.submitted = w.handled + 1 + (before ++ after).length := by
    have hlength := congrArg List.length hfutures
    have hbefore := h.counted
    simp only [List.length_append, List.length_cons] at hlength ⊢
    omega
  exact ⟨h.files, (List.sublist_cons_self _ _).subperm.trans hsub, hcounted, h.reached,
    fun _ => hup rfl, hsub, fun hopen => hperm.symm.trans (hat.2 hopen)⟩

theorem World.Sound.step (h : w.Sound args) (hstep : Step args w w') :
    w'.Sound args := by
  have hat := h.atPc
  have hup := h.handlers
  unfold World.AtPc at hat
  cases hstep with
  | start hpc _ => exact h.count _ (.inl hpc)
  | startRaises hpc =>
    rw [hpc] at hat
    exact ⟨h.files, h.workers, h.counted, h.reached, nofun,
      fun _ => running_nil hat.1, fun hcut => absurd hcut (by simp)⟩
  | started hpc hup =>
    rw [hpc] at hat
    refine h.move _ (fun _ => hup) ⟨Nat.zero_le _, hat.2, ?_⟩
    rw [World.workers, hat.1]
    rfl
  | @seed k hpc hk _ =>
    rw [hpc] at hat hup
    obtain ⟨_, hopen, hworkers⟩ := hat
    have hnext : w.workers ++ [k] = List.range (k + 1) := by rw [hworkers, List.range_succ]
    have hsub : (List.range (k + 1)).Subperm (List.range args.numGatherers) :=
      (List.range_sublist.mpr hk).subperm
    exact h.submit (hup rfl) (hnext ▸ hsub)
      ⟨hk, hopen, (workers_submit k _).trans hnext⟩
  | seedFails hpc _ _ =>
    rw [hpc] at hup
    exact h.raise (hup rfl)
  | seeded hpc =>
    rw [hpc] at hat hup
    obtain ⟨_, _, hworkers⟩ := hat
    exact h.move _ (fun _ => hup rfl) ⟨h.workers, fun _ => hworkers ▸ List.Perm.refl _⟩
  | take hpc hfutures => exact h.take hpc hfutures
  | drained hpc hfutures =>
    rw [hpc] at hat hup
    refine h.move _ (fun _ => hup rfl) ⟨h.workers, fun _ => ⟨hfutures, fun hn => ?_⟩⟩
    by_contra hopen
    rw [Bool.not_eq_true] at hopen
    have hlength := (hat.2 hopen).length_eq
    rw [World.workers, hfutures, List.length_range] at hlength
    exact hn.ne hlength
  | skip hpc hflag =>
    rw [hpc] at hup
    exact h.move _ (fun _ => hup rfl)
      ⟨h.workers, fun hopen => absurd (hflag.symm.trans hopen) (by simp)⟩
  | @glob worker names hpc hopen hnames =>
    rw [hpc] at hat hup
    refine h.move _ (fun _ => hup rfl)
      ⟨hopen, hat.2 hopen, ⟨[], hnames.subperm, le_rfl⟩, ?_⟩
    rw [Nat.zero_add]
    exact (hnames.map w.lines).sum_eq.ge
  | @read worker name total base left hpc =>
    rw [hpc] at hat hup
    obtain ⟨hopen, hperm, ⟨read, hread, htotal⟩, hbase⟩ := hat
    refine h.move _ (fun _ => hup rfl) ⟨hopen, hperm, ⟨read ++ [name], ?_, ?_⟩, ?_⟩
    · rwa [List.append_assoc, List.singleton_append]
    · rw [List.map_append, List.sum_append, List.map_singleton, List.sum_singleton]
      exact Nat.add_le_add_right htotal _
    · rwa [List.map_cons, List.sum_cons, ← Nat.add_assoc] at hbase
  | @reached worker total base hpc hreached =>
    rw [hpc] at hat hup
    obtain ⟨_, hperm, ⟨read, hread, htotal⟩, _⟩ := hat
    rw [List.append_nil] at hread
    refine ⟨h.files, h.workers, h.counted, fun _ => ?_, fun _ => hup rfl,
      h.workers, fun hopen => absurd hopen (by simp)⟩
    exact hreached.trans (htotal.trans (sum_le_of_subperm w.lines hread))
  | @below worker total base hpc hbelow =>
    rw [hpc] at hat hup
    obtain ⟨hopen, hperm, _, hbase⟩ := hat
    exact h.move _ (fun _ => hup rfl) ⟨hopen, hperm, hbase.trans_lt hbelow⟩
  | @resubmit worker base hpc _ =>
    rw [hpc] at hat hup
    obtain ⟨_, hperm, _⟩ := hat
    have hperm' : (w.workers ++ [worker]).Perm (List.range args.numGatherers) :=
      (List.perm_append_singleton worker w.workers).trans hperm
    refine h.submit (hup rfl) hperm'.subperm ⟨?_, fun _ => ?_⟩
    · rw [workers_submit]
      exact hperm'.subperm
    · rw [workers_submit]
      exact hperm'
  | resubmitFails hpc _ =>
    rw [hpc] at hup
    exact h.raise (hup rfl)
  | raise hguarded => exact h.raise (hup (staffed_of_guarded hguarded))
  | joined hpc hrunning =>
    rw [hpc] at hat
    exact h.move _ (nofun) ⟨fun _ => hrunning, hat.2⟩
  | joinRaises hpc =>
    exact ⟨h.files, h.workers, h.counted, h.reached, nofun,
      fun hjoin => absurd hjoin (by simp), fun hraised => absurd hraised (by simp)⟩
  | @stop raised _ hpc _ => exact h.count _ (.inr ⟨raised, hpc⟩)
  | stopRaises hpc =>
    rw [hpc] at hat
    exact ⟨h.files, h.workers, h.counted, h.reached, nofun,
      hat.1, fun hcut => absurd hcut (by simp)⟩
  | @stopped raised hpc hdown =>
    rw [hpc] at hat
    cases raised with
    | true =>
      exact h.move .failed (nofun) ⟨hat.1, fun _ => hdown⟩
    | false =>
      exact h.move .saving (nofun) ⟨hdown, hat.2 rfl⟩
  | saved hpc =>
    rw [hpc] at hat
    exact h.move _ (nofun) hat
  | saveFails hpc =>
    rw [hpc] at hat
    exact h.move _ (nofun)
      ⟨fun _ => running_nil hat.2.1, fun _ => hat.1⟩
  | @write worker k _ =>
    exact ⟨nodup_files_write h.files worker k, h.workers, h.counted,
      fun hflag => (h.reached hflag).trans (totalLines_write worker k), h.handlers,
      h.atPc.mono rfl rfl rfl rfl rfl rfl id (files_write worker k).subperm fun _ => lines_write k⟩
  | @finish before after worker hfutures =>
    refine h.ended w.broken ?_ fun hrunning => ?_
    · rw [World.workers, hfutures, List.map_append, List.map_append]
      rfl
    · rw [World.running, hfutures] at hrunning
      simp at hrunning
  | crash =>
    refine h.ended true ?_ fun _ => ?_
    · rw [List.map_map]
      rfl
    · simp

theorem Fresh.sound (h : Fresh w) : w.Sound args where
  files := h.files
  workers := by
    rw [World.workers, h.futures]
    exact List.nil_subperm
  counted := by rw [h.submitted, h.handled, h.futures, List.length_nil]
  reached hflag := by
    rw [h.thresholdReached] at hflag
    exact absurd hflag (by simp)
  handlers hstaffed := by
    rw [h.pc] at hstaffed
    exact absurd hstaffed Bool.false_ne_true
  atPc := by
    rw [World.AtPc, h.pc]
    exact ⟨h.futures, h.thresholdReached⟩

theorem Fresh.sound_run (h : Fresh w) (hrun : Steps args w w') : w'.Sound args := by
  induction hrun with
  | refl => exact h.sound
  | tail _ hstep ih => exact ih.step hstep

end Invariant

section Phase

variable {w₀ : World}

/-- No job is at work while handlers are missing, unless an exception hit the exit of
the executor. -/
theorem World.Sound.running_nil (h : w.Sound args) (hjoin : w.joinCut = false)
    (hpc : w.pc.staffed = false) : w.running = [] := by
  have hat := h.atPc
  unfold World.AtPc at hat
  cases hw : w.pc with
  | starting =>
    rw [hw] at hat
    exact GatherPool.running_nil hat.1
  | stopping raised =>
    rw [hw] at hat
    exact hat.1 hjoin
  | saving =>
    rw [hw] at hat
    exact GatherPool.running_nil hat.2.1
  | returned =>
    rw [hw] at hat
    exact GatherPool.running_nil hat.2.1
  | failed =>
    rw [hw] at hat
    exact hat.1 hjoin
  | _ =>
    rw [hw] at hpc
    exact absurd hpc (by simp [Pc.staffed, Pc.guarded])

/-- After the threshold nothing is submitted any more. -/
theorem World.Sound.closed (h : w.Sound args) (hflag : w.thresholdReached = true)
    (hrun : Steps args w w') :
    w'.Sound args ∧ w'.thresholdReached = true ∧ w'.submitted = w.submitted := by
  induction hrun with
  | refl => exact ⟨h, hflag, rfl⟩
  | @tail v v' _ hstep ih =>
    obtain ⟨hv, hflag', hsame⟩ := ih
    refine ⟨hv.step hstep, ?_⟩
    have hat := hv.atPc
    unfold World.AtPc at hat
    cases hstep with
    | seed hpc _ _ =>
      rw [hpc] at hat
      exact absurd (hflag'.symm.trans hat.2.1) (by simp)
    | resubmit hpc _ =>
      rw [hpc] at hat
      exact absurd (hflag'.symm.trans hat.1) (by simp)
    | reached _ _ => exact ⟨rfl, hsame⟩
    | _ => exact ⟨hflag', hsame⟩

/-- Whatever the jobs do, and wherever exceptions come: each worker has at most one job
in flight, so each shard has one writer; all handlers are up while a job is at work, unless
an exception hit the exit of the executor, which then stops waiting; until the threshold is
reached no worker is lost, a job is resubmitted only if the shards held too few lines when
they were listed, and nothing is submitted after it. A phase that returns has handled every
job it submitted and left enough lines. One that fails leaves no job at work, with the same
exception, and no handler, unless an exception hit their start or stop. -/
theorem gather_phase (h₀ : Fresh w₀) (hrun : Steps args w₀ w) :
    (w.running.Nodup ∧ ∀ worker ∈ w.running, worker < args.numGatherers) ∧
    (w.running ≠ [] → w.joinCut = false → w.handlers = args.numHandlers) ∧
    (w.pc = .waiting → w.thresholdReached = false →
      w.workers.Perm (List.range args.numGatherers)) ∧
    (∀ worker base, w.pc = .submitting worker base → base < args.gatherThreshold) ∧
    (w.thresholdReached = true → args.gatherThreshold ≤ w.totalLines ∧
      ∀ w', Steps args w w' → w'.submitted = w.submitted) ∧
    (w.pc = .returned → w.running = [] ∧ w.handlers = 0 ∧ w.handled = w.submitted ∧
      (0 < args.numGatherers → args.gatherThreshold ≤ w.totalLines)) ∧
    (w.pc = .failed → (w.joinCut = false → w.running = []) ∧
      (w.handlersCut = false → w.handlers = 0)) := by
  have h := h₀.sound_run hrun
  have hat := h.atPc
  unfold World.AtPc at hat
  have hworkers : w.running.Subperm (List.range args.numGatherers) :=
    (running_sublist w).subperm.trans h.workers
  refine ⟨⟨?_, ?_⟩, ?_, ?_, ?_, ?_, ?_, ?_⟩
  · obtain ⟨names, hperm, hsub⟩ := hworkers
    exact hperm.nodup_iff.mp (hsub.nodup List.nodup_range)
  · intro worker hworker
    exact List.mem_range.mp (hworkers.subset hworker)
  · intro hbusy hjoin
    apply h.handlers
    by_contra hstaffed
    exact hbusy (h.running_nil hjoin (Bool.not_eq_true _ ▸ hstaffed))
  · intro hpc hopen
    rw [hpc] at hat
    exact hat.2 hopen
  · intro worker base hpc
    rw [hpc] at hat
    exact hat.2.2
  · exact fun hflag => ⟨h.reached hflag, fun w' hrun' => (h.closed hflag hrun').2.2⟩
  · intro hpc
    rw [hpc] at hat
    refine ⟨GatherPool.running_nil hat.2.1, hat.1, ?_, fun hn => h.reached (hat.2.2 hn)⟩
    rw [h.counted, hat.2.1, List.length_nil, Nat.add_zero]
  · intro hpc
    rw [hpc] at hat
    exact hat

def oneWorker : Args := ⟨1, 2, 1⟩

def noShards : World := ⟨[], false, false, [], fun _ => 0, 0, .starting, 0, 0, false, false⟩

def seeded : World :=
  { noShards with futures := [⟨0, false⟩], handlers := 2, pc := .waiting, submitted := 1 }

theorem oneWorker_seeded : Steps oneWorker noShards seeded := by
  have hone : Steps oneWorker noShards { noShards with handlers := 1 } :=
    .single (.start rfl (by decide))
  have htwo := (hone.tail (.start rfl (by decide))).tail (.started rfl rfl)
  exact (htwo.tail (.seed rfl (by decide) rfl)).tail (.seeded rfl)

/-- The job writes two lines and ends; that is enough. -/
theorem oneWorker_returns : ∃ w, Steps oneWorker seeded w ∧ w.pc = .returned := by
  have hwrite : Steps oneWorker seeded (seeded.write 0 2) :=
    .single (.write 2 (List.mem_singleton.mpr rfl))
  have htake := (hwrite.tail (@Step.finish _ _ [] [] 0 rfl)).tail (@Step.take _ _ [] [] 0 rfl rfl)
  have hcount := (htake.tail (@Step.glob _ _ 0 [0] rfl rfl (List.Perm.refl _))).tail (.read rfl)
  have hdrain := (hcount.tail (.reached rfl (by decide))).tail (.drained rfl rfl)
  have hstop := ((hdrain.tail (.joined rfl rfl)).tail (.stop rfl rfl)).tail (.stop rfl rfl)
  exact ⟨_, (hstop.tail (.stopped rfl rfl)).tail (.saved rfl), rfl⟩

/-- Two interrupts, the second while the executor waits for the job. -/
theorem oneWorker_fails : ∃ w, Steps oneWorker seeded w ∧ w.pc = .failed ∧ w.running = [0] ∧
    w.handlersCut = false := by
  have hraise : Steps oneWorker seeded { seeded with pc := .shutdown true } :=
    .single (.raise rfl)
  have hstop := ((hraise.tail (.joinRaises rfl)).tail (.stop rfl rfl)).tail (.stop rfl rfl)
  exact ⟨_, hstop.tail (.stopped rfl rfl), rfl, rfl, rfl⟩

/-- One run returns with its lines; the other leaves a job at work without handlers. -/
theorem gather_phase_one :
    (∃ w, Steps oneWorker noShards w ∧ w.pc = .returned ∧ w.handled = w.submitted ∧
      1 ≤ w.totalLines) ∧
    ∃ w, Steps oneWorker noShards w ∧ w.pc = .failed ∧ w.running = [0] ∧ w.handlers = 0 := by
  have hfresh : Fresh noShards := ⟨rfl, rfl, rfl, rfl, List.nodup_nil, rfl, rfl, rfl, rfl, rfl⟩
  obtain ⟨w, hreturns, hpc⟩ := oneWorker_returns
  obtain ⟨w', hfails, hpc', hbusy, hcut⟩ := oneWorker_fails
  have hrun := oneWorker_seeded.trans hreturns
  have hrun' := oneWorker_seeded.trans hfails
  obtain ⟨-, -, -, -, -, hreturned, -⟩ := gather_phase hfresh hrun
  obtain ⟨-, -, hhandled, hlines⟩ := hreturned hpc
  obtain ⟨-, -, -, -, -, -, hfailed⟩ := gather_phase hfresh hrun'
  exact ⟨⟨w, hrun, hpc, hhandled, hlines Nat.one_pos⟩,
    ⟨w', hrun', hpc', hbusy, (hfailed hpc').2 hcut⟩⟩

end Phase

end Mcts.GatherPool
