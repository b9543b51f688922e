import Mathlib
import LfsXv6.Lib.Run

/-!
# Proc — the process table

The operations that allocate, end, reap and kill processes, each with the fields of `struct proc` that
decide who is alive: state, pid, parent, channel and the killed flag.  The steps are those that
`ptable.lock` delimits; `fork` takes two, as it runs without the lock once its slot is an embryo.
-/

namespace LfsXv6
namespace Xv6

open Lib

/-- `NPROC` -/
abbrev nproc : Nat := 64

instance neZeroProcs : NeZero 64 := ⟨by decide⟩

inductive ProcState where
  | unused
  | embryo
  | sleeping
  | runnable
  | running
  | zombie
  deriving DecidableEq, Repr

/-- Sleep channels: the addresses of process slots, which `wait` sleeps on, and all others. -/
inductive Chan where
  | proc (i : Fin nproc)
  | addr (a : Nat)
  deriving DecidableEq, Repr

structure Proc where
  state : ProcState
  /-- `pid` is an `int`; the counter it comes from wraps around. -/
  pid : Int32
  parent : Option (Fin nproc)
  chan : Option Chan
  killed : Bool
  deriving DecidableEq, Repr

structure Ptable where
  proc : Fin nproc → Proc
  nextpid : Int32
  initproc : Fin nproc

namespace Ptable

def set (t : Ptable) (i : Fin nproc) (p : Proc) : Ptable :=
  { t with proc := Function.update t.proc i p }

/-- The first slot in the order of the table with a given property. -/
def find (t : Ptable) (f : Proc → Bool) : Option (Fin nproc) :=
  (List.finRange nproc).find? fun i => f (t.proc i)

/-- `wakeup1` -/
def wakeup1 (t : Ptable) (chan : Chan) : Ptable :=
  { t with
    proc := fun i =>
      if (t.proc i).state = .sleeping ∧ (t.proc i).chan = some chan then
        { t.proc i with state := .runnable }
      else t.proc i }

/-- `allocproc` up to the release of the lock. -/
def allocproc (t : Ptable) : Option (Fin nproc × Ptable) :=
  match t.find fun p => p.state = .unused with
  | none => none
  | some i =>
      some (i, { t.set i { t.proc i with state := .embryo, pid := t.nextpid } with
        nextpid := t.nextpid + 1 })

/-- What `allocproc` does without a kernel stack, and `fork` without memory for the copy. -/
def giveUp (t : Ptable) (np : Fin nproc) : Ptable :=
  t.set np { t.proc np with state := .unused }

/-- The rest of a `fork` by process `i` that has its memory. -/
def forked (t : Ptable) (i np : Fin nproc) : Ptable :=
  t.set np { t.proc np with parent := some i, state := .runnable }

/-- The turn of `exit`'s loop at slot `j`. -/
def abandon (i : Fin nproc) (t : Ptable) (j : Fin nproc) : Ptable :=
  if (t.proc j).parent = some i then
    let t' := t.set j { t.proc j with parent := some t.initproc }
    if (t'.proc j).state = .zombie then t'.wakeup1 (.proc t.initproc) else t'
  else t

def wakeParent (t : Ptable) (i : Fin nproc) : Ptable :=
  match (t.proc i).parent with
  | some p => t.wakeup1 (.proc p)
  | none => t

/-- Pass the children of process `i` to `initproc`. -/
def abandonAll (t : Ptable) (i : Fin nproc) : Ptable :=
  (List.finRange nproc).foldl (abandon i) t

/-- `exit` by process `i`; its files and its directory are closed before. -/
def exit (t : Ptable) (i : Fin nproc) : Ptable :=
  let t' := (t.wakeParent i).abandonAll i
  t'.set i { t'.proc i with state := .zombie }

/-- What `wait` leaves of the slot it reaps. -/
def reaped (p : Proc) : Proc :=
  { p with state := .unused, pid := 0, parent := none, killed := false }

/-- One scan of `wait` by process `i`: the value it returns, if it does not go to sleep. -/
def wait (t : Ptable) (i : Fin nproc) : Option Int32 × Ptable :=
  match t.find fun p => p.parent = some i ∧ p.state = .zombie with
  | some j => (some (t.proc j).pid, t.set j (reaped (t.proc j)))
  | none =>
      if (t.find fun p => p.parent = some i) = none ∨ (t.proc i).killed = true then (some (-1), t)
      else (none, t.set i { t.proc i with state := .sleeping, chan := some (.proc i) })

/-- `kill`.  It takes the first slot with that pid, in whatever state. -/
def kill (t : Ptable) (pid : Int32) : Int × Ptable :=
  match t.find fun p => p.pid = pid with
  | none => (-1, t)
  | some i =>
      (0, t.set i
        { t.proc i with
          killed := true
          state := if (t.proc i).state = .sleeping then .runnable else (t.proc i).state })

/-- A process that has been allocated and not yet reaped. -/
def Live (t : Ptable) (i : Fin nproc) : Prop := (t.proc i).state ≠ .unused

instance (t : Ptable) (i : Fin nproc) : Decidable (t.Live i) :=
  inferInstanceAs (Decidable (_ ≠ _))

end Ptable

/-! ## Runs -/

/-- The table, for each process the slot its `fork` is working on, and, for the specification, which
processes have been named by a `kill` since they were allocated. -/
structure ProcRun where
  table : Ptable
  np : Fin nproc → Option (Fin nproc)
  named : Fin nproc → Bool

inductive ProcStep where
  | fork (i : Fin nproc)
  /-- `kalloc` fails for the kernel stack, or `copyuvm` does. -/
  | outOfMemory (i : Fin nproc)
  | forked (i : Fin nproc)
  | exit (i : Fin nproc)
  | wait (i : Fin nproc)
  | kill (pid : Int32)
  | run (i : Fin nproc)
  | yield (i : Fin nproc)
  | sleep (i : Fin nproc) (chan : Chan)
  | wakeup (chan : Chan)
  deriving DecidableEq

namespace ProcRun

/-- Process `i` is on a processor and not inside `fork`. -/
def Idle (s : ProcRun) (i : Fin nproc) : Prop :=
  (s.table.proc i).state = .running ∧ s.np i = none

def Admits (s : ProcRun) : ProcStep → Prop
  | .fork i => s.Idle i
  | .outOfMemory i => (s.table.proc i).state = .running ∧ s.np i ≠ none
  | .forked i => (s.table.proc i).state = .running ∧ s.np i ≠ none
  | .exit i => s.Idle i ∧ i ≠ s.table.initproc
  | .wait i => s.Idle i
  | .kill _ => True
  | .run i => (s.table.proc i).state = .runnable
  | .yield i => (s.table.proc i).state = .running
  | .sleep i _ => (s.table.proc i).state = .running
  | .wakeup _ => True

def step (s : ProcRun) : ProcStep → ProcRun
  | .fork i =>
      match s.table.allocproc with
      | none => s
      | some (j, t) =>
          { table := t
            np := Function.update s.np i (some j)
            named := Function.update s.named j false }
  | .outOfMemory i =>
      match s.np i with
      | none => s
      | some j => { s with table := s.table.giveUp j, np := Function.update s.np i none }
  | .forked i =>
      match s.np i with
      | none => s
      | some j => { s with table := s.table.forked i j, np := Function.update s.np i none }
  | .exit i => { s with table := s.table.exit i }
  | .wait i => { s with table := (s.table.wait i).2 }
  | .kill pid =>
      { s with
        table := (s.table.kill pid).2
        named := fun i => s.named i || decide (s.table.Live i ∧ (s.table.proc i).pid = pid) }
  | .run i =>
      -- a process that slept clears its channel as soon as it is back in `sleep`
      { s with table := s.table.set i { s.table.proc i with state := .running, chan := none } }
  | .yield i => { s with table := s.table.set i { s.table.proc i with state := .runnable } }
  | .sleep i chan =>
      { s with table := s.table.set i { s.table.proc i with state := .sleeping, chan := some chan } }
  | .wakeup chan => { s with table := s.table.wakeup1 chan }

instance (s : ProcRun) (i : Fin nproc) : Decidable (s.Idle i) :=
  inferInstanceAs (Decidable (_ ∧ _))

instance (s : ProcRun) : (st : ProcStep) → Decidable (s.Admits st)
  | .fork i => inferInstanceAs (Decidable (s.Idle i))
  | .outOfMemory _ => inferInstanceAs (Decidable (_ ∧ _ ≠ _))
  | .forked _ => inferInstanceAs (Decidable (_ ∧ _ ≠ _))
  | .exit i => inferInstanceAs (Decidable (s.Idle i ∧ _ ≠ _))
  | .wait i => inferInstanceAs (Decidable (s.Idle i))
  | .kill _ => inferInstanceAs (Decidable True)
  | .run _ => inferInstanceAs (Decidable (_ = _))
  | .yield _ => inferInstanceAs (Decidable (_ = _))
  | .sleep _ _ => inferInstanceAs (Decidable (_ = _))
  | .wakeup _ => inferInstanceAs (Decidable True)

/-- The state after `userinit`: `initproc` is ready to run, and the other slots are zero. -/
def booted : ProcRun where
  table :=
    { proc := fun i =>
        if i = 0 then ⟨.runnable, 1, none, none, false⟩ else ⟨.unused, 0, none, none, false⟩
      nextpid := 2
      initproc := 0 }
  np := fun _ => none
  named := fun _ => false

/-- Process `i` is killed only if a `kill` has named it. -/
def KilledByName (s : ProcRun) : Prop :=
  ∀ i, s.table.Live i → (s.table.proc i).killed = true → s.named i = true

/-- `kill(pid)` succeeds exactly for the pid of a process. -/
def KillFinds (s : ProcRun) (pid : Int32) : Prop :=
  (s.table.kill pid).1 = 0 ↔ ∃ i, s.table.Live i ∧ (s.table.proc i).pid = pid

/-- The steps that leave no flag behind: a `kill` whose pid is first met in the slot of a process, and
a failing `fork` whose embryo has not been killed. -/
def Tidy (s : ProcRun) : ProcStep → Prop
  | .kill pid => ∀ i, (s.table.find fun p => p.pid = pid) = some i → s.table.Live i
  | .outOfMemory i => ∀ j, s.np i = some j → (s.table.proc j).killed = false
  | _ => True

instance (s : ProcRun) (pid : Int32) : Decidable (s.KillFinds pid) :=
  inferInstanceAs (Decidable (_ ↔ _))

instance (s : ProcRun) : (st : ProcStep) → Decidable (s.Tidy st)
  | .kill pid => inferInstanceAs (Decidable
      (∀ i, (s.table.find fun p => p.pid = pid) = some i → s.table.Live i))
  | .outOfMemory i => inferInstanceAs (Decidable
      (∀ j, s.np i = some j → (s.table.proc j).killed = false))
  | .fork _ | .forked _ | .exit _ | .wait _ | .run _ | .yield _ | .sleep _ _ | .wakeup _ =>
      inferInstanceAs (Decidable True)

end ProcRun

/-! ## What a step does to the flags -/

namespace Ptable

variable {t t' : Ptable} {i j : Fin nproc} {p : Proc} {f : Proc → Bool}

@[simp]
theorem set_proc_self : (t.set i p).proc i = p := Function.update_self ..

theorem set_proc_of_ne (h : j ≠ i) : (t.set i p).proc j = t.proc j := Function.update_of_ne h ..

theorem find_eq_some (h : t.find f = some i) : f (t.proc i) = true := by
  unfold find at h
  have hf := List.find?_some h
  exact hf

theorem find_eq_none (h : t.find f = none) (i : Fin nproc) : f (t.proc i) = false := by
  unfold find at h
  simpa using List.find?_eq_none.mp h i (List.mem_finRange i)

/-- `t'` has the same processes as `t`, with the same flags and pids. -/
def Alike (t t' : Ptable) : Prop :=
  ∀ i, (t'.proc i).killed = (t.proc i).killed ∧ (t'.proc i).pid = (t.proc i).pid ∧
    (t'.Live i ↔ t.Live i)

theorem Alike.refl (t : Ptable) : Alike t t := fun _ => ⟨rfl, rfl, Iff.rfl⟩

theorem Alike.trans {t'' : Ptable} (h : Alike t t') (h' : Alike t' t'') : Alike t t'' :=
  fun i => ⟨(h' i).1.trans (h i).1, (h' i).2.1.trans (h i).2.1, (h' i).2.2.trans (h i).2.2⟩

theorem Alike.set (hkilled : p.killed = (t.proc i).killed) (hpid : p.pid = (t.proc i).pid)
    (hlive : p.state ≠ .unused ↔ t.Live i) : Alike t (t.set i p) := by
  intro j
  by_cases hji : j = i
  · subst hji
    simpa only [Live, set_proc_self] using ⟨hkilled, hpid, hlive⟩
  · simp only [Live, set_proc_of_ne hji, true_and]

theorem wakeup1_alike (t : Ptable) (chan : Chan) : Alike t (t.wakeup1 chan) := by
  intro i
  by_cases hw : (t.proc i).state = .sleeping ∧ (t.proc i).chan = some chan
  · simp [wakeup1, Live, hw]
  · simp [wakeup1, Live, hw]

theorem abandon_alike (t : Ptable) (i j : Fin nproc) : Alike t (abandon i t j) := by
  have hset : Alike t (t.set j { t.proc j with parent := some t.initproc }) :=
    Alike.set rfl rfl Iff.rfl
  unfold abandon
  split
  · simp only
    split
    · exact hset.trans (wakeup1_alike _ _)
    · exact hset
  · exact Alike.refl t

theorem foldl_abandon_alike (i : Fin nproc) (js : List (Fin nproc)) (t : Ptable) :
    Alike t (js.foldl (abandon i) t) := by
  induction js generalizing t with
  | nil => exact Alike.refl t
  | cons j js ih => exact (abandon_alike t i j).trans (ih _)

theorem Alike.zombie (h : Alike t t') (hi : t.Live i) :
    Alike t (t'.set i { t'.proc i with state := .zombie }) :=
  h.trans (Alike.set rfl rfl (iff_of_true (by simp) ((h i).2.2.mpr hi)))

theorem wakeParent_alike (t : Ptable) (i : Fin nproc) : Alike t (t.wakeParent i) := by
  unfold wakeParent
  cases (t.proc i).parent with
  | none => exact Alike.refl t
  | some p => exact wakeup1_alike t _

/-- Exiting is no end of the process: it stays in the table until it is reaped. -/
theorem exit_alike (h : t.Live i) : Alike t (t.exit i) := by
  have hloop : Alike t ((t.wakeParent i).abandonAll i) :=
    (wakeParent_alike t i).trans (foldl_abandon_alike i (List.finRange nproc) _)
  exact hloop.zombie h

theorem allocproc_eq_some (h : t.allocproc = some (i, t')) :
    ¬ t.Live i ∧
      t' = { t.set i { t.proc i with state := .embryo, pid := t.nextpid } with
        nextpid := t.nextpid + 1 } := by
  unfold allocproc at h
  cases hf : t.find fun p => p.state = .unused with
  | none => simp [hf] at h
  | some k =>
      simp only [hf, Option.some.injEq, Prod.mk.injEq] at h
      obtain ⟨rfl, rfl⟩ := h
      have hstate := find_eq_some hf
      exact ⟨by simpa [Live] using hstate, rfl⟩

end Ptable

namespace ProcRun

variable {s : ProcRun} {t : Ptable} {st : ProcStep} {i j : Fin nproc}

/-- No flag outlives its process, and no flag is there without a `kill`. -/
structure Clean (s : ProcRun) : Prop where
  free : ∀ i, ¬ s.table.Live i → (s.table.proc i).killed = false
  killed : s.KilledByName

namespace Clean

theorem booted : Clean booted where
  free i _ := by
    simp only [ProcRun.booted]
    split <;> rfl
  killed i _ h := by
    simp only [ProcRun.booted] at h
    split at h <;> cases h

theorem alike (h : Clean s) (ht : Ptable.Alike s.table t) : Clean { s with table := t } where
  free i hi := by
    rw [(ht i).1]
    exact h.free i (mt (ht i).2.2.mpr hi)
  killed i hi hk := by
    rw [(ht i).1] at hk
    exact h.killed i ((ht i).2.2.mp hi) hk

/-- A slot that is not flagged may change hands. -/
theorem set (h : Clean s) {p : Proc} {named : Fin nproc → Bool} (hp : p.killed = false)
    (hnamed : ∀ k, k ≠ j → named k = s.named k) :
    Clean { s with table := s.table.set j p, named := named } where
  free i hi := by
    by_cases hij : i = j
    · subst hij
      simpa using hp
    · simp only [Ptable.Live, Ptable.set_proc_of_ne hij] at hi ⊢
      exact h.free i hi
  killed i hi hk := by
    by_cases hij : i = j
    · subst hij
      simp only [Ptable.set_proc_self, hp] at hk
      cases hk
    · simp only [Ptable.Live, Ptable.set_proc_of_ne hij] at hi hk
      have hk' := h.killed i hi hk
      simpa only [hnamed i hij] using hk'

theorem fork (h : Clean s) (i : Fin nproc) : Clean (s.step (.fork i)) := by
  simp only [step]
  cases ha : s.table.allocproc with
  | none => exact h
  | some r =>
      obtain ⟨j, t⟩ := r
      obtain ⟨hfree, rfl⟩ := Ptable.allocproc_eq_some ha
      have hset : Clean { s with
          table := s.table.set j { s.table.proc j with state := .embryo, pid := s.table.nextpid }
          named := Function.update s.named j false } := by
        refine h.set (h.free j hfree) ?_
        intro k hk
        exact Function.update_of_ne hk ..
      exact ⟨hset.free, hset.killed⟩

theorem kill (h : Clean s) {pid : Int32} (htidy : s.Tidy (.kill pid)) :
    Clean (s.step (.kill pid)) := by
  have hmore : Clean { s with
      named := fun i => s.named i || decide (s.table.Live i ∧ (s.table.proc i).pid = pid) } :=
    ⟨h.free, fun i hi hk => by simp [h.killed i hi hk]⟩
  cases hf : s.table.find fun p => p.pid = pid with
  | none =>
      have hsame : (s.table.kill pid).2 = s.table := by simp only [Ptable.kill, hf]
      simpa only [step, hsame] using hmore
  | some j =>
      -- the slot found is the slot of a process that this call names
      have hlive : s.table.Live j := htidy j hf
      have hpid : (s.table.proc j).pid = pid := by simpa using Ptable.find_eq_some hf
      simp only [step, Ptable.kill, hf]
      refine ⟨?_, ?_⟩
      · intro i hi
        by_cases hij : i = j
        · subst hij
          refine absurd ?_ hi
          simp only [Ptable.Live, Ptable.set_proc_self]
          split
          · simp
          · exact hlive
        · simp only [Ptable.Live, Ptable.set_proc_of_ne hij] at hi ⊢
          exact h.free i hi
      · intro i hi hk
        by_cases hij : i = j
        · subst hij
          simp [hlive, hpid]
        · simp only [Ptable.Live, Ptable.set_proc_of_ne hij] at hi hk
          have hnamed := h.killed i hi hk
          simp [hnamed]

theorem wait (h : Clean s) (hi : s.table.Live i) : Clean (s.step (.wait i)) := by
  simp only [step]
  unfold Ptable.wait
  cases hf : s.table.find fun p => p.parent = some i ∧ p.state = .zombie with
  | some j => exact h.set rfl fun _ _ => rfl
  | none =>
      simp only
      split
      · exact h
      · exact h.alike (Ptable.Alike.set rfl rfl (iff_of_true (by simp) hi))

theorem step (h : Clean s) (hok : s.Admits st) (htidy : s.Tidy st) : Clean (s.step st) := by
  have hrunning : ∀ k, (s.table.proc k).state = .running → s.table.Live k := by
    intro k hk
    simp [Ptable.Live, hk]
  cases st with
  | fork i => exact h.fork i
  | outOfMemory i =>
      cases hnp : s.np i with
      | none => simpa only [ProcRun.step, hnp] using h
      | some j =>
          have hset : Clean { s with table := s.table.giveUp j } := h.set (htidy j hnp) fun _ _ => rfl
          simp only [ProcRun.step, hnp]
          exact ⟨hset.free, hset.killed⟩
  | forked i =>
      cases hnp : s.np i with
      | none => simpa only [ProcRun.step, hnp] using h
      | some j =>
          simp only [ProcRun.step, hnp]
          by_cases hj : s.table.Live j
          · have halike : Ptable.Alike s.table (s.table.forked i j) :=
              Ptable.Alike.set rfl rfl (iff_of_true (by simp) hj)
            exact ⟨(h.alike halike).free, (h.alike halike).killed⟩
          · have hset : Clean { s with table := s.table.forked i j } :=
              h.set (h.free j hj) fun _ _ => rfl
            exact ⟨hset.free, hset.killed⟩
  | exit i => exact h.alike (Ptable.exit_alike (hrunning i hok.1.1))
  | wait i => exact h.wait (hrunning i hok.1)
  | kill pid => exact h.kill htidy
  | run i =>
      have hi : s.table.Live i := by
        have hstate : (s.table.proc i).state = .runnable := hok
        simp [Ptable.Live, hstate]
      exact h.alike (Ptable.Alike.set rfl rfl (iff_of_true (by simp) hi))
  | yield i => exact h.alike (Ptable.Alike.set rfl rfl (iff_of_true (by simp) (hrunning i hok)))
  | sleep i chan => exact h.alike (Ptable.Alike.set rfl rfl (iff_of_true (by simp) (hrunning i hok)))
  | wakeup chan => exact h.alike (Ptable.wakeup1_alike _ _)

end Clean

/-- A `kill` whose pid is first met in the slot of a process finds exactly the processes. -/
theorem killFinds_of_tidy {pid : Int32} (h : s.Tidy (.kill pid)) : s.KillFinds pid := by
  unfold KillFinds Ptable.kill
  cases hf : s.table.find fun p => p.pid = pid with
  | none =>
      refine iff_of_false (by simp) ?_
      rintro ⟨i, -, hi⟩
      have := Ptable.find_eq_none hf i
      simp [hi] at this
  | some j =>
      have hpid := Ptable.find_eq_some hf
      exact iff_of_true rfl ⟨j, h j hf, by simpa using hpid⟩

/-! ## The pids of unused slots -/

/-- The pid that a step leaves in a slot it frees: only a `fork` that fails leaves one. -/
def leftPid (s : ProcRun) : ProcStep → Option Int32
  | .outOfMemory i => (s.np i).map fun j => (s.table.proc j).pid
  | _ => none

/-- The pids that the failed `fork`s of a run have left. -/
def leftPids (s : ProcRun) : List ProcStep → List Int32
  | [] => []
  | st :: sts => (s.leftPid st).toList ++ leftPids (s.step st) sts

/-- What stands in the pid of a slot that is free after a step. -/
theorem pid_of_free (hok : s.Admits st) (hi : ¬ (s.step st).table.Live i) :
    ((s.step st).table.proc i).pid = 0 ∨ s.leftPid st = some ((s.step st).table.proc i).pid ∨
      ¬ s.table.Live i ∧ ((s.step st).table.proc i).pid = (s.table.proc i).pid := by
  have hkept : ∀ {t : Ptable}, Ptable.Alike s.table t → ¬ t.Live i →
      ¬ s.table.Live i ∧ (t.proc i).pid = (s.table.proc i).pid := fun ht hi =>
    ⟨mt (ht i).2.2.mpr hi, (ht i).2.1⟩
  have hrunning : ∀ k, (s.table.proc k).state = .running → s.table.Live k := by
    intro k hk
    simp [Ptable.Live, hk]
  cases st with
  | fork k =>
      simp only [step] at hi ⊢
      cases ha : s.table.allocproc with
      | none =>
          rw [ha] at hi
          exact .inr (.inr ⟨hi, rfl⟩)
      | some r =>
          obtain ⟨j, t⟩ := r
          obtain ⟨-, rfl⟩ := Ptable.allocproc_eq_some ha
          simp only [ha] at hi ⊢
          have hij : i ≠ j := by
            rintro rfl
            exact hi (by simp [Ptable.Live, Ptable.set])
          simp only [Ptable.Live, Ptable.set, Function.update_of_ne hij] at hi ⊢
          exact .inr (.inr ⟨hi, trivial⟩)
  | outOfMemory k =>
      simp only [step, leftPid] at hi ⊢
      cases hnp : s.np k with
      | none =>
          simp only [hnp] at hi
          exact .inr (.inr ⟨hi, rfl⟩)
      | some j =>
          simp only [hnp, Ptable.giveUp, Option.map_some] at hi ⊢
          by_cases hij : i = j
          · subst hij
            exact .inr (.inl (by simp))
          · simp only [Ptable.Live, Ptable.set_proc_of_ne hij] at hi ⊢
            exact .inr (.inr ⟨hi, trivial⟩)
  | forked k =>
      simp only [step] at hi ⊢
      cases hnp : s.np k with
      | none =>
          simp only [hnp] at hi
          exact .inr (.inr ⟨hi, rfl⟩)
      | some j =>
          simp only [hnp, Ptable.forked] at hi ⊢
          have hij : i ≠ j := by
            rintro rfl
            exact hi (by simp [Ptable.Live])
          simp only [Ptable.Live, Ptable.set_proc_of_ne hij] at hi ⊢
          exact .inr (.inr ⟨hi, trivial⟩)
  | exit k => exact .inr (.inr (hkept (Ptable.exit_alike (hrunning k hok.1.1)) hi))
  | wait k =>
      simp only [step, Ptable.wait] at hi ⊢
      cases hf : s.table.find fun p => p.parent = some k ∧ p.state = .zombie with
      | some j =>
          simp only [hf] at hi ⊢
          by_cases hij : i = j
          · subst hij
            exact .inl (by simp [Ptable.reaped])
          · simp only [Ptable.Live, Ptable.set_proc_of_ne hij] at hi ⊢
            exact .inr (.inr ⟨hi, trivial⟩)
      | none =>
          simp only [hf] at hi ⊢
          split at hi <;> rename_i hc
          · rw [if_pos hc]
            exact .inr (.inr ⟨hi, rfl⟩)
          · rw [if_neg hc]
            refine .inr (.inr (hkept (Ptable.Alike.set rfl rfl ?_) hi))
            exact iff_of_true (by simp) (hrunning k hok.1)
  | kill pid =>
      simp only [step, Ptable.kill] at hi ⊢
      cases hf : s.table.find fun p => p.pid = pid with
      | none =>
          simp only [hf] at hi
          exact .inr (.inr ⟨hi, rfl⟩)
      | some j =>
          simp only [hf] at hi ⊢
          by_cases hij : i = j
          · subst hij
            simp only [Ptable.Live, Ptable.set_proc_self] at hi ⊢
            refine .inr (.inr ⟨?_, trivial⟩)
            by_contra hlive
            refine hi ?_
            split
            · simp
            · exact hlive
          · simp only [Ptable.Live, Ptable.set_proc_of_ne hij] at hi ⊢
            exact .inr (.inr ⟨hi, trivial⟩)
  | run k =>
      have hk : s.table.Live k := by
        have hstate : (s.table.proc k).state = .runnable := hok
        simp [Ptable.Live, hstate]
      exact .inr (.inr (hkept (Ptable.Alike.set rfl rfl (iff_of_true (by simp) hk)) hi))
  | yield k =>
      exact .inr (.inr (hkept (Ptable.Alike.set rfl rfl (iff_of_true (by simp) (hrunning k hok))) hi))
  | sleep k chan =>
      exact .inr (.inr (hkept (Ptable.Alike.set rfl rfl (iff_of_true (by simp) (hrunning k hok))) hi))
  | wakeup chan => exact .inr (.inr (hkept (Ptable.wakeup1_alike _ _) hi))

/-- A free slot has pid 0, or the pid that it had before the run, or that of a `fork` that failed. -/
theorem pid_of_run {sts : List ProcStep} {u : ProcRun} (h : Run step Admits s sts u)
    (hi : ¬ u.table.Live i) :
    (u.table.proc i).pid = 0 ∨ (u.table.proc i).pid ∈ s.leftPids sts ∨
      ¬ s.table.Live i ∧ (u.table.proc i).pid = (s.table.proc i).pid := by
  induction h with
  | nil s => exact .inr (.inr ⟨hi, rfl⟩)
  | cons hok _ ih =>
      rcases ih hi with hzero | hleft | ⟨hfree, hpid⟩
      · exact .inl hzero
      · exact .inr (.inl (List.mem_append_right _ hleft))
      · rw [hpid]
        rcases pid_of_free hok hfree with hzero | hleft | hsame
        · exact .inl hzero
        · exact .inr (.inl (List.mem_append_left _ (by rw [hleft]; exact List.mem_singleton_self _)))
        · exact .inr (.inr hsame)

/-- **Which `kill` is tidy.**  One whose pid is not 0, the pid of slots that were never used or have been
reaped, and not the pid of a `fork` that has failed. -/
theorem tidy_kill {sts : List ProcStep} (h : Run step Admits booted sts s) {pid : Int32} (hzero : pid ≠ 0)
    (hleft : pid ∉ booted.leftPids sts) : s.Tidy (.kill pid) := by
  intro i hfind
  have hpid : (s.table.proc i).pid = pid := by simpa using Ptable.find_eq_some hfind
  by_contra hfree
  rcases pid_of_run h hfree with h0 | hmem | ⟨hboot, hsame⟩
  · exact hzero (hpid.symm.trans h0)
  · exact hleft (hpid ▸ hmem)
  · have hboot0 : (booted.table.proc i).pid = 0 := by
      by_cases hi0 : i = 0
      · exact absurd (by simp [Ptable.Live, booted, hi0]) hboot
      · simp [booted, hi0]
    exact hzero (hpid.symm.trans (hsame.trans hboot0))

/-- **Who is killed.**  In every run whose steps are tidy, a process is flagged only after a `kill` has
named it, `kill` succeeds exactly for the pids of processes (a `kill` is tidy unless its pid is 0 or was
left by a failed `fork`), and a new process starts unflagged. -/
theorem kill_names_live {sts : List ProcStep} {s : ProcRun}
    (h : Run step (fun s st => s.Admits st ∧ s.Tidy st) booted sts s) :
    s.KilledByName ∧ (∀ pid, s.Tidy (.kill pid) → s.KillFinds pid) ∧
      (∀ pid, pid ≠ 0 → pid ∉ booted.leftPids sts → s.Tidy (.kill pid)) ∧
      ∀ i j, s.np i = none → (s.step (.fork i)).np i = some j →
        ((s.step (.fork i)).table.proc j).killed = false := by
  have hclean : Clean s := h.invariant (fun _ _ hs hok => hs.step hok.1 hok.2) Clean.booted
  have hadmits : Run step Admits booted sts s := h.imp fun _ _ _ hok => hok.1
  refine ⟨hclean.killed, fun pid hpid => killFinds_of_tidy hpid, fun pid => tidy_kill hadmits, ?_⟩
  intro i j hnone hnp
  simp only [step] at hnp ⊢
  cases ha : s.table.allocproc with
  | none => simp [ha, hnone] at hnp
  | some r =>
      obtain ⟨k, t⟩ := r
      obtain ⟨hfree, rfl⟩ := Ptable.allocproc_eq_some ha
      simp only [ha, Function.update_self, Option.some.injEq] at hnp ⊢
      subst hnp
      simpa using hclean.free k hfree

/-- A run with a `fork`, a `kill` of the child, its end and its reaping. -/
theorem kill_names_live_child :
    ∃ s, Run step (fun s st => s.Admits st ∧ s.Tidy st) booted
        [.run 0, .fork 0, .forked 0, .kill 2, .run 1, .exit 1, .wait 0] s ∧ s.KilledByName := by
  have hrun : Run step (fun s st => s.Admits st ∧ s.Tidy st) booted
      [.run 0, .fork 0, .forked 0, .kill 2, .run 1, .exit 1, .wait 0] _ :=
    Run.cons (by decide +kernel) (Run.cons (by decide +kernel) (Run.cons (by decide +kernel)
      (Run.cons (by decide +kernel) (Run.cons (by decide +kernel) (Run.cons (by decide +kernel)
        (Run.cons (by decide +kernel) (Run.nil _)))))))
  exact ⟨_, hrun, (kill_names_live hrun).1⟩

/-- A `kill` of pid 0 succeeds, as slots that were never used or have been reaped have that pid; the
next process to get the slot that it flagged starts out killed, and nobody has named it. -/
theorem not_kill_names_live :
    ∃ s s', Run step Admits booted [.run 0] s ∧ ¬ s.KillFinds 0 ∧
      Run step Admits s [.kill 0, .fork 0, .forked 0] s' ∧
      s'.table.Live 1 ∧ (s'.table.proc 1).killed = true ∧ s'.named 1 = false := by
  have hrun : Run step Admits booted [.run 0] _ := Run.cons (by decide +kernel) (Run.nil _)
  have hrun' : Run step Admits (booted.step (.run 0)) [.kill 0, .fork 0, .forked 0] _ :=
    Run.cons (by decide +kernel) (Run.cons (by decide +kernel) (Run.cons (by decide +kernel)
      (Run.nil _)))
  exact ⟨_, _, hrun, by decide +kernel, hrun', by decide +kernel, by decide +kernel,
    by decide +kernel⟩

end ProcRun

end Xv6
end LfsXv6
