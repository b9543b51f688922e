import LfsXv6.Xv6.Family

/-!
# Scheduler — who is on which processor

Every processor goes around the process table in its own scheduler.  It takes `ptable.lock` before the first
slot and holds it up to the last one, but a process that it switches to releases the lock, and takes it
again before it switches back.  So the scans of several processors interleave, and a scan goes on where it
stopped, in a table that others have changed.
-/

namespace LfsXv6
namespace Xv6

open Lib

/-! ## Processors -/

/-- The steps of a process `i`. -/
def ProcStep.By (i : Fin nproc) : ProcStep → Prop
  | .fork j | .outOfMemory j | .forked j | .exit j | .wait j | .yield j | .sleep j _ => j = i
  | .kill _ | .wakeup _ => True
  | .run _ => False

/-- `fork` does not take the lock again to give up or to make its child ready. -/
def ProcStep.Unlocked : ProcStep → Prop
  | .outOfMemory _ | .forked _ => True
  | _ => False

instance (i : Fin nproc) : (st : ProcStep) → Decidable (st.By i)
  | .fork _ | .outOfMemory _ | .forked _ | .exit _ | .wait _ | .yield _ | .sleep _ _ =>
      inferInstanceAs (Decidable (_ = _))
  | .kill _ | .wakeup _ => inferInstanceAs (Decidable True)
  | .run _ => inferInstanceAs (Decidable False)

instance : (st : ProcStep) → Decidable (ProcRun.Ordinary st)
  | .sleep _ (.proc _) => inferInstanceAs (Decidable False)
  | .sleep _ (.addr _) => inferInstanceAs (Decidable True)
  | .fork _ | .outOfMemory _ | .forked _ | .exit _ | .wait _ | .yield _ | .kill _ | .wakeup _ | .run _ =>
      inferInstanceAs (Decidable True)

instance : (st : ProcStep) → Decidable st.Unlocked
  | .outOfMemory _ | .forked _ => inferInstanceAs (Decidable True)
  | .fork _ | .exit _ | .wait _ | .yield _ | .sleep _ _ | .kill _ | .wakeup _ | .run _ =>
      inferInstanceAs (Decidable False)

/-- Where a processor is. -/
inductive CpuPlace where
  /-- in `scheduler`, without the lock -/
  | loop
  /-- at a slot, or behind the last one -/
  | scan (k : Nat)
  /-- in a process that has not yet released the lock -/
  | switched (i : Fin nproc)
  | on (i : Fin nproc)
deriving DecidableEq

namespace CpuPlace

/-- The process on a processor. -/
def process : CpuPlace → Option (Fin nproc)
  | .switched i | .on i => some i
  | .loop | .scan _ => none

/-- The processor holds `ptable.lock`. -/
def Locks : CpuPlace → Prop
  | .scan _ | .switched _ => True
  | .loop | .on _ => False

/-- There is a slot to look at. -/
def Looks : CpuPlace → Prop
  | .scan k => k < nproc
  | _ => False

/-- A process is about to release the lock. -/
def Enters : CpuPlace → Prop
  | .switched _ => True
  | _ => False

/-- A process is there that takes this step. -/
def Runs (st : ProcStep) : CpuPlace → Prop
  | .on i => st.By i
  | _ => False

instance : (x : CpuPlace) → Decidable x.Looks
  | .scan _ => inferInstanceAs (Decidable (_ < _))
  | .loop | .switched _ | .on _ => inferInstanceAs (Decidable False)

instance : (x : CpuPlace) → Decidable x.Enters
  | .switched _ => inferInstanceAs (Decidable True)
  | .loop | .scan _ | .on _ => inferInstanceAs (Decidable False)

instance (st : ProcStep) : (x : CpuPlace) → Decidable (x.Runs st)
  | .on i => inferInstanceAs (Decidable (st.By i))
  | .loop | .scan _ | .switched _ => inferInstanceAs (Decidable False)

/-- The slot that the scheduler looks at next. -/
def next : CpuPlace → Nat
  | .loop => 0
  | .scan k => k
  | .switched i | .on i => i.val + 1

end CpuPlace

/-- The process table, the holder of `ptable.lock`, the processors and, for the specification, the processes that
each of them has switched to. -/
structure SchedRun (κ : Type) where
  procs : ProcRun
  lock : Option κ
  place : κ → CpuPlace
  picked : κ → List (Fin nproc)

inductive SchedStep (κ : Type) where
  | acquire (c : κ)
  | look (c : κ)
  | release (c : κ)
  /-- `forkret`, or the return from `sched`; a `wait` that looks again takes the lock anew. -/
  | enter (c : κ)
  /-- The process on `c` takes a step; with `exit`, `yield`, `sleep` and a `wait` that sleeps it calls `sched`. -/
  | call (c : κ) (st : ProcStep)
  /-- `wakeup` in an interrupt -/
  | interrupt (chan : Chan)

namespace ProcRun

/-- The process that a step takes off its processor. -/
def leaver (s : ProcRun) : ProcStep → Option (Fin nproc)
  | .exit i | .yield i | .sleep i _ => some i
  | .wait i => if (s.table.wait i).1 = none then some i else none
  | _ => none

end ProcRun

namespace SchedRun

variable {κ : Type} [DecidableEq κ]

def setPlace (s : SchedRun κ) (c : κ) (x : CpuPlace) : SchedRun κ :=
  { s with place := Function.update s.place c x }

/-- The state of a process. -/
def state (s : SchedRun κ) (i : Fin nproc) : ProcState := (s.procs.table.proc i).state

/-- A turn of the loop in `scheduler` -/
def look (s : SchedRun κ) (c : κ) (i : Fin nproc) : SchedRun κ :=
  if s.state i = .runnable then
    { s.setPlace c (.switched i) with
      procs := s.procs.step (.run i)
      picked := Function.update s.picked c (s.picked c ++ [i]) }
  else s.setPlace c (.scan (i.val + 1))

def step (s : SchedRun κ) : SchedStep κ → SchedRun κ
  | .acquire c => { s.setPlace c (.scan 0) with lock := some c }
  | .look c =>
      match s.place c with
      | .scan k => if h : k < nproc then s.look c ⟨k, h⟩ else s
      | _ => s
  | .release c => { s.setPlace c .loop with lock := none }
  | .enter c =>
      match s.place c with
      | .switched i => { s.setPlace c (.on i) with lock := none }
      | _ => s
  | .call c st =>
      match s.procs.leaver st with
      | some i => { s.setPlace c (.scan (i.val + 1)) with procs := s.procs.step st, lock := some c }
      | none => { s with procs := s.procs.step st }
  | .interrupt chan => { s with procs := s.procs.step (.wakeup chan) }

def Admits (s : SchedRun κ) : SchedStep κ → Prop
  | .acquire c => s.place c = .loop ∧ s.lock = none
  | .look c => (s.place c).Looks
  | .release c => s.place c = .scan nproc
  | .enter c => (s.place c).Enters
  | .call c st => (s.place c).Runs st ∧ s.procs.Admits st ∧ ProcRun.Ordinary st ∧
      (s.lock = none ∨ st.Unlocked)
  | .interrupt _ => s.lock = none

instance (s : SchedRun κ) : (a : SchedStep κ) → Decidable (s.Admits a)
  | .acquire _ => inferInstanceAs (Decidable (_ = _ ∧ _ = _))
  | .look c => inferInstanceAs (Decidable (s.place c).Looks)
  | .release _ => inferInstanceAs (Decidable (_ = _))
  | .enter c => inferInstanceAs (Decidable (s.place c).Enters)
  | .call c st => inferInstanceAs (Decidable ((s.place c).Runs st ∧ s.procs.Admits st ∧ ProcRun.Ordinary st ∧
      (_ = _ ∨ st.Unlocked)))
  | .interrupt _ => inferInstanceAs (Decidable (_ = _))

/-- All processors start in `scheduler`. -/
def booted : SchedRun κ := ⟨.booted, none, fun _ => .loop, fun _ => []⟩

end SchedRun

/-! ## What a step does to the states -/

namespace ProcRun

open Ptable

variable {s : ProcRun} {st : ProcStep} {i j k : Fin nproc}

/-- The states of process `k` before and after a step that does not take it off its processor. -/
structure Stays (x y : ProcState) : Prop where
  running : y = .running ↔ x = .running
  runnable : x = .runnable → y = .runnable

theorem Stays.refl (x : ProcState) : Stays x x := ⟨Iff.rfl, id⟩

theorem Stays.of_ne {x y : ProcState} (hx : x ≠ .running) (hx' : x ≠ .runnable) (hy : y ≠ .running) : Stays x y :=
  ⟨iff_of_false hy hx, fun h => absurd h hx'⟩

theorem Stays.woken {x y : ProcState} (h : y = x ∨ x = .sleeping ∧ y = .runnable) : Stays x y := by
  rcases h with rfl | ⟨rfl, rfl⟩
  · exact .refl y
  · exact .of_ne (by decide) (by decide) (by decide)

/-- One slot changes. -/
theorem stays_set {t : Ptable} {p : Proc} (h : Stays (t.proc j).state p.state) (k : Fin nproc) :
    Stays (t.proc k).state ((t.set j p).proc k).state := by
  by_cases hk : k = j
  · subst hk
    rw [set_proc_self]
    exact h
  · rw [set_proc_of_ne hk]
    exact .refl _

theorem stays_set_of_ne {t : Ptable} {p : Proc} (hk : k ≠ j) : Stays (t.proc k).state ((t.set j p).proc k).state := by
  rw [set_proc_of_ne hk]
  exact .refl _

/-- **What a step does.**  It takes at most one process off its processor and puts none on one, and who is ready
stays so. -/
theorem step_stays (h : Family s) (hok : s.Admits st) (hrun : ∀ i, st ≠ .run i) (hk : s.leaver st ≠ some k) :
    Stays (s.table.proc k).state ((s.step st).table.proc k).state := by
  cases st with
  | fork i =>
      simp only [step]
      cases ha : s.table.allocproc with
      | none => exact .refl _
      | some r =>
          obtain ⟨j, t⟩ := r
          obtain ⟨hfree, rfl⟩ := allocproc_eq_some ha
          have hunused : (s.table.proc j).state = .unused := not_not.mp hfree
          exact stays_set (.of_ne (by simp [hunused]) (by simp [hunused]) (by simp)) k
  | outOfMemory i =>
      simp only [step]
      cases hnp : s.np i with
      | none => exact .refl _
      | some j =>
          have hembryo := (h.forking i j hnp).2
          exact stays_set (.of_ne (by simp [hembryo]) (by simp [hembryo]) (by simp)) k
  | forked i =>
      simp only [step]
      cases hnp : s.np i with
      | none => exact .refl _
      | some j =>
          have hembryo := (h.forking i j hnp).2
          exact stays_set (.of_ne (by simp [hembryo]) (by simp [hembryo]) (by simp)) k
  | exit i =>
      have hki : k ≠ i := fun hc => hk (by rw [leaver, hc])
      exact .woken (exit_state hok.2 hki)
  | wait i =>
      have hstep : (s.step (.wait i)).table = (s.table.wait i).2 := rfl
      rw [hstep]
      rw [leaver] at hk
      unfold Ptable.wait at hk ⊢
      split
      · rename_i j hj
        have hz := find_eq_some hj
        simp only [Bool.decide_and, Bool.and_eq_true, decide_eq_true_eq] at hz
        exact stays_set (.of_ne (by simp [hz.2]) (by simp [hz.2]) (by simp [reaped])) k
      · rename_i hnone
        rw [hnone] at hk
        dsimp only at hk
        split
        · exact .refl _
        · rename_i hsleep
          rw [if_neg hsleep, if_pos rfl] at hk
          exact stays_set_of_ne fun hc => hk (by rw [hc])
  | kill pid =>
      simp only [step, Ptable.kill]
      split
      · exact .refl _
      · refine stays_set ?_ k
        dsimp only
        split
        · rename_i hs
          rw [hs]
          exact .woken (.inr ⟨rfl, rfl⟩)
        · exact .refl _
  | run i => exact absurd rfl (hrun i)
  | yield i => exact stays_set_of_ne fun hc => hk (by rw [leaver, hc])
  | sleep i chan => exact stays_set_of_ne fun hc => hk (by rw [leaver, hc])
  | wakeup chan => exact .woken ((wakeup1_passed s.table 0 chan).state k)

/-- A process that calls `sched` is not running any more. -/
theorem leaver_state (hk : s.leaver st = some k) (hok : s.Admits st) :
    ((s.step st).table.proc k).state ≠ .running := by
  cases st with
  | exit i =>
      cases hk
      simp [step, Ptable.exit]
  | wait i =>
      have hstep : (s.step (.wait i)).table = (s.table.wait i).2 := rfl
      rw [hstep]
      rw [leaver] at hk
      unfold Ptable.wait at hk ⊢
      split
      · rename_i j hj
        rw [hj] at hk
        simp at hk
      · rename_i hnone
        rw [hnone] at hk
        dsimp only at hk
        split
        · rename_i hdone
          rw [if_pos hdone] at hk
          simp at hk
        · rename_i hsleep
          rw [if_neg hsleep, if_pos rfl] at hk
          cases hk
          simp
  | yield i =>
      cases hk
      simp [step]
  | sleep i chan =>
      cases hk
      simp [step]
  | _ => cases hk

/-- The step of a process takes no other one off its processor. -/
theorem leaver_by (hk : s.leaver st = some k) (hby : st.By i) : k = i := by
  cases st with
  | exit j => cases hk; exact hby
  | wait j =>
      rw [leaver] at hk
      split at hk
      · cases hk; exact hby
      · cases hk
  | yield j => cases hk; exact hby
  | sleep j chan => cases hk; exact hby
  | _ => cases hk

end ProcRun

/-! ## One processor for each process -/

namespace SchedRun

section Steps

variable {κ : Type} [DecidableEq κ] {s : SchedRun κ} {c : κ} {i : Fin nproc} {k : Nat} {st : ProcStep}

theorem step_look (hplace : s.place c = .scan k) (hk : k < nproc) : s.step (.look c) = s.look c ⟨k, hk⟩ := by
  rw [step, hplace]
  exact dif_pos hk

theorem step_enter (hplace : s.place c = .switched i) :
    s.step (.enter c) = { s.setPlace c (.on i) with lock := none } := by
  rw [step, hplace]

/-- The process stays on its processor. -/
theorem step_stay (hleaver : s.procs.leaver st = none) :
    s.step (.call c st) = { s with procs := s.procs.step st } := by
  rw [step, hleaver]

/-- The process calls `sched`. -/
theorem step_leave (hleaver : s.procs.leaver st = some i) : s.step (.call c st) =
    { s.setPlace c (.scan (i.val + 1)) with procs := s.procs.step st, lock := some c } := by
  rw [step, hleaver]

end Steps

variable {κ : Type} {s : SchedRun κ} {a : SchedStep κ} {c d : κ} {i : Fin nproc} {x : CpuPlace} {l : Option κ}
  {st : ProcStep}

/-- A process is running where a processor is at it, and the lock is with the processor that is in `scheduler`. -/
structure Placed (s : SchedRun κ) : Prop where
  family : s.procs.Family
  running : ∀ i, s.state i = .running ↔ ∃ c, (s.place c).process = some i
  once : ∀ c d i, (s.place c).process = some i → (s.place d).process = some i → c = d
  lock : ∀ c, s.lock = some c ↔ (s.place c).Locks

namespace Placed

theorem booted : Placed (booted : SchedRun κ) where
  family := .booted
  running i := by
    refine iff_of_false ?_ (by rintro ⟨c, ⟨⟩⟩)
    show (if i = 0 then _ else _ : Proc).state ≠ .running
    split <;> decide
  once c d i h := by cases h
  lock c := iff_of_false (by rintro ⟨⟩) id

/-- The other processors do not hold the lock. -/
theorem not_locks (h : Placed s) (hc : (s.place c).Locks) (hd : d ≠ c) : ¬ (s.place d).Locks := fun hlock => by
  have heq := ((h.lock d).mpr hlock).symm.trans ((h.lock c).mpr hc)
  exact hd (Option.some.inj heq)

/-- Processes take a step that takes none off its processor. -/
theorem quiet (h : Placed s) (hok : s.procs.Admits st) (hord : ProcRun.Ordinary st)
    (hrun : ∀ i, st ≠ .run i) (hleaver : s.procs.leaver st = none) : Placed { s with procs := s.procs.step st } where
  family := h.family.step hok hord
  running i := (ProcRun.step_stays h.family hok hrun (by rw [hleaver]; rintro ⟨⟩)).running.trans (h.running i)
  once := h.once
  lock := h.lock

variable [DecidableEq κ]

/-- A processor goes on with the process it has. -/
theorem move (h : Placed s) (hx : x.process = (s.place c).process)
    (hl : ∀ d, l = some d ↔ (Function.update s.place c x d).Locks) : Placed { s.setPlace c x with lock := l } := by
  have hsame : ∀ d, (Function.update s.place c x d).process = (s.place d).process := by
    intro d
    by_cases hd : d = c
    · rw [hd, Function.update_self, hx]
    · rw [Function.update_of_ne hd]
  refine ⟨h.family, fun i => ?_, fun d e i hd he => ?_, hl⟩
  · show _ ↔ ∃ d, (Function.update s.place c x d).process = some i
    simp only [hsame]
    exact h.running i
  · exact h.once d e i ((hsame d).symm.trans hd) ((hsame e).symm.trans he)

/-- The lock goes to `c`, which nobody has before. -/
theorem taken (h : Placed s) (hlock : s.lock = none) (hx : x.Locks) (d : κ) :
    some c = some d ↔ (Function.update s.place c x d).Locks := by
  by_cases hd : d = c
  · rw [hd, Function.update_self]
    exact iff_of_true rfl hx
  · rw [Function.update_of_ne hd, ← h.lock d, hlock]
    exact iff_of_false (fun hc => hd (Option.some.inj hc).symm) (by rintro ⟨⟩)

/-- `c` gives the lock back. -/
theorem given (h : Placed s) (hc : (s.place c).Locks) (hx : ¬ x.Locks) (d : κ) :
    none = some d ↔ (Function.update s.place c x d).Locks := by
  by_cases hd : d = c
  · rw [hd, Function.update_self]
    exact iff_of_false (by rintro ⟨⟩) hx
  · rw [Function.update_of_ne hd]
    exact iff_of_false (by rintro ⟨⟩) (h.not_locks hc hd)

theorem look (h : Placed s) (hplace : s.place c = .scan i) : Placed (s.look c i) := by
  unfold SchedRun.look
  have hlocks : (s.place c).Locks := by
    rw [hplace]
    trivial
  split
  · rename_i hready
    have hnone : ∀ d, (s.place d).process ≠ some i := fun d hd => by
      have := (h.running i).mpr ⟨d, hd⟩
      rw [hready] at this
      cases this
    have hself : (Function.update s.place c (.switched i) c).process = some i := by
      rw [Function.update_self]
      rfl
    have hother : ∀ d, d ≠ c → (Function.update s.place c (.switched i) d).process = (s.place d).process :=
      fun d hd => by rw [Function.update_of_ne hd]
    have hfamily : (s.procs.step (.run i)).Family := h.family.step hready trivial
    refine ⟨hfamily, fun j => ?_, fun d e j hd he => ?_, fun d => ?_⟩
    · show ((s.procs.table.set i _).proc j).state = _ ↔ ∃ d, (Function.update s.place c (.switched i) d).process = _
      by_cases hj : j = i
      · subst hj
        exact iff_of_true (by simp) ⟨c, hself⟩
      · rw [Ptable.set_proc_of_ne hj]
        refine (h.running j).trans ⟨fun ⟨d, hd⟩ => ⟨d, ?_⟩, fun ⟨d, hd⟩ => ⟨d, ?_⟩⟩
        · rw [hother d (by rintro rfl; rw [hplace] at hd; cases hd)]
          exact hd
        · by_cases hdc : d = c
          · rw [hdc, hself] at hd
            exact absurd (Option.some.inj hd).symm hj
          · rwa [hother d hdc] at hd
    · by_cases hdc : d = c <;> by_cases hec : e = c
      · rw [hdc, hec]
      · rw [hdc] at hd
        cases hself.symm.trans hd
        exact absurd ((hother e hec).symm.trans he) (hnone e)
      · rw [hec] at he
        cases hself.symm.trans he
        exact absurd ((hother d hdc).symm.trans hd) (hnone d)
      · exact h.once d e j ((hother d hdc).symm.trans hd) ((hother e hec).symm.trans he)
    · show s.lock = some d ↔ (Function.update s.place c (.switched i) d).Locks
      by_cases hdc : d = c
      · rw [hdc, Function.update_self]
        exact iff_of_true ((h.lock c).mpr hlocks) trivial
      · rw [Function.update_of_ne hdc]
        exact h.lock d
  · refine h.move (l := s.lock) (by rw [hplace]; rfl) fun d => ?_
    by_cases hdc : d = c
    · rw [hdc, Function.update_self]
      exact iff_of_true ((h.lock c).mpr hlocks) trivial
    · rw [Function.update_of_ne hdc]
      exact h.lock d

/-- A process calls `sched`. -/
theorem leave {st : ProcStep} (h : Placed s) (hplace : s.place c = .on i) (hok : s.procs.Admits st)
    (hord : ProcRun.Ordinary st) (hleaver : s.procs.leaver st = some i) (hlock : s.lock = none) :
    Placed { s.setPlace c (.scan (i.val + 1)) with procs := s.procs.step st, lock := some c } := by
  have hrun : ∀ j, st ≠ .run j := by
    rintro j rfl
    cases hleaver
  have hself : (Function.update s.place c (.scan (i.val + 1)) c).process = none := by
    rw [Function.update_self]
    rfl
  have hother : ∀ d, d ≠ c → (Function.update s.place c (.scan (i.val + 1)) d).process = (s.place d).process :=
    fun d hd => by rw [Function.update_of_ne hd]
  have hmine : (s.place c).process = some i := by
    rw [hplace]
    rfl
  refine ⟨h.family.step hok hord, fun j => ?_, fun d e j hd he => ?_, h.taken hlock trivial⟩
  · show ((s.procs.step st).table.proc j).state = _ ↔
      ∃ d, (Function.update s.place c (.scan (i.val + 1)) d).process = _
    by_cases hj : j = i
    · subst hj
      refine iff_of_false (ProcRun.leaver_state hleaver hok) ?_
      rintro ⟨d, hd⟩
      by_cases hdc : d = c
      · rw [hdc, hself] at hd
        cases hd
      · exact hdc (h.once d c j ((hother d hdc).symm.trans hd) hmine)
    · have hstays := ProcRun.step_stays h.family hok hrun (k := j) (by
        rw [hleaver]
        exact fun hc => hj (Option.some.inj hc).symm)
      refine hstays.running.trans ((h.running j).trans ⟨fun ⟨d, hd⟩ => ⟨d, ?_⟩, fun ⟨d, hd⟩ => ⟨d, ?_⟩⟩)
      · rw [hother d (by rintro rfl; rw [hmine] at hd; exact hj (Option.some.inj hd).symm)]
        exact hd
      · by_cases hdc : d = c
        · rw [hdc, hself] at hd
          cases hd
        · rwa [hother d hdc] at hd
  · by_cases hdc : d = c
    · rw [hdc] at hd
      cases hself.symm.trans hd
    · by_cases hec : e = c
      · rw [hec] at he
        cases hself.symm.trans he
      · exact h.once d e j ((hother d hdc).symm.trans hd) ((hother e hec).symm.trans he)

/-- **Step lemma.** -/
theorem step (h : Placed s) {a : SchedStep κ} (hok : s.Admits a) : Placed (s.step a) := by
  cases a with
  | acquire c =>
      obtain ⟨hplace, hlock⟩ := hok
      exact h.move (by rw [hplace]; rfl) (h.taken hlock trivial)
  | look c =>
      change (s.place c).Looks at hok
      cases hplace : s.place c with
      | scan k =>
          rw [hplace] at hok
          rw [step_look hplace hok]
          exact h.look hplace
      | _ =>
          rw [hplace] at hok
          exact hok.elim
  | release c =>
      change s.place c = .scan nproc at hok
      exact h.move (by rw [hok]; rfl) (h.given (by rw [hok]; trivial) id)
  | enter c =>
      change (s.place c).Enters at hok
      cases hplace : s.place c with
      | switched i =>
          rw [step_enter hplace]
          exact h.move (by rw [hplace]; rfl) (h.given (by rw [hplace]; trivial) id)
      | _ =>
          rw [hplace] at hok
          exact hok.elim
  | call c st =>
      obtain ⟨hruns, hadmits, hord, hlock⟩ := hok
      cases hplace : s.place c with
      | on i =>
          rw [hplace] at hruns
          have hrun : ∀ j, st ≠ .run j := by
            rintro j rfl
            exact hruns
          cases hleaver : s.procs.leaver st with
          | none =>
              rw [step_stay hleaver]
              exact h.quiet hadmits hord hrun hleaver
          | some k =>
              obtain rfl := ProcRun.leaver_by hleaver hruns
              rw [step_leave hleaver]
              refine h.leave hplace hadmits hord hleaver (hlock.resolve_right fun hun => ?_)
              cases st <;> first | exact hun | cases hleaver
      | _ =>
          rw [hplace] at hruns
          exact hruns.elim
  | interrupt chan => exact h.quiet trivial trivial (by rintro i ⟨⟩) rfl

end Placed

/-- **Processors.**  In every run no process is on two processors, the running processes are those on a processor,
and at most one processor is in the locked part of `scheduler`. -/
theorem cpus_exclusive [DecidableEq κ] {as : List (SchedStep κ)} (h : Run step Admits booted as s) :
    (∀ c d i, (s.place c).process = some i → (s.place d).process = some i → c = d) ∧
      (∀ i, s.state i = .running ↔ ∃ c, (s.place c).process = some i) ∧
        ∀ c d, (s.place c).Locks → (s.place d).Locks → c = d := by
  have hplaced : Placed s := h.invariant (fun _ _ hs hok => hs.step hok) .booted
  refine ⟨hplaced.once, hplaced.running, fun c d hc hd => ?_⟩
  by_contra hne
  exact hplaced.not_locks hd hne hc

/-! ## How often a ready process is passed over -/

variable {t : SchedRun κ} {p : Fin nproc}

/-- How far a slot is behind slot `p` on the way around the table. -/
def behind (p : Fin nproc) (k : Nat) : Nat := (k + (63 - p.val)) % 64

/-- What `c` has switched to lies on its way from `p` to where it is. -/
structure OnTheWay (p : Fin nproc) (s : SchedRun κ) (c : κ) (l : List (Fin nproc)) : Prop where
  ordered : l.Pairwise fun i j => behind p i.val < behind p j.val
  below : ∀ i ∈ l, behind p i.val < behind p (s.place c).next

theorem behind_succ {k : Nat} (hk : k < 64) (hne : k ≠ p.val) : behind p (k + 1) = behind p k + 1 := by
  have hp : p.val < 64 := p.isLt
  unfold behind
  omega

theorem OnTheWay.moved {l : List (Fin nproc)} (h : OnTheWay p s c l)
    (hle : behind p (s.place c).next ≤ behind p (t.place c).next) : OnTheWay p t c l :=
  ⟨h.ordered, fun i hi => (h.below i hi).trans_le hle⟩

/-- Slot `i`, which is another one, has been looked at, and `c` has switched to it. -/
theorem OnTheWay.snoc {l : List (Fin nproc)} (h : OnTheWay p s c l) (hi : (s.place c).next = i.val) (hne : i ≠ p)
    (hnext : (t.place c).next = i.val + 1) : OnTheWay p t c (l ++ [i]) := by
  have hsucc := behind_succ (p := p) i.isLt fun hc => hne (Fin.ext hc)
  refine ⟨List.pairwise_append.mpr ⟨h.ordered, List.pairwise_singleton _ _, fun j hj k hk => ?_⟩, fun j hj => ?_⟩
  · obtain rfl := List.mem_singleton.mp hk
    have := h.below j hj
    rwa [hi] at this
  · rw [hnext, hsucc]
    rcases List.mem_append.mp hj with hj | hj
    · have := h.below j hj
      rw [hi] at this
      omega
    · obtain rfl := List.mem_singleton.mp hj
      exact Nat.lt_succ_self _

/-- Since `s`, the processors have switched to the processes in `l`, and if `p` is not among them it is still
ready. -/
structure Since (p : Fin nproc) (s t : SchedRun κ) (l : κ → List (Fin nproc)) : Prop where
  placed : Placed t
  picked : ∀ c, t.picked c = s.picked c ++ l c
  waiting : (∃ c, p ∈ l c) ∨ t.state p = .runnable ∧ ∀ c, OnTheWay p t c (l c)

namespace Since

variable {u : SchedRun κ} {l : κ → List (Fin nproc)}

/-- A step that switches to no process. -/
theorem keep (h : Since p s t l) (hplaced : Placed u) (hpicked : u.picked = t.picked)
    (hstate : t.state p = .runnable → u.state p = .runnable)
    (hnext : t.state p = .runnable → ∀ d, behind p (t.place d).next ≤ behind p (u.place d).next) :
    Since p s u l := by
  refine ⟨hplaced, fun c => by rw [hpicked, h.picked c], h.waiting.imp_right ?_⟩
  rintro ⟨hready, hway⟩
  exact ⟨hstate hready, fun c => (hway c).moved (hnext hready c)⟩

variable [DecidableEq κ]

/-- One processor moves. -/
theorem next_le {x : CpuPlace} (hx : behind p (t.place c).next ≤ behind p x.next) (d : κ) :
    behind p (t.place d).next ≤ behind p (Function.update t.place c x d).next := by
  by_cases hd : d = c
  · rw [hd, Function.update_self]
    exact hx
  · rw [Function.update_of_ne hd]

theorem look (h : Since p s t l) (hplace : t.place c = .scan i) (hplaced : Placed (t.look c i)) :
    ∃ l', Since p s (t.look c i) l' := by
  have hnext : (t.place c).next = i.val := by
    rw [hplace]
    rfl
  unfold SchedRun.look at hplaced ⊢
  split
  · rename_i hready
    rw [if_pos hready] at hplaced
    have hself : Function.update l c (l c ++ [i]) c = l c ++ [i] := Function.update_self ..
    have hother : ∀ d, d ≠ c → Function.update l c (l c ++ [i]) d = l d := fun d hd => Function.update_of_ne hd ..
    refine ⟨Function.update l c (l c ++ [i]), hplaced, fun d => ?_, ?_⟩
    · show Function.update t.picked c (t.picked c ++ [i]) d = _
      by_cases hd : d = c
      · rw [hd, Function.update_self, hself, h.picked c, List.append_assoc]
      · rw [Function.update_of_ne hd, hother d hd, h.picked d]
    · by_cases hip : i = p
      · exact .inl ⟨c, by rw [hself, hip]; simp⟩
      · rcases h.waiting with ⟨d, hd⟩ | ⟨hwaits, hway⟩
        · refine .inl ⟨d, ?_⟩
          by_cases hdc : d = c
          · rw [hdc, hself]
            exact List.mem_append_left _ (hdc ▸ hd)
          · rw [hother d hdc]
            exact hd
        · refine .inr ⟨?_, fun d => ?_⟩
          · show ((t.procs.table.set i _).proc p).state = _
            rw [Ptable.set_proc_of_ne (Ne.symm hip)]
            exact hwaits
          · by_cases hdc : d = c
            · rw [hdc, hself]
              refine (hway c).snoc hnext hip ?_
              show (Function.update t.place c (.switched i) c).next = _
              rw [Function.update_self]
              rfl
            · rw [hother d hdc]
              refine (hway d).moved (le_of_eq (congrArg (fun x : CpuPlace => behind p x.next) ?_))
              exact (Function.update_of_ne hdc ..).symm
  · rename_i hbusy
    rw [if_neg hbusy] at hplaced
    refine ⟨l, h.keep hplaced rfl id fun hready => next_le ?_⟩
    have hne : i.val ≠ p.val := by
      intro hc
      rw [Fin.ext hc] at hbusy
      exact hbusy hready
    rw [hnext]
    exact (Nat.le_succ _).trans_eq (behind_succ i.isLt hne).symm

/-- **Step lemma.** -/
theorem step (h : Since p s t l) {a : SchedStep κ} (hok : t.Admits a) : ∃ l', Since p s (t.step a) l' := by
  have hplaced := h.placed.step hok
  cases a with
  | acquire c =>
      obtain ⟨hplace, -⟩ := hok
      exact ⟨l, h.keep hplaced rfl id fun _ => next_le (by rw [hplace]; exact le_refl _)⟩
  | look c =>
      change (t.place c).Looks at hok
      cases hplace : t.place c with
      | scan k =>
          rw [hplace] at hok
          rw [step_look hplace hok] at hplaced ⊢
          exact h.look hplace hplaced
      | _ =>
          rw [hplace] at hok
          exact hok.elim
  | release c =>
      change t.place c = .scan nproc at hok
      refine ⟨l, h.keep hplaced rfl id fun _ => next_le ?_⟩
      rw [hok]
      show behind p 64 ≤ behind p 0
      unfold behind
      omega
  | enter c =>
      change (t.place c).Enters at hok
      cases hplace : t.place c with
      | switched i =>
          rw [step_enter hplace] at hplaced ⊢
          exact ⟨l, h.keep hplaced rfl id fun _ => next_le (by rw [hplace]; exact le_refl _)⟩
      | _ =>
          rw [hplace] at hok
          exact hok.elim
  | call c st =>
      obtain ⟨hruns, hadmits, -, -⟩ := hok
      cases hplace : t.place c with
      | on i =>
          rw [hplace] at hruns
          have hrun : ∀ j, st ≠ .run j := by
            rintro j rfl
            exact hruns
          cases hleaver : t.procs.leaver st with
          | none =>
              rw [step_stay hleaver] at hplaced ⊢
              exact ⟨l, h.keep hplaced rfl
                (ProcRun.step_stays h.placed.family hadmits hrun (by rw [hleaver]; rintro ⟨⟩)).runnable
                fun _ _ => le_refl _⟩
          | some k =>
              obtain rfl := ProcRun.leaver_by hleaver hruns
              rw [step_leave hleaver] at hplaced ⊢
              refine ⟨l, h.keep hplaced rfl (fun hready => ?_) fun _ => next_le (by rw [hplace]; exact le_refl _)⟩
              refine (ProcRun.step_stays h.placed.family hadmits hrun ?_).runnable hready
              -- the process that leaves is running, `p` is not
              rw [hleaver]
              rintro ⟨⟩
              have hrunning := (h.placed.running p).mpr ⟨c, by rw [hplace]; rfl⟩
              rw [hready] at hrunning
              cases hrunning
      | _ =>
          rw [hplace] at hruns
          exact hruns.elim
  | interrupt chan =>
      have hstays : ProcRun.Stays (t.state p) ((t.procs.step (.wakeup chan)).table.proc p).state :=
        ProcRun.step_stays h.placed.family trivial (by rintro i ⟨⟩) (by rintro ⟨⟩)
      exact ⟨l, h.keep hplaced rfl hstays.runnable fun _ _ => le_refl _⟩

end Since

/-- **Fairness.**  A ready process is not passed over for long: as long as no processor switches to it, it stays
ready, and no processor switches to another process twice. -/
theorem bypass_bounded [DecidableEq κ] {as bs : List (SchedStep κ)} (h : Run step Admits booted as s) (hp : s.state p = .runnable)
    (hrun : Run step Admits s bs t) : ∃ l : κ → List (Fin nproc), (∀ c, t.picked c = s.picked c ++ l c) ∧
      ((∃ c, p ∈ l c) ∨ t.state p = .runnable ∧ ∀ c, (l c).Nodup ∧ (l c).length < nproc) := by
  have hplaced : Placed s := h.invariant (fun _ _ hs hok => hs.step hok) .booted
  have hstart : Since p s s fun _ => [] :=
    ⟨hplaced, fun c => (List.append_nil _).symm, .inr ⟨hp, fun c => ⟨.nil, by rintro i ⟨⟩⟩⟩⟩
  obtain ⟨l, hsince⟩ : ∃ l, Since p s t l :=
    hrun.invariant (I := fun t => ∃ l, Since p s t l) (fun _ _ ⟨_, hs⟩ hok => hs.step hok) ⟨_, hstart⟩
  refine ⟨l, hsince.picked, ?_⟩
  by_cases hpicked : ∃ c, p ∈ l c
  · exact .inl hpicked
  · obtain ⟨hready, hway⟩ := hsince.waiting.resolve_left hpicked
    refine .inr ⟨hready, fun c => ?_⟩
    have hnodup : (l c).Nodup := (hway c).ordered.imp fun hlt heq => by
      rw [heq] at hlt
      exact Nat.lt_irrefl _ hlt
    have hall : (p :: l c).Nodup := List.nodup_cons.mpr ⟨fun hin => hpicked ⟨c, hin⟩, hnodup⟩
    have hcard := hall.length_le_card
    rw [List.length_cons, Fintype.card_fin] at hcard
    exact ⟨hnodup, hcard⟩

/-- `initproc` starts on a processor and forks. -/
def firstSteps : List (SchedStep (Fin 2)) :=
  [.acquire 0, .look 0, .enter 0, .call 0 (.fork 0), .call 0 (.forked 0)]

def afterFork : SchedRun (Fin 2) := firstSteps.foldl step booted

theorem cpus_exclusive_two : Run step Admits booted firstSteps afterFork ∧
    (∀ c d i, (afterFork.place c).process = some i → (afterFork.place d).process = some i → c = d) ∧
      (∀ i, afterFork.state i = .running ↔ ∃ c, (afterFork.place c).process = some i) ∧
        ∀ c d, (afterFork.place c).Locks → (afterFork.place d).Locks → c = d := by
  have hrun : Run step Admits booted firstSteps afterFork :=
    .cons (by decide +kernel) (.cons (by decide +kernel) (.cons (by decide +kernel) (.cons (by decide +kernel)
      (.cons (by decide +kernel) (.nil _)))))
  exact ⟨hrun, cpus_exclusive hrun⟩

/-- Its child is ready while the other processor looks at the first slot. -/
theorem bypass_bounded_two : ∃ t : SchedRun (Fin 2), Run step Admits afterFork [.acquire 1, .look 1] t ∧
    ∃ l : Fin 2 → List (Fin nproc), (∀ c, t.picked c = afterFork.picked c ++ l c) ∧
      ((∃ c, 1 ∈ l c) ∨ t.state 1 = .runnable ∧ ∀ c, (l c).Nodup ∧ (l c).length < nproc) := by
  have hrun : Run step Admits booted firstSteps afterFork :=
    .cons (by decide +kernel) (.cons (by decide +kernel) (.cons (by decide +kernel) (.cons (by decide +kernel)
      (.cons (by decide +kernel) (.nil _)))))
  have hrun' : Run step Admits afterFork [.acquire 1, .look 1] _ :=
    .cons (by decide +kernel) (.cons (by decide +kernel) (.nil _))
  exact ⟨_, hrun', bypass_bounded hrun (by decide +kernel) hrun'⟩

end SchedRun

end Xv6
end LfsXv6
