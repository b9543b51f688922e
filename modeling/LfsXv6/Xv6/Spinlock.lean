import LfsXv6.Lib.Run

/-!
# Spinlock — `acquire` and `release` on any number of CPUs

A step is one access to memory that other CPUs may access, so `holding` takes two: it reads `locked` and then
`cpu`.  `pushcli` and `popcli` touch only what belongs to their CPU and are one step each.  Interrupts may
come whenever the CPU lets them; the handler is more of the same, and it ends, like a turn of `scheduler`
begins, with interrupts enabled on a CPU that has released its locks.  `sched` is entered with one lock and
leaves the value of `intena` of another process.
-/

namespace LfsXv6
namespace Xv6

open Lib

/-- `struct spinlock` -/
structure Spinlock (κ : Type) where
  locked : Bool
  cpu : Option κ

/-- Where a CPU is: outside; in `acquire`, before `holding` reads `locked` or `cpu`, before `xchg`, or before
it puts its name in; or in `release`, before `holding` reads the same, before it takes its name out, before
`xchg`, or before `popcli`. -/
inductive LockPc (l : Type) where
  | idle
  | check (lk : l)
  | checkCpu (lk : l)
  | spin (lk : l)
  | sign (lk : l)
  | confirm (lk : l)
  | confirmCpu (lk : l)
  | clear (lk : l)
  | unlock (lk : l)
  | pop
  deriving DecidableEq

namespace LockPc

variable {l : Type}

/-- In `acquire` behind its `xchg`, or in `release` before its `xchg` -/
def Owns : LockPc l → l → Prop
  | .sign lk', lk | .clear lk', lk | .unlock lk', lk => lk' = lk
  | _, _ => False

/-- The `pushcli` of `acquire` that belongs to no lock that the CPU has -/
def pushes : LockPc l → Nat
  | .idle | .confirm _ | .confirmCpu _ => 0
  | _ => 1

end LockPc

/-- Of `struct cpu`: the interrupt flag, and the fields of `pushcli`. -/
structure Cpu (l : Type) where
  interrupts : Bool
  ncli : Int
  intena : Bool
  pc : LockPc l

/-- The messages of `panic`, with who called it. -/
inductive LockPanic (κ l : Type) where
  | acquire (c : κ) (lk : l)
  | release (c : κ) (lk : l)
  | interruptible (c : κ)
  | popcli (c : κ)

/-- The locks and CPUs.  `held` and `pushed` are for the specification: the locks that a CPU has, and its
calls of `pushcli` that no `popcli` has matched yet. -/
structure LockRun (κ l : Type) where
  lock : l → Spinlock κ
  cpu : κ → Cpu l
  held : κ → List l
  pushed : κ → Nat
  panicked : Option (LockPanic κ l)

/-- What a CPU does: begin `acquire` or `release`, go on with it, call `pushcli` or `popcli` by themselves, be
interrupted, enable interrupts, or come back from `sched`. -/
inductive LockStep (κ l : Type) where
  | acquire (c : κ) (lk : l)
  | release (c : κ) (lk : l)
  | go (c : κ)
  | pushcli (c : κ)
  | popcli (c : κ)
  | interrupt (c : κ)
  | enable (c : κ)
  | sched (c : κ) (intena : Bool)

namespace Cpu

variable {l : Type}

/-- `pushcli` -/
def pushcli (x : Cpu l) : Cpu l :=
  { x with
    interrupts := false
    ncli := x.ncli + 1
    intena := if x.ncli = 0 then x.interrupts else x.intena }

/-- `popcli` when it does not panic -/
def popcli (x : Cpu l) : Cpu l :=
  { x with
    ncli := x.ncli - 1
    interrupts := if x.ncli - 1 = 0 ∧ x.intena then true else x.interrupts }

end Cpu

namespace LockRun

variable {κ l : Type} [DecidableEq κ] [DecidableEq l]

def setCpu (s : LockRun κ l) (c : κ) (x : Cpu l) : LockRun κ l :=
  { s with cpu := Function.update s.cpu c x }

def setPc (s : LockRun κ l) (c : κ) (pc : LockPc l) : LockRun κ l :=
  s.setCpu c { s.cpu c with pc := pc }

def setLock (s : LockRun κ l) (lk : l) (x : Spinlock κ) : LockRun κ l :=
  { s with lock := Function.update s.lock lk x }

def setHeld (s : LockRun κ l) (c : κ) (lks : List l) : LockRun κ l :=
  { s with held := Function.update s.held c lks }

def setPushed (s : LockRun κ l) (c : κ) (n : Nat) : LockRun κ l :=
  { s with pushed := Function.update s.pushed c n }

def panic (s : LockRun κ l) (p : LockPanic κ l) : LockRun κ l := { s with panicked := some p }

/-- `popcli`, and then `pc` -/
def popcli (s : LockRun κ l) (c : κ) : LockRun κ l :=
  if (s.cpu c).interrupts then s.panic (.interruptible c)
  else if (s.cpu c).ncli - 1 < 0 then s.panic (.popcli c)
  else s.setCpu c { (s.cpu c).popcli with pc := .idle }

/-- A CPU goes on with `acquire` or `release`. -/
def go (s : LockRun κ l) (c : κ) : LockRun κ l :=
  match (s.cpu c).pc with
  | .idle => s
  | .check lk => s.setPc c (if (s.lock lk).locked then .checkCpu lk else .spin lk)
  | .checkCpu lk => if (s.lock lk).cpu = some c then s.panic (.acquire c lk) else s.setPc c (.spin lk)
  | .spin lk =>
      if (s.lock lk).locked then s
      else (s.setLock lk { s.lock lk with locked := true }).setPc c (.sign lk)
  | .sign lk =>
      ((s.setLock lk { s.lock lk with cpu := some c }).setHeld c (lk :: s.held c)).setPc c .idle
  | .confirm lk => if (s.lock lk).locked then s.setPc c (.confirmCpu lk) else s.panic (.release c lk)
  | .confirmCpu lk =>
      if (s.lock lk).cpu = some c then (s.setHeld c ((s.held c).erase lk)).setPc c (.clear lk)
      else s.panic (.release c lk)
  | .clear lk => (s.setLock lk { s.lock lk with cpu := none }).setPc c (.unlock lk)
  | .unlock lk => (s.setLock lk { s.lock lk with locked := false }).setPc c .pop
  | .pop => s.popcli c

/-- `popcli` by itself matches a `pushcli`; interrupts are enabled, and `sched` is called, outside of
`acquire` and `release`, with no lock or with one. -/
def Admits (s : LockRun κ l) (st : LockStep κ l) : Prop :=
  s.panicked = none ∧
    match st with
    | .acquire c _ | .release c _ | .pushcli c => (s.cpu c).pc = .idle
    | .go c => (s.cpu c).pc ≠ .idle
    | .popcli c => (s.cpu c).pc = .idle ∧ 0 < s.pushed c
    | .interrupt c => (s.cpu c).interrupts = true
    | .enable c => (s.cpu c).pc = .idle ∧ (s.cpu c).ncli = 0
    | .sched c _ => (s.cpu c).pc = .idle ∧ (s.cpu c).ncli = 1

instance (s : LockRun κ l) (st : LockStep κ l) : Decidable (s.Admits st) := by
  unfold Admits
  cases st <;> infer_instance

def step (s : LockRun κ l) : LockStep κ l → LockRun κ l
  | .acquire c lk => s.setCpu c { (s.cpu c).pushcli with pc := .check lk }
  | .release c lk => s.setPc c (.confirm lk)
  | .go c => s.go c
  | .pushcli c => (s.setCpu c (s.cpu c).pushcli).setPushed c (s.pushed c + 1)
  | .popcli c => (s.popcli c).setPushed c (s.pushed c - 1)
  | .interrupt c => s.setCpu c { s.cpu c with interrupts := false }
  | .enable c => s.setCpu c { s.cpu c with interrupts := true }
  | .sched c intena => s.setCpu c { s.cpu c with intena := intena }

/-- No lock is taken. -/
def booted : LockRun κ l where
  lock := fun _ => ⟨false, none⟩
  cpu := fun _ => ⟨false, 0, false, .idle⟩
  held := fun _ => []
  pushed := fun _ => 0
  panicked := none

/-- `holding`, when nothing comes in between -/
def holding (s : LockRun κ l) (c : κ) (lk : l) : Bool := (s.lock lk).locked && (s.lock lk).cpu = some c

/-! ## Who has a lock -/

/-- CPU `c` is the one for which `locked` is set. -/
def Owns (s : LockRun κ l) (c : κ) (lk : l) : Prop := lk ∈ s.held c ∨ (s.cpu c).pc.Owns lk

/-- The invariant of all runs. -/
structure Safe (s : LockRun κ l) : Prop where
  exclusive : ∀ c d lk, s.Owns c lk → s.Owns d lk → c = d
  locked : ∀ c lk, s.Owns c lk → (s.lock lk).locked = true
  signed : ∀ c lk, (s.lock lk).cpu = some c ↔ lk ∈ s.held c ∨ (s.cpu c).pc = .clear lk
  once : ∀ c, (s.held c).Nodup
  apart : ∀ c lk, (s.cpu c).pc.Owns lk → lk ∉ s.held c
  depth : ∀ c, (s.cpu c).ncli = (s.held c).length + s.pushed c + (s.cpu c).pc.pushes
  masked : ∀ c, 0 < (s.cpu c).ncli → (s.cpu c).interrupts = false
  fair : ∀ p, s.panicked = some p →
    (∃ c lk, p = .acquire c lk ∧ lk ∈ s.held c) ∨ ∃ c lk, p = .release c lk ∧ lk ∉ s.held c

section Safe

variable {s t : LockRun κ l} {c d : κ} {lk : l} {x : Cpu l} {m : List l} {n : Nat}

omit [DecidableEq l] in
/-- CPU `c` moves: it may take locks that are free, and the other CPUs keep theirs. -/
theorem Safe.change (h : Safe s) (hcpu : t.cpu = Function.update s.cpu c x)
    (hheld : t.held = Function.update s.held c m) (hpushed : t.pushed = Function.update s.pushed c n)
    (hpanicked : t.panicked = none)
    (htake : ∀ lk, lk ∈ m ∨ x.pc.Owns lk → s.Owns c lk ∨ (s.lock lk).locked = false)
    (hset : ∀ lk, lk ∈ m ∨ x.pc.Owns lk → (t.lock lk).locked = true)
    (hkept : ∀ d lk, d ≠ c → s.Owns d lk → (t.lock lk).locked = true)
    (hname : ∀ lk, (t.lock lk).cpu = some c ↔ lk ∈ m ∨ x.pc = .clear lk)
    (hothers : ∀ d lk, d ≠ c → ((t.lock lk).cpu = some d ↔ (s.lock lk).cpu = some d))
    (honce : m.Nodup) (hapart : ∀ lk, x.pc.Owns lk → lk ∉ m)
    (hdepth : x.ncli = m.length + n + x.pc.pushes) (hmasked : 0 < x.ncli → x.interrupts = false) : Safe t := by
  have hself : t.cpu c = x ∧ t.held c = m ∧ t.pushed c = n := by
    rw [hcpu, hheld, hpushed, Function.update_self, Function.update_self, Function.update_self]
    exact ⟨rfl, rfl, rfl⟩
  have hother : ∀ d, d ≠ c → t.cpu d = s.cpu d ∧ t.held d = s.held d ∧ t.pushed d = s.pushed d := by
    intro d hd
    rw [hcpu, hheld, hpushed, Function.update_of_ne hd, Function.update_of_ne hd, Function.update_of_ne hd]
    exact ⟨rfl, rfl, rfl⟩
  have hown : ∀ lk, t.Owns c lk ↔ lk ∈ m ∨ x.pc.Owns lk := by
    intro lk
    unfold Owns
    rw [hself.1, hself.2.1]
  have howns : ∀ d lk, d ≠ c → (t.Owns d lk ↔ s.Owns d lk) := by
    intro d lk hd
    unfold Owns
    rw [(hother d hd).1, (hother d hd).2.1]
  have hcross : ∀ d lk, d ≠ c → t.Owns c lk → ¬ t.Owns d lk := by
    intro d lk hd hc hdo
    rw [howns d lk hd] at hdo
    rcases htake lk ((hown lk).mp hc) with hc | hfree
    · exact hd (h.exclusive d c lk hdo hc)
    · rw [h.locked d lk hdo] at hfree
      cases hfree
  refine ⟨?_, ?_, ?_, ?_, ?_, ?_, ?_, ?_⟩
  · intro d e lk hd he
    rcases eq_or_ne d c with rfl | hdc
    · by_contra hne
      exact hcross e lk (Ne.symm hne) hd he
    · rcases eq_or_ne e c with rfl | hec
      · exact absurd hd (hcross d lk hdc he)
      · exact h.exclusive d e lk ((howns d lk hdc).mp hd) ((howns e lk hec).mp he)
  · intro d lk hd
    rcases eq_or_ne d c with rfl | hdc
    · exact hset lk ((hown lk).mp hd)
    · exact hkept d lk hdc ((howns d lk hdc).mp hd)
  · intro d lk
    rcases eq_or_ne d c with rfl | hdc
    · rw [hself.1, hself.2.1]
      exact hname lk
    · rw [(hother d hdc).1, (hother d hdc).2.1, hothers d lk hdc]
      exact h.signed d lk
  · intro d
    rcases eq_or_ne d c with rfl | hdc
    · rw [hself.2.1]
      exact honce
    · rw [(hother d hdc).2.1]
      exact h.once d
  · intro d lk hd
    rcases eq_or_ne d c with rfl | hdc
    · rw [hself.1] at hd
      rw [hself.2.1]
      exact hapart lk hd
    · rw [(hother d hdc).1] at hd
      rw [(hother d hdc).2.1]
      exact h.apart d lk hd
  · intro d
    rcases eq_or_ne d c with rfl | hdc
    · rw [hself.1, hself.2.1, hself.2.2]
      exact hdepth
    · rw [(hother d hdc).1, (hother d hdc).2.1, (hother d hdc).2.2]
      exact h.depth d
  · intro d
    rcases eq_or_ne d c with rfl | hdc
    · rw [hself.1]
      exact hmasked
    · rw [(hother d hdc).1]
      exact h.masked d
  · intro p hp
    rw [hpanicked] at hp
    cases hp

omit [DecidableEq l] in
/-- CPU `c` moves without touching a lock. -/
theorem Safe.quiet (h : Safe s) (hcpu : t.cpu = Function.update s.cpu c x) (hlock : t.lock = s.lock)
    (hheld : t.held = s.held) (hpushed : t.pushed = Function.update s.pushed c n) (hpanicked : t.panicked = none)
    (hold : ∀ lk, ¬ (s.cpu c).pc.Owns lk) (hnew : ∀ lk, ¬ x.pc.Owns lk)
    (hdepth : x.ncli = (s.held c).length + n + x.pc.pushes) (hmasked : 0 < x.ncli → x.interrupts = false) :
    Safe t := by
  refine h.change (m := s.held c) hcpu (by rw [hheld, Function.update_eq_self]) hpushed hpanicked ?_ ?_ ?_ ?_ ?_
    (h.once c) (fun lk hlk => absurd hlk (hnew lk)) hdepth hmasked
  · rintro lk (hlk | hlk)
    · exact Or.inl (Or.inl hlk)
    · exact absurd hlk (hnew lk)
  · rintro lk (hlk | hlk)
    · rw [hlock]
      exact h.locked c lk (Or.inl hlk)
    · exact absurd hlk (hnew lk)
  · intro d lk _ hd
    rw [hlock]
    exact h.locked d lk hd
  · intro lk
    rw [hlock, h.signed c lk]
    exact or_congr_right ⟨fun hpc => absurd (by rw [hpc]; rfl) (hold lk), fun hpc => absurd (by rw [hpc]; rfl) (hnew lk)⟩
  · intro d lk _
    rw [hlock]

namespace Safe

omit [DecidableEq κ] [DecidableEq l] in
/-- A panic leaves everything as it is. -/
theorem panics {q : LockPanic κ l} (h : Safe s)
    (hq : (∃ c lk, q = .acquire c lk ∧ lk ∈ s.held c) ∨ ∃ c lk, q = .release c lk ∧ lk ∉ s.held c) :
    Safe (s.panic q) :=
  ⟨h.exclusive, h.locked, h.signed, h.once, h.apart, h.depth, h.masked, fun _ hp => Option.some.inj hp ▸ hq⟩

omit [DecidableEq l] in
/-- Another place in the code of `acquire` or `release`, with the same depth -/
theorem goto (h : Safe s) (hpanicked : s.panicked = none) {pc : LockPc l}
    (hold : ∀ lk, ¬ (s.cpu c).pc.Owns lk) (hnew : ∀ lk, ¬ pc.Owns lk) (hpush : pc.pushes = (s.cpu c).pc.pushes) :
    Safe (s.setPc c pc) := by
  refine h.quiet (n := s.pushed c) rfl rfl rfl (Function.update_eq_self ..).symm hpanicked hold hnew ?_ (h.masked c)
  rw [hpush]
  exact h.depth c

omit [DecidableEq l] in
theorem popcli_spec (h : Safe s) (hdepth : 0 < (s.cpu c).ncli) :
    s.popcli c = s.setCpu c { (s.cpu c).popcli with pc := .idle } := by
  rw [LockRun.popcli, if_neg (by rw [h.masked c hdepth]; simp), if_neg (by omega)]

omit [DecidableEq κ] [DecidableEq l] in
theorem masked_popcli (h : Safe s) (hdepth : 0 < (s.cpu c).ncli) (hmore : 0 < (s.cpu c).popcli.ncli) :
    (s.cpu c).popcli.interrupts = false := by
  have hne : ¬ ((s.cpu c).ncli - 1 = 0 ∧ (s.cpu c).intena = true) := by
    rintro ⟨hzero, -⟩
    exact absurd hzero hmore.ne'
  exact (if_neg hne).trans (h.masked c hdepth)

/-- CPU `c` writes to a lock that it takes or has. -/
theorem write {a : l} {y : Spinlock κ} {p : LockPc l} (h : Safe s) (hpanicked : s.panicked = none)
    (hmine : ∀ d, d ≠ c → ¬ s.Owns d a) (hold : ∀ lk', (s.cpu c).pc.Owns lk' → lk' = a)
    (hnew : ∀ lk', p.Owns lk' → lk' = a) (htake : s.Owns c a ∨ (s.lock a).locked = false)
    (hheld : ∀ lk', lk' ≠ a → (lk' ∈ m ↔ lk' ∈ s.held c)) (hset : a ∈ m ∨ p.Owns a → y.locked = true)
    (hname : y.cpu = some c ↔ a ∈ m ∨ p = .clear a) (hothers : ∀ d, d ≠ c → y.cpu ≠ some d)
    (honce : m.Nodup) (hapart : p.Owns a → a ∉ m)
    (hdepth : (s.cpu c).ncli = m.length + s.pushed c + p.pushes) :
    Safe (((s.setLock a y).setHeld c m).setPc c p) := by
  have hlock : ∀ lk', lk' ≠ a → (((s.setLock a y).setHeld c m).setPc c p).lock lk' = s.lock lk' :=
    fun lk' hne => Function.update_of_ne hne _ _
  have hself : (((s.setLock a y).setHeld c m).setPc c p).lock a = y := Function.update_self ..
  have hmem : ∀ lk', lk' ≠ a → lk' ∈ m ∨ p.Owns lk' → lk' ∈ s.held c := fun lk' hne hlk' =>
    hlk'.elim (hheld lk' hne).mp fun hpc => absurd (hnew lk' hpc) hne
  refine h.change (x := { s.cpu c with pc := p }) (n := s.pushed c) rfl rfl (Function.update_eq_self ..).symm
    hpanicked ?_ ?_ ?_ ?_ ?_ honce ?_ hdepth (h.masked c)
  · intro lk' hlk'
    rcases eq_or_ne lk' a with rfl | hne
    · exact htake
    · exact Or.inl (Or.inl (hmem lk' hne hlk'))
  · intro lk' hlk'
    rcases eq_or_ne lk' a with rfl | hne
    · rw [hself]
      exact hset hlk'
    · rw [hlock lk' hne]
      exact h.locked c lk' (Or.inl (hmem lk' hne hlk'))
  · intro d lk' hd hown
    have hne : lk' ≠ a := by
      rintro rfl
      exact hmine d hd hown
    rw [hlock lk' hne]
    exact h.locked d lk' hown
  · intro lk'
    rcases eq_or_ne lk' a with rfl | hne
    · rw [hself]
      exact hname
    · rw [hlock lk' hne, h.signed c lk', hheld lk' hne]
      exact or_congr_right ⟨fun hclear => absurd (hold lk' (by rw [hclear]; rfl)) hne,
        fun hclear => absurd (hnew lk' (by rw [show p = _ from hclear]; rfl)) hne⟩
  · intro d lk' hd
    rcases eq_or_ne lk' a with rfl | hne
    · rw [hself]
      refine iff_of_false (hothers d hd) fun hd' => hmine d hd ?_
      rcases (h.signed d lk').mp hd' with hmem' | hclear
      · exact Or.inl hmem'
      · exact Or.inr (by rw [hclear]; rfl)
    · rw [hlock lk' hne]
  · intro lk' hlk'
    obtain rfl := hnew lk' hlk'
    exact hapart hlk'

/-- `xchg` in `acquire` -/
theorem taken (h : Safe s) (hpanicked : s.panicked = none) (hpc : (s.cpu c).pc = .spin lk)
    (hfree : (s.lock lk).locked = false) :
    Safe ((s.setLock lk { s.lock lk with locked := true }).setPc c (.sign lk)) := by
  have hdepth := h.depth c
  have hnone : ∀ d, ¬ s.Owns d lk := by
    intro d hd
    rw [h.locked d lk hd] at hfree
    cases hfree
  have hcpu : ∀ d, (s.lock lk).cpu ≠ some d := by
    intro d hd
    rcases (h.signed d lk).mp hd with hmem | hclear
    · exact hnone d (Or.inl hmem)
    · exact hnone d (Or.inr (by rw [hclear]; rfl))
  have hout : lk ∉ s.held c := fun hmem => hnone c (Or.inl hmem)
  have := h.write (c := c) (a := lk) (m := s.held c) (y := { s.lock lk with locked := true }) (p := .sign lk)
    hpanicked (fun d _ => hnone d) (by simp [hpc, LockPc.Owns]) (fun lk' hlk' => hlk'.symm) (Or.inr hfree)
    (fun _ _ => Iff.rfl) (fun _ => rfl) (by simp [hcpu, hout]) (fun d _ => hcpu d) (h.once c) (fun _ => hout)
    (by rw [hdepth, hpc]; rfl)
  simpa [setHeld, setLock] using this

/-- The name is put in: `acquire` has the lock. -/
theorem named (h : Safe s) (hpanicked : s.panicked = none) (hpc : (s.cpu c).pc = .sign lk) :
    Safe (((s.setLock lk { s.lock lk with cpu := some c }).setHeld c (lk :: s.held c)).setPc c .idle) := by
  have hdepth := h.depth c
  have hown : s.Owns c lk := Or.inr (by rw [hpc]; rfl)
  have hout : lk ∉ s.held c := h.apart c lk (by rw [hpc]; rfl)
  refine h.write hpanicked (fun d hd hdo => hd (h.exclusive d c lk hdo hown))
    (by rw [hpc]; exact fun lk' hlk' => Eq.symm hlk') (by simp [LockPc.Owns]) (Or.inl hown) (fun lk' hne => ?_)
    (fun _ => h.locked c lk hown) (by simp) (fun d hd heq => hd (Option.some.inj heq).symm)
    (List.nodup_cons.mpr ⟨hout, h.once c⟩) (by simp [LockPc.Owns]) ?_
  · simp [hne]
  · rw [hdepth, hpc, List.length_cons]
    simp only [LockPc.pushes]
    omega

/-- `release` has found that the CPU has the lock. -/
theorem dropped (h : Safe s) (hpanicked : s.panicked = none) (hpc : (s.cpu c).pc = .confirmCpu lk)
    (hmem : lk ∈ s.held c) : Safe ((s.setHeld c ((s.held c).erase lk)).setPc c (.clear lk)) := by
  have hdepth := h.depth c
  have hown : s.Owns c lk := Or.inl hmem
  have hname : (s.lock lk).cpu = some c := (h.signed c lk).mpr (Or.inl hmem)
  have hlen : ((s.held c).erase lk).length + 1 = (s.held c).length := List.length_erase_add_one hmem
  have := h.write (c := c) (a := lk) (m := (s.held c).erase lk) (y := s.lock lk) (p := .clear lk)
    hpanicked (fun d hd hdo => hd (h.exclusive d c lk hdo hown)) (by simp [hpc, LockPc.Owns])
    (fun lk' hlk' => Eq.symm hlk') (Or.inl hown) (fun lk' hne => (h.once c).mem_erase_iff.trans (and_iff_right hne))
    (fun _ => h.locked c lk hown) (by simp [hname]) (by simp [hname, eq_comm]) ((h.once c).erase lk)
    (fun _ => (h.once c).not_mem_erase) (by rw [hdepth, hpc]; simp only [LockPc.pushes]; omega)
  simpa [setLock] using this

/-- The name is taken out. -/
theorem cleared (h : Safe s) (hpanicked : s.panicked = none) (hpc : (s.cpu c).pc = .clear lk) :
    Safe ((s.setLock lk { s.lock lk with cpu := none }).setPc c (.unlock lk)) := by
  have hdepth := h.depth c
  have hown : s.Owns c lk := Or.inr (by rw [hpc]; rfl)
  have hout : lk ∉ s.held c := h.apart c lk (by rw [hpc]; rfl)
  have := h.write (c := c) (a := lk) (m := s.held c) (y := { s.lock lk with cpu := none }) (p := .unlock lk)
    hpanicked (fun d hd hdo => hd (h.exclusive d c lk hdo hown)) (by rw [hpc]; exact fun lk' hlk' => Eq.symm hlk')
    (fun lk' hlk' => Eq.symm hlk') (Or.inl hown) (fun _ _ => Iff.rfl) (fun _ => h.locked c lk hown)
    (by simp [hout]) (by simp) (h.once c) (fun _ => hout) (by rw [hdepth, hpc]; rfl)
  simpa [setHeld, setLock] using this

/-- `xchg` in `release` -/
theorem unlocked (h : Safe s) (hpanicked : s.panicked = none) (hpc : (s.cpu c).pc = .unlock lk) :
    Safe ((s.setLock lk { s.lock lk with locked := false }).setPc c .pop) := by
  have hdepth := h.depth c
  have hown : s.Owns c lk := Or.inr (by rw [hpc]; rfl)
  have hout : lk ∉ s.held c := h.apart c lk (by rw [hpc]; rfl)
  have hcpu : ∀ d, (s.lock lk).cpu ≠ some d := by
    intro d hd
    rcases (h.signed d lk).mp hd with hmem | hclear
    · obtain rfl := h.exclusive d c lk (Or.inl hmem) hown
      exact hout hmem
    · obtain rfl := h.exclusive d c lk (Or.inr (by rw [hclear]; rfl)) hown
      rw [hpc] at hclear
      cases hclear
  have := h.write (c := c) (a := lk) (m := s.held c) (y := { s.lock lk with locked := false }) (p := .pop)
    hpanicked (fun d hd hdo => hd (h.exclusive d c lk hdo hown)) (by rw [hpc]; exact fun lk' hlk' => Eq.symm hlk')
    (by simp [LockPc.Owns]) (Or.inl hown) (fun _ _ => Iff.rfl) (by simp [hout, LockPc.Owns]) (by simp [hout, hcpu])
    (fun d _ => hcpu d) (h.once c) (fun _ => hout) (by rw [hdepth, hpc]; rfl)
  simpa [setHeld, setLock] using this

/-- **Step lemma** for a CPU inside `acquire` or `release` -/
theorem go (h : Safe s) (hpanicked : s.panicked = none) (hbusy : (s.cpu c).pc ≠ .idle) : Safe (s.go c) := by
  have hdepth := h.depth c
  unfold LockRun.go
  split
  · exact absurd ‹_› hbusy
  · rename_i lk hpc
    split
    · exact h.goto hpanicked (by simp [hpc, LockPc.Owns]) (by simp [LockPc.Owns]) (by rw [hpc]; rfl)
    · exact h.goto hpanicked (by simp [hpc, LockPc.Owns]) (by simp [LockPc.Owns]) (by rw [hpc]; rfl)
  · rename_i lk hpc
    split
    · rename_i hname
      refine h.panics (Or.inl ⟨c, lk, rfl, ?_⟩)
      rcases (h.signed c lk).mp hname with hmem | hclear
      · exact hmem
      · rw [hpc] at hclear
        cases hclear
    · exact h.goto hpanicked (by simp [hpc, LockPc.Owns]) (by simp [LockPc.Owns]) (by rw [hpc]; rfl)
  · rename_i lk hpc
    split
    · exact h
    · exact h.taken hpanicked hpc (by simpa using ‹¬ (s.lock lk).locked = true›)
  · exact h.named hpanicked ‹_›
  · rename_i lk hpc
    split
    · exact h.goto hpanicked (by simp [hpc, LockPc.Owns]) (by simp [LockPc.Owns]) (by rw [hpc]; rfl)
    · rename_i hfree
      exact h.panics (Or.inr ⟨c, lk, rfl, fun hmem => hfree (h.locked c lk (Or.inl hmem))⟩)
  · rename_i lk hpc
    split
    · rename_i hname
      refine h.dropped hpanicked hpc ?_
      rcases (h.signed c lk).mp hname with hmem | hclear
      · exact hmem
      · rw [hpc] at hclear
        cases hclear
    · rename_i hname
      exact h.panics (Or.inr ⟨c, lk, rfl, fun hmem => hname ((h.signed c lk).mpr (Or.inl hmem))⟩)
  · exact h.cleared hpanicked ‹_›
  · exact h.unlocked hpanicked ‹_›
  · rename_i hpc
    rw [hpc] at hdepth
    simp only [LockPc.pushes] at hdepth
    have hpos : 0 < (s.cpu c).ncli := by omega
    rw [h.popcli_spec hpos]
    refine h.quiet (n := s.pushed c) rfl rfl rfl (Function.update_eq_self ..).symm hpanicked
      (by simp [hpc, LockPc.Owns]) (by simp [LockPc.Owns]) ?_ (h.masked_popcli hpos)
    simp only [Cpu.popcli, LockPc.pushes]
    omega

/-- **Step lemma.** -/
theorem step {st : LockStep κ l} (h : Safe s) (hok : s.Admits st) : Safe (s.step st) := by
  obtain ⟨hpanicked, hok⟩ := hok
  cases st with
  | acquire c lk =>
      have hpc : (s.cpu c).pc = .idle := hok
      have hdepth := h.depth c
      rw [hpc] at hdepth
      refine h.quiet (n := s.pushed c) rfl rfl rfl (Function.update_eq_self ..).symm hpanicked
        (by simp [hpc, LockPc.Owns]) (by simp [LockPc.Owns]) ?_ (fun _ => rfl)
      simp only [Cpu.pushcli, LockPc.pushes] at hdepth ⊢
      omega
  | release c lk =>
      have hpc : (s.cpu c).pc = .idle := hok
      exact h.goto hpanicked (by simp [hpc, LockPc.Owns]) (by simp [LockPc.Owns]) (by rw [hpc]; rfl)
  | go c => exact h.go hpanicked hok
  | pushcli c =>
      have hpc : (s.cpu c).pc = .idle := hok
      have hdepth := h.depth c
      rw [hpc] at hdepth
      refine h.quiet (n := s.pushed c + 1) (x := (s.cpu c).pushcli) rfl rfl rfl rfl hpanicked
        (by simp [hpc, LockPc.Owns]) (by simp [Cpu.pushcli, hpc, LockPc.Owns]) ?_ (fun _ => rfl)
      simp only [Cpu.pushcli, hpc, LockPc.pushes] at hdepth ⊢
      omega
  | popcli c =>
      obtain ⟨hpc, hpos⟩ := hok
      have hdepth := h.depth c
      rw [hpc] at hdepth
      simp only [LockPc.pushes] at hdepth
      have hncli : 0 < (s.cpu c).ncli := by omega
      have heq : s.step (.popcli c) =
          (s.setCpu c { (s.cpu c).popcli with pc := .idle }).setPushed c (s.pushed c - 1) := by
        rw [LockRun.step, h.popcli_spec hncli]
      rw [heq]
      refine h.quiet (n := s.pushed c - 1) rfl rfl rfl rfl hpanicked (by simp [hpc, LockPc.Owns])
        (by simp [LockPc.Owns]) ?_ (h.masked_popcli hncli)
      simp only [Cpu.popcli, LockPc.pushes]
      omega
  | interrupt c =>
      have hdepth := h.depth c
      have hncli : ¬ 0 < (s.cpu c).ncli := fun hpos => by
        have hmasked := h.masked c hpos
        rw [show (s.cpu c).interrupts = true from hok] at hmasked
        cases hmasked
      have hpc : ∀ lk, ¬ (s.cpu c).pc.Owns lk := by
        intro lk hlk
        cases hpc : (s.cpu c).pc <;> rw [hpc] at hlk hdepth <;> simp [LockPc.Owns, LockPc.pushes] at hlk hdepth <;>
          omega
      exact h.quiet (n := s.pushed c) rfl rfl rfl (Function.update_eq_self ..).symm hpanicked hpc hpc hdepth
        (fun _ => rfl)
  | enable c =>
      refine h.quiet (n := s.pushed c) rfl rfl rfl (Function.update_eq_self ..).symm hpanicked
        (by simp [hok.1, LockPc.Owns]) (by simp [hok.1, LockPc.Owns]) (h.depth c) fun hpos => ?_
      exact absurd hok.2 (ne_of_gt hpos)
  | sched c intena =>
      exact h.quiet (n := s.pushed c) rfl rfl rfl (Function.update_eq_self ..).symm hpanicked
        (by simp [hok.1, LockPc.Owns]) (by simp [hok.1, LockPc.Owns]) (h.depth c) (h.masked c)

omit [DecidableEq κ] [DecidableEq l] in
theorem booted : Safe (LockRun.booted : LockRun κ l) where
  exclusive := by
    rintro c d lk (hmem | hpc)
    · cases hmem
    · cases hpc
  locked := by
    rintro c lk (hmem | hpc)
    · cases hmem
    · cases hpc
  signed := fun c lk => by simp [LockRun.booted]
  once := fun _ => List.nodup_nil
  apart := fun c lk hpc => by cases hpc
  depth := fun _ => rfl
  masked := fun _ _ => rfl
  fair := by
    rintro p ⟨⟩

end Safe

/-- **Spin locks.**  However the memory accesses of the CPUs are interleaved, and whenever interrupts come:
no two CPUs are between the `xchg`s of `acquire` and `release` for one lock; `holding` says the truth; a CPU
that has a lock cannot be interrupted; and the only panics are those for a lock that the CPU acquires twice,
or releases without having it. -/
theorem locks_exclusive {sts : List (LockStep κ l)} (hrun : Run LockRun.step Admits LockRun.booted sts s) :
    (∀ c d lk, s.Owns c lk → s.Owns d lk → c = d) ∧
      (∀ c lk, (s.cpu c).pc = .idle → (s.holding c lk = true ↔ lk ∈ s.held c)) ∧
      (∀ c lk, s.Owns c lk → (s.cpu c).interrupts = false) ∧
      ∀ p, s.panicked = some p →
        (∃ c lk, p = .acquire c lk ∧ lk ∈ s.held c) ∨ ∃ c lk, p = .release c lk ∧ lk ∉ s.held c := by
  have h : Safe s := hrun.invariant (fun _ _ h hok => h.step hok) Safe.booted
  refine ⟨h.exclusive, fun c lk hpc => ?_, fun c lk hown => h.masked c ?_, h.fair⟩
  · have hsigned := h.signed c lk
    rw [hpc] at hsigned
    simp only [reduceCtorEq, or_false] at hsigned
    rw [holding, Bool.and_eq_true, decide_eq_true_eq, hsigned]
    exact and_iff_right_of_imp fun hmem => h.locked c lk (Or.inl hmem)
  · have hdepth := h.depth c
    rcases hown with hmem | hpc
    · have hlen := List.length_pos_of_mem hmem
      omega
    · cases hc : (s.cpu c).pc <;> rw [hc] at hpc hdepth <;> simp [LockPc.Owns, LockPc.pushes] at hpc hdepth <;>
        omega

/-- Two CPUs want the same lock. -/
theorem locks_exclusive_two : ∃ s : LockRun Bool Unit, Run LockRun.step Admits LockRun.booted
    [.acquire true (), .acquire false (), .go true, .go false, .go true, .go false, .go true, .release true (),
      .go true, .go true, .go true, .go true, .go false, .go false] s ∧
      s.held true = [] ∧ s.held false = [()] ∧ ∀ c d lk, s.Owns c lk → s.Owns d lk → c = d := by
  have hrun : Run LockRun.step Admits (LockRun.booted : LockRun Bool Unit)
      [.acquire true (), .acquire false (), .go true, .go false, .go true, .go false, .go true, .release true (),
        .go true, .go true, .go true, .go true, .go false, .go false] _ :=
    .cons (by decide) (.cons (by decide) (.cons (by decide) (.cons (by decide) (.cons (by decide)
      (.cons (by decide) (.cons (by decide) (.cons (by decide) (.cons (by decide) (.cons (by decide)
      (.cons (by decide) (.cons (by decide) (.cons (by decide) (.cons (by decide) (.nil _))))))))))))))
  exact ⟨_, hrun, by decide, by decide, (locks_exclusive hrun).1⟩

end Safe

end LockRun
end Xv6
end LfsXv6
