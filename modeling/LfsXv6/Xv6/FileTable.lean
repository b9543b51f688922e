import LfsXv6.Lib.Run
import LfsXv6.Xv6.Sysfile
import LfsXv6.Xv6.Proc
import LfsXv6.Xv6.VmPages

/-!
# FileTable — `struct file`s, descriptors and pipes under any number of processes

The steps are those that `ftable.lock` and the locks of pipes delimit, each with the code behind it that
touches only what the process owns: its descriptors and the files that it has just got.  A process that is
between two of them has something in its hands (`Doing`): a file that it allocated, or a reference that it is
about to give up.

`proc->ofile` of an exiting process is cleared at once; in between only the process itself could look at it.
`create` and `namei` come before the part of `sys_open` that is modelled here: they leave a reference to `ip`.
-/

namespace LfsXv6
namespace Xv6

open Lib

/-- `struct file`, with its pipe. -/
structure OpenFile extends FileEntry where
  pipe : Nat

/-- What the end of a system call gives up: a reference to a file (`fileclose`), an end of a pipe
(`pipeclose`), or a reference to an inode (`iput`). -/
inductive Ending where
  | drop (f : Fin nfile)
  | hangUp (p : Nat) (writable : Bool)
  | put (ip : Slot)
  deriving DecidableEq

/-- Where a process is: in `pipealloc` before the second `filealloc` or before `kalloc`, in the loop of
`fork`, or giving up what remains, after which it may be gone. -/
inductive Doing where
  | second (rf : Fin nfile)
  | page (rf wf : Fin nfile)
  | fork (np : Fin nproc) (fd : Nat)
  | ending (l : List Ending) (exiting : Bool)
  deriving DecidableEq

/-- Outside of these system calls. -/
abbrev Doing.idle : Doing := .ending [] false

namespace Doing

/-- The files that a call in progress has allocated. -/
def fresh : Doing → List (Fin nfile)
  | .second rf => [rf]
  | .page rf wf => [rf, wf]
  | _ => []

/-- What a call in progress is about to give up. -/
def endings : Doing → List Ending
  | .ending l _ => l
  | _ => []

/-- The references to `f` that a call in progress holds. -/
def refs (d : Doing) (f : Fin nfile) : Nat := d.fresh.count f + d.endings.count (.drop f)

end Doing

/-- What `fileclose` goes on with for the last reference to `ff`. -/
def OpenFile.endings (ff : OpenFile) : List Ending :=
  match ff.type with
  | .none => []
  | .pipe => [.hangUp ff.pipe ff.writable]
  | .inode ip => [.put ip]

/-- The file table and the descriptors of all processes; `opened p` has `writeopen` and `readopen` of the pipe
in page `p`, `panicked` is for `panic`.  `held` is for the specification: the references to inodes that
`sys_open` got and that are not yet given up. -/
structure FileRun where
  ftable : Fin nfile → OpenFile
  ofile : Fin nproc → Fin nofile → Option (Fin nfile)
  state : Fin nproc → ProcState
  doing : Fin nproc → Doing
  opened : Nat → Bool → Bool
  held : Slot → Nat
  panicked : Bool

/-- A process `i` makes a system call, or goes on with it, with what `kalloc` returns.  `r` is what `readi`
or `writei` returns. -/
inductive FileStep where
  | openInode (i : Fin nproc) (ip : Slot) (omode : Int32)
  | dup (i : Fin nproc) (fd : Int32)
  | close (i : Fin nproc) (fd : Int32)
  | read (i : Fin nproc) (fd r : Int32)
  | write (i : Fin nproc) (fd r : Int32)
  | pipe (i : Fin nproc)
  | fork (i np : Fin nproc)
  | exit (i : Fin nproc)
  | wait (j : Fin nproc)
  | turn (i : Fin nproc) (mem : Option Nat)

namespace FileRun

@[simps] def setFile (s : FileRun) (f : Fin nfile) (x : OpenFile) : FileRun :=
  { s with ftable := Function.update s.ftable f x }

@[simps] def setFd (s : FileRun) (i : Fin nproc) (fd : Fin nofile) (x : Option (Fin nfile)) : FileRun :=
  { s with ofile := Function.update s.ofile i (Function.update (s.ofile i) fd x) }

@[simps] def setState (s : FileRun) (i : Fin nproc) (x : ProcState) : FileRun :=
  { s with state := Function.update s.state i x }

@[simps] def setDoing (s : FileRun) (i : Fin nproc) (d : Doing) : FileRun :=
  { s with doing := Function.update s.doing i d }

@[simps] def setOpened (s : FileRun) (p : Nat) (o : Bool → Bool) : FileRun :=
  { s with opened := Function.update s.opened p o }

@[simps] def setHeld (s : FileRun) (ip : Slot) (n : Nat) : FileRun :=
  { s with held := Function.update s.held ip n }

/-! ## The file table -/

/-- `filealloc` -/
def filealloc (s : FileRun) : Option (Fin nfile × FileRun) :=
  ((List.finRange nfile).find? fun f => (s.ftable f).ref = 0).map fun f =>
    (f, s.setFile f { s.ftable f with ref := 1 })

/-- `fdalloc` -/
def fdalloc (s : FileRun) (i : Fin nproc) (f : Fin nfile) : Option (Fin nofile × FileRun) :=
  ((List.finRange nofile).find? fun fd => (s.ofile i fd).isNone).map fun fd => (fd, s.setFd i fd (some f))

/-- `filedup` -/
def filedup (s : FileRun) (f : Fin nfile) : FileRun :=
  if (s.ftable f).ref < 1 then { s with panicked := true }
  else s.setFile f { s.ftable f with ref := (s.ftable f).ref + 1 }

/-- `fileclose` up to its `release`, and what remains of it -/
def fileclose (s : FileRun) (f : Fin nfile) : List Ending × FileRun :=
  if (s.ftable f).ref < 1 then ([], { s with panicked := true })
  else if 0 < (s.ftable f).ref - 1 then
    ([], s.setFile f { s.ftable f with ref := (s.ftable f).ref - 1 })
  else ((s.ftable f).endings, s.setFile f { s.ftable f with ref := 0, type := .none })

/-- The behaviour of `fileread` and `filewrite` when `r` is read or written: `ok` is `readable` or
`writable`. -/
def transfer (s : FileRun) (f : Fin nfile) (ok : Bool) (r : Int32) : FileRun :=
  if ok = false then s
  else
    match (s.ftable f).type with
    | .pipe => s
    | .inode _ =>
        if 0 < r then s.setFile f { s.ftable f with off := (s.ftable f).off + r.toUInt32 } else s
    | .none => { s with panicked := true }

/-- `fileread` -/
def fileread (s : FileRun) (f : Fin nfile) (r : Int32) : FileRun := s.transfer f (s.ftable f).readable r

/-- `filewrite` -/
def filewrite (s : FileRun) (f : Fin nfile) (r : Int32) : FileRun := s.transfer f (s.ftable f).writable r

/-! ## System calls -/

/-- `argfd` -/
def argfd (s : FileRun) (i : Fin nproc) (fd : Int32) : Option (Fin nofile × Fin nfile) :=
  if fd < 0 ∨ 16 ≤ fd then none
  else
    let k := Fin.ofNat nofile fd.toInt.toNat
    (s.ofile i k).map fun f => (k, f)

/-- `sys_open` behind `create` or `namei` -/
def sysOpen (s : FileRun) (i : Fin nproc) (ip : Slot) (omode : Int32) : FileRun :=
  let s := s.setHeld ip (s.held ip + 1)
  match s.filealloc with
  | none => s.setDoing i (.ending [.put ip] false)
  | some (f, s) =>
      match s.fdalloc i f with
      | none => s.setDoing i (.ending [.drop f, .put ip] false)
      | some (_, s) =>
          s.setFile f { s.ftable f with
            type := .inode ip
            off := 0
            readable := decide (omode &&& oWronly = 0)
            writable := decide (omode &&& oWronly ≠ 0) || decide (omode &&& oRdwr ≠ 0) }

/-- `sys_dup` -/
def sysDup (s : FileRun) (i : Fin nproc) (fd : Int32) : FileRun :=
  match s.argfd i fd with
  | none => s
  | some (_, f) =>
      match s.fdalloc i f with
      | none => s
      | some (_, s) => s.filedup f

/-- `sys_close` -/
def sysClose (s : FileRun) (i : Fin nproc) (fd : Int32) : FileRun :=
  match s.argfd i fd with
  | none => s
  | some (k, f) => (s.setFd i k none).setDoing i (.ending [.drop f] false)

/-- `sys_read` -/
def sysRead (s : FileRun) (i : Fin nproc) (fd r : Int32) : FileRun :=
  match s.argfd i fd with
  | none => s
  | some (_, f) => s.fileread f r

/-- `sys_write` -/
def sysWrite (s : FileRun) (i : Fin nproc) (fd r : Int32) : FileRun :=
  match s.argfd i fd with
  | none => s
  | some (_, f) => s.filewrite f r

/-- `sys_pipe`, and in it `pipealloc`, up to the first `filealloc` -/
def sysPipe (s : FileRun) (i : Fin nproc) : FileRun :=
  match s.filealloc with
  | none => s
  | some (rf, s) => s.setDoing i (.second rf)

/-- `pipealloc` from its second `filealloc` on -/
def pipeSecond (s : FileRun) (i : Fin nproc) (rf : Fin nfile) : FileRun :=
  match s.filealloc with
  | none => s.setDoing i (.ending [.drop rf] false)
  | some (wf, s) => s.setDoing i (.page rf wf)

/-- The pipe that `pipealloc` makes in page `p` -/
def pipeMade (s : FileRun) (rf wf : Fin nfile) (p : Nat) : FileRun :=
  let s := s.setOpened p fun _ => true
  let s := s.setFile rf { s.ftable rf with type := .pipe, readable := true, writable := false, pipe := p }
  s.setFile wf { s.ftable wf with type := .pipe, readable := false, writable := true, pipe := p }

/-- The rest of `pipealloc`, from `kalloc` on, and of `sys_pipe` -/
def pipePage (s : FileRun) (i : Fin nproc) (rf wf : Fin nfile) (mem : Option Nat) : FileRun :=
  match mem with
  | none => s.setDoing i (.ending [.drop rf, .drop wf] false)
  | some p =>
      let s := s.pipeMade rf wf p
      match s.fdalloc i rf with
      | none => s.setDoing i (.ending [.drop rf, .drop wf] false)
      | some (fd0, s) =>
          match s.fdalloc i wf with
          | none => (s.setFd i fd0 none).setDoing i (.ending [.drop rf, .drop wf] false)
          | some (_, s) => s.setDoing i .idle

/-- `fork` up to its loop -/
def fork (s : FileRun) (i np : Fin nproc) : FileRun :=
  (s.setState np .embryo).setDoing i (.fork np 0)

/-- A turn of the loop of `fork`, or the rest of it -/
def forkTurn (s : FileRun) (i np : Fin nproc) (fd : Nat) : FileRun :=
  if h : fd < nofile then
    match s.ofile i ⟨fd, h⟩ with
    | none => s.setDoing i (.fork np (fd + 1))
    | some f => ((s.filedup f).setFd np ⟨fd, h⟩ (some f)).setDoing i (.fork np (fd + 1))
  else (s.setState np .runnable).setDoing i .idle

/-- `exit` -/
def exit (s : FileRun) (i : Fin nproc) : FileRun :=
  { s with ofile := Function.update s.ofile i fun _ => none }.setDoing i
    (.ending ((List.finRange nofile).filterMap fun fd => (s.ofile i fd).map .drop) true)

/-- A process goes on giving up what remains, or ends. -/
def endingTurn (s : FileRun) (i : Fin nproc) (l : List Ending) (exiting : Bool) : FileRun :=
  match l with
  | [] => if exiting then (s.setState i .zombie).setDoing i .idle else s
  | .drop f :: l => (s.fileclose f).2.setDoing i (.ending ((s.fileclose f).1 ++ l) exiting)
  | .hangUp p writable :: l =>
      (s.setOpened p (Function.update (s.opened p) writable false)).setDoing i (.ending l exiting)
  | .put ip :: l => (s.setHeld ip (s.held ip - 1)).setDoing i (.ending l exiting)

/-! ## Runs -/

/-- Process `i` may make a system call. -/
def Ready (s : FileRun) (i : Fin nproc) : Prop := s.state i = .runnable ∧ s.doing i = .idle

/-- `kalloc` returns a page in which there is no pipe. -/
def Admits (s : FileRun) : FileStep → Prop
  | .openInode i _ _ | .dup i _ | .close i _ | .read i _ _ | .write i _ _ | .pipe i | .exit i => s.Ready i
  | .fork i np => s.Ready i ∧ s.state np = .unused
  | .wait j => s.state j = .zombie
  | .turn i mem => s.doing i ≠ .idle ∧ ∀ p ∈ mem, ∀ writable, s.opened p writable = false

instance (s : FileRun) (st : FileStep) : Decidable (s.Admits st) := by
  cases st <;> unfold Admits Ready <;> infer_instance

def step (s : FileRun) : FileStep → FileRun
  | .openInode i ip omode => s.sysOpen i ip omode
  | .dup i fd => s.sysDup i fd
  | .close i fd => s.sysClose i fd
  | .read i fd r => s.sysRead i fd r
  | .write i fd r => s.sysWrite i fd r
  | .pipe i => s.sysPipe i
  | .fork i np => s.fork i np
  | .exit i => s.exit i
  | .wait j => s.setState j .unused
  | .turn i mem =>
      match s.doing i with
      | .second rf => s.pipeSecond i rf
      | .page rf wf => s.pipePage i rf wf mem
      | .fork np fd => s.forkTurn i np fd
      | .ending l exiting => s.endingTurn i l exiting

/-- Only the first process, without descriptors. -/
def booted : FileRun where
  ftable := fun _ => ⟨⟨0, .none, false, false, 0⟩, 0⟩
  ofile := fun _ _ => none
  state := fun i => if i = 0 then .runnable else .unused
  doing := fun _ => .idle
  opened := fun _ _ => false
  held := fun _ => 0
  panicked := false

/-! ## Who holds what -/

/-- The descriptors among `o` that refer to `f`. -/
@[irreducible] def uses (o : Fin nofile → Option (Fin nfile)) (f : Fin nfile) : Nat := ∑ fd, if o fd = some f then 1 else 0

/-- The descriptors that refer to `f`. -/
@[irreducible] def descriptors (s : FileRun) (f : Fin nfile) : Nat := ∑ i, uses (s.ofile i) f

/-- The references to `f` that calls in progress hold. -/
@[irreducible] def inHand (s : FileRun) (f : Fin nfile) : Nat := ∑ i, (s.doing i).refs f

/-- How often `e` is still to come: when a file is closed, or in a call in progress. -/
@[irreducible] def pending (s : FileRun) (e : Ending) : Nat :=
  ∑ f, (s.ftable f).endings.count e + ∑ i, (s.doing i).endings.count e

/-- Every reference is counted: those to files, those of files to the ends of their pipes, and those of files
to inodes. -/
structure Counted (s : FileRun) : Prop where
  refs : ∀ f, (s.ftable f).ref = s.descriptors f + s.inHand f
  pipes : ∀ p writable, (s.opened p writable).toNat = s.pending (.hangUp p writable)
  inodes : ∀ ip, s.held ip = s.pending (.put ip)

/-- A file is of no type exactly while no descriptor refers to it. -/
structure Typed (s : FileRun) : Prop where
  free : ∀ f, (s.ftable f).ref = 0 → (s.ftable f).type = .none
  descriptor : ∀ i fd f, s.ofile i fd = some f → (s.ftable f).type ≠ .none
  fresh : ∀ i f, f ∈ (s.doing i).fresh → (s.ftable f).ref = 1 ∧ (s.ftable f).type = .none

/-- What the processes are doing agrees with their states and descriptors. -/
structure Orderly (s : FileRun) : Prop where
  absent : ∀ i, s.state i ≠ .runnable → s.doing i = .idle
  bare : ∀ i, s.state i = .unused ∨ s.state i = .zombie → ∀ fd, s.ofile i fd = none
  leaving : ∀ i l, s.doing i = .ending l true → ∀ fd, s.ofile i fd = none
  child : ∀ i np k, s.doing i = .fork np k →
    s.state np = .embryo ∧ ∀ fd : Fin nofile, k ≤ fd → s.ofile np fd = none
  alone : ∀ i j np k m, s.doing i = .fork np k → s.doing j = .fork np m → i = j

section Counted

variable {s t : FileRun} {i j np : Fin nproc} {f g : Fin nfile} {fd : Fin nofile} {e : Ending} {d : Doing}

@[simp] theorem refs_second {rf : Fin nfile} : (Doing.second rf).refs f = if rf = f then 1 else 0 := by
  simp [Doing.refs, Doing.fresh, Doing.endings, List.count_cons]

@[simp] theorem refs_page {rf wf : Fin nfile} :
    (Doing.page rf wf).refs f = (if rf = f then 1 else 0) + if wf = f then 1 else 0 := by
  simp [Doing.refs, Doing.fresh, Doing.endings, List.count_cons, Nat.add_comm]

@[simp] theorem refs_fork {k : Nat} : (Doing.fork np k).refs f = 0 := rfl

@[simp] theorem refs_ending {l : List Ending} {exiting : Bool} :
    (Doing.ending l exiting).refs f = l.count (.drop f) := by
  simp [Doing.refs, Doing.fresh, Doing.endings]

@[simp] theorem endings_ending {l : List Ending} {exiting : Bool} : (Doing.ending l exiting).endings = l := rfl

/-! ### What an update changes -/

theorem uses_update (o : Fin nofile → Option (Fin nfile)) (k : Fin nofile) (y : Option (Fin nfile)) :
    uses (Function.update o k y) f + (if o k = some f then 1 else 0) =
      uses o f + (if y = some f then 1 else 0) := by
  unfold uses
  exact Vm.sum_update_add (fun _ (y : Option (Fin nfile)) => if y = some f then 1 else 0) o k y

theorem descriptors_update {o : Fin nofile → Option (Fin nfile)} (h : t.ofile = Function.update s.ofile i o) :
    t.descriptors f + uses (s.ofile i) f = s.descriptors f + uses o f := by
  unfold descriptors
  rw [h]
  exact Vm.sum_update_add (fun _ o => uses o f) s.ofile i o

theorem inHand_update (h : t.doing = Function.update s.doing i d) :
    t.inHand f + (s.doing i).refs f = s.inHand f + d.refs f := by
  unfold inHand
  rw [h]
  exact Vm.sum_update_add (fun _ (d : Doing) => d.refs f) s.doing i d

theorem pending_update {x : OpenFile} (hfile : t.ftable = Function.update s.ftable f x)
    (hdoing : t.doing = Function.update s.doing i d) :
    t.pending e + (s.ftable f).endings.count e + (s.doing i).endings.count e =
      s.pending e + x.endings.count e + d.endings.count e := by
  have h₁ := Vm.sum_update_add (fun _ (x : OpenFile) => x.endings.count e) s.ftable f x
  have h₂ := Vm.sum_update_add (fun _ (d : Doing) => d.endings.count e) s.doing i d
  unfold pending
  rw [hfile, hdoing]
  omega

/-! ### What the functions do -/

theorem filealloc_eq_some (h : s.filealloc = some (f, t)) :
    (s.ftable f).ref = 0 ∧ t = s.setFile f { s.ftable f with ref := 1 } := by
  obtain ⟨f', hf, heq⟩ := Option.map_eq_some_iff.mp h
  cases heq
  exact ⟨of_decide_eq_true (List.find?_some (p := fun f => decide ((s.ftable f).ref = 0)) hf), rfl⟩

theorem fdalloc_eq_some (h : s.fdalloc i f = some (fd, t)) : s.ofile i fd = none ∧ t = s.setFd i fd (some f) := by
  obtain ⟨fd', hfd, heq⟩ := Option.map_eq_some_iff.mp h
  cases heq
  exact ⟨Option.isNone_iff_eq_none.mp (List.find?_some (p := fun fd => (s.ofile i fd).isNone) hfd), rfl⟩

theorem argfd_eq_some {x : Int32} (h : s.argfd i x = some (fd, f)) : s.ofile i fd = some f := by
  unfold argfd at h
  split at h
  · cases h
  · obtain ⟨f', hf, heq⟩ := Option.map_eq_some_iff.mp h
    cases heq
    exact hf

/-! ### Who holds a file -/

theorem refs_le (s : FileRun) (i : Fin nproc) (f : Fin nfile) : (s.doing i).refs f ≤ s.inHand f := by
  unfold inHand
  exact Finset.single_le_sum (f := fun i => (s.doing i).refs f) (fun _ _ => Nat.zero_le _) (Finset.mem_univ i)

theorem refs_add_le (hij : i ≠ j) : (s.doing i).refs f + (s.doing j).refs f ≤ s.inHand f := by
  unfold inHand
  exact Finset.add_le_sum (f := fun i => (s.doing i).refs f) (fun _ _ => Nat.zero_le _) (Finset.mem_univ i)
    (Finset.mem_univ j) hij

theorem descriptors_pos (h : s.ofile i fd = some f) : 0 < s.descriptors f := by
  calc 0 < if s.ofile i fd = some f then 1 else 0 := by rw [if_pos h]; exact Nat.one_pos
    _ ≤ uses (s.ofile i) f := by
        unfold uses
        exact Finset.single_le_sum (f := fun fd => if s.ofile i fd = some f then 1 else 0)
          (fun _ _ => Nat.zero_le _) (Finset.mem_univ fd)
    _ ≤ s.descriptors f := by
        unfold descriptors
        exact Finset.single_le_sum (f := fun i => uses (s.ofile i) f) (fun _ _ => Nat.zero_le _)
          (Finset.mem_univ i)

/-! ### Processes -/

/-- A process that runs changes only what is its own. -/
theorem Orderly.own (h : Orderly s) (hi : s.state i = .runnable) (hstate : t.state = s.state)
    (hdoing : t.doing = Function.update s.doing i d) (hofile : ∀ j, j ≠ i → t.ofile j = s.ofile j)
    (hfork : ∀ np k, d ≠ .fork np k) (hleave : ∀ l, d = .ending l true → ∀ fd, t.ofile i fd = none) :
    Orderly t := by
  have hne : ∀ j, s.state j ≠ .runnable → j ≠ i := fun j hj hji => hj (hji ▸ hi)
  have hother : ∀ j, j ≠ i → t.doing j = s.doing j := fun j hj => by rw [hdoing, Function.update_of_ne hj]
  have hself : t.doing i = d := by rw [hdoing, Function.update_self]
  have hchild : ∀ j np k, t.doing j = .fork np k → j ≠ i := fun j np k hj hji =>
    hfork np k (hself.symm.trans (hji ▸ hj))
  refine ⟨?_, ?_, ?_, ?_, ?_⟩
  · intro j hj
    rw [hstate] at hj
    rw [hother j (hne j hj)]
    exact h.absent j hj
  · intro j hj
    rw [hstate] at hj
    have hji : j ≠ i := hne j (by rintro hrun; rw [hrun] at hj; simp at hj)
    rw [hofile j hji]
    exact h.bare j hj
  · intro j l hj
    by_cases hji : j = i
    · subst hji
      exact hleave l (hself.symm.trans hj)
    · rw [hother j hji] at hj
      rw [hofile j hji]
      exact h.leaving j l hj
  · intro j np k hj
    have hji := hchild j np k hj
    rw [hother j hji] at hj
    obtain ⟨hnp, hbare⟩ := h.child j np k hj
    rw [hstate, hofile np (hne np (by rw [hnp]; simp))]
    exact ⟨hnp, hbare⟩
  · intro j j' np k m hj hj'
    rw [hother j (hchild j np k hj)] at hj
    rw [hother j' (hchild j' np m hj')] at hj'
    exact h.alone j j' np k m hj hj'

/-! ### References -/

/-- A process changes what it has in its hands, its descriptors and one file: what this adds to the counts it
adds to what is counted. -/
theorem Counted.change {x : OpenFile} {o : Fin nofile → Option (Fin nfile)} (h : Counted s)
    (hfile : t.ftable = Function.update s.ftable f x) (hofile : t.ofile = Function.update s.ofile i o)
    (hdoing : t.doing = Function.update s.doing i d)
    (hself : x.ref + uses (s.ofile i) f + (s.doing i).refs f = (s.ftable f).ref + uses o f + d.refs f)
    (hother : ∀ g, g ≠ f → uses (s.ofile i) g + (s.doing i).refs g = uses o g + d.refs g)
    (hpipes : ∀ p w, (t.opened p w).toNat + (s.ftable f).endings.count (.hangUp p w) +
        (s.doing i).endings.count (.hangUp p w) =
      (s.opened p w).toNat + x.endings.count (.hangUp p w) + d.endings.count (.hangUp p w))
    (hinodes : ∀ ip, t.held ip + (s.ftable f).endings.count (.put ip) +
        (s.doing i).endings.count (.put ip) =
      s.held ip + x.endings.count (.put ip) + d.endings.count (.put ip)) : Counted t where
  refs := by
    intro g
    have hdesc := descriptors_update (f := g) hofile
    have hhand := inHand_update (f := g) hdoing
    have hrefs := h.refs g
    by_cases hg : g = f
    · subst hg
      rw [hfile, Function.update_self]
      omega
    · have heq := hother g hg
      rw [hfile, Function.update_of_ne hg]
      omega
  pipes := by
    intro p w
    have hpend := pending_update (e := .hangUp p w) hfile hdoing
    have hold := h.pipes p w
    have hnew := hpipes p w
    omega
  inodes := by
    intro ip
    have hpend := pending_update (e := .put ip) hfile hdoing
    have hold := h.inodes ip
    have hnew := hinodes ip
    omega

/-- A change of one file. -/
theorem Typed.set {x : OpenFile} (h : Typed s) (htable : t.ftable = Function.update s.ftable f x)
    (hfree : x.ref = 0 → x.type = .none)
    (hdesc : ∀ j fd g, t.ofile j fd = some g → g ≠ f → ∃ j fd, s.ofile j fd = some g)
    (hself : ∀ j fd, t.ofile j fd = some f → x.type ≠ .none)
    (hfresh : ∀ j g, g ∈ (t.doing j).fresh → g ≠ f → ∃ j, g ∈ (s.doing j).fresh)
    (hnew : ∀ j, f ∈ (t.doing j).fresh → x.ref = 1 ∧ x.type = .none) : Typed t := by
  have hft : t.ftable f = x := by rw [htable, Function.update_self]
  have hother : ∀ g, g ≠ f → t.ftable g = s.ftable g := fun g hg => by rw [htable, Function.update_of_ne hg]
  refine ⟨?_, ?_, ?_⟩
  · intro g
    by_cases hg : g = f
    · rw [hg, hft]
      exact hfree
    · rw [hother g hg]
      exact h.free g
  · intro j fd g hj
    by_cases hg : g = f
    · subst hg
      rw [hft]
      exact hself j fd hj
    · obtain ⟨j', fd', hj'⟩ := hdesc j fd g hj hg
      rw [hother g hg]
      exact h.descriptor j' fd' g hj'
  · intro j g hj
    by_cases hg : g = f
    · subst hg
      rw [hft]
      exact hnew j hj
    · obtain ⟨j', hj'⟩ := hfresh j g hj hg
      rw [hother g hg]
      exact h.fresh j' g hj'

/-- A change of no file. -/
theorem Typed.same (h : Typed s) (htable : t.ftable = s.ftable)
    (hdesc : ∀ j fd g, t.ofile j fd = some g → ∃ j fd, s.ofile j fd = some g)
    (hfresh : ∀ j g, g ∈ (t.doing j).fresh → ∃ j, g ∈ (s.doing j).fresh) : Typed t := by
  refine ⟨fun g => ?_, fun j fd g hj => ?_, fun j g hj => ?_⟩
  · rw [htable]
    exact h.free g
  · obtain ⟨j', fd', hj'⟩ := hdesc j fd g hj
    rw [htable]
    exact h.descriptor j' fd' g hj'
  · obtain ⟨j', hj'⟩ := hfresh j g hj
    rw [htable]
    exact h.fresh j' g hj'

theorem fresh_setDoing (hd : d.fresh = []) (h : g ∈ ((s.setDoing i d).doing j).fresh) :
    j ≠ i ∧ g ∈ (s.doing j).fresh := by
  by_cases hj : j = i
  · subst hj
    simp [hd] at h
  · rw [setDoing_doing, Function.update_of_ne hj] at h
    exact ⟨hj, h⟩

theorem ofile_setFd {x : Option (Fin nfile)} {k : Fin nofile} (h : (s.setFd i fd x).ofile j k = some g) :
    (j = i ∧ k = fd ∧ x = some g) ∨ s.ofile j k = some g := by
  by_cases hj : j = i
  · subst hj
    by_cases hk : k = fd
    · subst hk
      simp only [setFd_ofile, Function.update_self] at h
      exact Or.inl ⟨rfl, rfl, h⟩
    · simp only [setFd_ofile, Function.update_self, Function.update_of_ne hk] at h
      exact Or.inr h
  · simp only [setFd_ofile, Function.update_of_ne hj] at h
    exact Or.inr h

/-- A process that has exited. -/
theorem Orderly.gone (h : Orderly s) (hi : s.state i = .runnable) (hd : s.doing i = .ending [] true) :
    Orderly ((s.setState i .zombie).setDoing i .idle) := by
  have hbare := h.leaving i [] hd
  have hother : ∀ j, j ≠ i → ((s.setState i .zombie).setDoing i .idle).doing j = s.doing j := fun j hj =>
    Function.update_of_ne hj _ _
  have hstate : ∀ j, j ≠ i → ((s.setState i .zombie).setDoing i .idle).state j = s.state j := fun j hj =>
    Function.update_of_ne hj _ _
  have hself : ((s.setState i .zombie).setDoing i .idle).doing i = .idle := Function.update_self ..
  have hchild : ∀ j np k, ((s.setState i .zombie).setDoing i .idle).doing j = .fork np k →
      s.doing j = .fork np k := by
    intro j np k hj
    by_cases hji : j = i
    · rw [hji, hself] at hj
      cases hj
    · rwa [hother j hji] at hj
  refine ⟨?_, ?_, ?_, ?_, ?_⟩
  · intro j hj
    by_cases hji : j = i
    · rw [hji, hself]
    · rw [hstate j hji] at hj
      rw [hother j hji]
      exact h.absent j hj
  · intro j hj
    by_cases hji : j = i
    · rw [hji]
      exact hbare
    · rw [hstate j hji] at hj
      exact h.bare j hj
  · intro j l hj
    by_cases hji : j = i
    · rw [hji]
      exact hbare
    · rw [hother j hji] at hj
      exact h.leaving j l hj
  · intro j np k hj
    obtain ⟨hnp, hrest⟩ := h.child j np k (hchild j np k hj)
    have hne : np ≠ i := by
      rintro rfl
      rw [hi] at hnp
      cases hnp
    rw [hstate np hne]
    exact ⟨hnp, hrest⟩
  · intro j j' np k m hj hj'
    exact h.alone j j' np k m (hchild j np k hj) (hchild j' np m hj')

/-- A process makes another one. -/
theorem Orderly.child_update {x : ProcState} {o : Fin nofile → Option (Fin nfile)} (h : Orderly s)
    (hi : s.state i = .runnable) (hnp : s.state np ≠ .runnable) (hone : ∀ j k, s.doing j = .fork np k → j = i)
    (hstate : t.state = Function.update s.state np x) (hdoing : t.doing = Function.update s.doing i d)
    (hofile : t.ofile = Function.update s.ofile np o)
    (hd : (x = .runnable ∧ d = .idle) ∨
      x = .embryo ∧ ∃ k, d = .fork np k ∧ ∀ fd : Fin nofile, k ≤ fd → o fd = none) : Orderly t := by
  have hidle : s.doing np = .idle := h.absent np hnp
  have hne : i ≠ np := by
    rintro rfl
    exact hnp hi
  have hself : t.doing i = d := by rw [hdoing, Function.update_self]
  have hother : ∀ j, j ≠ i → t.doing j = s.doing j := fun j hj => by rw [hdoing, Function.update_of_ne hj]
  have hnew : t.state np = x := by rw [hstate, Function.update_self]
  have hold : ∀ j, j ≠ np → t.state j = s.state j := fun j hj => by rw [hstate, Function.update_of_ne hj]
  have hfiles : ∀ j, j ≠ np → t.ofile j = s.ofile j := fun j hj => by rw [hofile, Function.update_of_ne hj]
  have hfork : ∀ j np' k, j ≠ i → t.doing j = .fork np' k → s.doing j = .fork np' k ∧ np' ≠ np := by
    intro j np' k hj hfork
    rw [hother j hj] at hfork
    refine ⟨hfork, ?_⟩
    rintro rfl
    exact hj (hone j k hfork)
  refine ⟨?_, ?_, ?_, ?_, ?_⟩
  · intro j hj
    rcases eq_or_ne j np with rfl | hjn
    · rw [hother j hne.symm, hidle]
    · rw [hold j hjn] at hj
      have hji : j ≠ i := by
        rintro rfl
        exact hj hi
      rw [hother j hji]
      exact h.absent j hj
  · intro j hj
    rcases eq_or_ne j np with rfl | hjn
    · rw [hnew] at hj
      rcases hd with ⟨rfl, -⟩ | ⟨rfl, -⟩ <;> simp at hj
    · rw [hold j hjn] at hj
      rw [hfiles j hjn]
      exact h.bare j hj
  · intro j l hj
    have hji : j ≠ i := by
      rintro rfl
      rw [hself] at hj
      rcases hd with ⟨-, rfl⟩ | ⟨-, k, rfl, -⟩ <;> cases hj
    rw [hother j hji] at hj
    have hjn : j ≠ np := by
      rintro rfl
      rw [hidle] at hj
      cases hj
    rw [hfiles j hjn]
    exact h.leaving j l hj
  · intro j np' k hj
    rcases eq_or_ne j i with rfl | hji
    · rw [hself] at hj
      rcases hd with ⟨-, rfl⟩ | ⟨rfl, k', rfl, hnone⟩
      · cases hj
      · cases hj
        rw [hnew, hofile, Function.update_self]
        exact ⟨rfl, hnone⟩
    · obtain ⟨hj, hne'⟩ := hfork j np' k hji hj
      rw [hold np' hne', hfiles np' hne']
      exact h.child j np' k hj
  · intro j j' np' k m hj hj'
    have honly : ∀ j k, t.doing j = .fork np k → j = i := by
      intro j k hj
      by_contra hji
      exact (hfork j np k hji hj).2 rfl
    rcases eq_or_ne np' np with rfl | hne'
    · rw [honly j k hj, honly j' m hj']
    · have hback : ∀ j k, t.doing j = .fork np' k → s.doing j = .fork np' k := by
        intro j k hj
        rcases eq_or_ne j i with rfl | hji
        · rw [hself] at hj
          rcases hd with ⟨-, rfl⟩ | ⟨-, k', rfl, -⟩
          · cases hj
          · cases hj
            exact absurd rfl hne'
        · exact (hfork j np' k hji hj).1
      exact h.alone j j' np' k m (hback j k hj) (hback j' m hj')

/-- `wait` frees the place of a process that has exited. -/
theorem Orderly.reaped (h : Orderly s) (hj : s.state j = .zombie) : Orderly (s.setState j .unused) := by
  have hother : ∀ k, k ≠ j → (s.setState j .unused).state k = s.state k := fun k hk =>
    Function.update_of_ne hk _ _
  refine ⟨?_, ?_, h.leaving, ?_, h.alone⟩
  · intro k hk
    rcases eq_or_ne k j with rfl | hkj
    · exact h.absent k (by rw [hj]; simp)
    · rw [hother k hkj] at hk
      exact h.absent k hk
  · intro k hk
    rcases eq_or_ne k j with rfl | hkj
    · exact h.bare k (Or.inr hj)
    · rw [hother k hkj] at hk
      exact h.bare k hk
  · intro k np m hk
    obtain ⟨hnp, hnone⟩ := h.child k np m hk
    have hne : np ≠ j := by
      rintro rfl
      rw [hj] at hnp
      cases hnp
    rw [hother np hne]
    exact ⟨hnp, hnone⟩

/-- The invariant of all runs. -/
structure Sound (s : FileRun) : Prop where
  counted : Counted s
  typed : Typed s
  orderly : Orderly s
  calm : s.panicked = false

namespace Sound

/-- A descriptor refers to a file that is in use. -/
theorem ref_pos (h : Sound s) (hfd : s.ofile i fd = some f) : 0 < (s.ftable f).ref := by
  have hpos := descriptors_pos hfd
  have hrefs := h.counted.refs f
  omega

/-- Nobody else has a file that a call in progress has allocated. -/
theorem fresh_alone (h : Sound s) (hf : f ∈ (s.doing i).fresh) (hij : i ≠ j) : (s.doing j).refs f = 0 := by
  have hrefs := h.counted.refs f
  have hadd := refs_add_le (s := s) (f := f) hij
  have hone : 0 < (s.doing i).fresh.count f := List.count_pos_iff.mpr hf
  have href := (h.typed.fresh i f hf).1
  unfold Doing.refs at hadd ⊢
  omega

/-- A file that a process is about to give up is not one that somebody has just allocated. -/
theorem not_fresh_of_drop {l : List Ending} {exiting : Bool} (h : Sound s)
    (hd : s.doing i = .ending l exiting) (hf : .drop f ∈ l) (j : Fin nproc) : f ∉ (s.doing j).fresh := by
  intro hj
  have hne : j ≠ i := by
    rintro rfl
    rw [hd] at hj
    cases hj
  have hzero := h.fresh_alone hj hne
  rw [hd, refs_ending] at hzero
  exact List.count_eq_zero.mp hzero hf

/-- Other things in the hands of a process, with the same references in them. -/
theorem rehand (h : Sound s) (hi : s.state i = .runnable) (hrefs : ∀ g, d.refs g = (s.doing i).refs g)
    (hend : ∀ e, (∀ g, e ≠ .drop g) → d.endings.count e = (s.doing i).endings.count e)
    (hfresh : d.fresh = []) (hfork : ∀ np k, d ≠ .fork np k) (hleave : ∀ l, d ≠ .ending l true) :
    Sound (s.setDoing i d) := by
  refine ⟨h.counted.change (f := 0) (x := s.ftable 0) (i := i) (o := s.ofile i)
    (Function.update_eq_self ..).symm (Function.update_eq_self ..).symm rfl ?_ ?_ ?_ ?_, ?_, ?_, h.calm⟩
  · rw [hrefs]
  · intro g _
    rw [hrefs]
  · intro p w
    rw [hend _ (by rintro g ⟨⟩)]
    rfl
  · intro ip
    rw [hend _ (by rintro g ⟨⟩)]
    rfl
  · exact h.typed.same rfl (fun j fd g hj => ⟨j, fd, hj⟩) fun j g hg => ⟨j, (fresh_setDoing hfresh hg).2⟩
  · exact h.orderly.own hi rfl rfl (fun _ _ => rfl) hfork fun l hl => absurd hl (hleave l)

/-- `filealloc` -/
theorem alloc (h : Sound s) (hi : s.state i = .runnable) (hzero : (s.ftable f).ref = 0)
    (hrefs : ∀ g, d.refs g = (s.doing i).refs g + if f = g then 1 else 0)
    (hend : ∀ e, (∀ g, e ≠ .drop g) → d.endings.count e = (s.doing i).endings.count e)
    (hfresh : ∀ g ∈ d.fresh, g ≠ f → g ∈ (s.doing i).fresh) (hfork : ∀ np k, d ≠ .fork np k)
    (hleave : ∀ l, d ≠ .ending l true) :
    Sound ((s.setFile f { s.ftable f with ref := 1 }).setDoing i d) := by
  refine ⟨h.counted.change (i := i) (o := s.ofile i) rfl (Function.update_eq_self ..).symm rfl ?_ ?_ ?_ ?_,
    ?_, ?_, h.calm⟩
  · rw [hrefs, if_pos rfl, hzero]
    show 1 + _ + _ = _
    omega
  · intro g hg
    rw [hrefs, if_neg hg.symm, Nat.add_zero]
  · intro p w
    rw [hend _ (by rintro g ⟨⟩)]
    rfl
  · intro ip
    rw [hend _ (by rintro g ⟨⟩)]
    rfl
  · refine h.typed.set (f := f) rfl (fun hone => absurd hone Int.one_ne_zero) (fun j fd g hj _ => ⟨j, fd, hj⟩)
      (fun j fd hj => ?_) (fun j g hg hgf => ?_) (fun j hj => ⟨rfl, h.typed.free f hzero⟩)
    · have hpos := h.ref_pos hj
      omega
    · by_cases hji : j = i
      · subst hji
        rw [setDoing_doing, Function.update_self] at hg
        exact ⟨j, hfresh g hg hgf⟩
      · rw [setDoing_doing, Function.update_of_ne hji] at hg
        exact ⟨j, hg⟩
  · exact h.orderly.own hi rfl rfl (fun _ _ => rfl) hfork fun l hl => absurd hl (hleave l)

/-- A file in the hands of a process gets a type, and with it what is to be given up when it is closed. -/
theorem dress {x : OpenFile} {l m : List Ending} {o : Nat → Bool → Bool} (h : Sound s)
    (hi : s.state i = .runnable) (hd : s.doing i = .ending l false) (hf : .drop f ∈ l)
    (href : x.ref = (s.ftable f).ref) (hx : x.type ≠ .none) (hl : ∀ g, m.count (.drop g) = l.count (.drop g))
    (hpipes : ∀ p w, (o p w).toNat + (s.ftable f).endings.count (.hangUp p w) + l.count (.hangUp p w) =
      (s.opened p w).toNat + x.endings.count (.hangUp p w) + m.count (.hangUp p w))
    (hinodes : ∀ ip, (s.ftable f).endings.count (.put ip) + l.count (.put ip) =
      x.endings.count (.put ip) + m.count (.put ip)) :
    Sound (({ s with opened := o }.setFile f x).setDoing i (.ending m false)) := by
  have hpos : 0 < (s.ftable f).ref := by
    have hle := refs_le s i f
    have hrefs := h.counted.refs f
    have hcount : 0 < l.count (.drop f) := List.count_pos_iff.mpr hf
    rw [hd, refs_ending] at hle
    omega
  refine ⟨h.counted.change (i := i) (o := s.ofile i) rfl (Function.update_eq_self ..).symm rfl ?_ ?_ ?_ ?_,
    ?_, ?_, h.calm⟩
  · rw [hd, refs_ending, refs_ending, hl, href]
  · intro g _
    rw [hd, refs_ending, refs_ending, hl]
  · intro p w
    rw [hd]
    exact hpipes p w
  · intro ip
    rw [hd]
    have := hinodes ip
    simp only [endings_ending, setDoing_held, setFile_held]
    omega
  · refine h.typed.set (f := f) rfl (fun hzero => ?_) (fun j fd g hj _ => ⟨j, fd, hj⟩) (fun _ _ _ => hx)
      (fun j g hg _ => ⟨j, (fresh_setDoing (s := { s with opened := o }.setFile f x) rfl hg).2⟩) (fun j hj => ?_)
    · omega
    · exact absurd (fresh_setDoing (s := { s with opened := o }.setFile f x) rfl hj).2
        (h.not_fresh_of_drop hd hf j)
  · exact h.orderly.own hi rfl rfl (fun _ _ => rfl) (by rintro np k ⟨⟩) (by rintro l ⟨⟩)

/-- `fdalloc` takes a reference over. -/
theorem link {n : Fin nofile} {l : List Ending} (h : Sound s) (hi : s.state i = .runnable)
    (hd : s.doing i = .ending (.drop f :: l) false) (hfd : s.ofile i n = none) (hf : (s.ftable f).type ≠ .none) :
    Sound ((s.setFd i n (some f)).setDoing i (.ending l false)) := by
  have huses : ∀ g, uses (Function.update (s.ofile i) n (some f)) g =
      uses (s.ofile i) g + if f = g then 1 else 0 := by
    intro g
    have := uses_update (f := g) (s.ofile i) n (some f)
    simpa [hfd] using this
  refine ⟨h.counted.change (f := f) (x := s.ftable f) (i := i) (o := Function.update (s.ofile i) n (some f))
    (Function.update_eq_self ..).symm rfl rfl ?_ ?_ ?_ ?_, ?_, ?_, h.calm⟩
  · rw [hd, refs_ending, refs_ending, List.count_cons_self, huses, if_pos rfl]
    omega
  · intro g hg
    rw [hd, refs_ending, refs_ending, List.count_cons_of_ne (by simpa using hg.symm), huses, if_neg hg.symm]
    rfl
  · intro p w
    rw [hd]
    simp
  · intro ip
    rw [hd]
    simp
  · refine ⟨h.typed.free, fun j k g hj => ?_, fun j g hg => ?_⟩
    · rcases ofile_setFd (s := s) hj with ⟨-, -, hg⟩ | hj
      · cases hg
        exact hf
      · exact h.typed.descriptor j k g hj
    · exact h.typed.fresh j g (fresh_setDoing (s := s.setFd i n (some f)) rfl hg).2
  · refine h.orderly.own hi rfl rfl (fun j hj => Function.update_of_ne hj _ _) (by rintro np k ⟨⟩) (by rintro l ⟨⟩)

/-- A descriptor is given up. -/
theorem unlink (h : Sound s) (hi : s.state i = .runnable) (hd : s.doing i = .idle) (hfd : s.ofile i fd = some f) :
    Sound ((s.setFd i fd none).setDoing i (.ending [.drop f] false)) := by
  have huses : ∀ g, uses (Function.update (s.ofile i) fd none) g + (if f = g then 1 else 0) =
      uses (s.ofile i) g := by
    intro g
    have := uses_update (f := g) (s.ofile i) fd none
    simpa [hfd] using this
  refine ⟨h.counted.change (f := f) (x := s.ftable f) (i := i) (o := Function.update (s.ofile i) fd none)
    (Function.update_eq_self ..).symm rfl rfl ?_ ?_ ?_ ?_, ?_, ?_, h.calm⟩
  · have hself := huses f
    rw [if_pos rfl] at hself
    simp [hd]
    omega
  · intro g hg
    have hother := huses g
    rw [if_neg hg.symm] at hother
    simp [hd, hg.symm]
    omega
  · intro p w
    simp [hd]
  · intro ip
    simp [hd]
  · refine ⟨h.typed.free, fun j k g hj => ?_, fun j g hg => ?_⟩
    · rcases ofile_setFd (s := s) hj with ⟨-, -, hg⟩ | hj
      · cases hg
      · exact h.typed.descriptor j k g hj
    · exact h.typed.fresh j g (fresh_setDoing (s := s.setFd i fd none) rfl hg).2
  · refine h.orderly.own hi rfl rfl (fun j hj => Function.update_of_ne hj _ _) (by rintro np k ⟨⟩) (by rintro l ⟨⟩)

/-- `fileclose` of a file that others still hold -/
theorem drop_one {l : List Ending} {exiting : Bool} (h : Sound s) (hi : s.state i = .runnable)
    (hd : s.doing i = .ending (.drop f :: l) exiting) (hmore : 1 < (s.ftable f).ref) :
    Sound ((s.setFile f { s.ftable f with ref := (s.ftable f).ref - 1 }).setDoing i (.ending l exiting)) := by
  refine ⟨h.counted.change (i := i) (o := s.ofile i) rfl (Function.update_eq_self ..).symm rfl ?_ ?_ ?_ ?_,
    ?_, ?_, h.calm⟩
  · rw [hd, refs_ending, refs_ending, List.count_cons_self]
    show (s.ftable f).ref - 1 + _ + _ = _
    omega
  · intro g hg
    rw [hd, refs_ending, refs_ending, List.count_cons_of_ne (by simpa using hg.symm)]
  · intro p w
    rw [hd]
    simp [OpenFile.endings]
  · intro ip
    rw [hd]
    simp [OpenFile.endings]
  · refine h.typed.set (f := f) rfl ?_ (fun j fd g hj _ => ⟨j, fd, hj⟩)
      (fun j fd hj => h.typed.descriptor j fd f hj) (fun j g hg _ => ⟨j, ?_⟩) (fun j hj => ?_)
    · intro (hzero : (s.ftable f).ref - 1 = 0)
      omega
    · exact (fresh_setDoing (s := s.setFile f _) rfl hg).2
    · exact absurd (fresh_setDoing (s := s.setFile f _) rfl hj).2
        (h.not_fresh_of_drop hd List.mem_cons_self j)
  · refine h.orderly.own hi rfl rfl (fun _ _ => rfl) (by rintro np k ⟨⟩) ?_
    rintro _ ⟨⟩
    exact h.orderly.leaving i _ hd

/-- `fileclose` of the last reference -/
theorem drop_last {l : List Ending} {exiting : Bool} (h : Sound s) (hi : s.state i = .runnable)
    (hd : s.doing i = .ending (.drop f :: l) exiting) (hone : (s.ftable f).ref = 1) :
    Sound ((s.setFile f { s.ftable f with ref := 0, type := .none }).setDoing i
      (.ending ((s.ftable f).endings ++ l) exiting)) := by
  have hnone : ∀ g, (s.ftable f).endings.count (.drop g) = 0 := fun g => by
    unfold OpenFile.endings
    split <;> simp
  refine ⟨h.counted.change (i := i) (o := s.ofile i) rfl (Function.update_eq_self ..).symm rfl ?_ ?_ ?_ ?_,
    ?_, ?_, h.calm⟩
  · rw [hd, refs_ending, refs_ending, List.count_cons_self, List.count_append, hnone, hone]
    show 0 + _ + _ = _
    omega
  · intro g hg
    rw [hd, refs_ending, refs_ending, List.count_cons_of_ne (by simpa using hg.symm), List.count_append, hnone,
      Nat.zero_add]
  · intro p w
    rw [hd]
    simp [OpenFile.endings]
    omega
  · intro ip
    rw [hd]
    simp [OpenFile.endings]
    omega
  · refine h.typed.set (f := f) rfl (fun _ => rfl) (fun j fd g hj _ => ⟨j, fd, hj⟩) (fun j fd hj => ?_)
      (fun j g hg _ => ⟨j, ?_⟩) (fun j hj => ?_)
    · have hpos := descriptors_pos (s := s) hj
      have hrefs := h.counted.refs f
      have hle := refs_le s i f
      rw [hd, refs_ending, List.count_cons_self] at hle
      omega
    · exact (fresh_setDoing (s := s.setFile f _) rfl hg).2
    · exact absurd (fresh_setDoing (s := s.setFile f _) rfl hj).2
        (h.not_fresh_of_drop hd List.mem_cons_self j)
  · refine h.orderly.own hi rfl rfl (fun _ _ => rfl) (by rintro np k ⟨⟩) ?_
    rintro _ ⟨⟩
    exact h.orderly.leaving i _ hd

/-- What a process is about to give up is counted. -/
theorem pending_pos {l : List Ending} {exiting : Bool} (hd : s.doing i = .ending l exiting) (he : e ∈ l) :
    0 < s.pending e := by
  have hle : (s.doing i).endings.count e ≤ ∑ i, (s.doing i).endings.count e :=
    Finset.single_le_sum (f := fun i => (s.doing i).endings.count e) (fun _ _ => Nat.zero_le _)
      (Finset.mem_univ i)
  rw [hd] at hle
  have hcount : 0 < l.count e := List.count_pos_iff.mpr he
  unfold pending
  simp only [endings_ending] at hle
  omega

/-- Nothing but what is in the hands of a process and what is counted elsewhere changes. -/
theorem handed {l l' : List Ending} {exiting : Bool} (h : Sound s) (hi : s.state i = .runnable)
    (hd : s.doing i = .ending l exiting) (hfile : t.ftable = s.ftable) (hofile : t.ofile = s.ofile)
    (hstate : t.state = s.state) (hdoing : t.doing = Function.update s.doing i (.ending l' exiting))
    (hpanicked : t.panicked = s.panicked) (hl : ∀ g, l'.count (.drop g) = l.count (.drop g))
    (hpipes : ∀ p w, (t.opened p w).toNat + l.count (.hangUp p w) =
      (s.opened p w).toNat + l'.count (.hangUp p w))
    (hinodes : ∀ ip, t.held ip + l.count (.put ip) = s.held ip + l'.count (.put ip)) : Sound t := by
  refine ⟨h.counted.change (f := 0) (x := s.ftable 0) (i := i) (o := s.ofile i) ?_ ?_ hdoing ?_ ?_ ?_ ?_,
    h.typed.same hfile (fun j fd g hj => ⟨j, fd, hofile ▸ hj⟩) ?_, ?_, hpanicked.trans h.calm⟩
  · rw [hfile, Function.update_eq_self]
  · rw [hofile, Function.update_eq_self]
  · rw [hd, refs_ending, refs_ending, hl]
  · intro g _
    rw [hd, refs_ending, refs_ending, hl]
  · intro p w
    rw [hd]
    have := hpipes p w
    simp only [endings_ending]
    omega
  · intro ip
    rw [hd]
    have := hinodes ip
    simp only [endings_ending]
    omega
  · intro j g hg
    rw [hdoing] at hg
    exact ⟨j, (fresh_setDoing (s := s) (d := .ending l' exiting) rfl hg).2⟩
  · refine h.orderly.own hi hstate hdoing (fun j _ => by rw [hofile]) (by rintro np k ⟨⟩) ?_
    rintro _ ⟨⟩
    rw [hofile]
    exact h.orderly.leaving i l hd

/-- `pipeclose` -/
theorem hangUp {p : Nat} {w : Bool} {l : List Ending} {exiting : Bool} (h : Sound s)
    (hi : s.state i = .runnable) (hd : s.doing i = .ending (.hangUp p w :: l) exiting) :
    Sound ((s.setOpened p (Function.update (s.opened p) w false)).setDoing i (.ending l exiting)) := by
  refine h.handed hi hd rfl rfl rfl rfl rfl (fun g => (List.count_cons_of_ne (by simp)).symm) (fun p' w' => ?_)
    (fun ip => ?_)
  · have hopen := h.counted.pipes p w
    have hpos : 0 < s.pending (.hangUp p w) := pending_pos hd List.mem_cons_self
    have htrue : s.opened p w = true := by
      cases hw : s.opened p w with
      | true => rfl
      | false =>
          rw [hw, Bool.toNat_false] at hopen
          omega
    rcases eq_or_ne p' p with rfl | hp
    · rcases eq_or_ne w' w with rfl | hw
      · simp [htrue]
        omega
      · simp [hw, hw.symm]
    · simp [hp, hp.symm]
  · simp

/-- `iput` -/
theorem put {ip : Slot} {l : List Ending} {exiting : Bool} (h : Sound s) (hi : s.state i = .runnable)
    (hd : s.doing i = .ending (.put ip :: l) exiting) :
    Sound ((s.setHeld ip (s.held ip - 1)).setDoing i (.ending l exiting)) := by
  refine h.handed hi hd rfl rfl rfl rfl rfl (fun g => (List.count_cons_of_ne (by simp)).symm) (fun p w => ?_)
    (fun ip' => ?_)
  · simp
  · have hheld := h.counted.inodes ip
    have hpos : 0 < s.pending (.put ip) := pending_pos hd List.mem_cons_self
    rcases eq_or_ne ip' ip with rfl | hip
    · simp
      omega
    · simp [hip, hip.symm]

/-- `create` or `namei` leaves a reference to an inode. -/
theorem take {p : Slot} (h : Sound s) (hready : s.Ready i) :
    Sound ((s.setHeld p (s.held p + 1)).setDoing i (.ending [.put p] false)) := by
  refine h.handed hready.1 hready.2 rfl rfl rfl rfl rfl (fun g => by simp) (fun p w => by simp) (fun ip' => ?_)
  rcases eq_or_ne ip' p with rfl | hip
  · simp
  · simp [hip, hip.symm]

/-- A process has exited. -/
theorem gone (h : Sound s) (hi : s.state i = .runnable) (hd : s.doing i = .ending [] true) :
    Sound ((s.setState i .zombie).setDoing i .idle) := by
  refine ⟨h.counted.change (f := 0) (x := s.ftable 0) (i := i) (o := s.ofile i)
    (Function.update_eq_self ..).symm (Function.update_eq_self ..).symm rfl ?_ ?_ ?_ ?_,
    h.typed.same rfl (fun j fd g hj => ⟨j, fd, hj⟩) ?_, h.orderly.gone hi hd, h.calm⟩
  · rw [hd]
    rfl
  · intro g _
    rw [hd]
    rfl
  · intro p w
    rw [hd]
    rfl
  · intro ip
    rw [hd]
    rfl
  · intro j g hg
    exact ⟨j, (fresh_setDoing (s := s.setState i .zombie) rfl hg).2⟩

/-- `filedup` of a file to which the process has a descriptor -/
theorem addRef (h : Sound s) (hready : s.Ready i) (hfd : s.ofile i fd = some f) :
    Sound ((s.setFile f { s.ftable f with ref := (s.ftable f).ref + 1 }).setDoing i (.ending [.drop f] false)) := by
  have hpos := h.ref_pos hfd
  have htype := h.typed.descriptor i fd f hfd
  have hnot : ∀ j, f ∉ (s.doing j).fresh := fun j hj => htype (h.typed.fresh j f hj).2
  refine ⟨h.counted.change (i := i) (o := s.ofile i) rfl (Function.update_eq_self ..).symm rfl ?_ ?_ ?_ ?_,
    ?_, ?_, h.calm⟩
  · rw [hready.2, refs_ending, refs_ending]
    show (s.ftable f).ref + 1 + _ + _ = _
    simp
    omega
  · intro g hg
    rw [hready.2, refs_ending, refs_ending]
    simp [hg.symm]
  · intro p w
    rw [hready.2]
    simp [OpenFile.endings]
  · intro ip
    rw [hready.2]
    simp [OpenFile.endings]
  · refine h.typed.set (f := f) rfl (fun hzero => ?_) (fun j fd g hj _ => ⟨j, fd, hj⟩) (fun _ _ _ => htype)
      (fun j g hg _ => ⟨j, (fresh_setDoing (s := s.setFile f _) rfl hg).2⟩) (fun j hj => ?_)
    · have : (s.ftable f).ref + 1 = 0 := hzero
      omega
    · exact absurd (fresh_setDoing (s := s.setFile f _) rfl hj).2 (hnot j)
  · exact h.orderly.own hready.1 rfl rfl (fun _ _ => rfl) (by rintro np k ⟨⟩) (by rintro l ⟨⟩)

/-- `exit` -/
theorem exit (h : Sound s) (hready : s.Ready i) : Sound (s.exit i) := by
  obtain ⟨hi, hd⟩ := hready
  let l := (List.finRange nofile).filterMap fun fd => (s.ofile i fd).map Ending.drop
  have hdrop : ∀ g, l.count (.drop g) = uses (s.ofile i) g := by
    intro g
    unfold uses
    rw [Fin.sum_univ_def]
    show ((List.finRange nofile).filterMap _).count _ = _
    induction List.finRange nofile with
    | nil => rfl
    | cons fd fds ih =>
        cases hfd : s.ofile i fd with
        | none => simp [hfd, ih]
        | some f => by_cases hf : f = g <;> simp [hfd, hf, ih, Nat.add_comm]
  have hnot : ∀ e, (∀ g, e ≠ .drop g) → l.count e = 0 := by
    intro e he
    refine List.count_eq_zero.mpr fun hmem => ?_
    obtain ⟨fd, -, hfd⟩ := List.mem_filterMap.mp hmem
    obtain ⟨f, -, rfl⟩ := Option.map_eq_some_iff.mp hfd
    exact he f rfl
  have hnone : ∀ g, uses (fun _ => none) g = 0 := by
    intro g
    simp [uses]
  refine ⟨h.counted.change (f := 0) (x := s.ftable 0) (i := i) (o := fun _ => none) (d := .ending l true)
    (Function.update_eq_self ..).symm rfl rfl ?_ ?_ ?_ ?_, ?_, ?_, h.calm⟩
  · rw [hd, refs_ending, refs_ending, hdrop, hnone]
    simp
  · intro g _
    rw [hd, refs_ending, refs_ending, hdrop, hnone]
    simp
  · intro p w
    rw [hd, endings_ending, endings_ending, hnot _ (by rintro g ⟨⟩)]
    rfl
  · intro ip
    rw [hd, endings_ending, endings_ending, hnot _ (by rintro g ⟨⟩)]
    rfl
  · refine h.typed.same rfl (fun j fd g hj => ?_) fun j g hg => ?_
    · rcases eq_or_ne j i with rfl | hji
      · simp only [FileRun.exit, setDoing_ofile, Function.update_self] at hj
        cases hj
      · simp only [FileRun.exit, setDoing_ofile, Function.update_of_ne hji] at hj
        exact ⟨j, fd, hj⟩
    · exact ⟨j, (fresh_setDoing (s := { s with ofile := _ }) (d := .ending l true) rfl hg).2⟩
  · refine h.orderly.own hi rfl rfl (fun j hj => Function.update_of_ne hj _ _) (by rintro np k ⟨⟩) ?_
    rintro _ _ fd
    simp [FileRun.exit]

/-- `fork` before its loop -/
theorem fork (h : Sound s) (hready : s.Ready i) (hnp : s.state np = .unused) : Sound (s.fork i np) := by
  obtain ⟨hi, hd⟩ := hready
  refine ⟨h.counted.change (f := 0) (x := s.ftable 0) (i := i) (o := s.ofile i) (d := .fork np 0)
    (Function.update_eq_self ..).symm (Function.update_eq_self ..).symm rfl ?_ ?_ ?_ ?_,
    h.typed.same rfl (fun j fd g hj => ⟨j, fd, hj⟩) ?_, ?_, h.calm⟩
  · rw [hd]
    rfl
  · intro g _
    rw [hd]
    rfl
  · intro p w
    rw [hd]
    rfl
  · intro ip
    rw [hd]
    rfl
  · intro j g hg
    exact ⟨j, (fresh_setDoing (s := s.setState np .embryo) (d := .fork np 0) rfl hg).2⟩
  · refine h.orderly.child_update hi (by rw [hnp]; simp) ?_ rfl rfl (Function.update_eq_self np s.ofile).symm
      (Or.inr ⟨rfl, 0, rfl, fun fd _ => h.orderly.bare np (Or.inl hnp) fd⟩)
    intro j k hj
    obtain ⟨hembryo, -⟩ := h.orderly.child j np k hj
    rw [hnp] at hembryo
    cases hembryo

/-- The child gets a descriptor of its parent. -/
theorem inherit {k : Nat} {hk : k < nofile} (h : Sound s) (hi : s.state i = .runnable)
    (hd : s.doing i = .fork np k) (hf : s.ofile i ⟨k, hk⟩ = some f) :
    Sound (((s.setFile f { s.ftable f with ref := (s.ftable f).ref + 1 }).setFd np ⟨k, hk⟩ (some f)).setDoing i
      (.fork np (k + 1))) := by
  obtain ⟨hembryo, hbare⟩ := h.orderly.child i np k hd
  have hpos := h.ref_pos hf
  have htype := h.typed.descriptor i _ f hf
  have hne : i ≠ np := by
    rintro rfl
    rw [hi] at hembryo
    cases hembryo
  have huses : ∀ g, uses (Function.update (s.ofile np) ⟨k, hk⟩ (some f)) g =
      uses (s.ofile np) g + if f = g then 1 else 0 := by
    intro g
    have := uses_update (f := g) (s.ofile np) ⟨k, hk⟩ (some f)
    simpa [hbare ⟨k, hk⟩ le_rfl] using this
  let u := (s.setFile f { s.ftable f with ref := (s.ftable f).ref + 1 }).setFd np ⟨k, hk⟩ (some f)
  have hu : Counted u := by
    refine h.counted.change (i := np) (d := s.doing np) (o := Function.update (s.ofile np) ⟨k, hk⟩ (some f))
      rfl rfl (Function.update_eq_self ..).symm ?_ ?_ ?_ ?_
    · rw [huses, if_pos rfl]
      show (s.ftable f).ref + 1 + _ + _ = _
      omega
    · intro g hg
      rw [huses, if_neg hg.symm, Nat.add_zero]
    · intro p w
      rfl
    · intro ip
      rfl
  refine ⟨hu.change (f := 0) (x := u.ftable 0) (i := i) (o := u.ofile i) (d := .fork np (k + 1))
    (Function.update_eq_self ..).symm (Function.update_eq_self ..).symm rfl ?_ ?_ ?_ ?_, ?_, ?_, h.calm⟩
  · rw [show u.doing i = .fork np k from hd]
    rfl
  · intro g _
    rw [show u.doing i = .fork np k from hd]
    rfl
  · intro p w
    rw [show u.doing i = .fork np k from hd]
    rfl
  · intro ip
    rw [show u.doing i = .fork np k from hd]
    rfl
  · refine h.typed.set (f := f) rfl (fun hzero => ?_) (fun j fd g hj hg => ?_) (fun _ _ _ => htype)
      (fun j g hg _ => ⟨j, (fresh_setDoing (s := u) (d := .fork np (k + 1)) rfl hg).2⟩) (fun j hj => ?_)
    · have : (s.ftable f).ref + 1 = 0 := hzero
      omega
    · rcases ofile_setFd (s := s) (i := np) (x := some f) hj with ⟨-, -, hfg⟩ | hj
      · exact absurd (Option.some.inj hfg).symm hg
      · exact ⟨j, fd, hj⟩
    · have hfresh := (fresh_setDoing (s := u) (d := .fork np (k + 1)) rfl hj).2
      exact absurd (h.typed.fresh j f hfresh).2 htype
  · refine h.orderly.child_update hi (by rw [hembryo]; simp) (fun j m hj => h.orderly.alone j i np m k hj hd)
      (x := .embryo) ?_ rfl rfl (Or.inr ⟨rfl, k + 1, rfl, fun fd hfd => ?_⟩)
    · rw [← hembryo, Function.update_eq_self]
      rfl
    · have hfk : fd ≠ ⟨k, hk⟩ := by
        rintro rfl
        exact absurd hfd (Nat.not_succ_le_self k)
      show Function.update (s.ofile np) _ _ fd = none
      rw [Function.update_of_ne hfk]
      exact hbare fd (Nat.le_of_succ_le hfd)

/-- `fork` passes a descriptor that is not used, or is done. -/
theorem forkOn {k : Nat} {x : ProcState} (h : Sound s) (hi : s.state i = .runnable)
    (hd : s.doing i = .fork np k) (hrefs : ∀ g, d.refs g = 0) (hend : d.endings = []) (hfresh : d.fresh = [])
    (hx : (x = .runnable ∧ d = .idle) ∨
      x = .embryo ∧ ∃ k, d = .fork np k ∧ ∀ fd : Fin nofile, k ≤ fd → s.ofile np fd = none) :
    Sound ((s.setState np x).setDoing i d) := by
  obtain ⟨hembryo, -⟩ := h.orderly.child i np k hd
  refine ⟨h.counted.change (f := 0) (x := s.ftable 0) (i := i) (o := s.ofile i)
    (Function.update_eq_self ..).symm (Function.update_eq_self ..).symm rfl ?_ ?_ ?_ ?_,
    h.typed.same rfl (fun j fd g hj => ⟨j, fd, hj⟩) ?_, ?_, h.calm⟩
  · rw [hd, hrefs]
    rfl
  · intro g _
    rw [hd, hrefs]
    rfl
  · intro p w
    rw [hd, hend]
    rfl
  · intro ip
    rw [hd, hend]
    rfl
  · intro j g hg
    exact ⟨j, (fresh_setDoing (s := s.setState np x) hfresh hg).2⟩
  · exact h.orderly.child_update hi (by rw [hembryo]; simp) (fun j m hj => h.orderly.alone j i np m k hj hd)
      rfl rfl (Function.update_eq_self np s.ofile).symm hx

/-- `fileread` and `filewrite` -/
theorem transfer {ok : Bool} {r : Int32} (h : Sound s) (hfd : s.ofile i fd = some f) : Sound (s.transfer f ok r) := by
  have htype := h.typed.descriptor i fd f hfd
  have hmoved : Sound (s.setFile f { s.ftable f with off := (s.ftable f).off + r.toUInt32 }) := by
    refine ⟨h.counted.change (i := i) (o := s.ofile i) (d := s.doing i) rfl (Function.update_eq_self ..).symm
      (Function.update_eq_self ..).symm rfl (fun _ _ => rfl) (fun _ _ => rfl) (fun _ => rfl), ?_, ?_, h.calm⟩
    · exact h.typed.set (f := f) rfl (h.typed.free f) (fun j fd g hj _ => ⟨j, fd, hj⟩) (fun _ _ _ => htype)
        (fun j g hg _ => ⟨j, hg⟩) (fun j hj => h.typed.fresh j f hj)
    · exact ⟨h.orderly.absent, h.orderly.bare, h.orderly.leaving, h.orderly.child, h.orderly.alone⟩
  unfold FileRun.transfer
  split
  · exact h
  · split
    · exact h
    · split
      · exact hmoved
      · exact h
    · exact absurd ‹_› htype

/-- `wait` -/
theorem wait (h : Sound s) (hj : s.state j = .zombie) : Sound (s.setState j .unused) := by
  refine ⟨h.counted.change (f := 0) (x := s.ftable 0) (i := j) (o := s.ofile j) (d := s.doing j)
    (Function.update_eq_self ..).symm (Function.update_eq_self ..).symm (Function.update_eq_self ..).symm
    rfl (fun _ _ => rfl) (fun _ _ => rfl) (fun _ => rfl), ?_, h.orderly.reaped hj, h.calm⟩
  exact ⟨h.typed.free, h.typed.descriptor, h.typed.fresh⟩

end Sound

/-! ### System calls -/

@[simp] theorem setDoing_setDoing {d' : Doing} : (s.setDoing i d).setDoing i d' = s.setDoing i d' := by
  simp [setDoing]

@[simp] theorem setFile_setFile {x y : OpenFile} : (s.setFile f x).setFile f y = s.setFile f y := by
  simp [setFile]

@[simp] theorem setFile_setDoing {x : OpenFile} :
    (s.setDoing i d).setFile f x = (s.setFile f x).setDoing i d := rfl

@[simp] theorem setFd_setDoing {x : Option (Fin nfile)} :
    (s.setDoing i d).setFd j fd x = (s.setFd j fd x).setDoing i d := rfl

@[simp] theorem setFile_setFd {x : Option (Fin nfile)} {y : OpenFile} :
    (s.setFd i fd x).setFile f y = (s.setFile f y).setFd i fd x := rfl

theorem setFd_undo {x : Option (Fin nfile)} (h : s.ofile i fd = none) :
    (s.setFd i fd x).setFd i fd none = s := by
  simp [setFd, ← h]

namespace Sound

theorem state_runnable (h : Sound s) (hd : s.doing i ≠ .idle) : s.state i = .runnable := by
  by_contra hstate
  exact hd (h.orderly.absent i hstate)

theorem sysOpen {ip : Slot} {omode : Int32} (h : Sound s) (hready : s.Ready i) : Sound (s.sysOpen i ip omode) := by
  have htake := h.take (p := ip) hready
  have hi := hready.1
  unfold FileRun.sysOpen
  dsimp only
  split
  · exact htake
  · rename_i f u hfile
    obtain ⟨hzero, rfl⟩ := filealloc_eq_some hfile
    have htype : (s.ftable f).type = .none := h.typed.free f hzero
    have halloc := htake.alloc (i := i) (f := f) (d := .ending [.drop f, .put ip] false) hi hzero
      (fun g => by simp [List.count_cons]) (fun e he => by simp [List.count_cons, (he f).symm])
      (by rintro g ⟨⟩) (by rintro np k ⟨⟩) (by rintro l ⟨⟩)
    simp only [setFile_setDoing, setDoing_setDoing] at halloc
    split
    · exact halloc
    · rename_i fd u hfd
      obtain ⟨hnone, rfl⟩ := fdalloc_eq_some hfd
      let x : OpenFile := { s.ftable f with
        ref := 1
        type := .inode ip
        off := 0
        readable := decide (omode &&& oWronly = 0)
        writable := decide (omode &&& oWronly ≠ 0) || decide (omode &&& oRdwr ≠ 0) }
      have hdress := halloc.dress (i := i) (f := f) (x := x) (m := [.drop f]) (o := s.opened) hi
        (Function.update_self ..) List.mem_cons_self (by simp [x]) (by simp [x]) (fun g => by simp [List.count_cons])
        (fun p w => by simp [OpenFile.endings, htype, x])
        (fun ip' => by simp [OpenFile.endings, htype, x, List.count_cons])
      have hlink := hdress.link (i := i) (f := f) (n := fd) (l := []) hi (Function.update_self ..) hnone
        (by simp [x])
      convert hlink using 1
      simp [setFile, setFd, setDoing, setHeld, x, ← hready.2]

theorem sysDup {x : Int32} (h : Sound s) (hready : s.Ready i) : Sound (s.sysDup i x) := by
  unfold FileRun.sysDup
  split
  · exact h
  · rename_i k f harg
    have hf := argfd_eq_some harg
    have hpos := h.ref_pos hf
    have htype := h.typed.descriptor i k f hf
    split
    · exact h
    · rename_i fd u hfd
      obtain ⟨hnone, rfl⟩ := fdalloc_eq_some hfd
      have hlink := (h.addRef hready hf).link (i := i) (f := f) (n := fd) (l := []) hready.1
        (Function.update_self ..) hnone (by simpa using htype)
      have hdup : (s.setFd i fd (some f)).filedup f =
          (s.setFd i fd (some f)).setFile f { s.ftable f with ref := (s.ftable f).ref + 1 } :=
        if_neg (by simp; omega)
      rw [hdup]
      convert hlink using 1
      simp [setFile, setFd, setDoing, ← hready.2]

theorem sysClose {x : Int32} (h : Sound s) (hready : s.Ready i) : Sound (s.sysClose i x) := by
  unfold FileRun.sysClose
  split
  · exact h
  · rename_i k f harg
    exact h.unlink hready.1 hready.2 (argfd_eq_some harg)

theorem sysRead {x r : Int32} (h : Sound s) : Sound (s.sysRead i x r) := by
  unfold FileRun.sysRead
  split
  · exact h
  · rename_i k f harg
    exact h.transfer (argfd_eq_some harg)

theorem sysWrite {x r : Int32} (h : Sound s) : Sound (s.sysWrite i x r) := by
  unfold FileRun.sysWrite
  split
  · exact h
  · rename_i k f harg
    exact h.transfer (argfd_eq_some harg)

theorem sysPipe (h : Sound s) (hready : s.Ready i) : Sound (s.sysPipe i) := by
  unfold FileRun.sysPipe
  split
  · exact h
  · rename_i rf u hfile
    obtain ⟨hzero, rfl⟩ := filealloc_eq_some hfile
    refine h.alloc hready.1 hzero (fun g => ?_) (fun e _ => ?_) (fun g hg hne => ?_) (by rintro np k ⟨⟩)
      (by rintro l ⟨⟩)
    · rw [hready.2]
      simp
    · rw [hready.2]
      rfl
    · exact absurd (List.mem_singleton.mp hg) hne

theorem pipeSecond {rf : Fin nfile} (h : Sound s) (hi : s.state i = .runnable) (hd : s.doing i = .second rf) :
    Sound (s.pipeSecond i rf) := by
  unfold FileRun.pipeSecond
  split
  · refine h.rehand hi (fun g => ?_) (fun e he => ?_) rfl (by rintro np k ⟨⟩) (by rintro l ⟨⟩)
    · rw [hd]
      simp [List.count_cons]
    · rw [hd]
      simp [Doing.endings, (he rf).symm]
  · rename_i wf u hfile
    obtain ⟨hzero, rfl⟩ := filealloc_eq_some hfile
    refine h.alloc hi hzero (fun g => ?_) (fun e _ => ?_) (fun g hg hne => ?_) (by rintro np k ⟨⟩)
      (by rintro l ⟨⟩)
    · rw [hd]
      simp
    · rw [hd]
      rfl
    · rw [hd]
      simpa [Doing.fresh, hne] using hg

/-- The two ends of a new pipe, in the hands of the process -/
theorem pipeMade {rf wf : Fin nfile} {p : Nat} (h : Sound s) (hi : s.state i = .runnable)
    (hd : s.doing i = .page rf wf) (hp : ∀ w, s.opened p w = false) :
    rf ≠ wf ∧ Sound ((s.pipeMade rf wf p).setDoing i (.ending [.drop rf, .drop wf] false)) := by
  have hrf := h.typed.fresh i rf (by rw [hd]; simp [Doing.fresh])
  have hwf := h.typed.fresh i wf (by rw [hd]; simp [Doing.fresh])
  have hne : rf ≠ wf := by
    rintro rfl
    have hrefs := h.counted.refs rf
    have hle := refs_le s i rf
    rw [hd, refs_page, if_pos rfl] at hle
    omega
  refine ⟨hne, ?_⟩
  have hhand : Sound (s.setDoing i (.ending [.drop rf, .drop wf] false)) := by
    refine h.rehand hi (fun g => ?_) (fun e he => ?_) rfl (by rintro np k ⟨⟩) (by rintro l ⟨⟩)
    · rw [hd]
      simp [List.count_cons, Nat.add_comm]
    · rw [hd]
      simp [Doing.endings, (he rf).symm, (he wf).symm]
  let x : OpenFile := { s.ftable rf with type := .pipe, readable := true, writable := false, pipe := p }
  let y : OpenFile := { s.ftable wf with type := .pipe, readable := false, writable := true, pipe := p }
  have hread := hhand.dress (i := i) (f := rf) (x := x) (m := [.drop rf, .drop wf])
    (o := Function.update s.opened p fun w => !w) hi (Function.update_self ..) List.mem_cons_self (by simp [x])
    (by simp [x]) (fun g => rfl) (fun p' w => ?_) (fun ip => by simp [OpenFile.endings, hrf.2, x])
  · have hwrite := hread.dress (i := i) (f := wf) (x := y) (m := [.drop rf, .drop wf])
      (o := Function.update s.opened p fun _ => true) hi (Function.update_self ..) (by simp)
      (by simp [y, hne.symm]) (by simp [y]) (fun g => rfl) (fun p' w => ?_)
      (fun ip => by simp [OpenFile.endings, hwf.2, y, hne.symm])
    · convert hwrite using 1
      simp [FileRun.pipeMade, setFile, setDoing, setOpened, x, y, hne.symm]
    · rcases eq_or_ne p' p with rfl | hp'
      · cases w <;> simp [OpenFile.endings, hwf.2, y, hne.symm]
      · simp [OpenFile.endings, hwf.2, y, hne.symm, hp', hp'.symm]
  · rcases eq_or_ne p' p with rfl | hp'
    · cases w <;> simp [OpenFile.endings, hrf.2, x, hp]
    · simp [OpenFile.endings, hrf.2, x, hp', hp'.symm]

theorem pipePage {rf wf : Fin nfile} {mem : Option Nat} (h : Sound s) (hi : s.state i = .runnable)
    (hd : s.doing i = .page rf wf) (hmem : ∀ p ∈ mem, ∀ w, s.opened p w = false) :
    Sound (s.pipePage i rf wf mem) := by
  unfold FileRun.pipePage
  split
  · refine h.rehand hi (fun g => ?_) (fun e he => ?_) rfl (by rintro np k ⟨⟩) (by rintro l ⟨⟩)
    · rw [hd]
      simp [List.count_cons, Nat.add_comm]
    · rw [hd]
      simp [Doing.endings, (he rf).symm, (he wf).symm]
  · rename_i p
    obtain ⟨hne, hmade⟩ := h.pipeMade hi hd (hmem p rfl)
    dsimp only
    split
    · exact hmade
    · rename_i fd0 u hfd0
      obtain ⟨hnone, rfl⟩ := fdalloc_eq_some hfd0
      have hfirst := hmade.link (i := i) (f := rf) (n := fd0) (l := [.drop wf]) hi (Function.update_self ..) hnone
        (by simp [FileRun.pipeMade, hne])
      split
      · rw [setFd_undo hnone]
        exact hmade
      · rename_i fd1 u hfd1
        obtain ⟨hnone', rfl⟩ := fdalloc_eq_some hfd1
        simp only [setFd_setDoing, setDoing_setDoing] at hfirst
        have hsecond := hfirst.link (i := i) (f := wf) (n := fd1) (l := []) hi (Function.update_self ..) hnone'
          (by simp [FileRun.pipeMade])
        simpa using hsecond

/-- A turn of the loop of `fork`, or the end of `fork` -/
theorem forkTurn {k : Nat} (h : Sound s) (hi : s.state i = .runnable) (hd : s.doing i = .fork np k) :
    Sound (s.forkTurn i np k) := by
  obtain ⟨hembryo, hbare⟩ := h.orderly.child i np k hd
  unfold FileRun.forkTurn
  split
  · rename_i hk
    split
    · have hon := h.forkOn (x := .embryo) (d := .fork np (k + 1)) hi hd (fun _ => rfl) rfl rfl
        (Or.inr ⟨rfl, k + 1, rfl, fun fd hfd => hbare fd (Nat.le_of_succ_le hfd)⟩)
      have hsame : s.setState np .embryo = s := by simp [setState, ← hembryo]
      rwa [hsame] at hon
    · rename_i f hf
      have hpos := h.ref_pos hf
      have hdup : s.filedup f = s.setFile f { s.ftable f with ref := (s.ftable f).ref + 1 } :=
        if_neg (by omega)
      rw [hdup]
      exact h.inherit hi hd hf
  · exact h.forkOn hi hd (fun _ => rfl) rfl rfl (Or.inl ⟨rfl, rfl⟩)

/-- The process gives up the next thing, or ends. -/
theorem endingTurn {l : List Ending} {exiting : Bool} (h : Sound s) (hi : s.state i = .runnable)
    (hd : s.doing i = .ending l exiting) (hne : s.doing i ≠ .idle) : Sound (s.endingTurn i l exiting) := by
  cases l with
  | nil =>
      cases exiting with
      | false => exact absurd hd hne
      | true => exact h.gone hi hd
  | cons e l =>
      cases e with
      | drop f =>
          have hrefs := h.counted.refs f
          have hle := refs_le s i f
          rw [hd, refs_ending, List.count_cons_self] at hle
          have hpos : ¬ (s.ftable f).ref < 1 := by omega
          by_cases hmore : 0 < (s.ftable f).ref - 1
          · have hclose : s.fileclose f =
                ([], s.setFile f { s.ftable f with ref := (s.ftable f).ref - 1 }) := by
              rw [fileclose, if_neg hpos, if_pos hmore]
            rw [FileRun.endingTurn, hclose]
            exact h.drop_one hi hd (by omega)
          · have hclose : s.fileclose f =
                ((s.ftable f).endings, s.setFile f { s.ftable f with ref := 0, type := .none }) := by
              rw [fileclose, if_neg hpos, if_neg hmore]
            rw [FileRun.endingTurn, hclose]
            exact h.drop_last hi hd (by omega)
      | hangUp p w => exact h.hangUp hi hd
      | put ip => exact h.put hi hd

/-- **Step lemma.** -/
theorem step {st : FileStep} (h : Sound s) (hok : s.Admits st) : Sound (s.step st) := by
  cases st with
  | openInode i ip omode => exact h.sysOpen hok
  | dup i fd => exact h.sysDup hok
  | close i fd => exact h.sysClose hok
  | read i fd r => exact h.sysRead
  | write i fd r => exact h.sysWrite
  | pipe i => exact h.sysPipe hok
  | fork i np => exact h.fork hok.1 hok.2
  | exit i => exact h.exit hok
  | wait j => exact h.wait hok
  | turn i mem =>
      obtain ⟨hbusy, hmem⟩ := hok
      have hi := h.state_runnable hbusy
      unfold FileRun.step
      dsimp only
      split
      · exact h.pipeSecond hi ‹_›
      · exact h.pipePage hi ‹_› hmem
      · exact h.forkTurn hi ‹_›
      · exact h.endingTurn hi ‹_› hbusy

theorem booted : Sound booted where
  counted := by
    refine ⟨fun f => ?_, fun p w => ?_, fun ip => ?_⟩
    · simp [FileRun.booted, descriptors, uses, inHand]
    · simp [FileRun.booted, pending, OpenFile.endings]
    · simp [FileRun.booted, pending, OpenFile.endings]
  typed := ⟨fun _ _ => rfl, by rintro i fd f ⟨⟩, by rintro i f ⟨⟩⟩
  orderly := by
    refine ⟨fun _ _ => rfl, fun _ _ _ => rfl, by rintro i l ⟨⟩, by rintro i np k ⟨⟩, by rintro i j np k m ⟨⟩⟩
  calm := rfl

end Sound

/-- **References are exact.**  However the calls of any number of processes are interleaved: the count of
every file is the number of descriptors that refer to it and of references in the hands of calls in progress;
a descriptor always refers to a file that is in use; an end of a pipe is open, and an inode referred to, as
often as files and calls in progress will give it up; and no function panics. -/
theorem files_counted {sts : List FileStep} (hrun : Run FileRun.step Admits FileRun.booted sts s) :
    Counted s ∧ (∀ i fd f, s.ofile i fd = some f → (s.ftable f).type ≠ .none) ∧
      (∀ f, (s.ftable f).ref = 0 → (s.ftable f).type = .none) ∧ s.panicked = false := by
  have h : Sound s := hrun.invariant (fun _ _ h hok => h.step hok) Sound.booted
  exact ⟨h.counted, h.typed.descriptor, h.typed.free, h.calm⟩

/-- A pipe is made, its writing end is duplicated, and the reading end is closed. -/
theorem files_counted_pipe : ∃ s, Run FileRun.step Admits FileRun.booted
    [.pipe 0, .turn 0 none, .turn 0 (some 7), .dup 0 1, .close 0 0, .turn 0 none, .turn 0 none] s ∧
      (s.ftable 1).ref = 2 ∧ s.opened 7 true = true ∧ s.opened 7 false = false ∧ s.panicked = false := by
  have hrun : Run FileRun.step Admits FileRun.booted
      [.pipe 0, .turn 0 none, .turn 0 (some 7), .dup 0 1, .close 0 0, .turn 0 none, .turn 0 none] _ :=
    .cons (by decide +kernel) (.cons (by decide +kernel) (.cons (by decide +kernel) (.cons (by decide +kernel)
      (.cons (by decide +kernel) (.cons (by decide +kernel) (.cons (by decide +kernel) (.nil _)))))))
  exact ⟨_, hrun, by decide +kernel, by decide +kernel, by decide +kernel, (files_counted hrun).2.2.2⟩

theorem exists_descriptor (h : 0 < s.descriptors f) : ∃ i fd, s.ofile i fd = some f := by
  unfold descriptors uses at h
  by_contra hnone
  push Not at hnone
  simp [hnone] at h

/-- **The ends of a pipe.**  While no call is in progress, the end of a pipe from which is read, or to which
is written, is open exactly as long as some process has a descriptor for it. -/
theorem pipe_open_iff {sts : List FileStep} (hrun : Run FileRun.step Admits FileRun.booted sts s)
    (hquiet : ∀ i, s.doing i = .idle) (p : Nat) (w : Bool) :
    s.opened p w = true ↔ ∃ i fd f, s.ofile i fd = some f ∧ (s.ftable f).type = .pipe ∧
      (s.ftable f).pipe = p ∧ (s.ftable f).writable = w := by
  have h : Sound s := hrun.invariant (fun _ _ h hok => h.step hok) Sound.booted
  have hpipes := h.counted.pipes p w
  have hsum : s.pending (.hangUp p w) = ∑ f, (s.ftable f).endings.count (.hangUp p w) := by
    simp [pending, hquiet]
  have hend : ∀ f, 0 < (s.ftable f).endings.count (.hangUp p w) ↔
      (s.ftable f).type = .pipe ∧ (s.ftable f).pipe = p ∧ (s.ftable f).writable = w := by
    intro f
    rw [List.count_pos_iff]
    unfold OpenFile.endings
    cases (s.ftable f).type <;> simp [eq_comm]
  constructor
  · intro hopen
    have hpos : 0 < ∑ f, (s.ftable f).endings.count (.hangUp p w) := by
      rw [← hsum, ← hpipes, hopen]
      exact Nat.one_pos
    obtain ⟨f, -, hf⟩ := Finset.exists_ne_zero_of_sum_ne_zero hpos.ne'
    obtain ⟨htype, hpipe, hw⟩ := (hend f).mp (Nat.pos_of_ne_zero hf)
    have href : (s.ftable f).ref ≠ 0 := by
      intro hzero
      rw [h.typed.free f hzero] at htype
      cases htype
    have hhand : s.inHand f = 0 := by simp [inHand, hquiet]
    have hrefs := h.counted.refs f
    obtain ⟨i, fd, hfd⟩ := exists_descriptor (s := s) (f := f) (by omega)
    exact ⟨i, fd, f, hfd, htype, hpipe, hw⟩
  · rintro ⟨i, fd, f, -, hf⟩
    have hpos := (hend f).mpr hf
    have hle : (s.ftable f).endings.count (.hangUp p w) ≤ ∑ f, (s.ftable f).endings.count (.hangUp p w) :=
      Finset.single_le_sum (f := fun f => (s.ftable f).endings.count (.hangUp p w)) (fun _ _ => Nat.zero_le _)
        (Finset.mem_univ f)
    cases hw : s.opened p w with
    | true => rfl
    | false =>
        rw [hw, Bool.toNat_false] at hpipes
        omega

/-- The writing end is duplicated and then closed once. -/
theorem pipe_open_iff_dup : ∃ s, Run FileRun.step Admits FileRun.booted
    [.pipe 0, .turn 0 none, .turn 0 (some 7), .dup 0 1, .close 0 1, .turn 0 none] s ∧ s.ofile 0 1 = none ∧
      ∃ i fd f, s.ofile i fd = some f ∧ (s.ftable f).type = .pipe ∧ (s.ftable f).pipe = 7 ∧
        (s.ftable f).writable = true := by
  have hrun : Run FileRun.step Admits FileRun.booted
      [.pipe 0, .turn 0 none, .turn 0 (some 7), .dup 0 1, .close 0 1, .turn 0 none] _ :=
    .cons (by decide +kernel) (.cons (by decide +kernel) (.cons (by decide +kernel) (.cons (by decide +kernel)
      (.cons (by decide +kernel) (.cons (by decide +kernel) (.nil _))))))
  exact ⟨_, hrun, by decide +kernel, (pipe_open_iff hrun (by decide +kernel) 7 true).mp (by decide +kernel)⟩

end Counted

end FileRun
end Xv6
end LfsXv6
