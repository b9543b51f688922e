import LfsXv6.Xv6.Directory
import LfsXv6.Xv6.UserMemory

/-!
# Sysfile — `sys_open` and the files it creates

The file table, the descriptors of a process, and `create` and `sys_open` of `sysfile.c`.  The system
calls get their arguments from `argstr` and `argint`; here they are given.  `struct file`s of pipes have
no part in `sys_open`, so `pipeclose` is left out.
-/

namespace LfsXv6
namespace Xv6

open Lib Prog

/-! ## The file table -/

/-- `NFILE` -/
abbrev nfile : Nat := 100

/-- `FD_NONE`, `FD_PIPE`, or `FD_INODE` with `ip`. -/
inductive FdType where
  | none
  | pipe
  | inode (ip : Slot)

/-- `struct file` -/
structure FileEntry where
  ref : Int
  type : FdType
  readable : Bool
  writable : Bool
  off : UInt32

/-- The file system, the file table, and `proc->ofile` and `proc->cwd`. -/
structure System where
  kernel : Kernel
  ftable : Fin nfile → FileEntry
  ofile : Fin nofile → Option (Fin nfile)
  cwd : Slot

/-- Run a function of the file system. -/
def onKernel {α : Type} (x : Prog Kernel α) : Prog System α := fun s =>
  match x s.kernel with
  | .ok (a, k) => .ok (a, { s with kernel := k })
  | .error e => .error e

/-- Change a `struct file`. -/
def setFile (f : Fin nfile) (g : FileEntry → FileEntry) : Prog System Unit :=
  assign fun s => { s with ftable := Function.update s.ftable f (g (s.ftable f)) }

/-- `filealloc` -/
def filealloc : Prog System (Option (Fin nfile)) := do
  let ftable ← look fun s => s.ftable
  match (List.finRange nfile).find? fun f => (ftable f).ref = 0 with
  | none => return none
  | some f => do
      setFile f fun file => { file with ref := 1 }
      return some f

/-- `fdalloc` -/
def fdalloc (f : Fin nfile) : Prog System (Option (Fin nofile)) := do
  let ofile ← look fun s => s.ofile
  match (List.finRange nofile).find? fun fd => (ofile fd).isNone with
  | none => return none
  | some fd => do
      assign fun s => { s with ofile := Function.update s.ofile fd (some f) }
      return some fd

/-- `fileclose` -/
def fileclose (f : Fin nfile) : Prog System Unit := do
  let file ← look fun s => s.ftable f
  if file.ref < 1 then halt "fileclose"
  else if file.ref - 1 > 0 then setFile f fun file => { file with ref := file.ref - 1 }
  else do
    setFile f fun file => { file with ref := 0, type := .none }
    match file.type with
    | .inode ip => onKernel (iput ip)
    | _ => return ()

/-! ## `create` -/

/-- The entries `.` and `..` of a new directory `ip` in `dp`. -/
def createDots (dev : Devsw) (dp ip : Slot) : Prog Kernel Unit := do
  withNode dp fun node => do
    let node := { node with nlink := node.nlink + 1 }
    iupdate node
    return ((), node)
  let self ← look fun s => (s.icache ip).node.inum
  let parent ← look fun s => (s.icache dp).node.inum
  let r ← dirlink dev ip [46] self
  if r < 0 then halt "create dots"
  else do
    let r ← dirlink dev ip [46, 46] parent
    if r < 0 then halt "create dots" else return ()

/-- The new inode of `create`, locked, and its number. -/
def createInode (type major minor : Int16) : Prog Kernel (Slot × Nat) := do
  let inum ← onDisk (ialloc type)
  let ip ← iget inum
  ilock ip
  withNode ip fun node => do
    let node := { node with major := major, minor := minor, nlink := 1 }
    iupdate node
    return ((), node)
  return (ip, inum)

/-- The part of `create` for a name that `dirlookup` has not found in `dp`. -/
def createNew (dev : Devsw) (dp : Slot) (name : List UInt8) (type major minor : Int16) :
    Prog Kernel Slot := do
  let (ip, inum) ← createInode type major minor
  if type = tDir then createDots dev dp ip else pure ()
  let r ← dirlink dev dp name inum
  if r < 0 then halt "create: dirlink"
  else do
    iunlockput dp
    return ip

/-- `create`: the inode is locked. -/
def create (dev : Devsw) (cwd : Slot) (path : List UInt8) (type major minor : Int16) :
    Prog Kernel (Option Slot) := do
  match ← namex cwd path true with
  | none => return none
  | some (dp, name) => do
      ilock dp
      match ← dirlookup dp name with
      | some (ip, _) => do
          iunlockput dp
          ilock ip
          let c ← look fun s => s.icache ip
          if type = tFile ∧ c.node.type = tFile then return some ip
          else if type = tChecked ∧ c.node.type = tChecked then return some ip
          else do
            iunlockput ip
            return none
      | none => do
          let ip ← createNew dev dp name type major minor
          return some ip

/-! ## `sys_open` -/

/-- `O_RDONLY` -/
def oRdonly : Int32 := 0
/-- `O_WRONLY` -/
def oWronly : Int32 := 1
/-- `O_RDWR` -/
def oRdwr : Int32 := 2
/-- `O_CREATE` -/
def oCreate : Int32 := 0x200
/-- `O_CHECKED` -/
def oChecked : Int32 := 0x400

/-- The part of `sys_open` that gets the inode, locked. -/
def openInode (dev : Devsw) (cwd : Slot) (path : List UInt8) (omode : Int32) :
    Prog Kernel (Option Slot) :=
  if omode &&& oCreate ≠ 0 then create dev cwd path tFile 0 0
  -- the conjunction of the two flags themselves
  else if omode &&& oCreate &&& oChecked ≠ 0 then create dev cwd path tChecked 0 0
  else do
    match ← namex cwd path false with
    | none => return none
    | some (ip, _) => do
        ilock ip
        let c ← look fun s => s.icache ip
        if c.node.type = tDir ∧ omode ≠ oRdonly then do
          iunlockput ip
          return none
        else return some ip

/-- `sys_open`: the descriptor, or -1 -/
def sysOpen (dev : Devsw) (path : List UInt8) (omode : Int32) : Prog System Int32 := do
  let cwd ← look fun s => s.cwd
  match ← onKernel (openInode dev cwd path omode) with
  | none => return -1
  | some ip => do
      match ← filealloc with
      | none => do
          onKernel (iunlockput ip)
          return -1
      | some f => do
          match ← fdalloc f with
          | none => do
              fileclose f
              onKernel (iunlockput ip)
              return -1
          | some fd => do
              onKernel (iunlock ip)
              setFile f fun file => { file with
                type := .inode ip
                off := 0
                readable := decide (omode &&& oWronly = 0)
                writable := decide (omode &&& oWronly ≠ 0) || decide (omode &&& oRdwr ≠ 0) }
              return Int32.ofNat fd

/-! ## Held references -/

/-- The references that are held, with the numbers of the inodes they stand for. -/
structure Holds (s : Kernel) (l : List (Slot × Nat)) : Prop where
  count : ∀ i, ((l.map Prod.fst).count i : Int) ≤ (s.icache i).ref
  number : ∀ x ∈ l, (s.icache x.1).node.inum = x.2

/-- What the functions that only take and give back references do. -/
structure Undisturbed (sb : Superblock) (s t : Kernel) : Prop where
  accounted : Accounted sb t
  bufs : t.bufs = s.bufs
  stays : ∀ j, 0 < (s.icache j).ref → (s.icache j).valid = true →
    (t.icache j).valid = true ∧ (t.icache j).node = (s.icache j).node

section References

variable {sb : Superblock} {s t : Kernel} {f r : Slot} {d inum : Nat} {l : List (Slot × Nat)} {x : Unit}

theorem Inode.eq_of_dinode {a b : Inode} (h : a.toDinode = b.toDinode) (hi : a.inum = b.inum) : a = b := by
  cases a
  cases b
  simp only at h hi
  subst h hi
  rfl

theorem Kernel.set_icache (s : Kernel) (i j : Slot) (c : Cached) :
    (s.set i c).icache j = if j = i then c else s.icache j := Function.update_apply ..

namespace Holds

theorem ref_pos_of_mem (h : Holds s l) (hf : f ∈ l.map Prod.fst) : 0 < (s.icache f).ref := by
  have hcount := h.count f
  have hpos := List.count_pos_iff.mpr hf
  omega

theorem ref_pos (h : Holds s ((f, d) :: l)) : 0 < (s.icache f).ref :=
  h.ref_pos_of_mem List.mem_cons_self

theorem head (h : Holds s ((f, d) :: l)) : (s.icache f).node.inum = d := h.number _ List.mem_cons_self

theorem tail (h : Holds s ((f, d) :: l)) : Holds s l := by
  refine ⟨fun i => ?_, fun x hx => h.number x (List.mem_cons_of_mem _ hx)⟩
  have := h.count i
  rw [List.map_cons, List.count_cons] at this
  split at this <;> omega

theorem swap {a b : Slot × Nat} (h : Holds s (a :: b :: l)) : Holds s (b :: a :: l) := by
  refine ⟨fun i => ?_, fun x hx => h.number x ?_⟩
  · have hcount := h.count i
    have hperm : ((b :: a :: l).map Prod.fst).count i = ((a :: b :: l).map Prod.fst).count i :=
      ((List.Perm.swap a b l).map Prod.fst).count_eq i
    rw [hperm]
    exact hcount
  · exact (List.Perm.swap a b l).mem_iff.mp hx

/-- A slot with the same number and no fewer references. -/
theorem set (h : Holds s l) {c : Cached} (href : (s.icache f).ref ≤ c.ref)
    (hinum : c.node.inum = (s.icache f).node.inum) : Holds (s.set f c) l := by
  refine ⟨fun i => ?_, fun x hx => ?_⟩
  · rw [Kernel.set_icache]
    split
    · rename_i hi
      rw [hi]
      exact (h.count f).trans href
    · exact h.count i
  · rw [Kernel.set_icache]
    split
    · rename_i hi
      rw [hinum, ← hi]
      exact h.number x hx
    · exact h.number x hx

/-- The last reference of the list is given back. -/
theorem drop (h : Holds s ((f, d) :: l)) {c : Cached} (href : c.ref = (s.icache f).ref - 1)
    (hinum : c.node.inum = (s.icache f).node.inum) : Holds (s.set f c) l := by
  refine ⟨fun i => ?_, fun x hx => ?_⟩
  · have hcount := h.count i
    rw [List.map_cons, List.count_cons] at hcount
    rw [Kernel.set_icache]
    split
    · rename_i hi
      subst hi
      simp only [beq_self_eq_true, if_true] at hcount
      omega
    · split at hcount <;> omega
  · rw [Kernel.set_icache]
    split
    · rename_i hi
      rw [hinum, ← hi]
      exact h.number x (List.mem_cons_of_mem _ hx)
    · exact h.number x (List.mem_cons_of_mem _ hx)

/-- A further reference. -/
theorem cons (h : Holds s l) {c : Cached} (href : c.ref = (s.icache f).ref + 1)
    (hinum : c.node.inum = d) (hold : (f, d) ∈ l ∨ f ∉ l.map Prod.fst ∨ (s.icache f).node.inum = d) :
    Holds (s.set f c) ((f, d) :: l) := by
  refine ⟨fun i => ?_, fun x hx => ?_⟩
  · have hcount := h.count i
    rw [List.map_cons, List.count_cons, Kernel.set_icache]
    by_cases hi : i = f
    · subst hi
      rw [if_pos rfl]
      simp only [beq_self_eq_true, if_true]
      omega
    · have hbeq : (f == i) = false := by simpa using Ne.symm hi
      rw [if_neg hi, hbeq]
      simpa using hcount
  · rw [Kernel.set_icache]
    rcases List.mem_cons.mp hx with rfl | hx
    · rw [if_pos rfl]
      exact hinum
    · split
      · rename_i hi
        rw [hinum]
        rcases hold with hmem | hno | hsame
        · rw [← h.number x hx, hi, h.number _ hmem]
        · exact absurd (hi ▸ List.mem_map_of_mem hx) hno
        · rw [← h.number x hx, hi, hsame]
      · exact h.number x hx

end Holds

theorem iget_run (h : Accounted sb s) (hl : Holds s l) (hnum : inum < sb.ninodes.toNat)
    (hrun : iget inum s = .ok (r, t)) : Undisturbed sb s t ∧ Holds t ((r, inum) :: l) := by
  have hacc := h.iget hnum hrun
  rcases iget_eq_ok hrun with ⟨href, hsame, rfl⟩ | ⟨_, hfree, rfl⟩
  · refine ⟨⟨hacc, rfl, ?_⟩, hl.cons rfl hsame (.inr (.inr hsame))⟩
    intro j _ hv
    rw [Kernel.set_icache]
    split
    · rename_i hj
      rw [hj] at hv ⊢
      exact ⟨hv, rfl⟩
    · exact ⟨hv, rfl⟩
  · have hno : r ∉ l.map Prod.fst := by
      intro hmem
      have hcount := hl.count r
      have hpos := List.count_pos_iff.mpr hmem
      omega
    refine ⟨⟨hacc, rfl, ?_⟩, hl.cons (by rw [hfree]; rfl) rfl (.inr (.inl hno))⟩
    intro j hj hv
    have hne : j ≠ r := by
      rintro rfl
      omega
    rw [Kernel.set_icache, if_neg hne]
    exact ⟨hv, rfl⟩

/-- `ilock` has the inode of the disk in memory. -/
theorem ilock_run (h : Accounted sb s) (hl : Holds s ((f, d) :: l)) (hrun : ilock f s = .ok (x, t)) :
    Undisturbed sb s t ∧ Holds t ((f, d) :: l) ∧ (t.icache f).valid = true ∧
      (t.icache f).node.toDinode = dnode s.bufs.disk d ∧ (dnode s.bufs.disk d).type ≠ 0 := by
  obtain ⟨hacc, hbufs, href, hv⟩ := h.ilock hrun
  obtain ⟨_, node, ht, hnode⟩ := ilock_eq_ok h.idle hrun
  have hinum : node.inum = (s.icache f).node.inum := by
    rcases hnode with ⟨_, rfl⟩ | ⟨_, hinum, _⟩
    · rfl
    · exact hinum
  have hholds : Holds t ((f, d) :: l) := by
    rw [ht]
    exact hl.set le_rfl hinum
  obtain ⟨hsync, htype⟩ := hacc.synced f href hv
  rw [hbufs, hholds.head] at hsync
  refine ⟨⟨hacc, hbufs, ?_⟩, hholds, hv, hsync, by rwa [← hsync]⟩
  intro j _ hj
  rw [ht, Kernel.set_icache]
  split
  · rename_i hjf
    refine ⟨rfl, ?_⟩
    rcases hnode with ⟨_, rfl⟩ | ⟨hdisk, _, _⟩
    · rw [hjf]
    · subst hjf
      obtain ⟨hsync', _⟩ := h.synced j (hl.ref_pos) hj
      exact Inode.eq_of_dinode (by rw [hdisk, hinum, hsync']) hinum
  · exact ⟨hj, rfl⟩

theorem iunlock_run (h : Accounted sb s) (hl : Holds s l) (hrun : iunlock f s = .ok (x, t)) :
    Undisturbed sb s t ∧ Holds t l := by
  have hacc := h.iunlock hrun
  obtain rfl := iunlock_eq_ok hrun
  refine ⟨⟨hacc, rfl, ?_⟩, hl.set le_rfl rfl⟩
  intro j _ hj
  rw [Kernel.set_icache]
  split
  · rename_i hjf
    rw [hjf] at hj ⊢
    exact ⟨hj, rfl⟩
  · exact ⟨hj, rfl⟩

/-- `iput` of an inode that has links, or of a reference that is not the last. -/
theorem iput_run (h : Accounted sb s) (hl : Holds s ((f, d) :: l))
    (hkeep : ((s.icache f).valid = true → (s.icache f).node.nlink ≠ 0) ∨ f ∈ l.map Prod.fst)
    (hrun : iput f s = .ok (x, t)) :
    Undisturbed sb s t ∧ Holds t l := by
  have hnot : ¬ ((s.icache f).ref = 1 ∧ (s.icache f).valid = true ∧ (s.icache f).node.nlink = 0) := by
    intro hdrop
    rcases hkeep with hlink | hmem
    · exact hlink hdrop.2.1 hdrop.2.2
    · have hcount := hl.count f
      rw [List.map_cons, List.count_cons_self] at hcount
      have hpos := List.count_pos_iff.mpr hmem
      have := hdrop.1
      omega
  rw [iput_ok hnot] at hrun
  cases hrun
  refine ⟨⟨?_, rfl, ?_⟩, hl.drop rfl rfl⟩
  · exact h.set (fun _ => ⟨hl.ref_pos, rfl⟩) fun _ hv => h.synced f hl.ref_pos hv
  · intro j _ hj
    rw [Kernel.set_icache]
    split
    · rename_i hjf
      rw [hjf] at hj ⊢
      exact ⟨hj, rfl⟩
    · exact ⟨hj, rfl⟩

theorem iunlockput_run (h : Accounted sb s) (hl : Holds s ((f, d) :: l))
    (hkeep : (s.icache f).node.nlink ≠ 0 ∨ f ∈ l.map Prod.fst) (hrun : iunlockput f s = .ok (x, t)) :
    Undisturbed sb s t ∧ Holds t l := by
  unfold iunlockput at hrun
  obtain ⟨_, u, hunlock, hput⟩ := bind_eq_ok hrun
  obtain ⟨hu, hul⟩ := iunlock_run h hl hunlock
  have hnode : (u.icache f).node = (s.icache f).node := by
    rw [iunlock_eq_ok hunlock, Kernel.set_icache_self]
  have hkeep' : ((u.icache f).valid = true → (u.icache f).node.nlink ≠ 0) ∨ f ∈ l.map Prod.fst := by
    rw [hnode]
    exact hkeep.imp_left fun hlink _ => hlink
  obtain ⟨ht, htl⟩ := iput_run hu.accounted hul hkeep' hput
  refine ⟨⟨ht.accounted, ht.bufs.trans hu.bufs, ?_⟩, htl⟩
  intro j hj hv
  obtain ⟨huv, hun⟩ := hu.stays j hj hv
  have href : (u.icache j).ref = (s.icache j).ref := by
    rw [iunlock_eq_ok hunlock, Kernel.set_icache]
    split
    · rename_i hjf
      rw [hjf]
    · rfl
  obtain ⟨htv, htn⟩ := ht.stays j (by rwa [href]) huv
  exact ⟨htv, htn.trans hun⟩

end References

/-! ## Paths -/

/-- An inode that entries may refer to. -/
def Linked (sb : Superblock) (disk : Nat → Sector) (i : Nat) : Prop :=
  i < sb.ninodes.toNat ∧ (dnode disk i).type ≠ 0 ∧ (dnode disk i).nlink ≠ 0

/-- The directories are in order: none has holes, and entries refer to inodes that have links.  The
numbers of inodes fit into entries. -/
structure Dirs (sb : Superblock) (disk : Nat → Sector) : Prop where
  few : sb.ninodes.toNat ≤ 2 ^ 16
  root : rootino < sb.ninodes.toNat ∧ (dnode disk rootino).nlink ≠ 0
  table : ∀ d, d < sb.ninodes.toNat → (dnode disk d).type = tDir → Table disk (dnode disk d)
  target : ∀ d, d < sb.ninodes.toNat → (dnode disk d).type = tDir → ∀ k, k < maxentries →
    (entryAt disk (dnode disk d) k).inum ≠ 0 → Linked sb disk (entryAt disk (dnode disk d) k).inum.toNat

/-- Where a path from directory `d` has its last element: the parent directory and the element. -/
def parentOf (disk : Nat → Sector) (d : Nat) : List (List UInt8) → Option (Nat × List UInt8)
  | [] => none
  | name :: names =>
      if (dnode disk d).type ≠ tDir then none
      else if names = [] then some (d, name)
      else
        match numberOf disk (dnode disk d) name with
        | none => none
        | some i => parentOf disk i names

section Paths

variable {sb : Superblock} {s t : Kernel} {f : Slot} {d i : Nat} {l : List (Slot × Nat)}
variable {disk : Nat → Sector} {name : List UInt8} {names : List (List UInt8)}

/-- A part of a path that was cut off by `skipelem`. -/
theorem skipelem_some {path rest : List UInt8} (h : skipelem path = some (name, rest)) :
    name.length ≤ 14 ∧ (0 ∉ path → 0 ∉ name ∧ 0 ∉ rest) := by
  unfold skipelem at h
  simp only at h
  split at h
  · cases h
  cases h
  refine ⟨List.length_take_le _ _, ?_⟩
  intro hzero
  have hdrop : 0 ∉ path.dropWhile (· == slash) := fun hmem => hzero ((List.dropWhile_suffix _).subset hmem)
  refine ⟨fun hmem => hdrop ?_, fun hmem => hdrop ?_⟩
  · exact (List.takeWhile_prefix _).subset (List.mem_of_mem_take hmem)
  · exact List.mem_of_mem_drop ((List.dropWhile_suffix _).subset hmem)

theorem mem_elems {m : Nat} {path : List UInt8} (h : name ∈ elems m path) :
    name.length ≤ 14 ∧ (0 ∉ path → 0 ∉ name) := by
  induction m generalizing path with
  | zero => cases h
  | succ m ih =>
      unfold elems at h
      cases hskip : skipelem path with
      | none =>
          rw [hskip] at h
          cases h
      | some r =>
          rw [hskip] at h
          obtain ⟨elem, rest⟩ := r
          obtain ⟨hlen, hrest⟩ := skipelem_some hskip
          rcases List.mem_cons.mp h with rfl | h
          · exact ⟨hlen, fun hzero => (hrest hzero).1⟩
          · exact ⟨(ih h).1, fun hzero => (ih h).2 (hrest hzero).2⟩

theorem Dirs.linked (h : Dirs sb disk) (hd : d < sb.ninodes.toNat) (htype : (dnode disk d).type = tDir)
    (hi : numberOf disk (dnode disk d) name = some i) : Linked sb disk i := by
  obtain ⟨k, hk, hnamed, _, rfl⟩ := numberOf_eq_some.mp hi
  exact h.target d hd htype k hk hnamed.1

/-- What `namex` has found: the parent directory is held, and giving it back does not free it. -/
def Found (sb : Superblock) (s : Kernel) (l : List (Slot × Nat)) (res : Option (Slot × List UInt8)) :
    Option (Nat × List UInt8) → Prop
  | none => res = none ∧ Holds s l
  | some (d, name) => ∃ dp, res = some (dp, name) ∧ Holds s ((dp, d) :: l) ∧ d < sb.ninodes.toNat ∧
      (dnode s.bufs.disk d).type = tDir ∧
      ((dnode s.bufs.disk d).nlink ≠ 0 ∨ dp ∈ l.map Prod.fst)

theorem namexLoop_parent {res : Option (Slot × List UInt8)} (h : Accounted sb s)
    (hd : Dirs sb s.bufs.disk) (hl : Holds s ((f, d) :: l))
    (hnames : ∀ name ∈ names, name.length ≤ 14 ∧ 0 ∉ name)
    (hkeep : (dnode s.bufs.disk d).nlink ≠ 0 ∨ f ∈ l.map Prod.fst)
    (hrun : namexLoop true f names s = .ok (res, t)) :
    Accounted sb t ∧ t.bufs = s.bufs ∧ Found sb t l res (parentOf s.bufs.disk d names) := by
  induction names generalizing f d s with
  | nil =>
      unfold namexLoop at hrun
      rw [if_pos rfl] at hrun
      obtain ⟨_, u, hput, hpure⟩ := bind_eq_ok hrun
      cases hpure
      have hkeep' : ((s.icache f).valid = true → (s.icache f).node.nlink ≠ 0) ∨ f ∈ l.map Prod.fst := by
        refine hkeep.imp_left fun hlink hv => ?_
        obtain ⟨hsync, _⟩ := h.synced f hl.ref_pos hv
        rwa [congrArg Dinode.nlink hsync, hl.head]
      obtain ⟨ht, htl⟩ := iput_run h hl hkeep' hput
      exact ⟨ht.accounted, ht.bufs, rfl, htl⟩
  | cons name names ih =>
      unfold namexLoop at hrun
      obtain ⟨_, s₁, hlock, hrest⟩ := bind_eq_ok hrun
      obtain ⟨hs₁, hl₁, hv₁, hnode, htype₀⟩ := ilock_run h hl hlock
      obtain ⟨c, u, hlook, hrest⟩ := bind_eq_ok hrest
      obtain ⟨rfl, rfl⟩ := look_eq_ok hlook
      have hnum : d < sb.ninodes.toNat := by
        have := h.number f hl.ref_pos
        rwa [hl.head] at this
      have htype : (s₁.icache f).node.type = (dnode s.bufs.disk d).type := congrArg Dinode.type hnode
      have hlink : (s₁.icache f).node.nlink = (dnode s.bufs.disk d).nlink := congrArg Dinode.nlink hnode
      have hkeep₁ : (s₁.icache f).node.nlink ≠ 0 ∨ f ∈ l.map Prod.fst := by rwa [hlink]
      rw [parentOf]
      split at hrest
      · -- not a directory
        rename_i hnot
        obtain ⟨_, u, hput, hpure⟩ := bind_eq_ok hrest
        cases hpure
        obtain ⟨ht, htl⟩ := iunlockput_run hs₁.accounted hl₁ hkeep₁ hput
        rw [if_pos (by rwa [← htype])]
        exact ⟨ht.accounted, ht.bufs.trans hs₁.bufs, rfl, htl⟩
      rename_i hdir
      rw [if_neg (by rwa [← htype])]
      have hdir' : (dnode s.bufs.disk d).type = tDir := htype.symm.trans (not_not.mp hdir)
      split at hrest
      · -- the last element
        rename_i hlast
        obtain ⟨_, u, hunlock, hpure⟩ := bind_eq_ok hrest
        cases hpure
        obtain ⟨ht, htl⟩ := iunlock_run hs₁.accounted hl₁ hunlock
        have hbufs := ht.bufs.trans hs₁.bufs
        rw [if_pos hlast.2]
        refine ⟨ht.accounted, hbufs, f, rfl, htl, hnum, ?_, ?_⟩
        · rw [hbufs]
          exact hdir'
        · rw [hbufs]
          exact hkeep
      rename_i hmore
      rw [if_neg fun hc => hmore ⟨rfl, hc⟩]
      have htable : Table s₁.bufs.disk (s₁.icache f).node.toDinode := by
        rw [hnode, hs₁.bufs]
        exact hd.table d hnum hdir'
      obtain ⟨res', s₂, hfind, hrest⟩ := bind_eq_ok hrest
      obtain ⟨hshort, hzero⟩ := hnames name List.mem_cons_self
      obtain ⟨_, ⟨hnone, rfl, hu⟩ | ⟨i, r, off, hsome, rfl, hget⟩⟩ :=
        dirlookup_run hs₁.accounted.idle htable hshort hzero hfind
      · rw [hnode, hs₁.bufs] at hnone
        rw [hu] at hrest
        simp only at hrest
        obtain ⟨_, u, hput, hpure⟩ := bind_eq_ok hrest
        cases hpure
        obtain ⟨ht, htl⟩ := iunlockput_run hs₁.accounted hl₁ hkeep₁ hput
        simp only [hnone]
        exact ⟨ht.accounted, ht.bufs.trans hs₁.bufs, rfl, htl⟩
      · rw [hnode, hs₁.bufs] at hsome
        simp only at hrest
        obtain ⟨_, s₃, hput, hrest⟩ := bind_eq_ok hrest
        have hlinked := hd.linked hnum hdir' hsome
        obtain ⟨hs₂, hl₂⟩ := iget_run hs₁.accounted hl₁ hlinked.1 hget
        have hkeep₂ : (s₂.icache f).node.nlink ≠ 0 ∨ f ∈ ((r, i) :: l).map Prod.fst := by
          rw [(hs₂.stays f hl₁.ref_pos hv₁).2]
          exact hkeep₁.imp_right (List.mem_cons_of_mem _)
        obtain ⟨hs₃, hl₃⟩ := iunlockput_run hs₂.accounted hl₂.swap hkeep₂ hput
        have hbufs : s₃.bufs = s.bufs := hs₃.bufs.trans (hs₂.bufs.trans hs₁.bufs)
        obtain ⟨hacc, hsame, hfound⟩ := ih hs₃.accounted (by rwa [hbufs]) hl₃
          (fun name hname => hnames name (List.mem_cons_of_mem _ hname))
          (.inl (by rw [hbufs]; exact hlinked.2.2)) hrest
        rw [hbufs] at hsame hfound
        simp only [hsome]
        exact ⟨hacc, hsame, hfound⟩

/-- The inode where a path starts. -/
def startOf (s : Kernel) (cwd : Slot) (path : List UInt8) : Nat :=
  if path.head? = some slash then rootino else (s.icache cwd).node.inum

/-- The parent directory of a path, and its last element. -/
def parentOfPath (s : Kernel) (cwd : Slot) (path : List UInt8) : Option (Nat × List UInt8) :=
  parentOf s.bufs.disk (startOf s cwd path) (elems path.length path)

theorem namex_parent {cwd : Slot} {path : List UInt8} {res : Option (Slot × List UInt8)}
    (h : Accounted sb s) (hd : Dirs sb s.bufs.disk) (hl : Holds s l) (hcwd : cwd ∈ l.map Prod.fst)
    (hpath : 0 ∉ path) (hrun : namex cwd path true s = .ok (res, t)) :
    Accounted sb t ∧ t.bufs = s.bufs ∧ Found sb t l res (parentOfPath s cwd path) := by
  unfold namex at hrun
  obtain ⟨ip, u, hstart, hloop⟩ := bind_eq_ok hrun
  obtain ⟨hu, hul, hkeep⟩ : Undisturbed sb s u ∧ Holds u ((ip, startOf s cwd path) :: l) ∧
      ((dnode s.bufs.disk (startOf s cwd path)).nlink ≠ 0 ∨ ip ∈ l.map Prod.fst) := by
    unfold namexStart at hstart
    unfold startOf
    split at hstart
    · rename_i hslash
      rw [if_pos hslash]
      obtain ⟨hu, hul⟩ := iget_run h hl hd.root.1 hstart
      exact ⟨hu, hul, .inl hd.root.2⟩
    · rename_i hslash
      rw [if_neg hslash]
      unfold idup at hstart
      obtain ⟨_, v, hset, hpure⟩ := bind_eq_ok hstart
      cases hpure
      obtain rfl := setSlot_eq_ok hset
      have href : 0 < (s.icache cwd).ref := hl.ref_pos_of_mem hcwd
      refine ⟨⟨?_, rfl, ?_⟩, hl.cons rfl rfl (.inr (.inr rfl)), .inr hcwd⟩
      · exact h.set (fun _ => ⟨href, rfl⟩) fun _ hv => h.synced cwd href hv
      · intro j _ hv
        rw [Kernel.set_icache]
        split
        · rename_i hj
          rw [hj] at hv ⊢
          exact ⟨hv, rfl⟩
        · exact ⟨hv, rfl⟩
  obtain ⟨ht, hbufs, hfound⟩ := namexLoop_parent hu.accounted (by rwa [hu.bufs]) hul
    (fun name hname => (mem_elems hname).imp_right fun h => h hpath) (by rwa [hu.bufs]) hloop
  rw [hu.bufs] at hbufs hfound
  exact ⟨ht, hbufs, hfound⟩

end Paths

/-! ## New files -/

/-- A free inode of the disk was written, and no file has changed. -/
structure Placed (sb : Superblock) (disk : Nat → Sector) (inum : Nat) (n : Dinode)
    (disk' : Nat → Sector) : Prop where
  number : 0 < inum ∧ inum < sb.ninodes.toNat
  free : (dnode disk inum).type = 0
  nodes : dnode disk' = Function.update (dnode disk) inum n
  files : ∀ j, j < sb.ninodes.toNat → (dnode disk j).type ≠ 0 → SameFile disk disk' (dnode disk j)

/-- The inode of a new file. -/
def newFile (type major minor : Int16) (inum : Nat) : Inode :=
  { newInode type inum with major := major, minor := minor, nlink := 1 }

/-- Directory `d` has got an entry `name` for the inode `n`, whose number was free. -/
structure Born (sb : Superblock) (disk : Nat → Sector) (d : Nat) (name : List UInt8) (inum : Nat)
    (n : Dinode) (disk' : Nat → Sector) : Prop where
  number : 0 < inum ∧ inum < sb.ninodes.toNat
  free : (dnode disk inum).type = 0
  node : dnode disk' inum = n
  type : (dnode disk' d).type = (dnode disk d).type
  nlink : (dnode disk' d).nlink = (dnode disk d).nlink
  others : ∀ j, j < sb.ninodes.toNat → j ≠ inum → j ≠ d → dnode disk' j = dnode disk j
  files : ∀ j, j < sb.ninodes.toNat → j ≠ d → (dnode disk j).type ≠ 0 →
    SameFile disk disk' (dnode disk j)
  table : Table disk' (dnode disk' d)
  entry : ∃ k, k < maxentries ∧ (entryAt disk (dnode disk d) k).inum = 0 ∧
    entryAt disk' (dnode disk' d) k = ⟨UInt16.ofNat inum, name⟩ ∧
    ∀ j, j < maxentries → j ≠ k → entryAt disk' (dnode disk' d) j = entryAt disk (dnode disk d) j

namespace Born

variable {sb : Superblock} {disk disk' : Nat → Sector} {d e i inum : Nat} {name x : List UInt8}
variable {n : Dinode} {names : List (List UInt8)} {found : Nat × List UInt8}

theorem ne (h : Born sb disk d name inum n disk') (hi : (dnode disk i).type ≠ 0) : i ≠ inum := by
  rintro rfl
  exact hi h.free

theorem type_eq (h : Born sb disk d name inum n disk') (he : e < sb.ninodes.toNat)
    (hfree : (dnode disk e).type ≠ 0) : (dnode disk' e).type = (dnode disk e).type := by
  by_cases hed : e = d
  · rw [hed]
    exact h.type
  · rw [h.others e he (h.ne hfree) hed]

theorem linked (h : Born sb disk d name inum n disk') (hi : Linked sb disk i) : Linked sb disk' i := by
  obtain ⟨hnum, htype, hlink⟩ := hi
  refine ⟨hnum, by rwa [h.type_eq hnum htype], ?_⟩
  by_cases hid : i = d
  · rw [hid] at hlink ⊢
    rwa [h.nlink]
  · rwa [h.others i hnum (h.ne htype) hid]

theorem numberOf_new (h : Born sb disk d name inum n disk') (hd : Dirs sb disk)
    (habsent : numberOf disk (dnode disk d) name = none) :
    numberOf disk' (dnode disk' d) name = some inum := by
  obtain ⟨k, hk, _, hat, hother⟩ := h.entry
  have hnum := h.number
  have hfew := hd.few
  have hval : (UInt16.ofNat inum).toNat = inum := by
    rw [UInt16.toNat_ofNat']
    omega
  refine numberOf_eq_some.mpr ⟨k, hk, ⟨?_, by rw [hat]⟩, ?_, by rw [hat, hval]⟩
  · rw [hat]
    intro h0
    have := congrArg UInt16.toNat h0
    simp only [hval, UInt16.toNat_zero] at this
    omega
  · intro j hj hnamed
    rw [Named, hother j (by omega) (by omega)] at hnamed
    exact numberOf_eq_none.mp habsent j (by omega) hnamed

/-- The other names of the directory lead where they led. -/
theorem numberOf_old (h : Born sb disk d name inum n disk') (hx : x ≠ name)
    (hi : numberOf disk (dnode disk d) x = some i) : numberOf disk' (dnode disk' d) x = some i := by
  obtain ⟨k₀, _, hempty, hat, hother⟩ := h.entry
  obtain ⟨k, hk, hnamed, hfirst, hnum⟩ := numberOf_eq_some.mp hi
  have hne : k ≠ k₀ := by
    rintro rfl
    exact hnamed.1 hempty
  refine numberOf_eq_some.mpr ⟨k, hk, ?_, ?_, by rw [hother k hk hne, hnum]⟩
  · rw [Named, hother k hk hne]
    exact hnamed
  · intro j hj hnamed'
    by_cases hjk : j = k₀
    · rw [Named, hjk, hat] at hnamed'
      exact hx hnamed'.2.symm
    · rw [Named, hother j (by omega) hjk] at hnamed'
      exact hfirst j hj hnamed'

theorem numberOf_kept (h : Born sb disk d name inum n disk')
    (habsent : numberOf disk (dnode disk d) name = none) (he : e < sb.ninodes.toNat)
    (htype : (dnode disk e).type = tDir) (hi : numberOf disk (dnode disk e) x = some i) :
    numberOf disk' (dnode disk' e) x = some i := by
  have hfree : (dnode disk e).type ≠ 0 := by
    rw [htype]
    decide
  by_cases hed : e = d
  · subst hed
    refine h.numberOf_old ?_ hi
    rintro rfl
    rw [habsent] at hi
    cases hi
  · rw [h.others e he (h.ne hfree) hed, (h.files e he hed hfree).numberOf_eq, hi]

/-- A path to a parent directory leads there still. -/
theorem parentOf_kept (h : Born sb disk d name inum n disk') (hd : Dirs sb disk)
    (habsent : numberOf disk (dnode disk d) name = none) (he : e < sb.ninodes.toNat)
    (hfound : parentOf disk e names = some found) : parentOf disk' e names = some found := by
  induction names generalizing e with
  | nil => cases hfound
  | cons y names ih =>
      rw [parentOf] at hfound ⊢
      split at hfound
      · cases hfound
      rename_i hdir
      have htype := not_not.mp hdir
      have hfree : (dnode disk e).type ≠ 0 := by
        rw [htype]
        decide
      rw [if_neg (by rwa [h.type_eq he hfree])]
      split at hfound
      · rename_i hlast
        rw [if_pos hlast]
        exact hfound
      rename_i hmore
      rw [if_neg hmore]
      cases hi : numberOf disk (dnode disk e) y with
      | none =>
          rw [hi] at hfound
          cases hfound
      | some i =>
          rw [hi] at hfound
          rw [h.numberOf_kept habsent he htype hi]
          exact ih (hd.linked he htype hi).1 hfound

theorem dirs (h : Born sb disk d name inum n disk') (hd : Dirs sb disk) (hdn : d < sb.ninodes.toNat)
    (hdir : (dnode disk d).type = tDir) (htype : n.type ≠ tDir) (hfree : n.type ≠ 0)
    (hlink : n.nlink ≠ 0) : Dirs sb disk' := by
  have hnum := h.number
  have hfew := hd.few
  have hold : ∀ e, e < sb.ninodes.toNat → (dnode disk' e).type = tDir → e ≠ d →
      dnode disk' e = dnode disk e ∧ SameFile disk disk' (dnode disk e) := by
    intro e he het hed
    have hei : e ≠ inum := by
      rintro rfl
      rw [h.node] at het
      exact htype het
    have hsame := h.others e he hei hed
    refine ⟨hsame, h.files e he hed ?_⟩
    rw [← hsame, het]
    decide
  refine ⟨hfew, ⟨hd.root.1, ?_⟩, ?_, ?_⟩
  · by_cases hroot : rootino = inum
    · rw [hroot, h.node]
      exact hlink
    · by_cases hrd : rootino = d
      · rw [hrd, h.nlink, ← hrd]
        exact hd.root.2
      · rw [h.others rootino hd.root.1 hroot hrd]
        exact hd.root.2
  · intro e he het
    by_cases hed : e = d
    · rw [hed]
      exact h.table
    · obtain ⟨hsame, hfile⟩ := hold e he het hed
      rw [hsame] at het ⊢
      exact hfile.table (hd.table e he het)
  · intro e he het k hk hused
    by_cases hed : e = d
    · subst hed
      obtain ⟨k₀, _, _, hat, hother⟩ := h.entry
      by_cases hkk : k = k₀
      · rw [hkk, hat]
        have hval : (UInt16.ofNat inum).toNat = inum := by
          rw [UInt16.toNat_ofNat']
          omega
        simp only [hval]
        exact ⟨hnum.2, by rwa [h.node], by rwa [h.node]⟩
      · rw [hother k hk hkk] at hused ⊢
        exact h.linked (hd.target e he hdir k hk hused)
    · obtain ⟨hsame, hfile⟩ := hold e he het hed
      rw [hsame] at het hused ⊢
      rw [hfile.entryAt_eq] at hused ⊢
      exact h.linked (hd.target e he het k hk hused)

end Born

section Create

variable {sb : Superblock} {s t : Kernel} {dp ip : Slot} {d inum : Nat} {l : List (Slot × Nat)}
variable {type major minor : Int16} {name : List UInt8} {dev : Devsw}

theorem createInode_run (h : Accounted sb s) (hl : Holds s l)
    (hrun : createInode type major minor s = .ok ((ip, inum), t)) :
    Accounted sb t ∧ Holds t ((ip, inum) :: l) ∧
      Placed sb s.bufs.disk inum (newFile type major minor inum).toDinode t.bufs.disk ∧
      (t.icache ip).valid = true ∧ ∀ j, j ∈ l.map Prod.fst → j ≠ ip → (s.icache j).valid = true →
        (t.icache j).valid = true ∧ (t.icache j).node = (s.icache j).node := by
  unfold createInode at hrun
  obtain ⟨i, s₁, halloc, hrest⟩ := bind_eq_ok hrun
  obtain ⟨bufs, hx, hs₁⟩ := onDisk_eq_ok halloc
  obtain ⟨hnum, hfree, hbufs, hacc₁⟩ := h.alloc hx
  rw [← hs₁] at hacc₁
  have hl₁ : Holds s₁ l := by
    rw [hs₁]
    exact ⟨hl.count, hl.number⟩
  obtain ⟨r, s₂, hget, hrest⟩ := bind_eq_ok hrest
  obtain ⟨hs₂, hl₂⟩ := iget_run hacc₁ hl₁ hnum hget
  obtain ⟨_, s₃, hlock, hrest⟩ := bind_eq_ok hrest
  obtain ⟨hs₃, hl₃, hv₃, hnode, htype⟩ := ilock_run hs₂.accounted hl₂ hlock
  obtain ⟨_, s₄, hwith, hpure⟩ := bind_eq_ok hrest
  cases hpure
  obtain ⟨node, bufs', hupd, hs₄⟩ := withNode_eq_ok hwith
  have hdisk : s₃.bufs = { s.bufs with disk := putNode s.bufs.disk (newInode type inum) } := by
    rw [hs₃.bufs, hs₂.bufs, hs₁, ← hbufs]
  have hnew : (s₃.icache ip).node = newInode type inum := by
    refine Inode.eq_of_dinode ?_ hl₃.head
    rw [hnode, ← hs₃.bufs, hdisk, dnode_putNode]
    exact Function.update_self ..
  simp only [hnew] at hupd
  rw [bind_of_ok (iupdate_ok hs₃.accounted.idle)] at hupd
  cases hupd
  have hsync := (hs₃.accounted.synced ip hl₃.ref_pos hv₃).1
  rw [hnew] at hsync
  have htype' : (newInode type inum).type ≠ 0 := by
    have := (hs₃.accounted.synced ip hl₃.ref_pos hv₃).2
    rwa [hnew] at this
  have hw : Written sb s₃.bufs.disk (newInode type inum)
      (putNode s₃.bufs.disk (newFile type major minor inum)) (newFile type major minor inum) :=
    hs₃.accounted.consistent.iupdate_written hnum htype' hsync.symm rfl rfl rfl
  have hmodify := hs₃.accounted.modify (i := ip) hl₃.ref_pos hv₃
    { s₃.bufs with disk := putNode s₃.bufs.disk (newFile type major minor inum) } hs₃.accounted.idle
    (by rw [hnew]; exact hw)
  refine ⟨?_, ?_, ⟨⟨ialloc_pos h.consistent h.idle hx, hnum⟩, hfree, ?_, ?_⟩, ?_, ?_⟩
  · rw [hs₄]
    exact hmodify
  · rw [hs₄]
    have hl' : Holds { s₃ with
        bufs := { s₃.bufs with disk := putNode s₃.bufs.disk (newFile type major minor inum) } }
        ((ip, inum) :: l) := ⟨hl₃.count, hl₃.number⟩
    exact hl'.set le_rfl (by rw [hnew])
  · rw [hs₄, Kernel.set_bufs]
    show dnode (putNode s₃.bufs.disk (newFile type major minor inum)) = _
    rw [hdisk, dnode_putNode, nodesWith, dnode_putNode, nodesWith]
    exact Function.update_idem ..
  · intro j hj htj
    have hne : j ≠ inum := by
      rintro rfl
      exact htj hfree
    have hplaced : SameFile s.bufs.disk s₃.bufs.disk (dnode s.bufs.disk j) := by
      rw [hdisk]
      exact SameFile.putNode h.consistent.ledger hj htj (Superblock.inodeBlock_iblock hnum)
    have hsame : dnode s₃.bufs.disk j = dnode s.bufs.disk j := by
      rw [hdisk, dnode_putNode]
      exact Function.update_of_ne hne _ _
    have hupdated := hw.files j hj hne (by rwa [hsame])
    rw [hsame] at hupdated
    rw [hs₄]
    exact hplaced.trans hupdated
  · rw [hs₄, Kernel.set_icache_self]
    exact hv₃
  · intro j hj hne hv
    obtain ⟨hv₂, hn₂⟩ := hs₂.stays j (hl₁.ref_pos_of_mem hj) (by rw [hs₁]; exact hv)
    obtain ⟨hv₃, hn₃⟩ := hs₃.stays j (hl₂.tail.ref_pos_of_mem hj) hv₂
    rw [hs₄, Kernel.set_icache, if_neg hne]
    refine ⟨hv₃, hn₃.trans (hn₂.trans ?_)⟩
    rw [hs₁]

theorem createNew_run (h : Accounted sb s) (hd : Dirs sb s.bufs.disk) (hl : Holds s ((dp, d) :: l))
    (hv : (s.icache dp).valid = true) (hdir : (dnode s.bufs.disk d).type = tDir)
    (hkeep : (dnode s.bufs.disk d).nlink ≠ 0 ∨ dp ∈ l.map Prod.fst) (htype : type ≠ tDir)
    (hshort : name.length ≤ 14) (hzero : 0 ∉ name)
    (hrun : createNew dev dp name type major minor s = .ok (ip, t)) :
    ∃ inum, Accounted sb t ∧ Holds t ((ip, inum) :: l) ∧
      Born sb s.bufs.disk d name inum (newFile type major minor inum).toDinode t.bufs.disk := by
  unfold createNew at hrun
  obtain ⟨⟨r, inum⟩, s₁, hinode, hrest⟩ := bind_eq_ok hrun
  obtain ⟨hs₁, hl₁, hplaced, _, hstays⟩ := createInode_run h hl hinode
  simp only [if_neg htype] at hrest
  obtain ⟨ret, s₂, hlink, hrest⟩ := bind_eq_ok hrest
  split at hrest
  · cases hrest
  rename_i hret
  obtain ⟨_, s₃, hput, hpure⟩ := bind_eq_ok hrest
  cases hpure
  have hnum : d < sb.ninodes.toNat := by
    have := h.number dp hl.ref_pos
    rwa [hl.head] at this
  have hdt : (dnode s.bufs.disk d).type ≠ 0 := by
    rw [hdir]
    decide
  have hne : d ≠ inum := by
    rintro rfl
    exact hdt hplaced.free
  have hslot : dp ≠ ip := by
    rintro rfl
    exact hne (hl₁.tail.head.symm.trans hl₁.head)
  obtain ⟨hv₁, hn₁⟩ := hstays dp List.mem_cons_self hslot hv
  have hnode : (s₁.icache dp).node.toDinode = dnode s.bufs.disk d := by
    rw [hn₁, (h.synced dp hl.ref_pos hv).1, hl.head]
  have hfile := hplaced.files d hnum hdt
  have htable : Table s₁.bufs.disk (s₁.icache dp).node.toDinode := by
    rw [hnode]
    exact hfile.table (hd.table d hnum hdir)
  obtain ⟨node, bufs, hs₂, hidle, hentered⟩ := dirlink_run hs₁ hl₁.swap.ref_pos hv₁ htable hshort hzero
    hlink hret
  have hw := hentered.written
  have hinum : (s₁.icache dp).node.inum = d := hl₁.swap.head
  have hacc₂ : Accounted sb s₂ := by
    rw [hs₂]
    exact hs₁.modify hl₁.swap.ref_pos hv₁ bufs hidle hw
  have hl₂ : Holds s₂ ((dp, d) :: (ip, inum) :: l) := by
    rw [hs₂]
    have hl' : Holds { s₁ with bufs := bufs } ((dp, d) :: (ip, inum) :: l) :=
      ⟨hl₁.swap.count, hl₁.swap.number⟩
    exact hl'.set le_rfl hw.inum
  have hkeep₂ : (s₂.icache dp).node.nlink ≠ 0 ∨ dp ∈ ((ip, inum) :: l).map Prod.fst := by
    rw [hs₂, Kernel.set_icache_self]
    refine hkeep.imp ?_ (List.mem_cons_of_mem _)
    intro hlinks
    rw [hentered.nlink, congrArg Dinode.nlink hnode]
    exact hlinks
  obtain ⟨hs₃, hl₃⟩ := iunlockput_run hacc₂ hl₂ hkeep₂ hput
  have hdisk : t.bufs.disk = bufs.disk := by
    rw [hs₃.bufs, hs₂, Kernel.set_bufs]
  have hdnode : dnode bufs.disk d = node.toDinode := by
    rw [← hinum]
    exact hw.node
  refine ⟨inum, hs₃.accounted, hl₃, ?_⟩
  rw [hdisk]
  refine ⟨hplaced.number, hplaced.free, ?_, ?_, ?_, ?_, ?_, ?_, ?_⟩
  · rw [hw.others inum hplaced.number.2 (by rw [hinum]; exact hne.symm), hplaced.nodes]
    exact Function.update_self ..
  · rw [hdnode, hw.type]
    exact congrArg Dinode.type hnode
  · rw [hdnode, hentered.nlink]
    exact congrArg Dinode.nlink hnode
  · intro j hj hji hjd
    rw [hw.others j hj (by rw [hinum]; exact hjd), hplaced.nodes]
    exact Function.update_of_ne hji _ _
  · intro j hj hjd htj
    have hji : j ≠ inum := by
      rintro rfl
      exact htj hplaced.free
    have hsame : dnode s₁.bufs.disk j = dnode s.bufs.disk j := by
      rw [hplaced.nodes]
      exact Function.update_of_ne hji _ _
    have hlinked := hw.files j hj (by rw [hinum]; exact hjd) (by rwa [hsame])
    rw [hsame] at hlinked
    exact (hplaced.files j hj htj).trans hlinked
  · rw [hdnode]
    exact hentered.table
  · obtain ⟨k, hk, hempty, hat, hother⟩ := hentered.entry
    rw [hnode, hfile.entryAt_eq] at hempty
    refine ⟨k, hk, hempty, by rw [hdnode]; exact hat, ?_⟩
    intro j hj hjk
    rw [hdnode, hother j hj hjk, hnode, hfile.entryAt_eq]

theorem parentOf_mem {disk : Nat → Sector} {e : Nat} {names : List (List UInt8)}
    (h : parentOf disk e names = some (d, name)) : name ∈ names := by
  induction names generalizing e with
  | nil => cases h
  | cons y names ih =>
      rw [parentOf] at h
      split at h
      · cases h
      split at h
      · cases h
        exact List.mem_cons_self
      split at h
      · cases h
      · exact List.mem_cons_of_mem _ (ih h)

variable {cwd : Slot} {path : List UInt8} {res : Option Slot}

/-- `create` of a name that is not there. -/
theorem create_absent (h : Accounted sb s) (hd : Dirs sb s.bufs.disk) (hl : Holds s l)
    (hcwd : cwd ∈ l.map Prod.fst) (hpath : 0 ∉ path) (htype : type ≠ tDir)
    (hparent : parentOfPath s cwd path = some (d, name))
    (habsent : numberOf s.bufs.disk (dnode s.bufs.disk d) name = none)
    (hrun : create dev cwd path type major minor s = .ok (res, t)) :
    ∃ ip inum, res = some ip ∧ Accounted sb t ∧ Holds t ((ip, inum) :: l) ∧
      d < sb.ninodes.toNat ∧ (dnode s.bufs.disk d).type = tDir ∧
      Born sb s.bufs.disk d name inum (newFile type major minor inum).toDinode t.bufs.disk := by
  unfold create at hrun
  obtain ⟨found, s₁, hnamex, hrest⟩ := bind_eq_ok hrun
  obtain ⟨hs₁, hbufs₁, hfound⟩ := namex_parent h hd hl hcwd hpath hnamex
  rw [hparent] at hfound
  obtain ⟨dp, rfl, hl₁, hnum, hdir, hkeep⟩ := hfound
  simp only at hrest
  obtain ⟨_, s₂, hlock, hrest⟩ := bind_eq_ok hrest
  obtain ⟨hs₂, hl₂, hv₂, hnode, _⟩ := ilock_run hs₁ hl₁ hlock
  obtain ⟨look', s₃, hlook, hrest⟩ := bind_eq_ok hrest
  have hbufs₂ : s₂.bufs = s.bufs := hs₂.bufs.trans hbufs₁
  rw [hbufs₁] at hnode hdir hkeep
  have htable : Table s₂.bufs.disk (s₂.icache dp).node.toDinode := by
    rw [hnode, hbufs₂]
    exact hd.table d hnum hdir
  obtain ⟨hshort, hzero⟩ := mem_elems (parentOf_mem hparent)
  obtain ⟨_, ⟨_, rfl, hu⟩ | ⟨i, r, off, hsome, _, _⟩⟩ :=
    dirlookup_run hs₂.accounted.idle htable hshort (hzero hpath) hlook
  · rw [hu] at hrest
    simp only at hrest
    obtain ⟨ip, u, hnew, hpure⟩ := bind_eq_ok hrest
    cases hpure
    rw [← hbufs₂] at hd hdir hkeep
    obtain ⟨inum, ht, htl, hborn⟩ := createNew_run hs₂.accounted hd hl₂ hv₂ hdir hkeep htype hshort
      (hzero hpath) hnew
    rw [hbufs₂] at hborn hdir
    exact ⟨ip, inum, rfl, ht, htl, hnum, hdir, hborn⟩
  · rw [hnode, hbufs₂, habsent] at hsome
    cases hsome

/-- `create` of a file that is there. -/
theorem create_present {i : Nat} (h : Accounted sb s) (hd : Dirs sb s.bufs.disk) (hl : Holds s l)
    (hcwd : cwd ∈ l.map Prod.fst) (hpath : 0 ∉ path) (htype : type = tFile ∨ type = tChecked)
    (hparent : parentOfPath s cwd path = some (d, name))
    (hi : numberOf s.bufs.disk (dnode s.bufs.disk d) name = some i)
    (hsame : (dnode s.bufs.disk i).type = type)
    (hrun : create dev cwd path type major minor s = .ok (res, t)) :
    ∃ ip, res = some ip ∧ Accounted sb t ∧ Holds t ((ip, i) :: l) ∧ t.bufs = s.bufs := by
  unfold create at hrun
  obtain ⟨found, s₁, hnamex, hrest⟩ := bind_eq_ok hrun
  obtain ⟨hs₁, hbufs₁, hfound⟩ := namex_parent h hd hl hcwd hpath hnamex
  rw [hparent] at hfound
  obtain ⟨dp, rfl, hl₁, hnum, hdir, hkeep⟩ := hfound
  simp only at hrest
  obtain ⟨_, s₂, hlock, hrest⟩ := bind_eq_ok hrest
  obtain ⟨hs₂, hl₂, hv₂, hnode, _⟩ := ilock_run hs₁ hl₁ hlock
  obtain ⟨look', s₃, hlook, hrest⟩ := bind_eq_ok hrest
  have hbufs₂ : s₂.bufs = s.bufs := hs₂.bufs.trans hbufs₁
  rw [hbufs₁] at hnode hdir hkeep
  have htable : Table s₂.bufs.disk (s₂.icache dp).node.toDinode := by
    rw [hnode, hbufs₂]
    exact hd.table d hnum hdir
  obtain ⟨hshort, hzero⟩ := mem_elems (parentOf_mem hparent)
  obtain ⟨_, ⟨hnone, _, _⟩ | ⟨j, r, off, hsome, rfl, hget⟩⟩ :=
    dirlookup_run hs₂.accounted.idle htable hshort (hzero hpath) hlook
  · rw [hnode, hbufs₂, hi] at hnone
    cases hnone
  rw [hnode, hbufs₂, hi] at hsome
  cases hsome
  simp only at hrest
  obtain ⟨hs₃, hl₃⟩ := iget_run hs₂.accounted hl₂ (hd.linked hnum hdir hi).1 hget
  obtain ⟨_, s₄, hput, hrest⟩ := bind_eq_ok hrest
  have hkeep₃ : (s₃.icache dp).node.nlink ≠ 0 ∨ dp ∈ ((r, i) :: l).map Prod.fst := by
    rw [(hs₃.stays dp hl₂.ref_pos hv₂).2, congrArg Dinode.nlink hnode]
    exact hkeep.imp_right (List.mem_cons_of_mem _)
  obtain ⟨hs₄, hl₄⟩ := iunlockput_run hs₃.accounted hl₃.swap hkeep₃ hput
  obtain ⟨_, s₅, hlock', hrest⟩ := bind_eq_ok hrest
  obtain ⟨hs₅, hl₅, _, hnode₅, _⟩ := ilock_run hs₄.accounted hl₄ hlock'
  obtain ⟨c, u, hlook', hrest⟩ := bind_eq_ok hrest
  obtain ⟨rfl, rfl⟩ := look_eq_ok hlook'
  have hbufs₅ : s₅.bufs = s.bufs := hs₅.bufs.trans (hs₄.bufs.trans (hs₃.bufs.trans hbufs₂))
  have hnodetype : (s₅.icache r).node.type = type := by
    rw [congrArg Dinode.type hnode₅, ← hs₅.bufs, hbufs₅]
    exact hsame
  rw [hnodetype] at hrest
  rcases htype with rfl | rfl
  · rw [if_pos ⟨rfl, rfl⟩] at hrest
    cases hrest
    exact ⟨r, rfl, hs₅.accounted, hl₅, hbufs₅⟩
  · rw [if_neg (by decide), if_pos ⟨rfl, rfl⟩] at hrest
    cases hrest
    exact ⟨r, rfl, hs₅.accounted, hl₅, hbufs₅⟩

end Create

/-! ## Opening files -/

namespace System

variable (s : System)

/-- The inode that a descriptor refers to. -/
def fileOf (fd : Int32) : Option Slot :=
  if 0 ≤ fd ∧ fd < 16 then
    match s.ofile (Fin.ofNat nofile fd.toInt.toNat) with
    | none => none
    | some f =>
        match (s.ftable f).type with
        | .inode ip => some ip
        | _ => none
  else none

/-- The number of this inode. -/
def inumOf (fd : Int32) : Option Nat := (s.fileOf fd).map fun ip => (s.kernel.icache ip).node.inum

/-- Inode `i` as it stands on the disk. -/
def node (i : Nat) : Dinode := dnode s.kernel.bufs.disk i

/-- There is no `struct file` or no descriptor left. -/
def Full : Prop := (∀ f, (s.ftable f).ref ≠ 0) ∨ ∀ fd, s.ofile fd ≠ none

/-- The path leads to inode `i`. -/
def Leads (path : List UInt8) (i : Nat) : Prop :=
  ∃ d name, parentOfPath s.kernel s.cwd path = some (d, name) ∧
    numberOf s.kernel.bufs.disk (s.node d) name = some i

/-- The directory of the last element exists, and the element does not. -/
def Lacks (path : List UInt8) : Prop :=
  ∃ d name, parentOfPath s.kernel s.cwd path = some (d, name) ∧
    numberOf s.kernel.bufs.disk (s.node d) name = none

end System

/-- The file system is in order, and the process holds its directory. -/
structure Ready (sb : Superblock) (s : System) : Prop where
  accounted : Accounted sb s.kernel
  dirs : Dirs sb s.kernel.bufs.disk
  refs : ∀ i, 0 ≤ (s.kernel.icache i).ref
  cwd : 0 < (s.kernel.icache s.cwd).ref

section Open

variable {sb : Superblock} {s t : System} {path : List UInt8} {omode fd : Int32} {dev : Devsw}

theorem onKernel_eq_ok {α : Type} {x : Prog Kernel α} {a : α} (h : onKernel x s = .ok (a, t)) :
    ∃ k, x s.kernel = .ok (a, k) ∧ t = { s with kernel := k } := by
  unfold onKernel at h
  split at h
  · rename_i b k hx
    cases h
    exact ⟨k, hx, rfl⟩
  · cases h

theorem Ready.holds (h : Ready sb s) : Holds s.kernel [(s.cwd, (s.kernel.icache s.cwd).node.inum)] := by
  refine ⟨fun i => ?_, fun x hx => ?_⟩
  · have hcwd := h.cwd
    have href := h.refs i
    simp only [List.map_cons, List.map_nil, List.count_singleton]
    split
    · rename_i hi
      have hi : s.cwd = i := by simpa using hi
      rw [← hi]
      exact_mod_cast hcwd
    · exact_mod_cast href
  · rw [List.mem_singleton.mp hx]

theorem fdIndex : ∀ fd : Fin nofile, 0 ≤ Int32.ofNat fd ∧ Int32.ofNat fd < 16 ∧
    Fin.ofNat nofile (Int32.ofNat fd).toInt.toNat = fd := by decide

theorem filealloc_eq_ok {r : Option (Fin nfile)} (h : filealloc s = .ok (r, t)) :
    (r = none ∧ ∀ f, (s.ftable f).ref ≠ 0) ∨ ∃ f, r = some f ∧
      t = { s with ftable := Function.update s.ftable f { s.ftable f with ref := 1 } } := by
  unfold filealloc at h
  obtain ⟨ftable, u, hlook, hrest⟩ := bind_eq_ok h
  obtain ⟨rfl, rfl⟩ := look_eq_ok hlook
  cases hfind : (List.finRange nfile).find? fun f => (s.ftable f).ref = 0 with
  | none =>
      rw [hfind] at hrest
      cases hrest
      refine .inl ⟨rfl, fun f h0 => ?_⟩
      have := List.find?_eq_none.mp hfind f (List.mem_finRange f)
      simp [h0] at this
  | some f =>
      rw [hfind] at hrest
      obtain ⟨_, v, hset, hpure⟩ := bind_eq_ok hrest
      obtain rfl := assign_eq_ok hset
      cases hpure
      exact .inr ⟨f, rfl, rfl⟩

theorem fdalloc_eq_ok {f : Fin nfile} {r : Option (Fin nofile)} (h : fdalloc f s = .ok (r, t)) :
    (r = none ∧ ∀ fd, s.ofile fd ≠ none) ∨ ∃ fd, r = some fd ∧
      t = { s with ofile := Function.update s.ofile fd (some f) } := by
  unfold fdalloc at h
  obtain ⟨ofile, u, hlook, hrest⟩ := bind_eq_ok h
  obtain ⟨rfl, rfl⟩ := look_eq_ok hlook
  cases hfind : (List.finRange nofile).find? fun fd => (s.ofile fd).isNone with
  | none =>
      rw [hfind] at hrest
      cases hrest
      refine .inl ⟨rfl, fun fd h0 => ?_⟩
      have := List.find?_eq_none.mp hfind fd (List.mem_finRange fd)
      simp [h0] at this
  | some fd =>
      rw [hfind] at hrest
      obtain ⟨_, v, hset, hpure⟩ := bind_eq_ok hrest
      obtain rfl := assign_eq_ok hset
      cases hpure
      exact .inr ⟨fd, rfl, rfl⟩

/-- What `sys_open` with `O_CREATE` does after `create`. -/
theorem sysOpen_run (hcreate : omode &&& oCreate ≠ 0) (hrun : sysOpen dev path omode s = .ok (fd, t)) :
    ∃ res k, create dev s.cwd path tFile 0 0 s.kernel = .ok (res, k) ∧
      ((fd = -1 ∧ (res = none ∨ s.Full)) ∨
        ∃ ip, res = some ip ∧ t.cwd = s.cwd ∧ 0 ≤ fd ∧ t.fileOf fd = some ip ∧
          iunlock ip k = .ok ((), t.kernel)) := by
  unfold sysOpen at hrun
  obtain ⟨cwd, u, hlook, hrest⟩ := bind_eq_ok hrun
  obtain ⟨rfl, rfl⟩ := look_eq_ok hlook
  obtain ⟨res, s₁, hopen, hrest⟩ := bind_eq_ok hrest
  obtain ⟨k, hk, rfl⟩ := onKernel_eq_ok hopen
  rw [openInode, if_pos hcreate] at hk
  refine ⟨res, k, hk, ?_⟩
  cases res with
  | none =>
      cases hrest
      exact .inl ⟨rfl, .inl rfl⟩
  | some ip =>
      simp only at hrest
      obtain ⟨file, s₂, halloc, hrest⟩ := bind_eq_ok hrest
      rcases filealloc_eq_ok halloc with ⟨rfl, hfull⟩ | ⟨f, rfl, rfl⟩
      · simp only at hrest
        obtain ⟨_, s₃, _, hpure⟩ := bind_eq_ok hrest
        cases hpure
        exact .inl ⟨rfl, .inr (.inl hfull)⟩
      simp only at hrest
      obtain ⟨slot, s₃, hfd, hrest⟩ := bind_eq_ok hrest
      rcases fdalloc_eq_ok hfd with ⟨rfl, hfull⟩ | ⟨fd', rfl, rfl⟩
      · simp only at hrest
        obtain ⟨_, s₄, _, hrest⟩ := bind_eq_ok hrest
        obtain ⟨_, s₅, _, hpure⟩ := bind_eq_ok hrest
        cases hpure
        exact .inl ⟨rfl, .inr (.inr hfull)⟩
      simp only at hrest
      obtain ⟨_, s₄, hunlock, hrest⟩ := bind_eq_ok hrest
      obtain ⟨k', hk', rfl⟩ := onKernel_eq_ok hunlock
      obtain ⟨_, s₅, hset, hpure⟩ := bind_eq_ok hrest
      obtain rfl := assign_eq_ok hset
      cases hpure
      obtain ⟨hlo, hhi, hidx⟩ := fdIndex fd'
      refine .inr ⟨ip, rfl, rfl, hlo, ?_, hk'⟩
      simp only [System.fileOf, if_pos (And.intro hlo hhi), hidx, Function.update_self]

theorem startOf_lt (hs : Ready sb s) : startOf s.kernel s.cwd path < sb.ninodes.toNat := by
  unfold startOf
  split
  · exact hs.dirs.root.1
  · exact hs.accounted.number _ hs.cwd

/-- The kernel after `sys_open` has unlocked the inode. -/
theorem Ready.opened {k : Kernel} {ip : Slot} {inum : Nat} (hacc : Accounted sb k)
    (hdirs : Dirs sb k.bufs.disk)
    (hl : Holds k [(ip, inum), (s.cwd, (s.kernel.icache s.cwd).node.inum)]) (hcwd : t.cwd = s.cwd)
    (hfile : t.fileOf fd = some ip) (hunlock : iunlock ip k = .ok ((), t.kernel)) :
    Ready sb t ∧ t.inumOf fd = some inum ∧ t.kernel.bufs = k.bufs ∧
      ∀ p, startOf t.kernel t.cwd p = startOf s.kernel s.cwd p := by
  obtain ⟨ht, htl⟩ := iunlock_run hacc hl hunlock
  have hnumber := htl.tail.head
  refine ⟨⟨ht.accounted, by rwa [ht.bufs], fun i => ?_, ?_⟩, ?_, ht.bufs, ?_⟩
  · exact (Int.natCast_nonneg _).trans (htl.count i)
  · rw [hcwd]
    exact htl.tail.ref_pos
  · rw [System.inumOf, hfile, Option.map_some, htl.head]
  · intro p
    rw [startOf, hcwd, hnumber, startOf]

/-- `sys_open` with `O_CREATE` of a path that leads nowhere makes a plain file. -/
theorem sysOpen_absent (hs : Ready sb s) (hpath : 0 ∉ path) (hcreate : omode &&& oCreate ≠ 0)
    (hlacks : s.Lacks path) (hrun : sysOpen dev path omode s = .ok (fd, t)) (hfd : 0 ≤ fd) :
    ∃ inum, t.inumOf fd = some inum ∧ (s.node inum).type = 0 ∧ (t.node inum).type = tFile ∧
      Ready sb t ∧ t.Leads path inum := by
  obtain ⟨d, name, hparent, habsent⟩ := hlacks
  obtain ⟨res, k, hcreated, hend⟩ := sysOpen_run hcreate hrun
  rcases hend with ⟨rfl, _⟩ | ⟨ip, rfl, hcwd, _, hfile, hunlock⟩
  · exact absurd hfd (by decide)
  obtain ⟨ip', inum, hip, hacc, hl, hnum, hdir, hborn⟩ := create_absent hs.accounted hs.dirs hs.holds
    (by simp) hpath (by decide) hparent habsent hcreated
  cases hip
  have hdirs : Dirs sb k.bufs.disk := hborn.dirs hs.dirs hnum hdir (show tFile ≠ tDir by decide)
    (show tFile ≠ 0 by decide) (show (1 : Int16) ≠ 0 by decide)
  obtain ⟨ht, hinum, hbufs, hstart⟩ := Ready.opened hacc hdirs hl hcwd hfile hunlock
  refine ⟨inum, hinum, hborn.free, ?_, ht, d, name, ?_, ?_⟩
  · rw [System.node, hbufs, hborn.node]
    rfl
  · rw [parentOfPath, hstart, hbufs]
    exact hborn.parentOf_kept hs.dirs habsent (startOf_lt hs) hparent
  · rw [System.node, hbufs]
    exact hborn.numberOf_new hs.dirs habsent

/-- `sys_open` with `O_CREATE` of a path that leads to a plain file opens it, and changes no block. -/
theorem sysOpen_present {i : Nat} (hs : Ready sb s) (hpath : 0 ∉ path) (hcreate : omode &&& oCreate ≠ 0)
    (hleads : s.Leads path i) (htype : (s.node i).type = tFile)
    (hrun : sysOpen dev path omode s = .ok (fd, t)) :
    (fd = -1 ∧ s.Full) ∨ (0 ≤ fd ∧ t.inumOf fd = some i ∧ t.kernel.bufs = s.kernel.bufs) := by
  obtain ⟨d, name, hparent, hi⟩ := hleads
  obtain ⟨res, k, hcreated, hend⟩ := sysOpen_run hcreate hrun
  obtain ⟨ip, rfl, hacc, hl, hbufs⟩ := create_present hs.accounted hs.dirs hs.holds (by simp) hpath (.inl rfl)
    hparent hi htype hcreated
  rcases hend with ⟨rfl, hnone | hfull⟩ | ⟨ip', hip, hcwd, hpos, hfile, hunlock⟩
  · cases hnone
  · exact .inl ⟨rfl, hfull⟩
  · cases hip
    have hdirs : Dirs sb k.bufs.disk := by
      rw [hbufs]
      exact hs.dirs
    obtain ⟨_, hinum, hsame, _⟩ := Ready.opened hacc hdirs hl hcwd hfile hunlock
    exact .inr ⟨hpos, hinum, hsame.trans hbufs⟩

/-- What `O_CHECKED` promises: descriptor `fd` refers to a new inode, of the type that the flags ask for,
and wherever the path leads to this inode later, opening it with the same flags opens it unchanged. -/
def OpensAs (sb : Superblock) (dev : Devsw) (path : List UInt8) (omode : Int32) (s t : System)
    (fd : Int32) : Prop :=
  ∃ inum, t.inumOf fd = some inum ∧ (s.node inum).type = 0 ∧
    (t.node inum).type = (if omode &&& oChecked ≠ 0 then tChecked else tFile) ∧
    Ready sb t ∧ t.Leads path inum ∧
    ∀ (u u' : System) (fd' : Int32), Ready sb u → u.Leads path inum →
      (u.node inum).type = (t.node inum).type → sysOpen dev path omode u = .ok (fd', u') →
      (fd' = -1 ∧ u.Full) ∨
        (0 ≤ fd' ∧ u'.inumOf fd' = some inum ∧ u'.kernel.bufs = u.kernel.bufs)

/-- **`O_CHECKED`.**  An open that creates a file makes one of the type that the flags ask for, which
later opens find again, exactly when `O_CHECKED` is not among the flags. -/
theorem open_checked_iff (hs : Ready sb s) (hpath : 0 ∉ path) (hcreate : omode &&& oCreate ≠ 0)
    (hlacks : s.Lacks path) (hrun : sysOpen dev path omode s = .ok (fd, t)) (hfd : 0 ≤ fd) :
    OpensAs sb dev path omode s t fd ↔ omode &&& oChecked = 0 := by
  obtain ⟨inum, hinum, hfree, htype, ht, hleads⟩ := sysOpen_absent hs hpath hcreate hlacks hrun hfd
  constructor
  · rintro ⟨inum', hinum', _, htype', _⟩
    rw [hinum] at hinum'
    cases hinum'
    by_contra hchecked
    rw [if_pos hchecked, htype] at htype'
    exact absurd htype' (by decide)
  · intro hclear
    refine ⟨inum, hinum, hfree, ?_, ht, hleads, ?_⟩
    · rw [htype, if_neg (not_not.mpr hclear)]
    · intro u u' fd' hu huleads hutype hurun
      exact sysOpen_present hu hpath hcreate huleads (hutype.trans htype) hurun

end Open

/-! ## An empty root directory -/

/-- The empty root directory. -/
def rootNode : Inode := newFile tDir 0 0 rootino

/-- A disk of 8192 blocks whose only inode is the empty root directory. -/
def rootDisk : Nat → Sector := putNode blankDisk rootNode

/-- A process in the root directory, without open files. -/
def atRoot : System where
  kernel :=
    { bufs := { disk := rootDisk, busy := [] }
      icache := fun i => if i = 0 then ⟨1, false, false, rootNode⟩ else ⟨0, false, false, newInode 0 0⟩ }
  ftable := fun _ => ⟨0, .none, false, false, 0⟩
  ofile := fun _ => none
  cwd := 0

theorem dnode_rootDisk : dnode rootDisk = Function.update (dnode blankDisk) rootino rootNode.toDinode :=
  dnode_putNode

theorem rootDisk_consistent : Consistent ⟨8192, 8⟩ rootDisk := by
  refine Consistent.replace (s := ⟨blankDisk, []⟩) blankDisk_consistent
    (Superblock.inodeBlock_iblock (by decide)) (fun p => refs_blankDisk _) (.inr fun p => ?_)
  exact @newInode_addr tDir rootino blankDisk p

theorem rootDisk_node : dnode rootDisk rootino = rootNode.toDinode := by
  rw [dnode_rootDisk]
  exact Function.update_self ..

theorem byteAt_rootDisk (o : Nat) : byteAt rootDisk (dnode rootDisk rootino) o = 0 := by
  rw [rootDisk_node]
  exact if_pos (@newInode_addr tDir rootino rootDisk _)

theorem inum_rootDisk (k : Nat) : (entryAt rootDisk (dnode rootDisk rootino) k).inum = 0 := by
  simp only [entryAt, Dirent.decode, byteAt_rootDisk]
  rfl

theorem rootDisk_dirs : Dirs ⟨8192, 8⟩ rootDisk := by
  have honly : ∀ d, d < 8 → (dnode rootDisk d).type = tDir → d = rootino := by
    have hall : ∀ d : Fin 8, (dnode rootDisk d).type = tDir → (d : Nat) = rootino := by decide +kernel
    exact fun d hd => hall ⟨d, hd⟩
  refine ⟨by decide, ⟨by decide, ?_⟩, ?_, ?_⟩
  · rw [rootDisk_node]
    decide
  · intro d hd htype
    rw [honly d hd htype]
    refine ⟨?_, ?_, fun x _ _ => byteAt_rootDisk x⟩
    · intro bn hbn
      rw [rootDisk_node] at hbn
      exact absurd hbn (Nat.not_lt_zero _)
    · rw [rootDisk_node]
      exact Nat.zero_le _
  · intro d hd htype k _ hused
    rw [honly d hd htype] at hused
    exact absurd (inum_rootDisk k) hused

theorem atRoot_ready : Ready ⟨8192, 8⟩ atRoot := by
  have hheld : ∀ i, 0 < (atRoot.kernel.icache i).ref → i = 0 := by decide
  refine ⟨⟨rootDisk_consistent, rfl, ?_, ?_, ?_⟩, rootDisk_dirs, by decide, by decide⟩
  · intro i hi
    rw [hheld i hi]
    decide
  · intro i hi hv
    rw [hheld i hi] at hv
    cases hv
  · intro i j hi hj _
    rw [hheld i hi, hheld j hj]

theorem atRoot_lacks : atRoot.Lacks [97] := by
  refine ⟨rootino, [97], ?_, ?_⟩
  · have helems : elems ([97] : List UInt8).length [97] = [[97]] := by decide
    have hstart : startOf atRoot.kernel atRoot.cwd [97] = rootino := by decide
    have hdir : (dnode atRoot.kernel.bufs.disk rootino).type = tDir :=
      congrArg Dinode.type rootDisk_node
    rw [parentOfPath, helems, hstart, parentOf, if_neg (not_not.mpr hdir), if_pos rfl]
  · exact numberOf_eq_none.mpr fun k _ hnamed => hnamed.1 (inum_rootDisk k)

/-- An open at the root that creates `"a"` returns descriptor 0. -/
theorem atRoot_opens (omode : Int32)
    (h : (sysOpen noDevices [97] omode atRoot).toOption.map Prod.fst = some 0) :
    ∃ t, sysOpen noDevices [97] omode atRoot = .ok (0, t) := by
  cases hrun : sysOpen noDevices [97] omode atRoot with
  | error e =>
      rw [hrun] at h
      cases h
  | ok r =>
      rw [hrun] at h
      exact ⟨r.2, congrArg Except.ok (Prod.ext (Option.some.inj h) rfl)⟩

theorem open_checked_plain :
    ∃ t, sysOpen noDevices [97] oCreate atRoot = .ok (0, t) ∧
      OpensAs ⟨8192, 8⟩ noDevices [97] oCreate atRoot t 0 := by
  obtain ⟨t, hrun⟩ := atRoot_opens oCreate (by decide +kernel)
  refine ⟨t, hrun, ?_⟩
  exact (open_checked_iff atRoot_ready (by decide) (by decide) atRoot_lacks hrun (by decide)).mpr (by decide)

/-- With `O_CREATE` and `O_CHECKED` the new file is a plain one. -/
theorem not_open_checked : ¬ ∀ (sb : Superblock) (dev : Devsw) (path : List UInt8) (omode fd : Int32)
    (s t : System), Ready sb s → 0 ∉ path → omode &&& oCreate ≠ 0 → omode &&& oChecked ≠ 0 →
    s.Lacks path → sysOpen dev path omode s = .ok (fd, t) → 0 ≤ fd →
      ∃ inum, t.inumOf fd = some inum ∧ (t.node inum).type = tChecked := by
  intro hclaim
  obtain ⟨t, hrun⟩ := atRoot_opens (oCreate ||| oChecked) (by decide +kernel)
  obtain ⟨inum, hinum, htype⟩ := hclaim _ _ _ _ _ _ _ atRoot_ready (by decide) (by decide) (by decide)
    atRoot_lacks hrun (by decide)
  obtain ⟨inum', hinum', _, htype', _⟩ := sysOpen_absent atRoot_ready (by decide) (by decide) atRoot_lacks
    hrun (by decide)
  rw [hinum] at hinum'
  cases hinum'
  rw [htype] at htype'
  exact absurd htype' (by decide)

end Xv6
end LfsXv6
