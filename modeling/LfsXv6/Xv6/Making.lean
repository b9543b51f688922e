import LfsXv6.Xv6.Sysfile

/-!
# Making — `sys_mkdir` and `sys_open(O_CREATE)`

The entry `".."` of a directory counts as a link to its parent, which `create` adds.  A kernel is followed
here while it makes files and directories: the root gets a link for each directory made in it.
-/

namespace LfsXv6
namespace Xv6

open Lib Prog

/-! ## The system calls -/

/-- What `sys_open` with `O_CREATE`, and the `close` of the descriptor it returns, do to the inodes. -/
def sysCreat (dev : Devsw) (cwd : Slot) (path : List UInt8) : Prog Kernel Int32 := do
  match ← create dev cwd path tFile 0 0 with
  | none => return -1
  | some ip => do
      iunlock ip
      iput ip
      return 0

/-- `sys_mkdir`, once its argument has been fetched -/
def sysMkdir (dev : Devsw) (cwd : Slot) (path : List UInt8) : Prog Kernel Int32 := do
  match ← create dev cwd path tDir 0 0 with
  | none => return -1
  | some ip => do
      iunlockput ip
      return 0

/-! ## Making a tree -/

/-- A name that every directory has. -/
def IsDots (name : List UInt8) : Prop := name = [46] ∨ name = [46, 46]

/-- A tree in which `m` directories have been made, `k` of them in the root. -/
structure Making (sb : Superblock) (disk : Nat → Sector) (m k : Nat) : Prop where
  dirs : Dirs sb disk
  type : (dnode disk rootino).type = tDir
  root : (dnode disk rootino).nlink.toInt = 1 + k
  links : ∀ i, i < sb.ninodes.toNat → (dnode disk i).type ≠ 0 →
    1 ≤ (dnode disk i).nlink.toInt ∧ (dnode disk i).nlink.toInt ≤ 1 + m
  apex : ∀ d, d < sb.ninodes.toNat → (dnode disk d).type = tDir → ∀ j, j < maxentries →
    (entryAt disk (dnode disk d) j).inum.toNat = rootino → IsDots (entryAt disk (dnode disk d) j).name

section Making

variable {sb : Superblock} {disk disk' : Nat → Sector} {m k d i inum : Nat} {n : Dinode}
variable {node node' : Inode} {name : List UInt8}

theorem nlink_ne_zero {x : Int16} (h : 1 ≤ x.toInt) : x ≠ 0 := by
  rintro rfl
  exact absurd h (by decide)

namespace Making

theorem linked (h : Making sb disk m k) (hi : i < sb.ninodes.toNat) (ht : (dnode disk i).type ≠ 0) :
    Linked sb disk i := ⟨hi, ht, nlink_ne_zero (h.links i hi ht).1⟩

/-- A new inode, which no entry leads to. -/
theorem placed (h : Making sb disk m k) (hp : Placed sb disk inum n disk')
    (hlink : n.nlink = 1) (hsize : n.size = 0)
    (haddr : ∀ disk p, n.addr disk p = 0) : Making sb disk' m k := by
  have hroot : rootino ≠ inum := by
    rintro hc
    have := hp.free
    rw [← hc, h.type] at this
    exact absurd this (by decide)
  have hold : ∀ j, j ≠ inum → dnode disk' j = dnode disk j := by
    intro j hj
    rw [hp.nodes]
    exact Function.update_of_ne hj _ _
  have hnew : dnode disk' inum = n := by
    rw [hp.nodes]
    exact Function.update_self ..
  -- the new inode has no blocks: as a directory it is empty
  have hbyte : ∀ o, byteAt disk' n o = 0 := fun o => if_pos (haddr _ _)
  have hempty : ∀ j, (entryAt disk' n j).inum = 0 := by
    intro j
    simp only [entryAt, Dirent.decode, hbyte]
    rfl
  have hfile : ∀ d, d < sb.ninodes.toNat → d ≠ inum → (dnode disk' d).type = tDir →
      (dnode disk d).type = tDir ∧ SameFile disk disk' (dnode disk d) := by
    intro d hd hne hdir
    rw [hold d hne] at hdir
    exact ⟨hdir, hp.files d hd (by rw [hdir]; decide)⟩
  refine ⟨⟨h.dirs.few, ⟨h.dirs.root.1, ?_⟩, ?_, ?_⟩, ?_, ?_, ?_, ?_⟩
  · rw [hold _ hroot]
    exact h.dirs.root.2
  · intro d hd hdir
    by_cases hne : d = inum
    · rw [hne, hnew]
      refine ⟨fun bn hbn => ?_, ?_, fun x _ _ => hbyte x⟩
      · rw [hsize] at hbn
        exact absurd hbn (Nat.not_lt_zero _)
      · rw [hsize]
        exact Nat.zero_le _
    · obtain ⟨hdir', hsame⟩ := hfile d hd hne hdir
      rw [hold d hne]
      exact hsame.table (h.dirs.table d hd hdir')
  · intro d hd hdir j hj hused
    by_cases hne : d = inum
    · rw [hne, hnew] at hused
      exact absurd (hempty j) hused
    · obtain ⟨hdir', hsame⟩ := hfile d hd hne hdir
      rw [hold d hne, hsame.entryAt_eq] at hused ⊢
      obtain ⟨hnum, ht, hl⟩ := h.dirs.target d hd hdir' j hj hused
      have hother : (entryAt disk (dnode disk d) j).inum.toNat ≠ inum := by
        intro hc
        rw [hc] at ht
        exact ht hp.free
      rw [Linked, hold _ hother]
      exact ⟨hnum, ht, hl⟩
  · rw [hold _ hroot]
    exact h.type
  · rw [hold _ hroot]
    exact h.root
  · intro j hj ht
    by_cases hne : j = inum
    · rw [hne, hnew, hlink]
      exact ⟨by decide, by have : (1 : Int16).toInt = 1 := rfl; omega⟩
    · rw [hold j hne] at ht ⊢
      exact h.links j hj ht
  · intro d hd hdir j hj hr
    by_cases hne : d = inum
    · rw [hne, hnew, hempty] at hr
      exact absurd hr (by decide)
    · obtain ⟨hdir', hsame⟩ := hfile d hd hne hdir
      rw [hold d hne, hsame.entryAt_eq] at hr ⊢
      exact h.apex d hd hdir' j hj hr

/-- A directory gets an entry. -/
theorem entered (h : Making sb disk m k) (hinum : node.inum = d) (hsync : node.toDinode = dnode disk d)
    (hd : d < sb.ninodes.toNat) (hdir : (dnode disk d).type = tDir) (hi : Linked sb disk i)
    (hdots : i = rootino → IsDots name) (he : Entered sb disk node ⟨UInt16.ofNat i, name⟩ disk' node') :
    Making sb disk' m k ∧ ∀ j, j < sb.ninodes.toNat → (dnode disk' j).type = (dnode disk j).type := by
  have hnode : dnode disk' d = node'.toDinode := by
    rw [← hinum]
    exact he.written.node
  have hold : ∀ j, j < sb.ninodes.toNat → j ≠ d → dnode disk' j = dnode disk j := by
    intro j hj hne
    exact he.written.others j hj (by rwa [hinum])
  have htype : ∀ j, j < sb.ninodes.toNat → (dnode disk' j).type = (dnode disk j).type := by
    intro j hj
    by_cases hne : j = d
    · rw [hne, hnode]
      exact he.written.type.trans (congrArg Dinode.type hsync)
    · rw [hold j hj hne]
  have hnlink : ∀ j, j < sb.ninodes.toNat → (dnode disk' j).nlink = (dnode disk j).nlink := by
    intro j hj
    by_cases hne : j = d
    · rw [hne, hnode]
      exact he.nlink.trans (congrArg Dinode.nlink hsync)
    · rw [hold j hj hne]
  have hlinked : ∀ j, Linked sb disk j → Linked sb disk' j := by
    rintro j ⟨hj, ht, hl⟩
    exact ⟨hj, by rwa [htype j hj], by rwa [hnlink j hj]⟩
  have hroot := h.dirs.root.1
  have hval : (UInt16.ofNat i).toNat = i := by
    have := hi.1
    have := h.dirs.few
    rw [UInt16.toNat_ofNat']
    omega
  have hfile : ∀ e, e < sb.ninodes.toNat → e ≠ d → (dnode disk e).type = tDir →
      SameFile disk disk' (dnode disk e) := by
    intro e hee hne hdir'
    exact he.written.files e hee (by rwa [hinum]) (by rw [hdir']; decide)
  -- entry `k₀` is the new one; the others are as they were
  obtain ⟨k₀, hk₀, hempty, hat, hother⟩ := he.entry
  rw [hsync] at hother
  refine ⟨⟨⟨h.dirs.few, ⟨hroot, ?_⟩, ?_, ?_⟩, ?_, ?_, ?_, ?_⟩, htype⟩
  · rw [hnlink _ hroot]
    exact h.dirs.root.2
  · intro e hee hdir'
    rw [htype e hee] at hdir'
    by_cases hne : e = d
    · rw [hne, hnode]
      exact he.table
    · rw [hold e hee hne]
      exact (hfile e hee hne hdir').table (h.dirs.table e hee hdir')
  · intro e hee hdir' j hj hused
    rw [htype e hee] at hdir'
    by_cases hne : e = d
    · rw [hne, hnode] at hused ⊢
      by_cases hjk : j = k₀
      · rw [hjk, hat]
        show Linked sb disk' (UInt16.ofNat i).toNat
        rw [hval]
        exact hlinked i hi
      · rw [hother j hj hjk] at hused ⊢
        exact hlinked _ (h.dirs.target d hd hdir j hj hused)
    · rw [hold e hee hne, (hfile e hee hne hdir').entryAt_eq] at hused ⊢
      exact hlinked _ (h.dirs.target e hee hdir' j hj hused)
  · rw [htype _ hroot]
    exact h.type
  · rw [hnlink _ hroot]
    exact h.root
  · intro j hj ht
    rw [htype j hj] at ht
    rw [hnlink j hj]
    exact h.links j hj ht
  · intro e hee hdir' j hj hr
    rw [htype e hee] at hdir'
    by_cases hne : e = d
    · rw [hne, hnode] at hr ⊢
      by_cases hjk : j = k₀
      · rw [hjk, hat] at hr ⊢
        have hr : (UInt16.ofNat i).toNat = rootino := hr
        rw [hval] at hr
        exact hdots hr
      · rw [hother j hj hjk] at hr ⊢
        exact h.apex d hd hdir j hj hr
    · rw [hold e hee hne, (hfile e hee hne hdir').entryAt_eq] at hr ⊢
      exact h.apex e hee hdir' j hj hr

/-- A directory gets a link from a new subdirectory. -/
theorem link (h : Making sb disk m k) (hcons : Consistent sb disk) (hinum : node.inum = d)
    (hsync : node.toDinode = dnode disk d) (hd : d < sb.ninodes.toNat) (hdir : (dnode disk d).type = tDir)
    (hm : m < 2 ^ 14) :
    Making sb (putNode disk { node with nlink := node.nlink + 1 }) (m + 1)
        (if d = rootino then k + 1 else k) ∧
      ∀ j, (dnode (putNode disk { node with nlink := node.nlink + 1 }) j).type = (dnode disk j).type := by
  have hnode : dnode (putNode disk { node with nlink := node.nlink + 1 }) d =
      { dnode disk d with nlink := (dnode disk d).nlink + 1 } := by
    rw [dnode_putNode, nodesWith, ← hsync]
    show Function.update (dnode disk) node.inum _ d = _
    rw [hinum]
    exact Function.update_self ..
  have hold : ∀ j, j ≠ d → dnode (putNode disk { node with nlink := node.nlink + 1 }) j = dnode disk j := by
    intro j hne
    rw [dnode_putNode, nodesWith]
    exact Function.update_of_ne (by rw [← hinum] at hne; exact hne) _ _
  have htype : ∀ j, (dnode (putNode disk { node with nlink := node.nlink + 1 }) j).type =
      (dnode disk j).type := by
    intro j
    by_cases hne : j = d
    · rw [hne, hnode]
    · rw [hold j hne]
  have hdt : (dnode disk d).type ≠ 0 := by
    rw [hdir]
    decide
  -- the count does not wrap, since `m` is small
  have hone : (1 : Int16).toInt = 1 := rfl
  have hnlink : ((dnode disk d).nlink + 1).toInt = (dnode disk d).nlink.toInt + 1 := by
    obtain ⟨hlo, hhi⟩ := h.links d hd hdt
    rw [Int16.toInt_add, hone, Int.bmod_eq_of_le (by omega) (by omega)]
  have hlinks : ∀ j, j < sb.ninodes.toNat → (dnode disk j).type ≠ 0 →
      1 ≤ (dnode (putNode disk { node with nlink := node.nlink + 1 }) j).nlink.toInt ∧
        (dnode (putNode disk { node with nlink := node.nlink + 1 }) j).nlink.toInt ≤ 1 + (m + 1 : Nat) := by
    intro j hj ht
    obtain ⟨hlo, hhi⟩ := h.links j hj ht
    by_cases hne : j = d
    · rw [hne] at hlo hhi ⊢
      rw [hnode]
      simp only [hnlink]
      omega
    · rw [hold j hne]
      omega
  have hlinked : ∀ j, Linked sb disk j → Linked sb (putNode disk { node with nlink := node.nlink + 1 }) j := by
    rintro j ⟨hj, ht, -⟩
    exact ⟨hj, by rwa [htype], nlink_ne_zero (hlinks j hj ht).1⟩
  have hsame : ∀ e, e < sb.ninodes.toNat → (dnode disk e).type = tDir →
      SameFile disk (putNode disk { node with nlink := node.nlink + 1 }) (dnode disk e) := by
    intro e hee hdir'
    refine SameFile.putNode hcons.ledger hee (by rw [hdir']; decide) ?_
    exact Superblock.inodeBlock_iblock (by rw [← hinum] at hd; exact hd)
  have hentry : ∀ e, e < sb.ninodes.toNat → (dnode disk e).type = tDir → ∀ j,
      entryAt (putNode disk { node with nlink := node.nlink + 1 })
        (dnode (putNode disk { node with nlink := node.nlink + 1 }) e) j = entryAt disk (dnode disk e) j := by
    intro e hee hdir' j
    rw [← (hsame e hee hdir').entryAt_eq j]
    by_cases hne : e = d
    · rw [hne, hnode]
      rfl
    · rw [hold e hne]
  have hroot := h.dirs.root.1
  refine ⟨⟨⟨h.dirs.few, ⟨hroot, ?_⟩, ?_, ?_⟩, ?_, ?_, ?_, ?_⟩, htype⟩
  · exact nlink_ne_zero (hlinks rootino hroot (by rw [h.type]; decide)).1
  · intro e hee hdir'
    rw [htype] at hdir'
    have htable := (hsame e hee hdir').table (h.dirs.table e hee hdir')
    by_cases hne : e = d
    · rw [hne] at htable ⊢
      rw [hnode]
      exact ⟨htable.mapped, htable.bound, htable.beyond⟩
    · rwa [hold e hne]
  · intro e hee hdir' j hj hused
    rw [htype] at hdir'
    rw [hentry e hee hdir'] at hused ⊢
    exact hlinked _ (h.dirs.target e hee hdir' j hj hused)
  · rw [htype]
    exact h.type
  · have hr := h.root
    by_cases hdr : d = rootino
    · rw [if_pos hdr, ← hdr, hnode]
      rw [← hdr] at hr
      simp only [hnlink, hr]
      omega
    · rw [if_neg hdr, hold _ (Ne.symm hdr)]
      exact hr
  · intro j hj ht
    rw [htype] at ht
    exact hlinks j hj ht
  · intro e hee hdir' j hj hr
    rw [htype] at hdir'
    rw [hentry e hee hdir'] at hr ⊢
    exact h.apex e hee hdir' j hj hr

end Making

end Making

/-! ## The calls -/

/-- Directories are being made in a kernel that holds the references of `l`. -/
structure Progress (sb : Superblock) (s : Kernel) (l : List (Slot × Nat)) (m k : Nat) : Prop where
  accounted : Accounted sb s
  holds : Holds s l
  making : Making sb s.bufs.disk m k

/-- Slots stay valid, and inodes keep their types. -/
structure Keeping (sb : Superblock) (s t : Kernel) : Prop where
  valid : ∀ j, (s.icache j).valid = true → (t.icache j).valid = true
  type : ∀ j, j < sb.ninodes.toNat → (dnode t.bufs.disk j).type = (dnode s.bufs.disk j).type

section Calls

variable {sb : Superblock} {s t : Kernel} {dev : Devsw} {cwd dp ip : Slot} {m k d i inum : Nat}
variable {path name : List UInt8} {l : List (Slot × Nat)} {r : Int32} {type : Int16} {x : Unit}

theorem Keeping.trans {u : Kernel} (h : Keeping sb s t) (h' : Keeping sb t u) : Keeping sb s u :=
  ⟨fun j hj => h'.valid j (h.valid j hj), fun j hj => (h'.type j hj).trans (h.type j hj)⟩

namespace Progress

theorem number (h : Progress sb s ((dp, d) :: l) m k) : d < sb.ninodes.toNat := by
  have := h.accounted.number dp h.holds.ref_pos
  rwa [h.holds.head] at this

theorem swap {a b : Slot × Nat} (h : Progress sb s (a :: b :: l) m k) : Progress sb s (b :: a :: l) m k :=
  ⟨h.accounted, h.holds.swap, h.making⟩

/-- A locked inode that is in use is not freed when it is given back. -/
theorem nlink_ne_zero (h : Progress sb s ((dp, d) :: l) m k) (hv : (s.icache dp).valid = true) :
    (s.icache dp).node.nlink ≠ 0 := by
  obtain ⟨hsync, htype⟩ := h.accounted.synced dp h.holds.ref_pos hv
  rw [h.holds.head] at hsync
  rw [congrArg Dinode.nlink hsync]
  refine (h.making.linked h.number ?_).2.2
  rw [← hsync]
  exact htype

theorem undisturbed {l' : List (Slot × Nat)} (h : Progress sb s l m k) (hu : Undisturbed sb s t)
    (hl : Holds t l') : Progress sb t l' m k :=
  ⟨hu.accounted, hl, by rw [hu.bufs]; exact h.making⟩

/-- `dirlink` of an inode that is in use -/
theorem dirlink (h : Progress sb s ((dp, d) :: l) m k) (hv : (s.icache dp).valid = true)
    (hdir : (dnode s.bufs.disk d).type = tDir) (hi : i < sb.ninodes.toNat)
    (ht : (dnode s.bufs.disk i).type ≠ 0) (hdots : i = rootino → IsDots name) (hshort : name.length ≤ 14)
    (hzero : 0 ∉ name) (hrun : Xv6.dirlink dev dp name i s = .ok (r, t)) (hr : ¬ r < 0) :
    Progress sb t ((dp, d) :: l) m k ∧ Keeping sb s t := by
  have href := h.holds.ref_pos
  have hinum := h.holds.head
  obtain ⟨hsync, _⟩ := h.accounted.synced dp href hv
  rw [hinum] at hsync
  have htable : Table s.bufs.disk (s.icache dp).node.toDinode := by
    rw [hsync]
    exact h.making.dirs.table d h.number hdir
  obtain ⟨node, bufs, rfl, hidle, he⟩ := dirlink_run h.accounted href hv htable hshort hzero hrun hr
  obtain ⟨hmaking, htype⟩ := h.making.entered hinum hsync h.number hdir (h.making.linked hi ht) hdots he
  have hl : Holds { s with bufs := bufs } ((dp, d) :: l) := ⟨h.holds.count, h.holds.number⟩
  refine ⟨⟨h.accounted.modify href hv bufs hidle he.written, hl.set le_rfl he.written.inum, hmaking⟩, ?_, htype⟩
  intro j hj
  rw [Kernel.set_icache]
  split
  · exact hv
  · exact hj

/-- The link of a directory from the entry `..` of a new one. -/
theorem addLink (h : Progress sb s ((dp, d) :: l) m k) (hv : (s.icache dp).valid = true)
    (hdir : (dnode s.bufs.disk d).type = tDir) (hm : m < 2 ^ 14)
    (hrun : withNode dp (fun node => do
      let node := { node with nlink := node.nlink + 1 }
      iupdate node
      return ((), node)) s = .ok (x, t)) :
    Progress sb t ((dp, d) :: l) (m + 1) (if d = rootino then k + 1 else k) ∧ Keeping sb s t := by
  have href := h.holds.ref_pos
  have hinum := h.holds.head
  obtain ⟨hsync, htype₀⟩ := h.accounted.synced dp href hv
  have hnum : (s.icache dp).node.inum < sb.ninodes.toNat := by
    rw [hinum]
    exact h.number
  obtain ⟨node, bufs, hx, rfl⟩ := withNode_eq_ok hrun
  simp only at hx
  rw [bind_of_ok (iupdate_ok h.accounted.idle)] at hx
  cases hx
  have hw : Written sb s.bufs.disk (s.icache dp).node _
      { (s.icache dp).node with nlink := (s.icache dp).node.nlink + 1 } :=
    h.accounted.consistent.iupdate_written hnum htype₀ hsync.symm rfl rfl rfl
  obtain ⟨hmaking, htype⟩ := h.making.link h.accounted.consistent hinum (by rw [hsync, hinum]) h.number hdir hm
  refine ⟨⟨?_, ?_, hmaking⟩, ?_, fun j _ => htype j⟩
  · exact h.accounted.modify href hv ⟨putNode s.bufs.disk
      { (s.icache dp).node with nlink := (s.icache dp).node.nlink + 1 }, s.bufs.busy⟩ h.accounted.idle hw
  · have hl : Holds ⟨⟨putNode s.bufs.disk
        { (s.icache dp).node with nlink := (s.icache dp).node.nlink + 1 }, s.bufs.busy⟩, s.icache⟩
        ((dp, d) :: l) := ⟨h.holds.count, h.holds.number⟩
    exact hl.set le_rfl rfl
  · intro j hj
    rw [Kernel.set_icache]
    split
    · exact hv
    · exact hj

/-- The entries `.` and `..` of a new directory. -/
theorem createDots (h : Progress sb s ((ip, inum) :: (dp, d) :: l) m k) (hv : (s.icache dp).valid = true)
    (hvi : (s.icache ip).valid = true) (hdir : (dnode s.bufs.disk d).type = tDir)
    (hnew : (dnode s.bufs.disk inum).type = tDir) (hm : m < 2 ^ 14) (hroot : inum ≠ rootino)
    (hrun : Xv6.createDots dev dp ip s = .ok (x, t)) :
    Progress sb t ((ip, inum) :: (dp, d) :: l) (m + 1) (if d = rootino then k + 1 else k) ∧
      Keeping sb s t := by
  have hdt : ∀ {i : Nat} {u : Kernel}, (dnode u.bufs.disk i).type = tDir → (dnode u.bufs.disk i).type ≠ 0 := by
    intro i u hi
    rw [hi]
    decide
  unfold Xv6.createDots at hrun
  obtain ⟨_, s₁, hlink, hrun⟩ := bind_eq_ok hrun
  obtain ⟨h₁, hk₁⟩ := h.swap.addLink hv hdir hm hlink
  obtain ⟨self, u, hself, hrun⟩ := bind_eq_ok hrun
  obtain ⟨rfl, rfl⟩ := look_eq_ok hself
  obtain ⟨parent, u, hparent, hrun⟩ := bind_eq_ok hrun
  obtain ⟨rfl, rfl⟩ := look_eq_ok hparent
  rw [h₁.holds.head, h₁.swap.holds.head] at hrun
  have hnew₁ := (hk₁.type inum h.number).trans hnew
  obtain ⟨r, s₂, hdot, hrun⟩ := bind_eq_ok hrun
  split at hrun
  · cases hrun
  rename_i hr
  obtain ⟨h₂, hk₂⟩ := h₁.swap.dirlink (hk₁.valid ip hvi) hnew₁ h.number (hdt hnew₁)
    (fun hc => absurd hc hroot) (by decide) (by decide) hdot hr
  have hdir₂ := (hk₂.type d h.swap.number).trans ((hk₁.type d h.swap.number).trans hdir)
  obtain ⟨r', s₃, hdots, hrun⟩ := bind_eq_ok hrun
  split at hrun
  · cases hrun
  rename_i hr'
  cases hrun
  obtain ⟨h₃, hk₃⟩ := h₂.dirlink (hk₂.valid ip (hk₁.valid ip hvi)) ((hk₂.type inum h.number).trans hnew₁)
    h.swap.number (hdt hdir₂) (fun _ => .inr rfl) (by decide) (by decide) hdots hr'
  exact ⟨h₃, (hk₁.trans hk₂).trans hk₃⟩

/-- `create` of a name that is not there -/
theorem createNew (h : Progress sb s ((dp, d) :: l) m k) (hv : (s.icache dp).valid = true)
    (hdir : (dnode s.bufs.disk d).type = tDir) (htype : type = tDir ∨ type = tFile) (hm : m < 2 ^ 14)
    (hshort : name.length ≤ 14) (hzero : 0 ∉ name)
    (hrun : Xv6.createNew dev dp name type 0 0 s = .ok (ip, t)) :
    ∃ inum, Progress sb t ((ip, inum) :: l) (if type = tDir then m + 1 else m)
      (if type = tDir ∧ d = rootino then k + 1 else k) ∧ (t.icache ip).valid = true := by
  unfold Xv6.createNew at hrun
  obtain ⟨⟨r, inum⟩, s₁, hinode, hrun⟩ := bind_eq_ok hrun
  obtain ⟨hs₁, hl₁, hplaced, hvi, hstays⟩ := createInode_run h.accounted h.holds hinode
  have hnum := h.number
  have hdt : (dnode s.bufs.disk d).type ≠ 0 := by
    rw [hdir]
    decide
  have hne : d ≠ inum := by
    rintro rfl
    exact hdt hplaced.free
  have hroot : inum ≠ rootino := by
    rintro rfl
    have := hplaced.free
    rw [h.making.type] at this
    exact absurd this (by decide)
  have h₁ : Progress sb s₁ ((r, inum) :: (dp, d) :: l) m k := by
    refine ⟨hs₁, hl₁, h.making.placed hplaced rfl rfl ?_⟩
    intro disk p
    exact @newInode_addr type inum disk p
  -- parent and child are in different slots
  have hslot : dp ≠ r := by
    rintro rfl
    exact hne (hl₁.tail.head.symm.trans hl₁.head)
  have hv₁ := (hstays dp List.mem_cons_self hslot hv).1
  have hdir₁ : (dnode s₁.bufs.disk d).type = tDir := by
    rw [hplaced.nodes, Function.update_of_ne hne]
    exact hdir
  have htype₁ : (dnode s₁.bufs.disk inum).type = type := by
    rw [hplaced.nodes, Function.update_self]
    rfl
  have hfree : type ≠ 0 := by
    rcases htype with rfl | rfl <;> decide
  -- the entries of a new directory
  obtain ⟨s₂, h₂, hk₂, hrun⟩ : ∃ s₂, Progress sb s₂ ((r, inum) :: (dp, d) :: l)
      (if type = tDir then m + 1 else m) (if type = tDir ∧ d = rootino then k + 1 else k) ∧
      Keeping sb s₁ s₂ ∧ (do
        let r' ← Xv6.dirlink dev dp name inum
        if r' < 0 then halt "create: dirlink"
        else do
          iunlockput dp
          return r) s₂ = .ok (ip, t) := by
    simp only at hrun
    by_cases hdirs : type = tDir
    · rw [if_pos hdirs] at hrun
      obtain ⟨_, s₂, hdots, hrun⟩ := bind_eq_ok hrun
      obtain ⟨h₂, hk₂⟩ := h₁.createDots hv₁ hvi hdir₁ (htype₁.trans hdirs) hm hroot hdots
      refine ⟨s₂, ?_, hk₂, hrun⟩
      rw [if_pos hdirs]
      simp only [hdirs, true_and]
      exact h₂
    · rw [if_neg hdirs] at hrun
      rw [if_neg hdirs, if_neg fun hc => hdirs hc.1]
      exact ⟨_, h₁, ⟨fun _ hj => hj, fun _ _ => rfl⟩, hrun⟩
  obtain ⟨r', s₃, hlink, hrun⟩ := bind_eq_ok hrun
  split at hrun
  · cases hrun
  rename_i hr
  have hinode₂ : (dnode s₂.bufs.disk inum).type ≠ 0 := by
    rw [hk₂.type inum hplaced.number.2, htype₁]
    exact hfree
  obtain ⟨h₃, hk₃⟩ := h₂.swap.dirlink (hk₂.valid dp hv₁) ((hk₂.type d hnum).trans hdir₁) hplaced.number.2
    hinode₂ (fun hc => absurd hc hroot) hshort hzero hlink hr
  obtain ⟨_, s₄, hput, hpure⟩ := bind_eq_ok hrun
  cases hpure
  obtain ⟨hs₄, hl₄⟩ := iunlockput_run h₃.accounted h₃.holds
    (.inl (h₃.nlink_ne_zero (hk₃.valid dp (hk₂.valid dp hv₁)))) hput
  exact ⟨inum, h₃.undisturbed hs₄ hl₄,
    (hs₄.stays ip h₃.swap.holds.ref_pos (hk₃.valid ip (hk₂.valid ip hvi))).1⟩

/-- `create` of a file or a directory -/
theorem create (h : Progress sb s l m k) (hcwd : cwd ∈ l.map Prod.fst)
    (hpath : 0 ∉ path) (htype : type = tDir ∨ type = tFile) (hm : m < 2 ^ 14)
    (hrun : Xv6.create dev cwd path type 0 0 s = .ok (some ip, t)) :
    ∃ d name inum, parentOfPath s cwd path = some (d, name) ∧
      Progress sb t ((ip, inum) :: l) (if type = tDir then m + 1 else m)
        (if type = tDir ∧ d = rootino then k + 1 else k) ∧
      (t.icache ip).valid = true ∧
      (numberOf s.bufs.disk (dnode s.bufs.disk d) name ≠ none → t.bufs = s.bufs) := by
  unfold Xv6.create at hrun
  obtain ⟨found, s₁, hnamex, hrun⟩ := bind_eq_ok hrun
  obtain ⟨hs₁, hbufs₁, hfound⟩ := namex_parent h.accounted h.making.dirs h.holds hcwd hpath hnamex
  cases hparent : parentOfPath s cwd path with
  | none =>
      rw [hparent] at hfound
      obtain ⟨rfl, -⟩ := hfound
      cases hrun
  | some x =>
      obtain ⟨d, name⟩ := x
      rw [hparent] at hfound
      obtain ⟨dp, rfl, hl₁, hnum, hdir, -⟩ := hfound
      obtain ⟨hshort, hzero⟩ := mem_elems (parentOf_mem hparent)
      simp only at hrun
      obtain ⟨_, s₂, hlock, hrun⟩ := bind_eq_ok hrun
      obtain ⟨hs₂, hl₂, hv₂, hnode, _⟩ := ilock_run hs₁ hl₁ hlock
      have h₂ : Progress sb s₂ ((dp, d) :: l) m k :=
        ⟨hs₂.accounted, hl₂, by rw [hs₂.bufs, hbufs₁]; exact h.making⟩
      have hbufs₂ : s₂.bufs = s.bufs := hs₂.bufs.trans hbufs₁
      rw [← hs₂.bufs] at hdir hnode
      have htable : Table s₂.bufs.disk (s₂.icache dp).node.toDinode := by
        rw [hnode]
        exact h₂.making.dirs.table d hnum hdir
      obtain ⟨look', s₃, hlook, hrun⟩ := bind_eq_ok hrun
      obtain ⟨_, ⟨hnone, rfl, hu⟩ | ⟨i, r, off, hsome, rfl, hget⟩⟩ :=
        dirlookup_run h₂.accounted.idle htable hshort (hzero hpath) hlook
      · rw [hu] at hrun
        simp only at hrun
        obtain ⟨r, u, hnew, hpure⟩ := bind_eq_ok hrun
        cases hpure
        obtain ⟨inum, ht, hvt⟩ := h₂.createNew hv₂ hdir htype hm hshort (hzero hpath) hnew
        rw [hnode, hbufs₂] at hnone
        exact ⟨d, name, inum, rfl, ht, hvt, fun hc => absurd hnone hc⟩
      · -- the file is there
        rw [hnode] at hsome
        simp only at hrun
        obtain ⟨hs₃, hl₃⟩ := iget_run hs₂.accounted hl₂ (h₂.making.dirs.linked hnum hdir hsome).1 hget
        have h₃ := h₂.undisturbed hs₃ hl₃
        obtain ⟨_, s₄, hput, hrun⟩ := bind_eq_ok hrun
        obtain ⟨hs₄, hl₄⟩ := iunlockput_run hs₃.accounted hl₃.swap
          (.inl (h₃.swap.nlink_ne_zero (hs₃.stays dp hl₂.ref_pos hv₂).1)) hput
        obtain ⟨_, s₅, hlock', hrun⟩ := bind_eq_ok hrun
        obtain ⟨hs₅, hl₅, hv₅, _, _⟩ := ilock_run hs₄.accounted hl₄ hlock'
        have h₅ := (h₃.undisturbed hs₄ hl₄).undisturbed hs₅ hl₅
        obtain ⟨c, u, hlook', hrun⟩ := bind_eq_ok hrun
        obtain ⟨rfl, rfl⟩ := look_eq_ok hlook'
        split at hrun
        · rename_i hfile
          cases hrun
          have hne : ¬ type = tDir := by
            rw [hfile.1]
            decide
          refine ⟨d, name, i, rfl, ?_, hv₅, fun _ => hs₅.bufs.trans (hs₄.bufs.trans (hs₃.bufs.trans hbufs₂))⟩
          rw [if_neg hne, if_neg fun hc => hne hc.1]
          exact h₅
        split at hrun
        · rename_i hchecked
          rcases htype with rfl | rfl <;> exact absurd hchecked.1 (by decide)
        · obtain ⟨_, v, _, hpure⟩ := bind_eq_ok hrun
          cases hpure

/-- A call that returns 0 -/
theorem sysMkdir (h : Progress sb s l m k) (hcwd : cwd ∈ l.map Prod.fst) (hpath : 0 ∉ path)
    (hm : m < 2 ^ 14) (hrun : Xv6.sysMkdir dev cwd path s = .ok (0, t)) :
    ∃ d name, parentOfPath s cwd path = some (d, name) ∧
      Progress sb t l (m + 1) (if d = rootino then k + 1 else k) := by
  unfold Xv6.sysMkdir at hrun
  obtain ⟨res, s₁, hcreate, hrun⟩ := bind_eq_ok hrun
  cases res with
  | none => cases hrun
  | some ip =>
      obtain ⟨d, name, inum, hparent, h₁, hv₁, _⟩ := h.create hcwd hpath (.inl rfl) hm hcreate
      obtain ⟨_, s₂, hput, hpure⟩ := bind_eq_ok hrun
      cases hpure
      obtain ⟨hs₂, hl₂⟩ := iunlockput_run h₁.accounted h₁.holds (.inl (h₁.nlink_ne_zero hv₁)) hput
      have h₂ := h₁.undisturbed hs₂ hl₂
      rw [if_pos rfl] at h₂
      simp only [true_and] at h₂
      exact ⟨d, name, hparent, h₂⟩

theorem sysCreat (h : Progress sb s l m k) (hcwd : cwd ∈ l.map Prod.fst) (hpath : 0 ∉ path)
    (hm : m < 2 ^ 14) (hrun : Xv6.sysCreat dev cwd path s = .ok (0, t)) :
    Progress sb t l m k ∧
      ∃ ip u, Xv6.create dev cwd path tFile 0 0 s = .ok (some ip, u) ∧ t.bufs = u.bufs := by
  unfold Xv6.sysCreat at hrun
  obtain ⟨res, s₁, hcreate, hrun⟩ := bind_eq_ok hrun
  cases res with
  | none => cases hrun
  | some ip =>
      obtain ⟨d, name, inum, _, h₁, hv₁, _⟩ := h.create hcwd hpath (.inr rfl) hm hcreate
      obtain ⟨_, s₂, hunlock, hrun⟩ := bind_eq_ok hrun
      obtain ⟨hs₂, hl₂⟩ := iunlock_run h₁.accounted h₁.holds hunlock
      have h₂ := h₁.undisturbed hs₂ hl₂
      obtain ⟨_, s₃, hput, hpure⟩ := bind_eq_ok hrun
      cases hpure
      obtain ⟨hs₃, hl₃⟩ := iput_run hs₂.accounted hl₂ (.inl h₂.nlink_ne_zero) hput
      exact ⟨h₂.undisturbed hs₃ hl₃, ip, s₁, hcreate, hs₃.bufs.trans hs₂.bufs⟩

/-- A file that has been made is there, and so are the names that were. -/
theorem sysCreat_top {x : List UInt8} (h : Progress sb s l m k) (hcwd : cwd ∈ l.map Prod.fst)
    (hpath : 0 ∉ path) (hm : m < 2 ^ 14) (hparent : parentOfPath s cwd path = some (rootino, name))
    (hrun : Xv6.sysCreat dev cwd path s = .ok (0, t)) :
    numberOf t.bufs.disk (dnode t.bufs.disk rootino) name ≠ none ∧
      (numberOf s.bufs.disk (dnode s.bufs.disk rootino) x ≠ none →
        numberOf t.bufs.disk (dnode t.bufs.disk rootino) x ≠ none) := by
  obtain ⟨_, ip, u, hcreate, hbufs⟩ := h.sysCreat hcwd hpath hm hrun
  obtain ⟨d, name', inum, hparent', _, _, hsame⟩ := h.create hcwd hpath (.inr rfl) hm hcreate
  rw [hparent] at hparent'
  cases hparent'
  rw [hbufs]
  by_cases habsent : numberOf s.bufs.disk (dnode s.bufs.disk rootino) name = none
  · obtain ⟨_, inum, _, _, _, _, _, hborn⟩ := create_absent h.accounted h.making.dirs h.holds hcwd hpath
      (by decide) hparent habsent hcreate
    have hnew := hborn.numberOf_new h.making.dirs habsent
    refine ⟨by rw [hnew]; exact Option.some_ne_none _, fun hx => ?_⟩
    obtain ⟨i, hi⟩ := Option.ne_none_iff_exists'.mp hx
    have hne : x ≠ name := by
      rintro rfl
      exact hx habsent
    rw [hborn.numberOf_old hne hi]
    exact Option.some_ne_none _
  · rw [hsame habsent]
    exact ⟨habsent, fun hx => hx⟩

end Progress

/-- Opening a file with `O_CREATE` and closing it again does this to the inodes. -/
theorem sysCreat_of_open {u : System} {v w : System} {omode fd : Int32} {f : Fin nfile}
    (hcreate : omode &&& oCreate ≠ 0) (hopen : sysOpen dev path omode u = .ok (fd, v)) (hfd : 0 ≤ fd)
    (hfile : v.ofile (Fin.ofNat nofile fd.toInt.toNat) = some f) (href : (v.ftable f).ref = 1)
    (hclose : fileclose f v = .ok (x, w)) : sysCreat dev u.cwd path u.kernel = .ok (0, w.kernel) := by
  obtain ⟨res, k, hrun, ⟨rfl, _⟩ | ⟨ip, rfl, _, _, hof, hunlock⟩⟩ := sysOpen_run hcreate hopen
  · exact absurd hfd (by decide)
  have htype : (v.ftable f).type = .inode ip := by
    unfold System.fileOf at hof
    split at hof
    · rw [hfile] at hof
      simp only at hof
      split at hof
      · rename_i hty
        cases hof
        exact hty
      · cases hof
    · cases hof
  unfold fileclose at hclose
  obtain ⟨file, y, hlook, hclose⟩ := bind_eq_ok hclose
  obtain ⟨rfl, rfl⟩ := look_eq_ok hlook
  rw [if_neg (by omega), if_neg (by omega)] at hclose
  obtain ⟨_, y, hset, hclose⟩ := bind_eq_ok hclose
  cases hset
  rw [htype] at hclose
  obtain ⟨k', hput, rfl⟩ := onKernel_eq_ok hclose
  unfold sysCreat
  rw [bind_of_ok hrun]
  simp only
  rw [bind_of_ok hunlock, bind_of_ok hput]
  rfl

end Calls

end Xv6
end LfsXv6
