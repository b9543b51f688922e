import LfsXv6.Xv6.Icache
import LfsXv6.Xv6.Truncate

/-!
# Accounting — the bitmap over runs of the kernel

Inodes are made, looked up, linked, written and put back in any order.  `Accounted` is the invariant of
such runs: the disk is consistent, no buffer is locked, and the in-core inodes that are valid are those
of the disk.  `iput` gives back the blocks of an inode only if its words hold no checksums.
-/

namespace LfsXv6
namespace Xv6

open Lib Prog

/-! ## Calls of the upper layers that return -/

section Inversion

variable {α : Type} {s t : Kernel} {i : Slot} {a : α}

theorem onDisk_eq_ok {x : Prog Bufs α} (h : onDisk x s = .ok (a, t)) :
    ∃ bufs, x s.bufs = .ok (a, bufs) ∧ t = { s with bufs := bufs } := by
  unfold onDisk at h
  split at h
  · rename_i b bufs hx
    cases h
    exact ⟨bufs, hx, rfl⟩
  · cases h

/-- The kernel with another value in a slot. -/
def Kernel.set (s : Kernel) (i : Slot) (c : Cached) : Kernel :=
  { s with icache := Function.update s.icache i c }

@[simp] theorem Kernel.set_icache_self {c : Cached} : (s.set i c).icache i = c :=
  Function.update_self ..

@[simp] theorem Kernel.set_bufs {c : Cached} : (s.set i c).bufs = s.bufs := rfl

@[simp] theorem Kernel.set_set {c c' : Cached} : (s.set i c).set i c' = s.set i c' := by
  simp [Kernel.set]

@[simp] theorem Kernel.set_bufs_set {c c' : Cached} {bufs : Bufs} :
    ({ bufs := bufs, icache := (s.set i c).icache } : Kernel).set i c' =
      ({ s with bufs := bufs } : Kernel).set i c' := by
  simp [Kernel.set]

theorem setSlot_eq_ok {f : Cached → Cached} {x : Unit} (h : setSlot i f s = .ok (x, t)) :
    t = s.set i (f (s.icache i)) := assign_eq_ok h

theorem withNode_eq_ok {f : Inode → Prog Bufs (α × Inode)} (h : withNode i f s = .ok (a, t)) :
    ∃ node bufs, f (s.icache i).node s.bufs = .ok ((a, node), bufs) ∧
      t = ({ s with bufs := bufs } : Kernel).set i { s.icache i with node := node } := by
  unfold withNode at h
  obtain ⟨c, u, hlook, h⟩ := bind_eq_ok h
  obtain ⟨rfl, rfl⟩ := look_eq_ok hlook
  obtain ⟨⟨b, node⟩, v, hrun, h⟩ := bind_eq_ok h
  obtain ⟨bufs, hx, rfl⟩ := onDisk_eq_ok hrun
  obtain ⟨_, w, hset, h⟩ := bind_eq_ok h
  cases hset
  cases h
  exact ⟨node, bufs, hx, rfl⟩

/-- A slot that was given to inode `inum`. -/
def Cached.fresh (c : Cached) (inum : Nat) : Cached :=
  { ref := 1, busy := false, valid := false, node := { c.node with inum := inum } }

theorem iget_eq_ok {inum : Nat} {r : Slot} (h : iget inum s = .ok (r, t)) :
    (0 < (s.icache r).ref ∧ (s.icache r).node.inum = inum ∧
      t = s.set r { s.icache r with ref := (s.icache r).ref + 1 }) ∨
    ((∀ j, 0 < (s.icache j).ref → (s.icache j).node.inum ≠ inum) ∧ (s.icache r).ref = 0 ∧
      t = s.set r ((s.icache r).fresh inum)) := by
  unfold iget at h
  obtain ⟨icache, u, hlook, h⟩ := bind_eq_ok h
  obtain ⟨rfl, rfl⟩ := look_eq_ok hlook
  cases hfind : (List.finRange ninode).find? fun j =>
      0 < (s.icache j).ref ∧ (s.icache j).node.inum = inum with
  | some j =>
      rw [hfind] at h
      obtain ⟨_, v, hset, h⟩ := bind_eq_ok h
      cases hset
      cases h
      have hj := List.find?_some hfind
      simp only [decide_eq_true_eq] at hj
      exact .inl ⟨hj.1, hj.2, rfl⟩
  | none =>
      rw [hfind] at h
      cases hempty : (List.finRange ninode).find? fun j => (s.icache j).ref = 0 with
      | none =>
          simp only [hempty] at h
          cases h
      | some j =>
          simp only [hempty] at h
          obtain ⟨_, v, hset, h⟩ := bind_eq_ok h
          cases hset
          cases h
          have hj := List.find?_some hempty
          simp only [decide_eq_true_eq] at hj
          refine .inr ⟨?_, hj, rfl⟩
          intro k hk heq
          have := List.find?_eq_none.mp hfind k (List.mem_finRange k)
          simp [hk, heq] at this

theorem iload_ok {s : Bufs} (hbusy : s.busy = []) (inum : Nat) :
    iload inum s = .ok ({ toDinode := dnode s.disk inum, inum := inum }, s) := by
  have hnot : iblock inum ∉ s.busy := by
    rw [hbusy]
    exact List.not_mem_nil
  exact bread_brelse (f := fun data => ({ toDinode := data.dinode (inum % ipb), inum := inum } : Inode))
    hnot (by rw [hbusy]; decide)

/-- `ilock` takes the inode from the disk unless it is there already. -/
theorem ilock_eq_ok {x : Unit} (hbusy : s.bufs.busy = []) (h : ilock i s = .ok (x, t)) :
    0 < (s.icache i).ref ∧ ∃ node, t = s.set i { s.icache i with
        busy := true, valid := true, node := node } ∧
      (((s.icache i).valid = true ∧ node = (s.icache i).node) ∨
        (node.toDinode = dnode s.bufs.disk node.inum ∧ node.inum = (s.icache i).node.inum ∧
          node.type ≠ 0)) := by
  unfold ilock at h
  obtain ⟨c, u, hlook, h⟩ := bind_eq_ok h
  obtain ⟨rfl, rfl⟩ := look_eq_ok hlook
  split at h
  · cases h
  rename_i href
  split at h
  · cases h
  obtain ⟨_, v, hset, h⟩ := bind_eq_ok h
  cases hset
  refine ⟨by omega, ?_⟩
  split at h
  · rename_i hvalid
    cases h
    refine ⟨(s.icache i).node, ?_, .inl ⟨hvalid, rfl⟩⟩
    simp only [Kernel.set, hvalid]
  · obtain ⟨node, w, hrun, h⟩ := bind_eq_ok h
    obtain ⟨bufs, hx, rfl⟩ := onDisk_eq_ok hrun
    rw [iload_ok hbusy] at hx
    cases hx
    obtain ⟨_, y, hset, h⟩ := bind_eq_ok h
    cases hset
    split at h
    · cases h
    rename_i htype
    cases h
    refine ⟨{ toDinode := dnode s.bufs.disk (s.icache i).node.inum, inum := (s.icache i).node.inum }, ?_,
      .inr ⟨rfl, rfl, htype⟩⟩
    simp [Kernel.set]

theorem iunlock_eq_ok {x : Unit} (h : iunlock i s = .ok (x, t)) :
    t = s.set i { s.icache i with busy := false } := by
  unfold iunlock at h
  obtain ⟨c, u, hlook, h⟩ := bind_eq_ok h
  obtain ⟨rfl, rfl⟩ := look_eq_ok hlook
  split at h
  · cases h
  · cases h
    rfl

end Inversion

/-! ## The invariant -/

/-- The disk is consistent and the in-core inodes are those of the disk. -/
structure Accounted (sb : Superblock) (s : Kernel) : Prop where
  consistent : Consistent sb s.bufs.disk
  idle : s.bufs.busy = []
  number : ∀ i, 0 < (s.icache i).ref → (s.icache i).node.inum < sb.ninodes.toNat
  synced : ∀ i, 0 < (s.icache i).ref → (s.icache i).valid = true →
    (s.icache i).node.toDinode = dnode s.bufs.disk (s.icache i).node.inum ∧ (s.icache i).node.type ≠ 0
  unique : ∀ i j, 0 < (s.icache i).ref → 0 < (s.icache j).ref →
    (s.icache i).node.inum = (s.icache j).node.inum → i = j

namespace Accounted

variable {sb : Superblock} {s : Kernel} {i : Slot}

/-- A slot gets another value, and the disk another inode in its place. -/
theorem update (h : Accounted sb s) (bufs : Bufs) {c : Cached} (hcons : Consistent sb bufs.disk)
    (hidle : bufs.busy = []) (href : 0 < c.ref → 0 < (s.icache i).ref ∧
      c.node.inum = (s.icache i).node.inum)
    (hsync : 0 < c.ref → c.valid = true → c.node.toDinode = dnode bufs.disk c.node.inum ∧
      c.node.type ≠ 0)
    (hother : ∀ j, j < sb.ninodes.toNat → (∃ k, k ≠ i ∧ (s.icache k).node.inum = j ∧
      0 < (s.icache k).ref ∧ (s.icache k).valid = true) → dnode bufs.disk j = dnode s.bufs.disk j) :
    Accounted sb (({ s with bufs := bufs } : Kernel).set i c) := by
  have hself : (({ s with bufs := bufs } : Kernel).set i c).icache i = c := Function.update_self ..
  have hne : ∀ {j}, j ≠ i → (({ s with bufs := bufs } : Kernel).set i c).icache j = s.icache j :=
    fun hj => Function.update_of_ne hj _ _
  refine ⟨hcons, hidle, ?_, ?_, ?_⟩
  · intro j hj
    by_cases hji : j = i
    · subst hji
      rw [hself] at hj ⊢
      obtain ⟨hr, hn⟩ := href hj
      rw [hn]
      exact h.number j hr
    · rw [hne hji] at hj ⊢
      exact h.number j hj
  · intro j hj hv
    by_cases hji : j = i
    · subst hji
      rw [hself] at hj hv ⊢
      exact hsync hj hv
    · rw [hne hji] at hj hv ⊢
      obtain ⟨hnode, htype⟩ := h.synced j hj hv
      refine ⟨hnode.trans ?_, htype⟩
      exact (hother _ (h.number j hj) ⟨j, hji, rfl, hj, hv⟩).symm
  · intro j k hj hk heq
    by_cases hji : j = i <;> by_cases hki : k = i
    · rw [hji, hki]
    · subst hji
      rw [hself] at hj heq
      rw [hne hki] at hk heq
      obtain ⟨hr, hn⟩ := href hj
      exact h.unique j k hr hk (hn ▸ heq)
    · subst hki
      rw [hself] at hk heq
      rw [hne hji] at hj heq
      obtain ⟨hr, hn⟩ := href hk
      exact h.unique j k hj hr (hn ▸ heq)
    · rw [hne hji] at hj heq
      rw [hne hki] at hk heq
      exact h.unique j k hj hk heq

/-- The same with the disk as it was. -/
theorem set (h : Accounted sb s) {c : Cached} (href : 0 < c.ref → 0 < (s.icache i).ref ∧
      c.node.inum = (s.icache i).node.inum)
    (hsync : 0 < c.ref → c.valid = true → c.node.toDinode = dnode s.bufs.disk c.node.inum ∧
      c.node.type ≠ 0) : Accounted sb (s.set i c) :=
  h.update s.bufs h.consistent h.idle href hsync fun _ _ _ => rfl

theorem iget (h : Accounted sb s) {inum : Nat} (hnum : inum < sb.ninodes.toNat) {r : Slot} {t : Kernel}
    (hrun : Xv6.iget inum s = .ok (r, t)) : Accounted sb t := by
  rcases iget_eq_ok hrun with ⟨href, _, rfl⟩ | ⟨hnew, _, rfl⟩
  · exact h.set (fun _ => ⟨href, rfl⟩) fun _ hv => h.synced r href hv
  have hne : ∀ {j}, j ≠ r → (s.set r ((s.icache r).fresh inum)).icache j = s.icache j :=
    fun hj => Function.update_of_ne hj _ _
  have hself : (s.set r ((s.icache r).fresh inum)).icache r = (s.icache r).fresh inum :=
    Function.update_self ..
  refine ⟨h.consistent, h.idle, ?_, ?_, ?_⟩
  · intro j hj
    by_cases hjr : j = r
    · rw [hjr, hself]
      exact hnum
    · rw [hne hjr] at hj ⊢
      exact h.number j hj
  · intro j hj hv
    by_cases hjr : j = r
    · rw [hjr, hself] at hv
      cases hv
    · rw [hne hjr] at hj hv ⊢
      exact h.synced j hj hv
  · intro j k hj hk heq
    by_cases hjr : j = r <;> by_cases hkr : k = r
    · rw [hjr, hkr]
    · rw [hjr, hself, hne hkr] at heq
      rw [hne hkr] at hk
      exact absurd heq.symm (hnew k hk)
    · rw [hkr, hself, hne hjr] at heq
      rw [hne hjr] at hj
      exact absurd heq (hnew j hj)
    · rw [hne hjr] at hj heq
      rw [hne hkr] at hk heq
      exact h.unique j k hj hk heq

theorem ilock (h : Accounted sb s) {x : Unit} {t : Kernel} (hrun : Xv6.ilock i s = .ok (x, t)) :
    Accounted sb t ∧ t.bufs = s.bufs ∧ 0 < (t.icache i).ref ∧ (t.icache i).valid = true := by
  obtain ⟨href, node, rfl, hnode⟩ := ilock_eq_ok h.idle hrun
  have hself : (s.set i { s.icache i with busy := true, valid := true, node := node }).icache i =
      { s.icache i with busy := true, valid := true, node := node } := Function.update_self ..
  refine ⟨h.set ?_ ?_, rfl, ?_, ?_⟩
  · intro _
    refine ⟨href, ?_⟩
    rcases hnode with ⟨_, rfl⟩ | ⟨_, hnum, _⟩
    · rfl
    · exact hnum
  · intro _ _
    rcases hnode with ⟨hv, rfl⟩ | ⟨hd, _, htype⟩
    · exact h.synced i href hv
    · exact ⟨hd, htype⟩
  · rw [hself]
    exact href
  · rw [hself]

theorem iunlock (h : Accounted sb s) {x : Unit} {t : Kernel} (hrun : Xv6.iunlock i s = .ok (x, t)) :
    Accounted sb t := by
  rw [iunlock_eq_ok hrun]
  exact h.set (fun hr => ⟨hr, rfl⟩) fun hr hv => h.synced i hr hv

end Accounted

/-! ## New inodes -/

section Ialloc

variable {sb : Superblock} {s t : Bufs} {type : Int16} {inum : Nat}

/-- The inode that `ialloc` writes. -/
def newInode (type : Int16) (inum : Nat) : Inode :=
  { type := type, major := 0, minor := 0, nlink := 0, size := 0, addrs := fun _ => 0, inum := inum }

theorem newInode_addr (disk : Nat → Sector) (p : Place) : (newInode type inum).addr disk p = 0 := by
  have h : (emptied (newInode type inum)).addr disk p = 0 := emptied_addr disk p
  exact h

theorem iallocLoop_eq_ok {inums : List Nat} (hbusy : s.busy = [])
    (h : iallocLoop type inums s = .ok (inum, t)) :
    inum ∈ inums ∧ (dnode s.disk inum).type = 0 ∧
      t = { s with disk := putNode s.disk (newInode type inum) } := by
  induction inums with
  | nil => cases h
  | cons i inums ih =>
      have hnot : iblock i ∉ s.busy := by
        rw [hbusy]
        exact List.not_mem_nil
      unfold iallocLoop at h
      rw [bind_of_ok (bread_ok hnot (by rw [hbusy]; decide))] at h
      split at h
      · rename_i hfree
        rw [bind_of_ok (bwrite_ok List.mem_cons_self _), bind_of_ok (brelse_ok List.mem_cons_self),
          List.erase_cons_head] at h
        cases h
        exact ⟨List.mem_cons_self, hfree, rfl⟩
      · rw [bind_of_ok (brelse_ok List.mem_cons_self), List.erase_cons_head] at h
        obtain ⟨hmem, hrest⟩ := ih h
        exact ⟨List.mem_cons_of_mem _ hmem, hrest⟩

theorem ialloc_eq_ok (hcons : Consistent sb s.disk) (hbusy : s.busy = [])
    (h : ialloc type s = .ok (inum, t)) :
    inum < sb.ninodes.toNat ∧ (dnode s.disk inum).type = 0 ∧
      t = { s with disk := putNode s.disk (newInode type inum) } := by
  have hq : Quiet sb s.busy := by
    rw [hbusy]
    exact Quiet.nil
  unfold ialloc at h
  rw [bind_of_ok (readsb_ok hcons.ledger.super hq)] at h
  obtain ⟨hmem, hrest⟩ := iallocLoop_eq_ok hbusy h
  exact ⟨List.mem_range.mp (List.mem_of_mem_drop hmem), hrest⟩

/-- `ialloc` starts with inode 1. -/
theorem ialloc_pos (hcons : Consistent sb s.disk) (hbusy : s.busy = [])
    (h : ialloc type s = .ok (inum, t)) : 0 < inum := by
  have hq : Quiet sb s.busy := by
    rw [hbusy]
    exact Quiet.nil
  unfold ialloc at h
  rw [bind_of_ok (readsb_ok hcons.ledger.super hq)] at h
  obtain ⟨hmem, _⟩ := iallocLoop_eq_ok hbusy h
  obtain ⟨k, hk, rfl⟩ := List.mem_iff_getElem.mp hmem
  simp only [List.getElem_drop, List.getElem_range]
  omega

/-- An inode without references takes the place of another one. -/
theorem Consistent.replace (h : Consistent sb s.disk) {ip : Inode} (hblock : sb.InodeBlock (iblock ip.inum))
    (hold : ∀ p, refs sb s.disk (dnode s.disk) (ip.inum, p) = 0)
    (hnew : ip.type = 0 ∨ ∀ p, ip.addr s.disk p = 0) : Consistent sb (putNode s.disk ip) := by
  refine consistent_putNode h.small hblock ?_
  have hrefs : refs sb s.disk (nodesWith s.disk ip) = refs sb s.disk (dnode s.disk) := by
    funext ⟨j, q⟩
    by_cases hj : j = ip.inum
    · subst hj
      rw [hold]
      have hnode : nodesWith s.disk ip ip.inum = ip.toDinode := Function.update_self ..
      simp only [refs, hnode]
      rcases hnew with h0 | h0
      · rw [if_neg fun hc => hc.2 h0]
      · rw [h0, ite_self]
    · simp only [refs, nodesWith, Function.update_of_ne hj]
  rw [hrefs]
  exact h.ledger

/-- `iupdate` of an inode that has its blocks still. -/
theorem Consistent.iupdate_written {disk : Nat → Sector} (h : Consistent sb disk) {ip node : Inode}
    (hnum : ip.inum < sb.ninodes.toNat) (htype : ip.type ≠ 0) (hsync : dnode disk ip.inum = ip.toDinode)
    (hinum : node.inum = ip.inum) (ht : node.type = ip.type) (haddrs : node.addrs = ip.addrs) :
    Written sb disk ip (putNode disk node) node := by
  have hh : Holding sb disk node := (h.holding hnum htype hsync).of_words hinum ht haddrs
  refine ⟨hh.consistent, hinum, ht, ?_, ?_, ?_⟩
  · rw [dnode_putNode, ← hinum]
    exact Function.update_self ..
  · intro j _ hne
    rw [dnode_putNode]
    exact Function.update_of_ne (hinum ▸ hne) _ _
  · intro j hj _ htj
    exact SameFile.putNode h.ledger hj htj (Superblock.inodeBlock_iblock hh.number)

end Ialloc

/-! ## Runs -/

/-- What is done to inodes. -/
inductive FsCall where
  | create (type : Int16)
  | get (inum : Nat)
  | link (ip : Slot) (nlink : Int16)
  | write (ip : Slot) (src : List UInt8) (off n : UInt32)
  | put (ip : Slot)

/-- Execute a call: `ialloc`; `iget`, as `dirlookup` calls it; a new link count and `iupdate`; `writei`
under the lock of the inode; `iput`. -/
def FsCall.run (dev : Devsw) : FsCall → Prog Kernel Unit
  | .create type => do
      let inum ← onDisk (ialloc type)
      let _ ← iget inum
      return ()
  | .get inum => do
      let _ ← iget inum
      return ()
  | .link ip nlink => do
      ilock ip
      withNode ip fun node => do
        let node := { node with nlink := nlink }
        iupdate node
        return ((), node)
      iunlock ip
  | .write ip src off n => do
      ilock ip
      let _ ← withNode ip fun node => writei dev node src off n
      iunlock ip
  | .put ip => iput ip

/-- `iput` is going to truncate the inode of this slot. -/
def Kernel.Dropping (s : Kernel) (i : Slot) : Prop :=
  (s.icache i).ref = 1 ∧ (s.icache i).valid = true ∧ (s.icache i).node.nlink = 0

/-- The call looks up an inode of the table. -/
def FsCall.Legal (sb : Superblock) : FsCall → Prop
  | .get inum => inum < sb.ninodes.toNat
  | _ => True

/-- The call does not truncate an inode with checksums. -/
def FsCall.Unchecked (s : Kernel) : FsCall → Prop
  | .put ip => s.Dropping ip → Plain s.bufs.disk (s.icache ip).node.toDinode
  | _ => True

namespace Accounted

variable {sb : Superblock} {s t : Kernel} {i : Slot} {x : Unit} {dev : Devsw}

/-- `ialloc` writes a free inode, so no inode in memory. -/
theorem alloc (h : Accounted sb s) {type : Int16} {inum : Nat} {bufs : Bufs}
    (hx : ialloc type s.bufs = .ok (inum, bufs)) : inum < sb.ninodes.toNat ∧
      (dnode s.bufs.disk inum).type = 0 ∧
      bufs = { s.bufs with disk := putNode s.bufs.disk (newInode type inum) } ∧
      Accounted sb { s with bufs := bufs } := by
  obtain ⟨hnum, hfree, rfl⟩ := ialloc_eq_ok h.consistent h.idle hx
  refine ⟨hnum, hfree, rfl, ?_, h.idle, h.number, ?_, h.unique⟩
  · refine h.consistent.replace (Superblock.inodeBlock_iblock hnum) ?_ (.inr fun p => newInode_addr _ p)
    intro p
    exact if_neg fun hc => hc.2 hfree
  · -- no valid slot holds the inode that was free
    intro j hj hv
    obtain ⟨hnode, htype⟩ := h.synced j hj hv
    refine ⟨hnode.trans ?_, htype⟩
    have hne : (s.icache j).node.inum ≠ inum := by
      intro heq
      rw [heq] at hnode
      exact htype ((congrArg Dinode.type hnode).trans hfree)
    rw [dnode_putNode]
    exact (Function.update_of_ne hne _ _).symm

theorem create (h : Accounted sb s) {type : Int16} (hrun : (FsCall.create type).run dev s = .ok (x, t)) :
    Accounted sb t := by
  unfold FsCall.run at hrun
  obtain ⟨inum, u, halloc, hrun⟩ := bind_eq_ok hrun
  obtain ⟨r, v, hget, hrun⟩ := bind_eq_ok hrun
  cases hrun
  obtain ⟨bufs, hx, rfl⟩ := onDisk_eq_ok halloc
  obtain ⟨hnum, _, _, hu⟩ := h.alloc hx
  exact hu.iget hnum hget

/-- A function of the lower layers that keeps the disk consistent is run on a locked inode. -/
theorem modify (h : Accounted sb s) (href : 0 < (s.icache i).ref) (hv : (s.icache i).valid = true)
    (bufs : Bufs) {node : Inode} (hbusy : bufs.busy = [])
    (hw : Written sb s.bufs.disk (s.icache i).node bufs.disk node) :
    Accounted sb (({ s with bufs := bufs } : Kernel).set i { s.icache i with node := node }) := by
  refine h.update bufs hw.consistent hbusy (fun _ => ⟨href, hw.inum⟩) ?_ ?_
  · intro _ _
    refine ⟨?_, ?_⟩
    · rw [hw.inum, hw.node]
    · rw [hw.type]
      exact (h.synced i href hv).2
  · rintro j hj ⟨k, hki, rfl, hk, _⟩
    refine hw.others _ hj ?_
    intro heq
    exact hki (h.unique k i hk href heq)

theorem write (h : Accounted sb s) {src : List UInt8} {off n : UInt32}
    (hrun : (FsCall.write i src off n).run dev s = .ok (x, t)) : Accounted sb t := by
  unfold FsCall.run at hrun
  obtain ⟨_, u, hlock, hrun⟩ := bind_eq_ok hrun
  obtain ⟨r, v, hwrite, hrun⟩ := bind_eq_ok hrun
  obtain ⟨hu, _, href, hv⟩ := h.ilock hlock
  obtain ⟨node, bufs, hx, rfl⟩ := withNode_eq_ok hwrite
  obtain ⟨hsync, htype⟩ := hu.synced i href hv
  obtain ⟨hbusy, hw⟩ := writei_written hu.consistent hu.idle (hu.number i href) htype hsync.symm hx
  exact (hu.modify href hv bufs hbusy hw).iunlock hrun

theorem link (h : Accounted sb s) {nlink : Int16}
    (hrun : (FsCall.link i nlink).run dev s = .ok (x, t)) : Accounted sb t := by
  unfold FsCall.run at hrun
  obtain ⟨_, u, hlock, hrun⟩ := bind_eq_ok hrun
  obtain ⟨r, v, hupd, hrun⟩ := bind_eq_ok hrun
  obtain ⟨hu, _, href, hv⟩ := h.ilock hlock
  obtain ⟨node, bufs, hx, rfl⟩ := withNode_eq_ok hupd
  obtain ⟨hsync, htype⟩ := hu.synced i href hv
  simp only at hx
  rw [bind_of_ok (iupdate_ok hu.idle)] at hx
  cases hx
  have hw : Written sb u.bufs.disk (u.icache i).node _ { (u.icache i).node with nlink := nlink } :=
    hu.consistent.iupdate_written (hu.number i href) htype hsync.symm rfl rfl rfl
  exact (hu.modify href hv
    { u.bufs with disk := putNode u.bufs.disk { (u.icache i).node with nlink := nlink } } hu.idle
    hw).iunlock hrun

/-- `iput` of the last reference to an inode without links. -/
theorem drop (h : Accounted sb s) (hdrop : s.Dropping i)
    (hplain : Plain s.bufs.disk (s.icache i).node.toDinode) {u : Kernel}
    (hfree : ifree i s = .ok (x, u)) :
    Accounted sb (u.set i { u.icache i with ref := (u.icache i).ref - 1 }) := by
  obtain ⟨href, hv, _⟩ := hdrop
  have hpos : 0 < (s.icache i).ref := by omega
  obtain ⟨hsync, htype⟩ := h.synced i hpos hv
  have hnum := h.number i hpos
  have hh := h.consistent.holding hnum htype hsync.symm
  unfold ifree at hfree
  obtain ⟨_, u₁, hset, hfree⟩ := bind_eq_ok hfree
  obtain rfl := setSlot_eq_ok hset
  obtain ⟨_, u₂, hnode, hfree⟩ := bind_eq_ok hfree
  obtain rfl := setSlot_eq_ok hfree
  obtain ⟨node, bufs, hx, rfl⟩ := withNode_eq_ok hnode
  simp only [Kernel.set_icache_self, Kernel.set_bufs] at hx
  obtain ⟨disk, htrunc, htr⟩ := itrunc_truncated hh h.idle hplain
  rw [bind_of_ok htrunc] at hx
  rw [bind_of_ok (iupdate_ok (s := { s.bufs with disk := disk }) h.idle)] at hx
  cases hx
  have hcons : Consistent sb (putNode disk { emptied (s.icache i).node with type := 0 }) := by
    refine Consistent.replace (s := { s.bufs with disk := disk }) htr.consistent
      (Superblock.inodeBlock_iblock hnum) ?_ (.inl rfl)
    intro p
    have hempty : (dnode disk (s.icache i).node.inum).addr disk p = 0 := by
      rw [htr.node]
      exact emptied_addr _ p
    simp only [refs]
    show (if _ then (dnode disk (s.icache i).node.inum).addr disk p else 0) = 0
    rw [hempty, ite_self]
  simp only [Kernel.set_icache_self, Kernel.set_set, Kernel.set_bufs_set]
  refine h.update
    { s.bufs with disk := putNode disk { emptied (s.icache i).node with type := 0 } } hcons h.idle
    (fun hr => ?_) (fun hr _ => ?_) ?_
  · simp only at hr
    omega
  · simp only at hr
    omega
  · rintro j hj ⟨k, hki, rfl, hk, _⟩
    have hne : (s.icache k).node.inum ≠ (s.icache i).node.inum :=
      fun heq => hki (h.unique k i hk hpos heq)
    rw [dnode_putNode]
    exact (Function.update_of_ne hne _ _).trans (htr.others _ hj hne)

theorem put (h : Accounted sb s) (hplain : (FsCall.put i).Unchecked s)
    (hrun : (FsCall.put i).run dev s = .ok (x, t)) : Accounted sb t := by
  unfold FsCall.run iput at hrun
  obtain ⟨_, u, hlast, hset⟩ := bind_eq_ok hrun
  obtain rfl := setSlot_eq_ok hset
  unfold iputLast at hlast
  obtain ⟨c, v, hlook, hlast⟩ := bind_eq_ok hlast
  obtain ⟨rfl, rfl⟩ := look_eq_ok hlook
  split at hlast
  · rename_i hdrop
    split at hlast
    · cases hlast
    · exact h.drop hdrop (hplain hdrop) hlast
  · cases hlast
    exact h.set (fun hr => ⟨by simp only at hr; omega, rfl⟩)
      fun hr hv => h.synced i (by simp only at hr; omega) hv

theorem step (h : Accounted sb s) {c : FsCall} (hlegal : c.Legal sb) (hplain : c.Unchecked s)
    (hrun : c.run dev s = .ok (x, t)) : Accounted sb t := by
  cases c with
  | create type => exact h.create hrun
  | get inum =>
      unfold FsCall.run at hrun
      obtain ⟨r, u, hget, hrun⟩ := bind_eq_ok hrun
      cases hrun
      exact h.iget hlegal hget
  | link ip nlink => exact h.link hrun
  | write ip src off n => exact h.write hrun
  | put ip => exact h.put hplain hrun

end Accounted

/-- **Block accounting.**  As long as no inode with checksums in its words is truncated, the bitmap
agrees with the inodes in every state that is reached without a panic; and the truncation of an inode
without checksums frees exactly the blocks of that inode. -/
theorem block_accounting {sb : Superblock} {dev : Devsw} {s t : Kernel} {cs : List FsCall}
    {os : List Unit} (h : Accounted sb s)
    (hrun : Chain (FsCall.run dev) (fun s c => c.Legal sb ∧ c.Unchecked s) s cs os t) :
    Consistent sb t.bufs.disk ∧
      ∀ i, t.Dropping i → Plain t.bufs.disk (t.icache i).node.toDinode →
        ∃ disk, itrunc (t.icache i).node t.bufs =
            .ok (emptied (t.icache i).node, { t.bufs with disk := disk }) ∧
          Truncated sb t.bufs.disk (t.icache i).node disk := by
  have ht : Accounted sb t := hrun.invariant
    (fun s c _ t hs hc hr => hs.step hc.1 hc.2 hr) h
  refine ⟨ht.consistent, ?_⟩
  rintro i ⟨href, hv, _⟩ hplain
  have hpos : 0 < (t.icache i).ref := by omega
  obtain ⟨hsync, htype⟩ := ht.synced i hpos hv
  exact itrunc_truncated (ht.consistent.holding (ht.number i hpos) htype hsync.symm) ht.idle hplain

/-! ## Two files -/

/-- An empty block. -/
def Sector.zeros : Sector := fun _ => 0

/-- A disk of 8192 blocks: inode 1 is a checked file with block 7, whose checksum is 1, and inode 2 a
file with block 4100, which is full of ones. -/
def twoFiles : Nat → Sector
  | 1 => (Sector.zeros.setWord 0 8192).setWord 2 8
  | 2 => (Sector.zeros.setDinode 1 { (newInode tChecked 1).toDinode with
        addrs := Function.update (fun _ => 0) 0 0x01000007 }).setDinode 2
          { (newInode tFile 2).toDinode with addrs := Function.update (fun _ => 0) 0 4100 }
  | 4 => Function.update Sector.zeros 0 0xff
  | 5 => Function.update Sector.zeros 0 0x10
  | 7 => Function.update Sector.zeros 0 1
  | 4100 => fun _ => 0xff
  | _ => Sector.zeros

/-- The last references to the two files, which have no links. -/
def twoDropped : Kernel where
  bufs := { disk := twoFiles, busy := [] }
  icache := fun i =>
    if i = 0 then { ref := 1, busy := false, valid := true,
                    node := { toDinode := dnode twoFiles 1, inum := 1 } }
    else if i = 1 then { ref := 1, busy := false, valid := true,
                         node := { toDinode := dnode twoFiles 2, inum := 2 } }
    else { ref := 0, busy := false, valid := false, node := newInode 0 0 }

theorem refs_twoFiles (r : Nat × Place) : refs ⟨8192, 8⟩ twoFiles (dnode twoFiles) r =
    if r = (1, .slot 0) then 7 else if r = (2, .slot 0) then 4100 else 0 := by
  obtain ⟨i, p⟩ := r
  by_cases hi : i < 8
  · have hall : ∀ i : Fin 8, ∀ p : Place, refs ⟨8192, 8⟩ twoFiles (dnode twoFiles) (i, p) =
        if ((i : Nat), p) = (1, .slot 0) then 7 else if ((i : Nat), p) = (2, .slot 0) then 4100 else 0 := by
      decide +kernel
    exact hall ⟨i, hi⟩ p
  · have hne : ∀ j, j < 8 → (i, p) ≠ (j, Place.slot 0) := by
      rintro j hj heq
      exact hi ((Prod.mk.inj heq).1 ▸ hj)
    rw [if_neg (hne 1 (by decide)), if_neg (hne 2 (by decide))]
    exact if_neg fun hc => hi hc.1

theorem bit_zeros (bi : Nat) : Sector.zeros.bit bi = false := by
  simp [Sector.bit, Sector.zeros]

/-- A block with one byte that is not zero. -/
theorem bit_update_zeros {x : UInt8} {bi : Nat} (h : 8 ≤ bi) :
    Sector.bit (Function.update Sector.zeros 0 x) bi = false := by
  have hne : bi / 8 ≠ 0 := by omega
  rw [Sector.bit, Function.update_of_ne hne]
  exact bit_zeros bi

theorem marked_twoFiles {b : Nat} (hb : b < 8192) :
    marked ⟨8192, 8⟩ twoFiles b ↔ b < 8 ∨ b = 4100 := by
  have hsec : bblock b 8 = b / 4096 + 4 := rfl
  have hni : (Superblock.mk 8192 8).ninodes.toNat = 8 := rfl
  rw [marked, hni, hsec]
  by_cases hlo : b < 4096
  · have h0 : b / 4096 + 4 = 4 := by omega
    have hmod : b % bpb = b := Nat.mod_eq_of_lt hlo
    rw [h0, hmod]
    by_cases h8 : b < 8
    · have hall : ∀ b : Fin 8, (twoFiles 4).bit b = true := by decide +kernel
      exact iff_of_true (hall ⟨b, h8⟩) (.inl h8)
    · refine iff_of_false ?_ (by omega)
      have : (twoFiles 4).bit b = false := bit_update_zeros (by omega)
      rw [this]
      exact Bool.false_ne_true
  · have h1 : b / 4096 + 4 = 5 := by omega
    have hmod : b % bpb = b - 4096 := by
      simp only [bpb]
      omega
    rw [h1, hmod]
    by_cases h8 : b - 4096 < 8
    · have hall : ∀ j : Fin 8, (twoFiles 5).bit j = decide (j = 4) := by decide +kernel
      rw [hall ⟨b - 4096, h8⟩]
      simp only [decide_eq_true_eq, Fin.ext_iff]
      constructor
      · intro h
        right
        have : b - 4096 = 4 := h
        omega
      · intro h
        show b - 4096 = 4
        omega
    · refine iff_of_false ?_ (by omega)
      have : (twoFiles 5).bit (b - 4096) = false := bit_update_zeros (by omega)
      rw [this]
      exact Bool.false_ne_true

theorem twoFiles_consistent : Consistent ⟨8192, 8⟩ twoFiles := by
  have hmeta : (Superblock.mk 8192 8).metaBlocks = 7 := rfl
  have hcap : (Superblock.mk 8192 8).cap = 8192 := rfl
  refine ⟨by decide, by decide +kernel, ?_, ?_, ?_, ?_⟩
  · intro b hb
    rw [hcap] at hb
    rw [hmeta, marked_twoFiles hb]
    constructor
    · intro h
      by_cases h7 : b = 7
      · exact .inr ⟨(1, .slot 0), by rw [refs_twoFiles, if_pos rfl, h7]⟩
      · rcases h with h | h
        · exact .inl (by omega)
        · exact .inr ⟨(2, .slot 0), by rw [refs_twoFiles, if_neg (by simp), if_pos rfl, h]⟩
    · rintro (h | ⟨k, hk⟩)
      · exact .inl (by omega)
      · rw [refs_twoFiles] at hk
        split at hk
        · omega
        · split at hk <;> omega
  · intro k k' hk heq
    simp only [refs_twoFiles] at hk heq
    by_cases h1 : k = (1, .slot 0) <;> by_cases h2 : k' = (1, .slot 0) <;>
      by_cases h3 : k = (2, .slot 0) <;> by_cases h4 : k' = (2, .slot 0) <;> simp_all
  · intro k hk
    rw [hmeta, hcap]
    rw [refs_twoFiles] at hk ⊢
    split
    · omega
    · rename_i h1
      rw [if_neg h1] at hk
      split
      · omega
      · rename_i h2
        rw [if_neg h2] at hk
        exact absurd rfl hk
  · intro b hlo hhi hfree o _
    rw [hmeta] at hlo
    have h7 : b ≠ 7 := by
      rintro rfl
      exact hfree (1, .slot 0) (by rw [refs_twoFiles, if_pos rfl])
    have h4100 : b ≠ 4100 := by
      rintro rfl
      exact hfree (2, .slot 0) (by rw [refs_twoFiles, if_neg (by simp), if_pos rfl])
    have hzero : twoFiles b = Sector.zeros := by
      unfold twoFiles
      split <;> first | omega | rfl
    rw [hzero]
    rfl

theorem twoDropped_accounted : Accounted ⟨8192, 8⟩ twoDropped := by
  have hheld : ∀ i, 0 < (twoDropped.icache i).ref → i = 0 ∨ i = 1 := by decide
  refine ⟨twoFiles_consistent, rfl, ?_, ?_, ?_⟩
  · intro i hi
    rcases hheld i hi with rfl | rfl <;> decide
  · intro i hi _
    rcases hheld i hi with rfl | rfl
    · exact ⟨rfl, by decide +kernel⟩
    · exact ⟨rfl, by decide +kernel⟩
  · intro i j hi hj heq
    rcases hheld i hi with rfl | rfl <;> rcases hheld j hj with rfl | rfl
    · rfl
    · cases heq
    · cases heq
    · rfl

/-- A kernel without device files. -/
def noDevices : Devsw := ⟨fun _ => none, fun _ => none⟩

theorem block_accounting_put : ∃ t,
    Chain (FsCall.run noDevices) (fun s c => c.Legal ⟨8192, 8⟩ ∧ c.Unchecked s) twoDropped [.put 1] [()] t ∧
      Consistent ⟨8192, 8⟩ t.bufs.disk := by
  have hplain : (FsCall.put 1).Unchecked twoDropped := by
    intro _ htype
    exact absurd htype (by decide +kernel)
  have hok : ((FsCall.put 1).run noDevices twoDropped).isOk = true := by decide +kernel
  cases hrun : (FsCall.put 1).run noDevices twoDropped with
  | error e =>
      rw [hrun] at hok
      cases hok
  | ok r =>
      have hchain : Chain (FsCall.run noDevices) (fun s c => c.Legal ⟨8192, 8⟩ ∧ c.Unchecked s)
          twoDropped [.put 1] [()] r.2 := Chain.cons ⟨trivial, hplain⟩ hrun (Chain.nil _)
      exact ⟨r.2, hchain, (block_accounting twoDropped_accounted hchain).1⟩

/-- Block 7 is marked and nobody refers to it. -/
def blockLost (disk : Nat → Sector) : Prop :=
  marked ⟨8192, 8⟩ disk 7 ∧ ∀ i : Fin 8, ∀ p : Place, refs ⟨8192, 8⟩ disk (dnode disk) (i, p) ≠ 7

instance (disk : Nat → Sector) : Decidable (blockLost disk) := inferInstanceAs (Decidable (_ ∧ _))

theorem not_consistent_of_blockLost {disk : Nat → Sector} (h : blockLost disk) :
    ¬ Consistent ⟨8192, 8⟩ disk := by
  intro hcons
  obtain ⟨hmark, hrefs⟩ := h
  rcases (hcons.ledger.bits 7 (by decide)).mp hmark with hmeta | ⟨⟨i, p⟩, hk⟩
  · exact absurd hmeta (by decide)
  · by_cases hi : i < 8
    · exact hrefs ⟨i, hi⟩ p hk
    · have hnone : refs ⟨8192, 8⟩ disk (dnode disk) (i, p) = 0 := if_neg fun hc => hi hc.1
      rw [hnone] at hk
      cases hk

/-- The checked file is dropped: its word, checksum included, goes to `bfree`, which clears a bit in the
block of the other file and leaves block 7 marked. -/
theorem not_block_accounting :
    ¬ ∀ (sb : Superblock) (dev : Devsw) (s t : Kernel) (cs : List FsCall) (os : List Unit),
      Accounted sb s → Chain (FsCall.run dev) (fun _ c => c.Legal sb) s cs os t →
        Consistent sb t.bufs.disk := by
  intro hclaim
  have hlost : ((FsCall.put 0).run noDevices twoDropped).toOption.any
      (fun r => decide (blockLost r.2.bufs.disk)) = true := by
    decide +kernel
  cases hrun : (FsCall.put 0).run noDevices twoDropped with
  | error e =>
      rw [hrun] at hlost
      cases hlost
  | ok r =>
      rw [hrun] at hlost
      have hbad : blockLost r.2.bufs.disk := of_decide_eq_true hlost
      refine not_consistent_of_blockLost hbad ?_
      exact hclaim _ noDevices twoDropped r.2 [.put 0] [()] twoDropped_accounted
        (Chain.cons trivial hrun (Chain.nil _))
end Xv6
end LfsXv6
